import Mathlib.Data.List.TakeWhile
import TreeMiner.Submit.RustClassifier

/-!
# The difficulty hint of a message (`parseDifficultyHint`)

The first `m=` that a digit follows decides, with all the digits behind it (`FirstHint`): the
hint is their value, and there is none if the value does not fit 32 bits. The search loop of
the source, which goes from one `m=` to the next, ends, and its digit loop stops before a
64-bit value can wrap around (`hintLoop_eq`).

`FirstHint` is written over the text alone: a position, the digits there, and that no earlier
position has a digit behind `m=`. The result on the loop is an equation, also for the texts
without any hint, so nothing is left to what the loop does otherwise.
-/

namespace TreeMiner

open Cxx

/-! ## The loops of the source -/

/-- `message.find(needle, pos)`. -/
def findFrom (needle message : Bytes) (pos : Nat) : Option Nat :=
  (RustClassifier.find needle (message.drop pos)).map (pos + ·)

/-- The digit loop, in 64 bits. -/
def hintDigits64 (value : UInt64) : Bytes → Option UInt64
  | [] => some value
  | c :: s =>
    if isDigit c then
      let value := value * 10 + (c - 48).toUInt64
      if value > 0xFFFFFFFF then none else hintDigits64 value s
    else some value

/-- The search loop from `pos` on, for at most so many turns; `none` when it has not come to
an end by then. -/
def hintLoop (message : Bytes) : Nat → Option Nat → Option (Option UInt32)
  | _, none => some none
  | 0, some _ => none
  | turns + 1, some pos =>
    let next := findFrom (lit "m=") message (pos + 1)
    match message.drop (pos + 2) with
    | [] => hintLoop message turns next
    | d :: s =>
      if isDigit d then some ((hintDigits64 0 (d :: s)).map UInt64.toUInt32)
      else hintLoop message turns next

/-! ## The digits -/

section Digits

variable {acc value : Nat} {c : UInt8} {ds post s t : Bytes}

/-- Further digits do not make a number smaller. -/
theorem le_digitsVal (acc : Nat) (ds : Bytes) : acc ≤ digitsVal acc ds := by
  induction ds generalizing acc with
  | nil => exact Nat.le_refl acc
  | cons c ds ih =>
    rw [digitsVal_cons]
    exact Nat.le_trans (by omega) (ih _)

/-- A run of digits is read to its end, or given up past 32 bits. -/
theorem hintDigits_run (hds : ∀ c ∈ ds, isDigit c = true)
    (hpost : ∀ c ∈ post.head?, isDigit c = false) (hacc : acc ≤ 4294967295) :
    hintDigits acc (ds ++ post) =
      if digitsVal acc ds ≤ 4294967295 then some (digitsVal acc ds) else none := by
  induction ds generalizing acc with
  | nil =>
    rw [digitsVal_nil, if_pos hacc, List.nil_append]
    cases post with
    | nil => rfl
    | cons c post =>
      rw [hintDigits, if_neg (by rw [hpost c rfl]; decide)]
  | cons c ds ih =>
    have hrest := fun x hx => hds x (List.mem_cons_of_mem c hx)
    rw [List.cons_append, hintDigits, if_pos (hds c List.mem_cons_self), digitsVal_cons]
    by_cases hv : acc * 10 + (c.toNat - 48) ≤ 4294967295
    · dsimp only
      rw [if_neg (Nat.not_lt.mpr hv), ih hrest hv]
    · -- what follows cannot make the value smaller
      have hle := le_digitsVal (acc * 10 + (c.toNat - 48)) ds
      dsimp only
      rw [if_pos (Nat.lt_of_not_le hv), if_neg (by omega)]

/-- No step of the digit loop wraps around. -/
theorem hintDigits64_eq {value : UInt64} (hvalue : value.toNat ≤ 4294967295) :
    (hintDigits64 value s).map UInt64.toUInt32 = (hintDigits value.toNat s).map UInt32.ofNat := by
  induction s generalizing value with
  | nil =>
    unfold hintDigits64 hintDigits
    simp only [Option.map_some]
    congr 1
  | cons c s ih =>
    unfold hintDigits64 hintDigits
    by_cases hc : isDigit c = true
    · obtain ⟨hlo, hhi⟩ := isDigit_bounds hc
      have hsub : (c - 48).toNat = c.toNat - 48 := UInt8.toNat_sub_of_le _ _ (by
        rw [UInt8.le_iff_toNat_le]
        exact hlo)
      have hstep : (value * 10 + (c - 48).toUInt64).toNat = value.toNat * 10 + (c.toNat - 48) := by
        rw [UInt64.toNat_add, UInt64.toNat_mul, UInt8.toNat_toUInt64, hsub]
        show (value.toNat * 10 % 2 ^ 64 + (c.toNat - 48)) % 2 ^ 64 = _
        omega
      rw [if_pos hc, if_pos hc]
      dsimp only
      have hcmp : value * 10 + (c - 48).toUInt64 > 0xFFFFFFFF ↔
          value.toNat * 10 + (c.toNat - 48) > 0xFFFFFFFF := by
        rw [gt_iff_lt, UInt64.lt_iff_toNat_lt, hstep]
        rfl
      -- the check comes before the next digit, so ten digits are the most the value can hold
      by_cases hbig : value.toNat * 10 + (c.toNat - 48) > 0xFFFFFFFF
      · rw [if_pos (hcmp.mpr hbig), if_pos hbig]
        rfl
      · rw [if_neg (fun h => hbig (hcmp.mp h)), if_neg hbig, ih (by rw [hstep]; omega), hstep]
    · rw [if_neg hc, if_neg hc]
      simp only [Option.map_some]
      congr 1

/-- Up to where it ends, a run is the digits at the front. -/
theorem takeWhile_run (hds : ∀ c ∈ ds, isDigit c = true)
    (hpost : ∀ c ∈ post.head?, isDigit c = false) : (ds ++ post).takeWhile isDigit = ds := by
  rw [List.takeWhile_append_of_pos hds]
  cases post with
  | nil => exact List.append_nil ds
  | cons c post =>
    rw [List.takeWhile_cons_of_neg (by rw [hpost c rfl]; decide), List.append_nil]

end Digits

/-! ## The first hint -/

/-- `m=` and a digit stand behind `front`. -/
def HintAfter (message front : Bytes) : Prop :=
  ∃ d rest, message = front ++ (lit "m=" ++ d :: rest) ∧ isDigit d = true

/-- The maximal run of digits behind the first `m=` that a digit follows. -/
structure FirstHint (message ds : Bytes) : Prop where
  digits : ∀ c ∈ ds, isDigit c = true
  nonempty : ds ≠ []
  first : ∃ front post, message = front ++ (lit "m=" ++ (ds ++ post)) ∧
    (∀ c ∈ post.head?, isDigit c = false) ∧
    ∀ front', HintAfter message front' → front.length ≤ front'.length

section First

variable {message front ds ds' s : Bytes} {c d : UInt8}

/-- A hint stands behind some beginning of the message. -/
theorem FirstHint.after (h : FirstHint message ds) : ∃ front, HintAfter message front := by
  obtain ⟨front, post, hm, -, -⟩ := h.first
  cases ds with
  | nil => exact absurd rfl h.nonempty
  | cons d ds => exact ⟨front, d, ds ++ post, hm, h.digits d List.mem_cons_self⟩

/-- The first hint of a message is one text of digits only. -/
theorem FirstHint.unique (h : FirstHint message ds) (h' : FirstHint message ds') : ds = ds' := by
  have hafter : ∀ {ds front post : Bytes}, FirstHint message ds →
      message = front ++ (lit "m=" ++ (ds ++ post)) → HintAfter message front := by
    intro ds front post h hm
    cases ds with
    | nil => exact absurd rfl h.nonempty
    | cons d ds => exact ⟨d, ds ++ post, hm, h.digits d List.mem_cons_self⟩
  obtain ⟨front, post, hm, hpost, hfirst⟩ := h.first
  obtain ⟨front', post', hm', hpost', hfirst'⟩ := h'.first
  have hlen : front.length = front'.length :=
    Nat.le_antisymm (hfirst front' (hafter h' hm')) (hfirst' front (hafter h hm))
  have hrest := (List.append_inj (hm.symm.trans hm') hlen).2
  have hruns := List.append_cancel_left hrest
  rw [← takeWhile_run h.digits hpost, hruns, takeWhile_run h'.digits hpost']

/-- The value of the digits, if it fits 32 bits. -/
def capped (ds : Bytes) : Option UInt32 :=
  if digitsVal 0 ds ≤ 4294967295 then some (UInt32.ofNat (digitsVal 0 ds)) else none

/-- A hint at the front is `m=` and a digit. -/
theorem hintAfter_nil : HintAfter message [] ↔
    ∃ d rest, message = ch 'm' :: ch '=' :: d :: rest ∧ isDigit d = true := by
  unfold HintAfter
  rw [RustClassifier.lit_hint]
  exact Iff.rfl

/-- A hint further on is one of the rest of the message. -/
theorem hintAfter_cons {x : UInt8} :
    HintAfter (c :: s) (x :: front) ↔ x = c ∧ HintAfter s front := by
  constructor
  · rintro ⟨d, rest, hm, hd⟩
    obtain ⟨rfl, hs⟩ := List.cons.inj hm
    exact ⟨rfl, d, rest, hs, hd⟩
  · rintro ⟨rfl, d, rest, rfl, hd⟩
    exact ⟨d, rest, rfl, hd⟩

/-- At a hint. -/
theorem parseDifficultyHint_here (hd : isDigit d = true) :
    parseDifficultyHint (ch 'm' :: ch '=' :: d :: s) =
      (hintDigits 0 (d :: s)).map UInt32.ofNat := by
  have hcond : (ch '=' == ch '=' && isDigit d) = true := by
    rw [hd]
    decide
  show (if (ch '=' == ch '=' && isDigit d) then _ else _) = _
  rw [if_pos hcond]

/-- Not at a hint. -/
theorem parseDifficultyHint_skip (h : ¬ HintAfter (c :: s) []) :
    parseDifficultyHint (c :: s) = parseDifficultyHint s := by
  rw [hintAfter_nil] at h
  by_cases hm : ∃ e d t, (c == ch 'm') = true ∧ s = e :: d :: t
  · obtain ⟨e, d, t, hc, rfl⟩ := hm
    have he : ¬ (e == ch '=' && isDigit d) = true := by
      intro he
      rw [Bool.and_eq_true, beq_iff_eq] at he
      exact h ⟨d, t, by rw [beq_iff_eq.mp hc, he.1], he.2⟩
    rw [beq_iff_eq] at hc
    rw [hc]
    exact if_neg he
  · rw [parseDifficultyHint]
    intro e d t hc hs
    exact hm ⟨e, d, t, hc, hs⟩

/-- What the search finds: the first hint, or none. -/
theorem parseDifficultyHint_cases (message : Bytes) :
    (∃ ds, FirstHint message ds ∧ parseDifficultyHint message = capped ds) ∨
      ((∀ front, ¬ HintAfter message front) ∧ parseDifficultyHint message = none) := by
  induction message with
  | nil =>
    refine Or.inr ⟨?_, rfl⟩
    rintro front ⟨d, rest, hm, -⟩
    have hlen := congrArg List.length hm
    simp at hlen
  | cons c s ih =>
    -- either the hint is here, or it is the first one of what follows
    by_cases hhere : HintAfter (c :: s) []
    · obtain ⟨d, t, hm, hd⟩ := hintAfter_nil.mp hhere
      have hrun : d :: t = (d :: t).takeWhile isDigit ++ (d :: t).dropWhile isDigit :=
        List.takeWhile_append_dropWhile.symm
      have hpost : ∀ c ∈ ((d :: t).dropWhile isDigit).head?, isDigit c = false := by
        intro c hc
        have hnot := List.head?_dropWhile_not isDigit (d :: t)
        rw [Option.mem_def.mp hc] at hnot
        simpa using hnot
      have hdigits : ∀ c ∈ (d :: t).takeWhile isDigit, isDigit c = true := fun c hc =>
        List.mem_takeWhile_imp hc
      have hfirst : FirstHint (c :: s) ((d :: t).takeWhile isDigit) := by
        refine ⟨hdigits, ?_, [], (d :: t).dropWhile isDigit, ?_, hpost,
          fun _ _ => Nat.zero_le _⟩
        · rw [List.takeWhile_cons_of_pos hd]
          exact List.cons_ne_nil _ _
        · rw [← hrun, RustClassifier.lit_hint]
          exact hm
      refine Or.inl ⟨_, hfirst, ?_⟩
      rw [hm, parseDifficultyHint_here hd, hrun, hintDigits_run hdigits hpost (by decide), ← hrun]
      unfold capped
      split
      · rfl
      · rfl
    · rw [parseDifficultyHint_skip hhere]
      obtain ⟨ds, hfirst, hval⟩ | ⟨hnone, hval⟩ := ih
      · refine Or.inl ⟨ds, ?_, hval⟩
        obtain ⟨front, post, rfl, hpost, hleast⟩ := hfirst.first
        refine ⟨hfirst.digits, hfirst.nonempty, c :: front, post, rfl, hpost, ?_⟩
        intro front' hafter
        cases front' with
        | nil => exact absurd hafter hhere
        | cons x front' => exact Nat.succ_le_succ (hleast front' (hintAfter_cons.mp hafter).2)
      · refine Or.inr ⟨fun front hafter => ?_, hval⟩
        cases front with
        | nil => exact hhere hafter
        | cons x front => exact hnone front (hintAfter_cons.mp hafter).2

end First

/-! ## The search loop -/

section Search

variable {message : Bytes} {pos : Nat}

/-- With as many turns as there are bytes left, the loop comes to an end, with the hint of what
is left. -/
theorem hintLoop_eq : ∀ {turns pos : Nat}, message.length ≤ pos + turns →
    hintLoop message turns (findFrom (lit "m=") message pos) =
      some (parseDifficultyHint (message.drop pos)) := by
  intro turns
  -- the turns bound the positions that are left to look at
  induction turns with
  | zero =>
    intro pos h
    have hnil : message.drop pos = [] := List.drop_eq_nil_of_le h
    have hfind : findFrom (lit "m=") message pos = none := by
      unfold findFrom
      rw [hnil, RustClassifier.lit_hint]
      rfl
    rw [hfind, hnil]
    rfl
  | succ turns ih =>
    intro pos h
    rw [RustClassifier.parseDifficultyHint_find (message.drop pos)]
    cases hn : RustClassifier.find (lit "m=") (message.drop pos) with
    | none =>
      have hfind : findFrom (lit "m=") message pos = none := by
        unfold findFrom
        rw [hn]
        rfl
      rw [hfind]
      rfl
    | some n =>
      have hfind : findFrom (lit "m=") message pos = some (pos + n) := by
        unfold findFrom
        rw [hn]
        rfl
      -- where no digit follows, the search goes on one character further
      have hnext := @ih (pos + n + 1) (by omega)
      rw [hfind]
      unfold hintLoop
      dsimp only
      rw [List.drop_drop, List.drop_drop, ← Nat.add_assoc, ← Nat.add_assoc]
      cases message.drop (pos + n + 2) with
      | nil => exact hnext
      | cons d s =>
        dsimp only
        by_cases hd : isDigit d = true
        · rw [if_pos hd, if_pos hd, hintDigits64_eq (by decide)]
          rfl
        · rw [if_neg hd, if_neg hd]
          exact hnext

end Search

/-- The hint of a message is the value of the first run of digits behind an `m=`, if it fits 32
bits, and otherwise there is none; and the loops of the source come to an end with it. -/
theorem parseDifficultyHint_iff (message : Bytes) :
    (∀ v : UInt32, parseDifficultyHint message = some v ↔
      ∃ ds, FirstHint message ds ∧ digitsVal 0 ds = v.toNat) ∧
    ((∀ front, ¬ HintAfter message front) → parseDifficultyHint message = none) ∧
    (∀ ds, FirstHint message ds → 4294967295 < digitsVal 0 ds →
      parseDifficultyHint message = none) ∧
    ∀ turns, message.length ≤ turns →
      hintLoop message turns (findFrom (lit "m=") message 0) =
        some (parseDifficultyHint message) := by
  -- the first hint is unique, so the two descriptions of it agree
  have hvalue : ∀ ds, FirstHint message ds → parseDifficultyHint message = capped ds := by
    intro ds hds
    obtain ⟨ds', hds', hval⟩ | ⟨hnone, -⟩ := parseDifficultyHint_cases message
    · rw [hds.unique hds']
      exact hval
    · obtain ⟨front, hafter⟩ := hds.after
      exact absurd hafter (hnone front)
  refine ⟨fun v => ⟨fun h => ?_, ?_⟩, fun hnone => ?_, fun ds hds hbig => ?_,
    fun turns hturns => ?_⟩
  · obtain ⟨ds, hds, hval⟩ | ⟨-, hval⟩ := parseDifficultyHint_cases message
    · rw [hval] at h
      unfold capped at h
      split at h
      next hle =>
        cases h
        exact ⟨ds, hds, (UInt32.toNat_ofNat_of_lt' (Nat.lt_succ_of_le hle)).symm⟩
      next => cases h
    · rw [hval] at h
      cases h
  · rintro ⟨ds, hds, hv⟩
    have hle : digitsVal 0 ds ≤ 4294967295 := by
      rw [hv]
      exact Nat.le_of_lt_succ (UInt32.toNat_lt v)
    rw [hvalue ds hds]
    unfold capped
    rw [if_pos hle, hv, UInt32.ofNat_toNat]
  · obtain ⟨ds, hds, -⟩ | ⟨-, hval⟩ := parseDifficultyHint_cases message
    · obtain ⟨front, hafter⟩ := hds.after
      exact absurd hafter (hnone front)
    · exact hval
  · rw [hvalue ds hds]
    unfold capped
    exact if_neg (Nat.not_le.mpr hbig)
  · rw [hintLoop_eq (by rw [Nat.zero_add]; exact hturns), List.drop_zero]

/-- An `m=` without a digit is passed over. -/
theorem parseDifficultyHint_iff_second : ∃ ds, FirstHint (lit "m=x, m=42069,") ds ∧
    digitsVal 0 ds = 42069 ∧
    hintLoop (lit "m=x, m=42069,") 13 (findFrom (lit "m=") (lit "m=x, m=42069,") 0) =
      some (some 42069) := by
  have hparse : parseDifficultyHint (lit "m=x, m=42069,") = some 42069 := by decide
  obtain ⟨hiff, -, -, hloop⟩ := parseDifficultyHint_iff (lit "m=x, m=42069,")
  obtain ⟨ds, hds, hval⟩ := (hiff 42069).mp hparse
  refine ⟨ds, hds, hval, ?_⟩
  rw [hloop 13 (by decide), hparse]

end TreeMiner
