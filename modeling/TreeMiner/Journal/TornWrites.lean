import Mathlib.Data.List.Induction
import TreeMiner.Journal.SinkRoundTrip

/-!
# Torn writes

A call of `append` that dies or runs out of disk leaves a piece of its line
without a newline. The piece alone is harmless: the import counts it as malformed
or, when only the newline is missing, reads it. But the next call writes on behind
it, on the same physical line, and `append` never looks at the end of the file.
So the records survive exactly as far as no call starts on such an end
(`torn_writes_sound`); where one does, its record is lost with the piece
(`torn_write_hides`).
-/

namespace TreeMiner.FallbackSink

open Cxx

/-! ## The write path -/

/-- What one `write(2)` answers. -/
inductive WriteAnswer where
  | wrote (n : Nat)
  | eintr
  | failed
  deriving DecidableEq

/-- The loop of `writeAll`: the bytes that reached the file, and the result; none
when the process died with the answers used up. -/
def writeAll : List WriteAnswer → Bytes → Bytes × Option Bool
  | _, [] => ([], some true)
  | [], _ :: _ => ([], none)
  | .eintr :: ws, data => writeAll ws data
  | .failed :: _, _ => ([], some false)
  | .wrote 0 :: _, _ => ([], some false)
  | .wrote (n + 1) :: ws, data =>
    let r := writeAll ws (data.drop (n + 1))
    (data.take (n + 1) ++ r.1, r.2)

/-- What the system answers one call of `append`. -/
structure Answers where
  opened : Bool
  writes : List WriteAnswer
  synced : Bool
  closed : Bool
  deriving DecidableEq

/-- `FallbackSink::append`: the file afterwards and what was returned, if it
returned. -/
def append (libc : Libc) (p : FoundPayload) (ans : Answers) (file : Bytes) : Bytes × Option Bool :=
  if ans.opened then
    let r := writeAll ans.writes (serialize libc p)
    (file ++ r.1, r.2.map fun ok => ok && ans.synced && ans.closed)
  else (file, some false)

/-- What is written is a piece of the data; success means all of it. -/
theorem writeAll_spec :
    ∀ (ws : List WriteAnswer) (data : Bytes), (writeAll ws data).1 <+: data ∧
    ((writeAll ws data).2 = some true → (writeAll ws data).1 = data)
  | ws, [] => by
    rw [writeAll]
    exact ⟨List.prefix_refl _, fun _ => rfl⟩
  | [], _ :: _ => ⟨List.nil_prefix, fun h => by cases h⟩
  | .eintr :: ws, c :: data => by
    rw [writeAll.eq_def]
    exact writeAll_spec ws (c :: data)
  | .failed :: _, _ :: _ => ⟨List.nil_prefix, fun h => by cases h⟩
  | .wrote 0 :: _, _ :: _ => ⟨List.nil_prefix, fun h => by cases h⟩
  | .wrote (n + 1) :: ws, c :: data => by
    rw [writeAll.eq_def]
    dsimp only
    obtain ⟨hpre, hall⟩ := writeAll_spec ws ((c :: data).drop (n + 1))
    refine ⟨?_, fun h => ?_⟩
    · conv_rhs => rw [← List.take_append_drop (n + 1) (c :: data)]
      exact (List.prefix_append_right_inj _).mpr hpre
    · rw [hall h, List.take_append_drop]

/-! ## Runs -/

/-- A sequence of calls, with what the system answered each. -/
abbrev Calls := List (FoundPayload × Answers)

/-- The file after the calls, starting from none. -/
def fileAfter (libc : Libc) (calls : Calls) : Bytes :=
  calls.foldl (fun file c => (append libc c.1 c.2 file).1) []

/-- The call returned true. -/
def Returned (libc : Libc) (c : FoundPayload × Answers) : Prop :=
  (append libc c.1 c.2 []).2 = some true

/-- The file is empty or ends in a newline. -/
def EndsClean (file : Bytes) : Prop := file = [] ∨ file.getLast? = some nl

/-- What `append` adds does not depend on the file. -/
theorem append_file (libc : Libc) (p : FoundPayload) (ans : Answers) (file : Bytes) :
    (append libc p ans file).1 = file ++ (append libc p ans []).1 := by
  unfold append
  split
  · simp
  · simp

/-- The file after one call more is what this call has appended to. -/
theorem fileAfter_concat (libc : Libc) (calls : Calls) (c : FoundPayload × Answers) :
    fileAfter libc (calls ++ [c]) = fileAfter libc calls ++ (append libc c.1 c.2 []).1 := by
  unfold fileAfter
  rw [List.foldl_append, List.foldl_cons, List.foldl_nil, append_file]

/-- What one call adds is a piece of its line, all of it when it returned true. -/
theorem append_spec (libc : Libc) (c : FoundPayload × Answers) :
    (append libc c.1 c.2 []).1 <+: serialize libc c.1 ∧
      (Returned libc c → (append libc c.1 c.2 []).1 = serialize libc c.1) := by
  unfold Returned append
  generalize serialize libc c.1 = line
  obtain ⟨hpre, hall⟩ := writeAll_spec c.2.writes line
  split
  · dsimp only
    rw [List.nil_append]
    refine ⟨hpre, fun h => ?_⟩
    obtain ⟨ok, hok, htrue⟩ := Option.map_eq_some_iff.mp h
    rw [Bool.and_eq_true, Bool.and_eq_true] at htrue
    exact hall (hok.trans (congrArg some htrue.1.1))
  · exact ⟨List.nil_prefix, fun h => by cases h⟩

/-- A file as it stands between calls: whole lines of payloads that were passed to
`append`, those whose call returned true among them, and at the end perhaps a piece
of one more line. -/
structure Written (libc : Libc) (calls : Calls) (ps : List FoundPayload) (q : Bytes) : Prop where
  file : fileAfter libc calls = ps.flatMap (serialize libc) ++ q
  passed : ∀ p ∈ ps, ∃ c ∈ calls, c.1 = p
  kept : ∀ c ∈ calls, Returned libc c → c.1 ∈ ps
  piece : q = [] ∨ ∃ c ∈ calls, q <+: body libc c.1

section Runs

variable {libc : Libc} (hlibc : libc.Standard)

include hlibc

/-- A piece of a line is not an end the next call may start on. -/
theorem Written.piece_nil {calls : Calls} {ps : List FoundPayload} {q : Bytes}
    (hw : Written libc calls ps q) (hclean : EndsClean (fileAfter libc calls)) : q = [] := by
  by_contra hne
  rcases hw.piece with hnil | ⟨c, -, hq⟩
  · exact hne hnil
  · have hnl : nl ∉ q := fun h => (body_no_break hlibc c.1).1 (hq.subset h)
    rcases hclean with hempty | hlast
    · rw [hw.file] at hempty
      exact hne (List.append_eq_nil_iff.mp hempty).2
    · rw [hw.file, List.getLast?_append_of_ne_nil _ hne] at hlast
      exact hnl (List.mem_of_getLast? hlast)

omit hlibc in
/-- One more call on a clean end. -/
theorem Written.concat {calls : Calls} {ps : List FoundPayload} (hw : Written libc calls ps [])
    (c : FoundPayload × Answers) : ∃ ps' q', Written libc (calls ++ [c]) ps' q' := by
  obtain ⟨hpre, hall⟩ := append_spec libc c
  have hfile := fileAfter_concat libc calls c
  rw [hw.file, List.append_nil] at hfile
  have hold : ∀ {P : FoundPayload × Answers → Prop}, (∃ x ∈ calls, P x) →
    ∃ x ∈ calls ++ [c], P x := by
    intro P hx
    obtain ⟨x, hmem, hP⟩ := hx
    exact ⟨x, List.mem_append_left _ hmem, hP⟩
  have hself : c ∈ calls ++ [c] := List.mem_append_right _ (List.mem_singleton.mpr rfl)
  rw [serialize_eq] at hpre hall
  -- the call has written all of its line, or a piece of it
  have hcases : (append libc c.1 c.2 []).1 = body libc c.1 ++ [nl] ∨
      ((append libc c.1 c.2 []).1 <+: body libc c.1) := by
    rcases prefix_append_cases hpre with ⟨n, -, hq⟩ | ⟨q', hq, hq'⟩
    · exact Or.inr (hq ▸ List.take_prefix _ _)
    · rcases prefix_singleton hq' with hnil | hnl
      · rw [hnil, List.append_nil] at hq
        exact Or.inr (hq ▸ List.prefix_refl _)
      · exact Or.inl (by rw [hq, hnl])
  rcases hcases with hwhole | hpiece
  · refine ⟨ps ++ [c.1], [], ⟨?_, ?_, ?_, Or.inl rfl⟩⟩
    · rw [hfile, hwhole, List.flatMap_append, List.append_nil, List.flatMap_singleton,
        serialize_eq]
    · intro p hp
      rcases List.mem_append.mp hp with hp | hp
      · exact hold (hw.passed p hp)
      · exact ⟨c, hself, (List.mem_singleton.mp hp).symm⟩
    · intro x hx hret
      rcases List.mem_append.mp hx with hx | hx
      · exact List.mem_append_left _ (hw.kept x hx hret)
      · rw [List.mem_singleton.mp hx]
        exact List.mem_append_right _ (List.mem_singleton.mpr rfl)
  · refine ⟨ps, (append libc c.1 c.2 []).1, ⟨hfile, fun p hp => hold (hw.passed p hp), ?_,
      Or.inr ⟨c, hself, hpiece⟩⟩⟩
    intro x hx hret
    rcases List.mem_append.mp hx with hx | hx
    · exact hw.kept x hx hret
    · -- a call that returned true has written its newline
      rw [List.mem_singleton.mp hx] at hret
      have hlen := hpiece.length_le
      rw [hall hret, List.length_append, List.length_singleton] at hlen
      omega

/-- In every run whose calls all start on a clean end. -/
theorem written (calls : Calls)
    (hclean : ∀ pre c post, calls = pre ++ c :: post → EndsClean (fileAfter libc pre)) :
    ∃ ps q, Written libc calls ps q := by
  induction calls using List.reverseRecOn with
  | nil => exact ⟨[], [], ⟨rfl, by simp, by simp, Or.inl rfl⟩⟩
  | append_singleton calls c ih =>
    obtain ⟨ps, q, hw⟩ := ih fun pre x post h => hclean pre x (post ++ [c]) (by rw [h]; simp)
    have hq := hw.piece_nil hlibc (hclean calls c [] rfl)
    subst hq
    exact hw.concat c

/-- What the import makes of a piece of a line: nothing, or the payload when only
the newline is missing. -/
theorem importLoop_piece {p : FoundPayload} (hp : p.hashes_per_second.isFinite = true) {q : Bytes}
    (hq : q <+: body libc p) (j : List FoundPayload) (stats : ImportStats) :
    (importLoop libc accept (if q = [] then [] else [q]) j stats).1 = j ∨
      (importLoop libc accept (if q = [] then [] else [q]) j stats).1 = j ++ [p] := by
  by_cases hne : q = []
  · rw [if_pos hne]
    exact Or.inl rfl
  · obtain ⟨hstrip, hblank⟩ := line_kept hlibc p hq hne
    rw [if_neg hne, importLoop, hstrip, hblank]
    rw [show body libc p = (ch '{' :: joined (members libc p)) ++ [ch '}'] from rfl] at hq
    have hshort : q <+: ch '{' :: joined (members libc p) → parseLine libc q = none := by
      intro h
      unfold parseLine
      rw [parseFlatObject_cut hlibc p h]
      rfl
    -- cut before the closing brace the line is no object; with it only the newline is missing
    rcases prefix_append_cases hq with ⟨n, -, hn⟩ | ⟨q', hq', hbrace⟩
    · left
      rw [hshort (hn ▸ List.take_prefix _ _)]
      rfl
    · rcases prefix_singleton hbrace with hnil | hone
      · left
        rw [hnil, List.append_nil] at hq'
        rw [hshort (hq' ▸ List.prefix_refl _)]
        rfl
      · right
        rw [show q = body libc p from by rw [hq', hone]; rfl, parseLine_body hlibc hp]
        rfl

/-- In every run of `append` calls, whatever the system answers each, in which the
rates are finite and every call starts on a file that is empty or ends in a
newline: the import hands the journal only payloads that were passed to `append`,
and every payload whose `append` returned true. -/
theorem torn_writes_sound (calls : Calls)
    (hfin : ∀ c ∈ calls, c.1.hashes_per_second.isFinite = true)
    (hclean : ∀ pre c post, calls = pre ++ c :: post → EndsClean (fileAfter libc pre)) :
    (∀ p ∈ handed libc (fileAfter libc calls), ∃ c ∈ calls, c.1 = p) ∧
      ∀ c ∈ calls, Returned libc c → c.1 ∈ handed libc (fileAfter libc calls) := by
  obtain ⟨ps, q, hw⟩ := written hlibc calls hclean
  have hps : ∀ p ∈ ps, p.hashes_per_second.isFinite = true := by
    intro p hp
    obtain ⟨c, hc, rfl⟩ := hw.passed p hp
    exact hfin c hc
  have hnl : nl ∉ q := by
    rcases hw.piece with hnil | ⟨c, -, hq⟩
    · rw [hnil]
      exact List.not_mem_nil
    · exact fun h => (body_no_break hlibc c.1).1 (hq.subset h)
  have hhanded : handed libc (fileAfter libc calls) = (importLoop libc accept
      (if q = [] then [] else [q]) ps ⟨0 + ps.length, 0, true⟩).1 := by
    show (importLoop libc accept (lines (fileAfter libc calls)) [] ⟨0, 0, true⟩).1 = _
    rw [hw.file, lines_serialized hlibc ps hnl, importLoop_bodies hlibc ps [] _ hps,
      List.nil_append]
  -- what is handed over: the whole lines, and perhaps the find whose line lacks its end
  have hall : handed libc (fileAfter libc calls) = ps ∨
      ∃ c ∈ calls, handed libc (fileAfter libc calls) = ps ++ [c.1] := by
    rw [hhanded]
    rcases hw.piece with hnil | ⟨c, hc, hq⟩
    · rw [if_pos hnil]
      exact Or.inl rfl
    · rcases importLoop_piece hlibc (hfin c hc) hq ps ⟨0 + ps.length, 0, true⟩ with h | h
      · exact Or.inl h
      · exact Or.inr ⟨c, hc, h⟩
  refine ⟨fun p hp => ?_, fun c hc hret => ?_⟩
  · rcases hall with h | ⟨c, hc, h⟩
    · exact hw.passed p (h ▸ hp)
    · rw [h] at hp
      rcases List.mem_append.mp hp with hp | hp
      · exact hw.passed p hp
      · exact ⟨c, hc, (List.mem_singleton.mp hp).symm⟩
  · rcases hall with h | ⟨x, -, h⟩
    · exact h ▸ hw.kept c hc hret
    · rw [h]
      exact List.mem_append_left _ (hw.kept c hc hret)

end Runs

/-- A payload of short fields. -/
def shortPayload : FoundPayload :=
  ⟨lit "k1", lit "h", lit "a", .XEN11, 8, lit "w", 5, ⟨0x3FF0000000000000⟩, lit "t"⟩

/-- A whole line, then a line torn after nine bytes. -/
def sampleCalls : Calls :=
  [(samplePayload, ⟨true, [.eintr, .wrote 7, .wrote 500], true, true⟩),
    (shortPayload, ⟨true, [.wrote 9, .failed], true, true⟩)]

/-- A torn write at the end of the file, behind a whole one. -/
theorem torn_writes_sound_sample :
    (∀ p ∈ handed sampleLibc (fileAfter sampleLibc sampleCalls), ∃ c ∈ sampleCalls,
      c.1 = p) ∧
      samplePayload ∈ handed sampleLibc (fileAfter sampleLibc sampleCalls) := by
  have hret : Returned sampleLibc
    (samplePayload, ⟨true, [.eintr, .wrote 7, .wrote 500], true, true⟩) := by
    unfold Returned
    decide
  have hfile : (fileAfter sampleLibc [sampleCalls[0]]).getLast? = some nl := by decide
  have hrun := torn_writes_sound sampleLibc_standard sampleCalls (by decide) (by
    intro pre c post h
    match pre, h with
    | [], _ => exact Or.inl rfl
    | [x], h =>
      simp only [sampleCalls, List.cons_append, List.nil_append, List.cons.injEq] at h
      rw [← h.1]
      exact Or.inr hfile
    | x :: y :: pre, h =>
      have := congrArg List.length h
      simp [sampleCalls] at this)
  exact ⟨hrun.1, hrun.2 _ List.mem_cons_self hret⟩

/-- The first call tears its line after nine bytes, the second writes all of its
own and returns true; the record is not imported. -/
theorem torn_write_hides :
    let calls : Calls := [(samplePayload, ⟨true, [.wrote 9, .failed], true, true⟩),
      (shortPayload, ⟨true, [.wrote 500], true, true⟩)]
    (append sampleLibc shortPayload ⟨true, [.wrote 500], true, true⟩ []).2 = some true ∧
      handed sampleLibc (fileAfter sampleLibc calls) = [] := by
  decide +kernel

end TreeMiner.FallbackSink
