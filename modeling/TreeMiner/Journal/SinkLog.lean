import TreeMiner.Journal.ImportRetry
import TreeMiner.Journal.TornWrites

/-!
# The sink as a log

Between writes the sink holds whole lines, and behind them perhaps a piece of one more
(`Laid`). As long as each write goes on where its own line stands, on a whole line, what can
be read back only grows.

The piece at the end is a prefix of a line, without a line break in it, so it is read as at
most one record that is no payload, or as its own payload when only the break is missing.
From `Laid` follow both directions: what is laid down whole is among the records, and every
record was tried.
-/

namespace TreeMiner.FallbackSink

open Cxx

/-! ## The end of a file -/

/-- A file is cut at its last newline in one way. -/
theorem cut_at_last_nl {a b q d : Bytes} (ha : EndsClean a) (hb : EndsClean b) (hq : nl ∉ q)
    (hd : nl ∉ d) (h : a ++ q = b ++ d) : a = b ∧ q = d := by
  -- what one side has more is the end of a clean file and holds no newline
  have hmore : ∀ {a b e q d : Bytes}, EndsClean a → nl ∉ d → a = b ++ e → d = e ++ q →
    e = [] := by
    intro a b e q d ha hd hae hde
    by_contra hne
    have hnl : nl ∉ e := fun hmem => hd (hde ▸ List.mem_append_left _ hmem)
    rcases ha with hnil | hlast
    · rw [hae] at hnil
      exact hne (List.append_eq_nil_iff.mp hnil).2
    · rw [hae, List.getLast?_append_of_ne_nil _ hne] at hlast
      exact hnl (List.mem_of_getLast? hlast)
  rcases List.append_eq_append_iff.mp h with ⟨e, hbe, hqe⟩ | ⟨e, hae, hde⟩
  · have he := hmore hb hq hbe hqe
    subst he
    exact ⟨by rw [hbe, List.append_nil], hqe⟩
  · have he := hmore ha hd hae hde
    subst he
    exact ⟨by rw [hae, List.append_nil], hde.symm⟩

/-- What was written of a line is a piece without the newline, or all. -/
theorem prefix_line {q line : Bytes} (h : q <+: line ++ [nl]) :
    q <+: line ∨ q = line ++ [nl] := by
  rcases prefix_append_cases h with ⟨k, -, hk⟩ | ⟨q', hq', hone⟩
  · exact Or.inl (hk ▸ List.take_prefix _ _)
  · rcases prefix_singleton hone with hnil | hall
    · rw [hnil, List.append_nil] at hq'
      exact Or.inl (hq' ▸ List.prefix_refl _)
    · exact Or.inr (by rw [hq', hall])

section Log

variable {libc : Libc} (hlibc : libc.Standard)

include hlibc

/-- No piece of a line has a line break in it. -/
theorem nl_not_mem_piece {p : FoundPayload} {q : Bytes} (hq : q <+: body libc p) : nl ∉ q :=
  fun h => (body_no_break hlibc p).1 (hq.subset h)

omit hlibc in
/-- Whole lines end clean. -/
theorem endsClean_lines (ps : List FoundPayload) : EndsClean (ps.flatMap (serialize libc)) := by
  induction ps using List.reverseRecOn with
  | nil => exact Or.inl rfl
  | append_singleton ps p =>
    refine Or.inr ?_
    rw [List.flatMap_append, List.flatMap_singleton, serialize_eq, ← List.append_assoc,
      List.getLast?_append_of_ne_nil _ (List.cons_ne_nil _ _)]
    rfl

/-! ## Reading back -/

/-- The body of a line is the record it was written from, for a finite rate. -/
theorem lineRecord_body {p : FoundPayload} (hp : p.hashes_per_second.isFinite = true) :
    lineRecord libc (body libc p) = some p := by
  obtain ⟨hstrip, hblank⟩ := line_kept hlibc p (List.prefix_refl _) (List.cons_ne_nil _ _)
  unfold lineRecord
  rw [hstrip, hblank, parseLine_body hlibc hp]
  rfl

/-- A piece of a line is read as nothing unless only the newline is missing. -/
theorem lineRecord_piece {p : FoundPayload} {q : Bytes} (hq : q <+: body libc p) (hne : q ≠ []) :
    lineRecord libc q = none ∨ q = body libc p := by
  obtain ⟨hstrip, hblank⟩ := line_kept hlibc p hq hne
  rw [show body libc p = (ch '{' :: joined (members libc p)) ++ [ch '}'] from rfl] at hq ⊢
  have hshort : q <+: ch '{' :: joined (members libc p) → lineRecord libc q = none := by
    intro h
    unfold lineRecord parseLine
    rw [hstrip, hblank, parseFlatObject_cut hlibc p h]
    rfl
  rcases prefix_append_cases hq with ⟨n, -, hn⟩ | ⟨q', hq', hbrace⟩
  · exact Or.inl (hshort (hn ▸ List.take_prefix _ _))
  · rcases prefix_singleton hbrace with hnil | hone
    · rw [hnil, List.append_nil] at hq'
      exact Or.inl (hshort (hq' ▸ List.prefix_refl _))
    · exact Or.inr (by rw [hq', hone])

/-- Whole lines of payloads out of `tried`, and at the end perhaps a piece of one more. -/
structure Laid (libc : Libc) (tried : FoundPayload → Prop) (ps : List FoundPayload) (q : Bytes)
    (content : Bytes) : Prop where
  content_eq : content = ps.flatMap (serialize libc) ++ q
  passed : ∀ p ∈ ps, tried p
  piece : q = [] ∨ ∃ p, tried p ∧ q <+: body libc p

omit hlibc in
/-- More payloads may have been tried. -/
theorem Laid.mono {tried tried' : FoundPayload → Prop} {ps : List FoundPayload}
    {q content : Bytes} (h : Laid libc tried ps q content) (hsub : ∀ p, tried p → tried' p) :
    Laid libc tried' ps q content := by
  refine ⟨h.content_eq, fun p hp => hsub p (h.passed p hp), ?_⟩
  rcases h.piece with hnil | ⟨p, hp, hq⟩
  · exact Or.inl hnil
  · exact Or.inr ⟨p, hsub p hp, hq⟩

section

variable {tried : FoundPayload → Prop} {ps : List FoundPayload} {q content : Bytes}
  (hfin : ∀ p, tried p → p.hashes_per_second.isFinite = true) (h : Laid libc tried ps q content)

include hfin h

/-- The records of such a file: the payloads of the lines, and the last one when only its newline
is missing. -/
theorem Laid.records_eq : records libc content = ps ∨
    ∃ p, tried p ∧ q = body libc p ∧ records libc content = ps ++ [p] := by
  have hnl : nl ∉ q := by
    rcases h.piece with hnil | ⟨p, -, hq⟩
    · rw [hnil]
      exact List.not_mem_nil
    · exact nl_not_mem_piece hlibc hq
  -- whole lines are read back one by one; only the piece behind them is in question
  have hbodies : ∀ ps : List FoundPayload, (∀ p ∈ ps, tried p) →
      (ps.map (body libc)).filterMap (lineRecord libc) = ps := by
    intro ps hps
    rw [List.filterMap_map]
    conv_rhs => rw [← List.filterMap_some (l := ps)]
    exact List.filterMap_congr fun p hp => lineRecord_body hlibc (hfin p (hps p hp))
  unfold records
  rw [h.content_eq, lines_serialized hlibc ps hnl, List.filterMap_append, hbodies ps h.passed]
  by_cases hne : q = []
  · rw [if_pos hne]
    exact Or.inl (List.append_nil _)
  · rw [if_neg hne]
    obtain ⟨p, hp, hq⟩ := h.piece.resolve_left hne
    rcases lineRecord_piece hlibc hq hne with hnone | hbody
    · rw [List.filterMap_cons_none hnone]
      exact Or.inl (List.append_nil _)
    · right
      refine ⟨p, hp, hbody, ?_⟩
      rw [List.filterMap_cons_some (hbody ▸ lineRecord_body hlibc (hfin p hp))]
      rfl

/-- A payload that was laid down whole is a record of the content. -/
theorem Laid.mem_records {p : FoundPayload} (hp : p ∈ ps) : p ∈ records libc content := by
  rcases h.records_eq hlibc hfin with heq | ⟨p', -, -, heq⟩
  · rw [heq]
    exact hp
  · rw [heq]
    exact List.mem_append_left _ hp

/-- A record of the content is a payload that was tried. -/
theorem Laid.tried_of_mem {p : FoundPayload} (hp : p ∈ records libc content) : tried p := by
  rcases h.records_eq hlibc hfin with heq | ⟨p', hp', -, heq⟩
  · exact h.passed p (heq ▸ hp)
  · rw [heq] at hp
    rcases List.mem_append.mp hp with hmem | hmem
    · exact h.passed p hmem
    · rw [List.mem_singleton.mp hmem]
      exact hp'

/-! ## Writing on -/

/-- The records, when the piece at the end is one of the line of `p`. -/
theorem Laid.record_cases {p : FoundPayload} (hp : tried p) (hq : q <+: body libc p) :
    ∀ r ∈ records libc content, r ∈ ps ∨ (r = p ∧ q = body libc p) := by
  intro r hr
  rcases h.records_eq hlibc hfin with heq | ⟨p', hp', hbody', heq⟩
  · exact Or.inl (heq ▸ hr)
  · rw [heq] at hr
    rcases List.mem_append.mp hr with hmem | hmem
    · exact Or.inl hmem
    · right
      have hrecord : lineRecord libc q = some p' := by
        rw [hbody']
        exact lineRecord_body hlibc (hfin p' hp')
      have hne : q ≠ [] := by
        rw [hbody']
        exact List.cons_ne_nil _ _
      have hsame : q = body libc p := by
        refine (lineRecord_piece hlibc hq hne).resolve_left fun hnone => ?_
        rw [hrecord] at hnone
        cases hnone
      rw [hsame, lineRecord_body hlibc (hfin p hp)] at hrecord
      rw [List.mem_singleton.mp hmem]
      exact ⟨(Option.some.inj hrecord).symm, hsame⟩

/-- A write that goes on where the beginning of its line stands, on a whole line, keeps the
file in shape and every record in it; with the end of the line the payload is one of them. -/
theorem Laid.write {p : FoundPayload} {written rest pre : Bytes} {n : Nat} (hp : tried p)
    (hline : written ++ rest = serialize libc p) (hne : rest ≠ [])
    (hstands : content = pre ++ written) (hclean : EndsClean pre) :
    ∃ ps' q', Laid libc tried ps' q' (content ++ rest.take n) ∧
      (∀ r ∈ records libc content, r ∈ records libc (content ++ rest.take n)) ∧
      (rest.length ≤ n → p ∈ ps') := by
  rw [serialize_eq] at hline
  -- what is written lacks the newline
  have hbody : written <+: body libc p := by
    refine (prefix_line ⟨rest, hline⟩).resolve_right fun hall => ?_
    rw [hall] at hline
    exact hne (List.append_right_eq_self.mp hline)
  have hnl : nl ∉ q := by
    rcases h.piece with hnil | ⟨p', -, hq⟩
    · rw [hnil]
      exact List.not_mem_nil
    · exact nl_not_mem_piece hlibc hq
  obtain ⟨-, hq⟩ := cut_at_last_nl (endsClean_lines ps) hclean hnl
    (nl_not_mem_piece hlibc hbody) (h.content_eq.symm.trans hstands)
  subst hq
  have hold := h.record_cases hlibc hfin hp hbody
  have hcontent : content ++ rest.take n = ps.flatMap (serialize libc) ++ (q ++ rest.take n) := by
    rw [h.content_eq, List.append_assoc]
  have hpiece : q ++ rest.take n <+: body libc p ++ [nl] := by
    rw [← hline]
    exact (List.prefix_append_right_inj q).mpr (List.take_prefix n rest)
  rcases prefix_line hpiece with hpart | hwhole
  · -- the line is not through
    have h' : Laid libc tried ps (q ++ rest.take n) (content ++ rest.take n) :=
      ⟨hcontent, h.passed, Or.inr ⟨p, hp, hpart⟩⟩
    refine ⟨ps, _, h', fun r hr => ?_, fun hall => ?_⟩
    · rcases hold r hr with hmem | ⟨-, hsame⟩
      · exact h'.mem_records hlibc hfin hmem
      · -- there is nothing left to write but the newline
        have hnothing : rest.take n = [] := by
          rw [hsame] at hpart
          have hlen := hpart.length_le
          rw [List.length_append] at hlen
          exact List.eq_nil_of_length_eq_zero (by omega)
        rw [hnothing, List.append_nil]
        exact hr
    · rw [List.take_of_length_le hall, hline] at hpart
      have hlen := hpart.length_le
      rw [List.length_append, List.length_singleton] at hlen
      omega
  · have h' : Laid libc tried (ps ++ [p]) [] (content ++ rest.take n) := by
      refine ⟨?_, fun r hr => ?_, Or.inl rfl⟩
      · rw [hcontent, hwhole, List.flatMap_append, List.flatMap_singleton, serialize_eq,
          List.append_nil]
      · rcases List.mem_append.mp hr with hr | hr
        · exact h.passed r hr
        · rw [List.mem_singleton.mp hr]
          exact hp
    have hself : p ∈ ps ++ [p] := List.mem_append_right _ (List.mem_singleton.mpr rfl)
    refine ⟨ps ++ [p], [], h', fun r hr => ?_, fun _ => hself⟩
    rcases hold r hr with hmem | ⟨hr, -⟩
    · exact h'.mem_records hlibc hfin (List.mem_append_left _ hmem)
    · rw [hr]
      exact h'.mem_records hlibc hfin hself

end

end Log

end TreeMiner.FallbackSink
