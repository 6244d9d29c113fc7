import TreeMiner.Journal.FindJournal
import TreeMiner.Journal.SinkRoundTrip
import TreeMiner.Lib.Replay

/-!
# Draining the sink again and again

`importInto` stops at the first append that throws, or where a read of the file fails, and leaves
the file for the next boot. What it has imported by then is imported again from the start: the
journal keys its rows, so the drain is the replay of a log of records (`Replay.Absorbs`), and a
failed run has replayed a beginning of it. The first run that gets through has the journal where one
clean run would have put it, row for row.
-/

namespace TreeMiner

open Cxx

namespace FallbackSink

/-! ## A run -/

/-- The sink file and the archive next to it. -/
structure SinkDir where
  file : SinkFile
  archived : Option Bytes

/-- What one run meets: for each record handed to the journal whether the append
throws, whether `remove` and `rename` succeed, and the byte at which a read of the file
fails, if one does. -/
structure RunFaults where
  throws : List Bool
  removed : Bool
  renamed : Bool
  readFails : Option Nat := none

/-- The file as the run can read it. -/
def RunFaults.seen (f : RunFaults) : SinkFile → SinkFile
  | .bytes content =>
    match f.readFails with
    | none => .bytes content
    | some n => .failing (content.take n)
  | file => file

/-- `FindJournal::append` with the faults to come; a call that throws has rolled
back its transaction. -/
def appendUnder (s : Journal × List Bool) (p : FoundPayload) : Option (Journal × List Bool) :=
  match s.2 with
  | true :: _ => none
  | false :: throws => some ((s.1.append p).2, throws)
  | [] => some ((s.1.append p).2, [])

/-- The end of a clean pass: the old archive is removed and the file takes its
place. -/
def archive (dir : SinkDir) (f : RunFaults) : SinkDir :=
  match dir.file with
  | .bytes content =>
    if f.renamed then ⟨.missing, some content⟩
    else { dir with archived := if f.removed then none else dir.archived }
  | _ => dir

/-- One `importInto` and what becomes of the file. -/
def drain (libc : Libc) (s : Journal × SinkDir) (f : RunFaults) : Journal × SinkDir :=
  let r := importInto libc appendUnder (s.1, f.throws) (f.seen s.2.file)
  (r.1.1, if r.2.2 then archive s.2 f else s.2)

/-- An append throws in the run, or a read fails: a file was there and the pass was not clean. -/
def Throws (libc : Libc) (s : Journal × SinkDir) (f : RunFaults) : Prop :=
  (∃ content, s.2.file = .bytes content) ∧
    (importInto libc appendUnder (s.1, f.throws) (f.seen s.2.file)).2.2 = false

/-- The journal after one import that nothing disturbs. -/
def cleanImport (libc : Libc) (j : Journal) (content : Bytes) : Journal :=
  (importInto libc (fun j p => some (j.append p).2) j (.bytes content)).1

/-! ## The file as a log -/

/-- The record of a line, if it is one. -/
def lineRecord (libc : Libc) (line : Bytes) : Option FoundPayload :=
  if isBlank (stripEnd line) then none else parseLine libc (stripEnd line)

/-- The records of a file, in order. -/
def records (libc : Libc) (content : Bytes) : List FoundPayload :=
  (lines content).filterMap (lineRecord libc)

/-- Append the records until one append throws: where that leaves, and whether all
went through. -/
def appendAll {σ : Type} (append : σ → FoundPayload → Option σ) :
    List FoundPayload → σ → σ × Bool
  | [], j => (j, true)
  | p :: ps, j =>
    match append j p with
    | some j => appendAll append ps j
    | none => (j, false)

/-- The loop over the lines is the loop over the records. -/
theorem importLoop_records {σ : Type} (libc : Libc) (append : σ → FoundPayload → Option σ) :
    ∀ (ls : List Bytes) (j : σ) (stats : ImportStats),
      ((importLoop libc append ls j stats).1, (importLoop libc append ls j stats).2.2) =
        appendAll append (ls.filterMap (lineRecord libc)) j
  | [], _, _ => rfl
  | line :: ls, j, stats => by
    rw [importLoop]
    split
    next hblank =>
      have hrec : lineRecord libc line = none := if_pos hblank
      rw [List.filterMap_cons_none hrec]
      exact importLoop_records libc append ls j stats
    next hblank =>
      have hrec : lineRecord libc line = parseLine libc (stripEnd line) := if_neg hblank
      cases hp : parseLine libc (stripEnd line) with
      | none =>
        rw [List.filterMap_cons_none (hrec.trans hp)]
        exact importLoop_records libc append ls j _
      | some p =>
        rw [List.filterMap_cons_some (hrec.trans hp), appendAll]
        dsimp only
        cases append j p with
        | none => rfl
        | some j' => exact importLoop_records libc append ls j' _

/-- What the journal makes of a record. -/
def take (j : Journal) (p : FoundPayload) : Journal := (j.append p).2

/-- Appending is keyed: a record whose key is there changes nothing. -/
theorem append_absorbs : Replay.Absorbs take fun j p => (j.byKey p.key).isSome = true where
  takes j p := by
    obtain ⟨r, hr, -, hkey, -⟩ := Journal.append_row (j := j) (p := p)
    unfold Journal.byKey
    rw [List.find?_isSome]
    exact ⟨r, hr, decide_eq_true hkey⟩
  keeps j p q h := by
    obtain ⟨r, hr⟩ := Option.isSome_iff_exists.mp h
    obtain ⟨hmem, hkey⟩ := Journal.byKey_mem hr
    unfold Journal.byKey take Journal.append
    rw [List.find?_isSome]
    split
    · exact ⟨r, hmem, decide_eq_true hkey⟩
    · exact ⟨r, List.mem_append_left _ hmem, decide_eq_true hkey⟩
  skips j p h := by
    obtain ⟨r, hr⟩ := Option.isSome_iff_exists.mp h
    unfold take Journal.append
    split
    · rfl
    next hnone =>
      rw [hnone] at hr
      cases hr

/-- Under faults a beginning of the records is taken, all of them when none throws. -/
theorem appendAll_under : ∀ (ps : List FoundPayload) (j : Journal) (throws : List Bool),
    ∃ k, (appendAll appendUnder ps (j, throws)).1.1 = (ps.take k).foldl take j ∧
      ((appendAll appendUnder ps (j, throws)).2 = true → ps.length ≤ k)
  | [], _, _ => ⟨0, rfl, fun _ => Nat.le_refl 0⟩
  | p :: ps, j, throws => by
    have hsome : ∀ throws', appendUnder (j, throws) p = some (take j p, throws') →
        ∃ k, (appendAll appendUnder (p :: ps) (j, throws)).1.1 =
            ((p :: ps).take k).foldl take j ∧
          ((appendAll appendUnder (p :: ps) (j, throws)).2 = true → (p :: ps).length ≤ k) := by
      intro throws' hthrows
      obtain ⟨k, hk, hall⟩ := appendAll_under ps (take j p) throws'
      rw [appendAll, hthrows]
      exact ⟨k + 1, hk, fun h => Nat.succ_le_succ (hall h)⟩
    match throws, hsome with
    | [], hsome => exact hsome [] rfl
    | false :: throws', hsome => exact hsome throws' rfl
    | true :: _, _ => exact ⟨0, rfl, fun h => by cases h⟩

/-- Without faults all of them are. -/
theorem appendAll_some : ∀ (ps : List FoundPayload) (j : Journal),
    (appendAll (fun j p => some (take j p)) ps j) = (ps.foldl take j, true)
  | [], _ => rfl
  | p :: ps, j => appendAll_some ps (take j p)

/-- An import without a failure takes in the records of the content one after the other. -/
theorem cleanImport_eq (libc : Libc) (j : Journal) (content : Bytes) :
    cleanImport libc j content = (records libc content).foldl take j := by
  have h := importLoop_records libc (fun j p => some (take j p)) (lines content) j
    { file_present := true }
  rw [appendAll_some] at h
  exact congrArg Prod.fst h

/-! ## Retries -/

/-- Between runs: the journal has replayed a beginning of the file, all of it once
the file is gone. -/
structure Drained (libc : Libc) (j₀ : Journal) (content : Bytes) (s : Journal × SinkDir) :
    Prop where
  replayed : ∃ k, s.1 = ((records libc content).take k).foldl take j₀
  file : s.2.file = .bytes content ∨ s.2.file = .missing ∧ s.1 = cleanImport libc j₀ content

section Retry

variable {libc : Libc} {j₀ : Journal} {content : Bytes} {s : Journal × SinkDir}

/-- The lines a run gets to see, and what it makes of their records; a run that throws nothing
and reads to the end sees all lines and appends all records. -/
theorem drain_reads (f : RunFaults) (hfile : s.2.file = .bytes content) :
    ∃ ls, ls <+: lines content ∧
      (drain libc s f).1 =
        (appendAll appendUnder (ls.filterMap (lineRecord libc)) (s.1, f.throws)).1.1 ∧
      (¬ Throws libc s f → ls = lines content ∧
        (appendAll appendUnder (ls.filterMap (lineRecord libc)) (s.1, f.throws)).2 = true) := by
  have hloop := fun ls => importLoop_records libc appendUnder ls (s.1, f.throws)
    { file_present := true }
  -- the whole file is read, or only the bytes before the read that fails
  cases hf : f.readFails with
  | none =>
    have hseen : f.seen s.2.file = .bytes content := by
      rw [hfile]
      simp only [RunFaults.seen, hf]
    refine ⟨lines content, List.prefix_rfl, ?_, fun hno => ⟨rfl, ?_⟩⟩
    · unfold drain
      rw [hseen]
      exact congrArg (fun r => r.1.1) (hloop _)
    · rw [← Bool.not_eq_false]
      intro hfalse
      refine hno ⟨⟨content, hfile⟩, ?_⟩
      rw [hseen]
      exact (congrArg Prod.snd (hloop _)).trans hfalse
  | some n =>
    have hseen : f.seen s.2.file = .failing (content.take n) := by
      rw [hfile]
      simp only [RunFaults.seen, hf]
    refine ⟨linesBefore (content.take n), linesBefore_prefix content n, ?_, fun hno => ?_⟩
    · unfold drain
      rw [hseen]
      exact congrArg (fun r => r.1.1) (hloop _)
    · refine absurd ⟨⟨content, hfile⟩, ?_⟩ hno
      rw [hseen]
      rfl

/-- A run from the file: a longer beginning, or all when no append throws. -/
theorem drain_present (h : Drained libc j₀ content s) (f : RunFaults)
    (hfile : s.2.file = .bytes content) :
    (∃ k, (drain libc s f).1 = ((records libc content).take k).foldl take j₀) ∧
      (¬ Throws libc s f → (drain libc s f).1 = cleanImport libc j₀ content) := by
  obtain ⟨k, hk⟩ := h.replayed
  obtain ⟨ls, hls, hdrain, hwhole⟩ := @drain_reads libc _ _ f hfile
  obtain ⟨m, hm, hall⟩ := appendAll_under (ls.filterMap (lineRecord libc)) s.1 f.throws
  -- the records that are read are a beginning of all records
  have hpart : ls.filterMap (lineRecord libc) =
      (records libc content).take (ls.filterMap (lineRecord libc)).length :=
    List.prefix_iff_eq_take.mp (hls.filterMap _)
  generalize hlen : (ls.filterMap (lineRecord libc)).length = len at hpart
  have hj : (drain libc s f).1 =
    ((records libc content).take (max k (min m len))).foldl take j₀ := by
    rw [hdrain, hm, hpart, List.take_take, hk, append_absorbs.replay]
  refine ⟨⟨_, hj⟩, ?_⟩
  intro hno
  obtain ⟨rfl, hclean⟩ := hwhole hno
  have hm' : (records libc content).length ≤ m := hall hclean
  have hlen' : (records libc content).length ≤ len := le_of_eq hlen
  rw [hj, cleanImport_eq, List.take_of_length_le (by omega)]

/-- A run in which an append throws leaves the sink as it is. -/
theorem drain_throws {f : RunFaults} (h : Throws libc s f) : (drain libc s f).2 = s.2 := by
  unfold drain
  dsimp only
  rw [h.2]
  rfl

/-- The file stays or is archived. -/
theorem drain_file (libc : Libc) (s : Journal × SinkDir) (f : RunFaults) :
    (drain libc s f).2.file = s.2.file ∨ (drain libc s f).2.file = .missing := by
  unfold drain
  dsimp only
  split
  · unfold archive
    split
    · split
      · exact Or.inr rfl
      · exact Or.inl rfl
    · exact Or.inl rfl
  · exact Or.inl rfl

/-- One attempt at the import, with whatever failure, keeps what was drained. -/
theorem Drained.step (h : Drained libc j₀ content s) (f : RunFaults) :
    Drained libc j₀ content (drain libc s f) := by
  rcases h.file with hfile | ⟨hfile, hj⟩
  · obtain ⟨hk, hclean⟩ := drain_present h f hfile
    refine ⟨hk, ?_⟩
    by_cases hthrow : Throws libc s f
    · rw [drain_throws hthrow]
      exact Or.inl hfile
    · rcases drain_file libc s f with hkept | hgone
      · exact Or.inl (hkept.trans hfile)
      · exact Or.inr ⟨hgone, hclean hthrow⟩
  · have hsame : drain libc s f = s := by
      unfold drain
      rw [hfile]
      rfl
    rw [hsame]
    exact h

/-- From one attempt to any sequence of them. -/
theorem drained_run (j₀ : Journal) (content : Bytes) (archived : Option Bytes)
    (fs : List RunFaults) :
    Drained libc j₀ content (fs.foldl (drain libc) (j₀, ⟨.bytes content, archived⟩)) := by
  have hrun : ∀ {s : Journal × SinkDir}, Drained libc j₀ content s →
      Drained libc j₀ content (fs.foldl (drain libc) s) := by
    induction fs with
    | nil => exact fun h => h
    | cons f fs ih => exact fun h => ih (h.step f)
  exact hrun ⟨⟨0, rfl⟩, Or.inl rfl⟩

/-- For every content of the sink, every journal and every sequence of runs, in each of which any
append may throw and the reading may break off: a run in which that happens leaves the sink file
(and its archive) as it is, and after a run in which it does not the journal is the one that a
single clean import of the file gives. -/
theorem import_retry_converges (libc : Libc) (j₀ : Journal) (content : Bytes)
    (archived : Option Bytes) (fs : List RunFaults) (f : RunFaults) :
    let s := fs.foldl (drain libc) (j₀, ⟨.bytes content, archived⟩)
    (Throws libc s f → (drain libc s f).2 = s.2) ∧
      (¬ Throws libc s f → (drain libc s f).1 = cleanImport libc j₀ content) := by
  intro s
  have h : Drained libc j₀ content s := drained_run j₀ content archived fs
  refine ⟨drain_throws, ?_⟩
  intro hno
  rcases h.file with hfile | ⟨hfile, hj⟩
  · exact (drain_present h f hfile).2 hno
  · -- the file was archived by an earlier run
    rw [← hj]
    show (importInto libc appendUnder (s.1, f.throws) (f.seen s.2.file)).1.1 = s.1
    rw [show s.2.file = .missing from hfile]
    rfl

end Retry

/-- Three records, the second with the key of the first. The first boot throws at the third
record, the second cannot read on in the second line, the third gets through. -/
theorem import_retry_converges_sample :
    let content := [samplePayload, { samplePayload with worker := lit "other" },
      { samplePayload with key := lit "k2" }].flatMap (serialize sampleLibc)
    let s : Journal × SinkDir := (Journal.empty, ⟨.bytes content, none⟩)
    let late : RunFaults := ⟨[false, false, true], true, true, none⟩
    let torn : RunFaults := ⟨[], true, true, some 300⟩
    let clean : RunFaults := ⟨[], true, true, none⟩
    let s₁ := drain sampleLibc s late
    let s₂ := drain sampleLibc s₁ torn
    s₁.1.rows.length = 1 ∧ s₁.2 = s.2 ∧ s₂.2 = s₁.2 ∧
      (drain sampleLibc s₂ clean).1 = cleanImport sampleLibc Journal.empty content ∧
      (drain sampleLibc s₂ clean).1.rows.length = 2 := by
  intro content s late torn clean s₁ s₂
  have hlate : Throws sampleLibc s late := ⟨⟨content, rfl⟩, by decide +kernel⟩
  have htorn : Throws sampleLibc s₁ torn :=
    ⟨⟨content, by decide +kernel⟩, by decide +kernel⟩
  have hclean : ¬ Throws sampleLibc s₂ clean := by
    rintro ⟨-, h⟩
    revert h
    decide +kernel
  have hfirst := import_retry_converges sampleLibc Journal.empty content none [] late
  have hsecond := import_retry_converges sampleLibc Journal.empty content none [late] torn
  have hthird := import_retry_converges sampleLibc Journal.empty content none [late, torn] clean
  simp only [List.foldl_cons, List.foldl_nil] at hfirst hsecond hthird
  exact ⟨by decide +kernel, hfirst.1 hlate, hsecond.1 htorn, hthird.2 hclean, by decide +kernel⟩

end FallbackSink

end TreeMiner
