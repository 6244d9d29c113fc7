import TreeMiner.Journal.Columns
import TreeMiner.Lib.Grouping
import TreeMiner.Submit.NoLoss

/-!
# Journal fidelity and accounting (`FindJournal::counts`, `recoverOnStartup`)

`counts` and `recoverOnStartup` each run through the groups of a GROUP BY, in whatever order
SQLite hands them out, and add up the counts by status. Both loops count rows
(`counts_field`, `recoveryStats_field`), and no reachable journal has a row that they
leave out (`run_submitting`).

A row counts under exactly one status, and under one kind, because their texts are read back
as the values they were written from. So the counts add up to the number of rows, and a
status without a group counts as zero.
-/

namespace TreeMiner

open Cxx Interleave Grouped

namespace Finds

/-! ## The two loops -/

/-- `IFindJournal::Counts`. -/
structure Counts where
  pending : Nat := 0
  parked : Nat := 0
  parked_difficulty : Nat := 0
  parked_xuni : Nat := 0
  quarantined : Nat := 0
  acked_total : Nat := 0
  dead_total : Nat := 0
  accepted_unconfirmed : Nat := 0
  permanently_invalid : Nat := 0
  queued_xen11 : Nat := 0
  queued_xuni : Nat := 0

/-- The switch of `counts` and the test after it, for one group. -/
def Counts.add (result : Counts) (status : FindStatus) (kind : FindKind) (count : Nat) : Counts :=
  let result :=
    match status with
    | .Pending => { result with pending := result.pending + count }
    | .ParkedDifficulty =>
      { result with
        parked := result.parked + count
        parked_difficulty := result.parked_difficulty + count }
    | .ParkedXuniWindow =>
      { result with
        parked := result.parked + count
        parked_xuni := result.parked_xuni + count }
    | .Quarantined => { result with quarantined := result.quarantined + count }
    | .Acked => { result with acked_total := result.acked_total + count }
    | .Dead => { result with dead_total := result.dead_total + count }
    | .AcceptedUnconfirmed =>
      { result with accepted_unconfirmed := result.accepted_unconfirmed + count }
    | .PermanentlyInvalid =>
      { result with permanently_invalid := result.permanently_invalid + count }
    | .Submitting => result
  if status = .Pending ∨ status = .AcceptedUnconfirmed then
    if kind = .XEN11 then { result with queued_xen11 := result.queued_xen11 + count }
    else { result with queued_xuni := result.queued_xuni + count }
  else result

/-- One row of `SELECT status, kind, COUNT(*) … GROUP BY status, kind`. -/
def countGroup (result : Counts) (g : (Bytes × Bytes) × Nat) : Option Counts := do
  let status ← statusFromString (Journal.cText g.1.1)
  let kind ← kindFromString (Journal.cText g.1.2)
  some (result.add status kind g.2)

/-- `FindJournal::counts`, over the groups. -/
def counts (groups : List ((Bytes × Bytes) × Nat)) : Option Counts := groups.foldlM countGroup {}

/-- `IFindJournal::RecoveryStats`. -/
structure RecoveryStats where
  pending : Nat := 0
  accepted_unconfirmed : Nat := 0
  parked_difficulty : Nat := 0
  parked_xuni : Nat := 0
  quarantined : Nat := 0
  acked : Nat := 0
  dead : Nat := 0
  invalid : Nat := 0

/-- The switch of `recoverOnStartup`. -/
def RecoveryStats.add (stats : RecoveryStats) (status : FindStatus) (count : Nat) : RecoveryStats :=
  match status with
  | .Pending => { stats with pending := stats.pending + count }
  | .AcceptedUnconfirmed =>
    { stats with accepted_unconfirmed := stats.accepted_unconfirmed + count }
  | .ParkedDifficulty => { stats with parked_difficulty := stats.parked_difficulty + count }
  | .ParkedXuniWindow => { stats with parked_xuni := stats.parked_xuni + count }
  | .Quarantined => { stats with quarantined := stats.quarantined + count }
  | .Acked => { stats with acked := stats.acked + count }
  | .Dead => { stats with dead := stats.dead + count }
  | .PermanentlyInvalid => { stats with invalid := stats.invalid + count }
  | .Submitting => stats

/-- The UPDATE of `recoverOnStartup`. -/
def recover (t : List Columns) : List Columns :=
  t.map fun row =>
    if row.status = lit "Submitting" then { row with status := lit "Pending" } else row

/-- One row of `SELECT status, COUNT(*) … GROUP BY status`. -/
def recoverGroup (stats : RecoveryStats) (g : Bytes × Nat) : Option RecoveryStats := do
  let status ← statusFromString (Journal.cText g.1)
  some (stats.add status g.2)

/-- The statistics of `recoverOnStartup`, over the groups after the UPDATE. -/
def recoveryStats (groups : List (Bytes × Nat)) : Option RecoveryStats :=
  groups.foldlM recoverGroup {}

section Loops

variable {t : List Columns} {j : Journal}

/-- A count over the table is the count over the journal's rows, for tests that agree on a row and
the record it stores. -/
theorem countP_holds {P : Columns → Bool} {Q : FindRecord → Bool}
    (hPQ : ∀ row r, HoldsRow row r → P row = Q r) (h : Holds t j) :
    t.countP P = j.rows.countP Q := by
  unfold Holds at h
  generalize j.rows = rows at h
  induction h with
  | nil => rfl
  | cons hrow _ ih => rw [List.countP_cons, List.countP_cons, ih, hPQ _ _ hrow]

/-- Every stored row has a status and a kind that can be read. -/
theorem Holds.readable (h : Holds t j) : ∀ row ∈ t, ∃ status kind,
    statusFromString (Journal.cText row.status) = some status ∧
      kindFromString (Journal.cText row.kind) = some kind := by
  unfold Holds at h
  generalize j.rows = rows at h
  induction h with
  | nil => exact fun _ hrow => by cases hrow
  | @cons row r t rows hr _ ih =>
    intro row' hrow'
    rcases List.mem_cons.mp hrow' with rfl | hrow'
    · refine ⟨r.status, r.payload.kind, ?_, ?_⟩
      · rw [hr.status, statusFromString_text]
      · rw [hr.kind, kindFromString_text]
    · exact ih row' hrow'

/-- The status and kind of every group are texts the reader knows, so that no group makes `counts`
throw. -/
theorem counts_isSome (hj : Holds t j) {gs : List ((Bytes × Bytes) × Nat)}
    (hg : Grouping (fun row : Columns => (row.status, row.kind)) t gs) :
    ∃ n, counts gs = some n := by
  refine Option.isSome_iff_exists.mp (foldlM_isSome fun g hmem c => ?_)
  obtain ⟨row, hrow, hkey⟩ := hg.key hmem
  obtain ⟨status, kind, hs, hk⟩ := hj.readable row hrow
  unfold countGroup
  rw [← hkey, hs, hk]
  rfl

/-- A field of `counts` that `add` raises under the condition `Q` counts the rows that meet it. -/
theorem counts_field {r : Counts → Nat} {Q : FindStatus → FindKind → Bool}
    (hadd : ∀ c s k n, r (c.add s k n) = r c + if Q s k then n else 0) (h0 : r {} = 0)
    (hj : Holds t j) {gs : List ((Bytes × Bytes) × Nat)}
    (hg : Grouping (fun row : Columns => (row.status, row.kind)) t gs) {n : Counts}
    (hn : counts gs = some n) : r n = j.rows.countP fun row => Q row.status row.payload.kind := by
  let P : Bytes × Bytes → Bool := fun k =>
    (statusFromString (Journal.cText k.1)).any
      fun s => (kindFromString (Journal.cText k.2)).any (Q s)
  -- a group adds its count to the field exactly if its texts pass the test
  have hstep : ∀ c g c', countGroup c g = some c' → r c' = r c + if P g.1 then g.2 else 0 := by
    intro c g c' h
    unfold countGroup at h
    obtain ⟨s, hs, h⟩ := Option.bind_eq_some_iff.mp h
    obtain ⟨k, hk, h⟩ := Option.bind_eq_some_iff.mp h
    cases h
    have hP : P g.1 = Q s k := by
      show ((statusFromString (Journal.cText g.1.1)).any fun s =>
        (kindFromString (Journal.cText g.1.2)).any (Q s)) = _
      rw [hs, hk]
      rfl
    rw [hadd, hP]
  have hcount := hg.foldlM hstep hn
  rw [h0, Nat.zero_add] at hcount
  rw [hcount]
  refine countP_holds (fun row r hr => ?_) hj
  show ((statusFromString (Journal.cText row.status)).any fun s =>
    (kindFromString (Journal.cText row.kind)).any (Q s)) = _
  rw [hr.status, hr.kind, statusFromString_text, kindFromString_text]
  rfl

/-- Nor does a group make the statistics of the startup throw. -/
theorem recoveryStats_isSome (hj : Holds t j) {gs : List (Bytes × Nat)}
    (hg : Grouping (fun row : Columns => row.status) t gs) : ∃ s, recoveryStats gs = some s := by
  refine Option.isSome_iff_exists.mp (foldlM_isSome fun g hmem c => ?_)
  obtain ⟨row, hrow, hkey⟩ := hg.key hmem
  obtain ⟨status, -, hs, -⟩ := hj.readable row hrow
  unfold recoverGroup
  rw [← hkey, hs]
  rfl

/-- A field that each group adds to, if its status passes a test, ends as the number of rows that
pass it. -/
theorem recoveryStats_field {r : RecoveryStats → Nat} {Q : FindStatus → Bool}
    (hadd : ∀ c s n, r (c.add s n) = r c + if Q s then n else 0) (h0 : r {} = 0)
    (hj : Holds t j) {gs : List (Bytes × Nat)}
    (hg : Grouping (fun row : Columns => row.status) t gs) {s : RecoveryStats}
    (hs : recoveryStats gs = some s) : r s = j.rows.countP fun row => Q row.status := by
  let P : Bytes → Bool := fun k => (statusFromString (Journal.cText k)).any Q
  have hstep : ∀ c g c', recoverGroup c g = some c' → r c' = r c + if P g.1 then
    g.2 else 0 := by
    intro c g c' h
    unfold recoverGroup at h
    obtain ⟨st, hst, h⟩ := Option.bind_eq_some_iff.mp h
    cases h
    have hP : P g.1 = Q st := by
      show (statusFromString (Journal.cText g.1)).any Q = _
      rw [hst]
      rfl
    rw [hadd, hP]
  have hcount := hg.foldlM hstep hs
  rw [h0, Nat.zero_add] at hcount
  rw [hcount]
  refine countP_holds (fun row r hr => ?_) hj
  show (statusFromString (Journal.cText row.status)).any Q = _
  rw [hr.status, statusFromString_text]
  rfl

/-- No two statuses are stored under the same text. -/
theorem status_text_injective {s s' : FindStatus} (h : s.text = s'.text) : s = s' := by
  have hs := statusFromString_text s
  rw [h, statusFromString_text] at hs
  exact (Option.some.inj hs).symm

/-- The UPDATE on the table is the one on the journal. -/
theorem recover_holds (hj : Holds t j) : Holds (recover t) j.recoverOnStartup := by
  unfold Holds at hj
  show List.Forall₂ HoldsRow (t.map _) (j.rows.map _)
  rw [List.forall₂_map_left_iff, List.forall₂_map_right_iff]
  refine hj.imp fun row r hr => ?_
  by_cases hst : r.status = .Submitting
  · have htext : row.status = lit "Submitting" := by
      rw [hr.status, hst]
      rfl
    rw [if_pos htext, if_pos hst]
    exact { hr with status := rfl }
  · have htext : row.status ≠ lit "Submitting" := by
      rw [hr.status]
      intro h
      exact hst (status_text_injective (show r.status.text = FindStatus.Submitting.text from h))
    rw [if_neg htext, if_neg hst]
    exact hr

end Loops

/-- What a table may store for a row. -/
def columns (r : FindRecord) : Columns where
  id := r.id
  key := r.payload.key
  hash_to_verify := r.payload.hash_to_verify
  account := r.payload.account
  kind := r.payload.kind.text
  m := r.payload.memory_cost.toUInt64.toInt64
  worker := some r.payload.worker
  attempts := some r.payload.attempts.toInt64
  hashes_per_second := some r.payload.hashes_per_second
  found_at := r.payload.found_at_utc
  status := r.status.text
  status_reason := some r.status_reason
  attempt_count := Int64.ofNat r.attempt_count
  next_attempt_at := r.next_attempt_at
  last_attempt_at := r.last_attempt_at
  last_http_status := r.last_http_status.map Int64.ofInt
  last_response := some r.last_response
  confirmed_at := r.confirmed_at
  xuni_windows_tried := Int64.ofNat r.xuni_windows_tried

/-- Every journal is stored by some table: each record by its own columns, with the texts as they
are. -/
theorem exists_holds (j : Journal) : ∃ t, Holds t j := by
  refine ⟨j.rows.map columns, ?_⟩
  unfold Holds
  rw [List.forall₂_map_left_iff]
  refine List.forall₂_same.mpr fun r _ => ?_
  constructor <;> rfl

end Finds

/-! ## No row is left out -/

/-- Of the nine statuses only `Submitting` is not counted. -/
theorem length_eq_countP (rows : List FindRecord) (h : ∀ r ∈ rows, r.status ≠ .Submitting) :
    rows.length =
      rows.countP (·.status == .Pending) + rows.countP (·.status == .ParkedDifficulty) +
      rows.countP (·.status == .ParkedXuniWindow) + rows.countP (·.status == .Quarantined) +
      rows.countP (·.status == .Acked) + rows.countP (·.status == .Dead) +
      rows.countP (·.status == .AcceptedUnconfirmed) +
      rows.countP (·.status == .PermanentlyInvalid) := by
  induction rows with
  | nil => rfl
  | cons r rows ih =>
    have hne := h r List.mem_cons_self
    have ih := ih fun r' hr' => h r' (List.mem_cons_of_mem r hr')
    rw [List.length_cons, ih]
    simp only [List.countP_cons]
    cases hst : r.status with
    | Submitting => exact absurd hst hne
    | _ => simp; omega

/-- `Submitting` is never persisted. -/
theorem run_submitting {cfg : Config} {tr : Trace} {c : Configuration}
    (hr : Run (core cfg) (start cfg) tr c) :
    ∀ r ∈ c.world.journal.rows, r.status ≠ .Submitting := by
  refine hr.invariant (G := fun _ _ => True) (I := fun _ c => ∀ r ∈ c.world.journal.rows,
    r.status ≠ .Submitting) ?_ ?_ (fun _ _ _ _ => trivial)
  · intro tr c₁ l c₂ run ih _ hs r' hr' hst
    rcases step_journal hs with hj | ⟨i, ⟨o, a⟩, rfl, htch⟩ | ⟨rfl, hj⟩
    · rw [hj] at hr'
      exact ih r' hr' hst
    · rcases htch.origin hr' with ⟨r, hrow, -, -, hch⟩ | ⟨p, -, -, rfl⟩
      · rcases hch with rfl | ⟨cl, st, body, next, now, -, hne, rfl⟩ | ⟨d, -, -, -, rfl⟩ |
          ⟨n, -, hparked, rfl⟩
        · exact ih r' hrow hst
        · exact hne hst
        · cases hst
        · unfold Journal.windowOpened at hst
          rw [if_pos hparked] at hst
          split at hst
          · cases hst
          · cases hst
      -- a new row is Pending or invalid, and no other operation leaves a row Submitting
      · rcases newRow_status (Journal.nextId c₁.world.journal.rows) p with h | ⟨h, -⟩
        · rw [h] at hst
          cases hst
        · rw [h] at hst
          cases hst
    · rw [hj] at hr'
      obtain ⟨r, hrow, rfl⟩ := Journal.mem_update.mp hr'
      split at hst
      · cases hst
      · exact ih r hrow hst
  · intro r hr
    cases hr

namespace Finds

section Accounts

variable {t : List Columns} {j : Journal} {gs : List ((Bytes × Bytes) × Nat)} {n : Counts}

/-- Rows with this status. -/
def tally (j : Journal) (st : FindStatus) : Nat := j.rows.countP (·.status == st)

/-- Rows of two different statuses are counted one status after the other. -/
theorem countP_or {st st' : FindStatus} (h : st ≠ st') :
    (j.rows.countP fun r => r.status == st || r.status == st') = tally j st + tally j st' := by
  unfold Finds.tally
  induction j.rows with
  | nil => rfl
  | cons r rows ih =>
    simp only [List.countP_cons, ih]
    by_cases h₁ : r.status = st
    · simp [h₁, h]
      omega
    · simp [h₁]
      omega

/-- A row is a XEN11 or a XUNI, so the two kinds together make up every row that passes the test. -/
theorem countP_kinds (rows : List FindRecord) (Q : FindStatus → Bool) :
    (rows.countP fun r => Q r.status && r.payload.kind == .XEN11) +
      (rows.countP fun r => Q r.status && r.payload.kind == .XUNI) =
        rows.countP fun r => Q r.status := by
  induction rows with
  | nil => rfl
  | cons r rows ih =>
    simp only [List.countP_cons, ← ih]
    cases r.payload.kind with
    | XEN11 => simp; omega
    | XUNI => simp; omega

/-- What the fields of `counts` count. -/
structure CountsOf (j : Journal) (n : Counts) : Prop where
  pending : n.pending = tally j .Pending
  parked : n.parked = tally j .ParkedDifficulty + tally j .ParkedXuniWindow
  parked_difficulty : n.parked_difficulty = tally j .ParkedDifficulty
  parked_xuni : n.parked_xuni = tally j .ParkedXuniWindow
  quarantined : n.quarantined = tally j .Quarantined
  acked_total : n.acked_total = tally j .Acked
  dead_total : n.dead_total = tally j .Dead
  accepted_unconfirmed : n.accepted_unconfirmed = tally j .AcceptedUnconfirmed
  permanently_invalid : n.permanently_invalid = tally j .PermanentlyInvalid
  queued : n.queued_xen11 + n.queued_xuni = tally j .Pending + tally j .AcceptedUnconfirmed

/-- What `counts` returns is the count of the journal's rows, whatever the order of the groups. -/
theorem counts_spec (hj : Holds t j)
    (hg : Grouping (fun row : Columns => (row.status, row.kind)) t gs) (hn : counts gs = some n) :
    CountsOf j n := by
  have status : ∀ (r : Counts → Nat) (st : FindStatus), r {} = 0 →
      (∀ c s k n, r (c.add s k n) = r c + if s == st then n else 0) → r n = tally j st :=
    fun r st h0 hadd => counts_field (Q := fun s _ => s == st) hadd h0 hj hg hn
  -- parked is the one field that sums two statuses
  have parked : n.parked =
      j.rows.countP fun r => r.status == .ParkedDifficulty || r.status == .ParkedXuniWindow :=
    counts_field (r := Counts.parked)
      (Q := fun s _ => s == .ParkedDifficulty || s == .ParkedXuniWindow)
      (fun c s k n => by cases s <;> cases k <;> rfl) rfl hj hg hn
  have kind : ∀ (r : Counts → Nat) (kd : FindKind), r {} = 0 →
      (∀ c s k n, r (c.add s k n) =
        r c + if (s == .Pending || s == .AcceptedUnconfirmed) && k == kd then n else 0) →
      r n = j.rows.countP fun row =>
        (row.status == .Pending || row.status == .AcceptedUnconfirmed) && row.payload.kind == kd :=
    fun r kd h0 hadd => counts_field
      (Q := fun s k => (s == .Pending || s == .AcceptedUnconfirmed) && k == kd) hadd h0 hj hg hn
  refine ⟨?_, ?_, ?_, ?_, ?_, ?_, ?_, ?_, ?_, ?_⟩
  · exact status Counts.pending _ rfl fun c s k n => by cases s <;> cases k <;> rfl
  · rw [parked, countP_or (by decide)]
  · exact status Counts.parked_difficulty _ rfl fun c s k n => by cases s <;> cases k <;> rfl
  · exact status Counts.parked_xuni _ rfl fun c s k n => by cases s <;> cases k <;> rfl
  · exact status Counts.quarantined _ rfl fun c s k n => by cases s <;> cases k <;> rfl
  · exact status Counts.acked_total _ rfl fun c s k n => by cases s <;> cases k <;> rfl
  · exact status Counts.dead_total _ rfl fun c s k n => by cases s <;> cases k <;> rfl
  · exact status Counts.accepted_unconfirmed _ rfl fun c s k n => by cases s <;> cases k <;> rfl
  · exact status Counts.permanently_invalid _ rfl fun c s k n => by cases s <;> cases k <;> rfl
  · rw [kind Counts.queued_xen11 .XEN11 rfl fun c s k n => by cases s <;> cases k <;> rfl,
      kind Counts.queued_xuni .XUNI rfl fun c s k n => by cases s <;> cases k <;> rfl,
      countP_kinds j.rows fun s => s == .Pending || s == .AcceptedUnconfirmed,
      countP_or (by decide)]

/-- What the statistics count. -/
structure StatsOf (j : Journal) (s : RecoveryStats) : Prop where
  pending : s.pending = tally j .Pending
  accepted_unconfirmed : s.accepted_unconfirmed = tally j .AcceptedUnconfirmed
  parked_difficulty : s.parked_difficulty = tally j .ParkedDifficulty
  parked_xuni : s.parked_xuni = tally j .ParkedXuniWindow
  quarantined : s.quarantined = tally j .Quarantined
  acked : s.acked = tally j .Acked
  dead : s.dead = tally j .Dead
  invalid : s.invalid = tally j .PermanentlyInvalid

/-- The statistics of `recoverOnStartup` are the counts of the journal's rows, group by group. -/
theorem recoveryStats_spec (hj : Holds t j) {gs : List (Bytes × Nat)}
    (hg : Grouping (fun row : Columns => row.status) t gs) {s : RecoveryStats}
    (hs : recoveryStats gs = some s) : StatsOf j s := by
  have status : ∀ (r : RecoveryStats → Nat) (st : FindStatus), r {} = 0 →
      (∀ c s n, r (c.add s n) = r c + if s == st then n else 0) → r s = tally j st :=
    fun r st h0 hadd => recoveryStats_field (Q := fun s => s == st) hadd h0 hj hg hs
  refine ⟨?_, ?_, ?_, ?_, ?_, ?_, ?_, ?_⟩
  · exact status RecoveryStats.pending _ rfl fun c s n => by cases s <;> rfl
  · exact status RecoveryStats.accepted_unconfirmed _ rfl fun c s n => by cases s <;> rfl
  · exact status RecoveryStats.parked_difficulty _ rfl fun c s n => by cases s <;> rfl
  · exact status RecoveryStats.parked_xuni _ rfl fun c s n => by cases s <;> rfl
  · exact status RecoveryStats.quarantined _ rfl fun c s n => by cases s <;> rfl
  · exact status RecoveryStats.acked _ rfl fun c s n => by cases s <;> rfl
  · exact status RecoveryStats.dead _ rfl fun c s n => by cases s <;> rfl
  · exact status RecoveryStats.invalid _ rfl fun c s n => by cases s <;> rfl

/-- What the submission core reads of the counts. -/
theorem counts_core (hn : CountsOf j n) : j.counts.pending = n.pending ∧
    j.counts.parked = n.parked ∧ j.counts.accepted_unconfirmed = n.accepted_unconfirmed ∧
    j.counts.quarantined = n.quarantined := by
  refine ⟨hn.pending.symm, ?_, hn.accepted_unconfirmed.symm, hn.quarantined.symm⟩
  rw [hn.parked, ← countP_or (by decide)]
  rfl

end Accounts

/-- Nothing is `Submitting`, so recovery moves no row. -/
theorem tally_recoverOnStartup {j : Journal} (h : ∀ r ∈ j.rows, r.status ≠ .Submitting)
    (st : FindStatus) : tally j.recoverOnStartup st = tally j st := by
  have hrows : j.recoverOnStartup.rows = j.rows := by
    conv_rhs => rw [← List.map_id j.rows]
    exact List.map_congr_left fun r hr => if_neg (h r hr)
  unfold Finds.tally
  rw [hrows]

section Fidelity

variable {limit : Nat} {t t' : List Columns} {j : Journal} {p : FoundPayload} {id : Int}

/-- A payload whose texts have no NUL is read back as it was bound; only the rate may have changed.
-/
theorem cText_bound (hp : ∀ value ∈ texts p, Bound value) :
    (Journal.rowToRecord (Journal.newRow id p)).payload =
      { p with hashes_per_second := TreeMiner.bindDouble p.hashes_per_second } := by
  simp only [texts, List.forall_mem_cons] at hp
  obtain ⟨hkey, hhash, haccount, hworker, hfound, -⟩ := hp
  unfold Journal.rowToRecord Journal.newRow Journal.stored
  dsimp only
  rw [Journal.cText_noNul hkey.1, Journal.cText_noNul hhash.1, Journal.cText_noNul haccount.1,
    Journal.cText_noNul hworker.1, Journal.cText_noNul hfound.1]

/-- The row that has the id, read back. -/
theorem getById_holds (hj : Holds t j) {r : FindRecord} (hr : j.byId id = some r) :
    ∃ rec, getById t id = some (some rec) ∧ rec.id = r.id ∧ rec.status = r.status ∧
      rec.payload = (Journal.rowToRecord r).payload := by
  rcases find_holds (P := (·.id = id)) (Q := (·.id = id)) (fun row r h => by rw [h.id]) hj with
    ⟨-, hnone⟩ | ⟨row, r', hfind, hsome, hrow⟩
  · rw [show j.rows.find? _ = some r from hr] at hnone
    cases hnone
  · rw [show j.rows.find? _ = some r from hr] at hsome
    cases hsome
    obtain ⟨rec, hread, h⟩ := rowToRecord_payload hrow
    refine ⟨rec, ?_, h⟩
    unfold getById
    rw [hfind]
    dsimp only
    rw [hread]
    rfl

/-- A new find is read back as it was appended, but for a rate that SQLite does not store. -/
theorem append_new (hp : ∀ value ∈ texts p, Bound value) (hj : Holds t j)
    (hnew : j.byKey p.key = none) (h : append limit t p = some (id, t')) :
    ∃ rec, getById t' id = some (some rec) ∧ rec.id = id ∧
      rec.payload = { p with hashes_per_second := TreeMiner.bindDouble p.hashes_per_second } := by
  obtain ⟨rfl, hj', -⟩ := append_holds hp hj h
  have hrow : (j.append p).2.byId (j.append p).1 = some (Journal.newRow (j.append p).1 p) := by
    have hmem : Journal.newRow (Journal.nextId j.rows) p ∈ (j.append p).2.rows :=
      Journal.mem_append.mpr (Or.inr ⟨hnew, rfl⟩)
    have hid : (j.append p).1 = Journal.nextId j.rows := by
      unfold Journal.append
      split
      next r hr =>
        rw [hnew] at hr
        cases hr
      next => rfl
    rw [hid]
    exact Journal.byId_of_mem hmem
  obtain ⟨rec, hget, hrid, -, hpay⟩ := getById_holds hj' hrow
  exact ⟨rec, hget, hrid, hpay.trans (cText_bound hp)⟩

/-- A find that is there already changes nothing. -/
theorem append_old (hp : ∀ value ∈ texts p, Bound value) (hj : Holds t j) {r : FindRecord}
    (hr : r ∈ j.rows) (hk : r.payload.key = p.key) (h : append limit t p = some (id, t')) :
    id = r.id ∧ t' = t := by
  -- the key decides: the row with this key is the one the INSERT runs into
  have hby : j.byKey p.key = some r := by
    cases hb : j.byKey p.key with
    | none => exact absurd hk (by simpa using List.find?_eq_none.mp hb r hr)
    | some r' =>
      obtain ⟨hr', hk'⟩ := Journal.byKey_mem hb
      rw [Journal.eq_of_key hr' hr (hk'.trans hk.symm)]
  obtain ⟨rfl, -, hsame⟩ := append_holds hp hj h
  constructor
  · unfold Journal.append
    split
    next r' hr' =>
      rw [hby] at hr'
      cases hr'
      rfl
    next hnone =>
      rw [hby] at hnone
      cases hnone
  · rcases hsame with hnone | hsame
    · rw [hby] at hnone
      cases hnone
    · exact hsame

end Fidelity

end Finds

open Finds in
/-- **Journal fidelity and accounting.** For every reachable journal and every table that stores
its rows, and for every payload whose texts have no NUL and fewer than 2^32 bytes: an `append`
that returns gives a find with a new key a row that `getById` reads back with the payload that
was appended, up to a rate that is NaN or -0.0 and comes back as 0.0; a find whose key is there
already gets the id of its row and leaves the table as it is. `counts`, over the groups in any
order, partitions the rows, and the statistics of `recoverOnStartup` are the same numbers. -/
theorem journal_fidelity (cfg : Config) (tr : Trace) (c : Configuration)
    (hr : Run (core cfg) (start cfg) tr c) :
    (∃ t, Holds t c.world.journal) ∧
    ∀ t, Holds t c.world.journal →
      (∀ limit p id t', (∀ value ∈ texts p, 0 ∉ value ∧ value.length < 4294967296) →
        append limit t p = some (id, t') →
        (c.world.journal.byKey p.key = none → ∃ rec, getById t' id = some (some rec) ∧
          rec.id = id ∧
          rec.payload = { p with hashes_per_second := rec.payload.hashes_per_second } ∧
          (rec.payload.hashes_per_second = if p.hashes_per_second.isNaN ||
            p.hashes_per_second.isNegZero then ⟨0#64⟩ else p.hashes_per_second)) ∧
        (∀ r ∈ c.world.journal.rows, r.payload.key = p.key → id = r.id ∧ t' = t)) ∧
      ∀ gs, Grouping (fun row : Columns => (row.status, row.kind)) t gs →
        ∃ n, counts gs = some n ∧
          n.pending + n.parked + n.quarantined + n.acked_total + n.dead_total +
            n.accepted_unconfirmed + n.permanently_invalid = t.length ∧
          n.parked = n.parked_difficulty + n.parked_xuni ∧
          n.queued_xen11 + n.queued_xuni = n.pending + n.accepted_unconfirmed ∧
          (c.world.journal.counts.pending = n.pending ∧
            c.world.journal.counts.parked = n.parked ∧
            c.world.journal.counts.accepted_unconfirmed = n.accepted_unconfirmed ∧
            c.world.journal.counts.quarantined = n.quarantined) ∧
          ∀ gs', Grouping (fun row : Columns => row.status) (recover t) gs' →
            ∃ s, recoveryStats gs' = some s ∧ s.pending = n.pending ∧
              s.accepted_unconfirmed = n.accepted_unconfirmed ∧
              s.parked_difficulty = n.parked_difficulty ∧ s.parked_xuni = n.parked_xuni ∧
              s.quarantined = n.quarantined ∧ s.acked = n.acked_total ∧
                s.dead = n.dead_total ∧
              s.invalid = n.permanently_invalid := by
  refine ⟨exists_holds _, fun t hj => ⟨?_, ?_⟩⟩
  -- the INSERT: a new key is stored and read back, a known one changes nothing
  · intro limit p id t' hp h
    constructor
    · intro hnew
      obtain ⟨rec, hget, hid, hpay⟩ := append_new hp hj hnew h
      refine ⟨rec, hget, hid, ?_, ?_⟩
      · rw [hpay]
      · rw [hpay]
        rfl
    · intro r hrow hk
      exact append_old hp hj hrow hk h
  -- the counts, for whatever order the groups come in
  · intro gs hg
    obtain ⟨n, hn⟩ := counts_isSome hj hg
    have hof := counts_spec hj hg hn
    have hsub := run_submitting hr
    have hlen := length_eq_countP _ hsub
    rw [← List.Forall₂.length_eq hj] at hlen
    refine ⟨n, hn, ?_, ?_, ?_, counts_core hof, ?_⟩
    · rw [hlen, hof.pending, hof.parked, hof.quarantined, hof.acked_total, hof.dead_total,
        hof.accepted_unconfirmed, hof.permanently_invalid]
      unfold Finds.tally
      omega
    · rw [hof.parked, hof.parked_difficulty, hof.parked_xuni]
    · rw [hof.queued, hof.pending, hof.accepted_unconfirmed]
    -- recovery moves rows between no two of the statuses that are counted
    · intro gs' hg'
      obtain ⟨s, hs⟩ := recoveryStats_isSome (recover_holds hj) hg'
      have hst := recoveryStats_spec (recover_holds hj) hg' hs
      have hsame := tally_recoverOnStartup hsub
      refine ⟨s, hs, ?_, ?_, ?_, ?_, ?_, ?_, ?_, ?_⟩
      · rw [hst.pending, hsame, hof.pending]
      · rw [hst.accepted_unconfirmed, hsame, hof.accepted_unconfirmed]
      · rw [hst.parked_difficulty, hsame, hof.parked_difficulty]
      · rw [hst.parked_xuni, hsame, hof.parked_xuni]
      · rw [hst.quarantined, hsame, hof.quarantined]
      · rw [hst.acked, hsame, hof.acked_total]
      · rw [hst.dead, hsame, hof.dead_total]
      · rw [hst.invalid, hsame, hof.permanently_invalid]

namespace Finds

/-- A find whose rate is NaN. -/
def nanFind : FoundPayload := { sampleFind with hashes_per_second := ⟨0x7ff8000000000000#64⟩ }

/-- A worker name of 2^32 letters. -/
def longWorker : Bytes := List.replicate 4294967296 97

theorem longWorker_length : longWorker.length = 4294967296 := List.length_replicate

/-- The length of this name is 0 as an `int`, and SQLite binds the empty text. -/
theorem bindTextOrNull_longWorker : bindTextOrNull 1000000000 longWorker = some (some []) := by
  have hne : longWorker ≠ [] := by
    intro h
    have hlen := longWorker_length
    rw [h] at hlen
    cases hlen
  have hsize : intOfSize longWorker.length = 0 := by
    rw [longWorker_length]
    decide
  unfold bindTextOrNull bindText
  rw [if_neg hne, hsize]
  rfl

/-- The row of the sample find, with another worker and another rate. -/
def sampleRow (worker : Option Bytes) (rate : Option Double) : Columns where
  id := 1
  key := lit "k1"
  hash_to_verify := lit "h1"
  account := lit "0xa"
  kind := FindKind.text .XEN11
  m := 100
  worker := worker
  attempts := some 7
  hashes_per_second := rate
  found_at := lit "1970-01-01T00:30:00Z"
  status := FindStatus.text .Pending
  status_reason := none
  attempt_count := 0
  next_attempt_at := none
  last_attempt_at := none
  last_http_status := none
  last_response := none
  confirmed_at := none
  xuni_windows_tried := 0

/-- The row of the sample find with another id, key, worker and rate. -/
theorem insertRow_sample {id : Int} {key worker : Bytes} {column : Option Bytes} {rate : Double}
    (hk : bindText 1000000000 key = some key)
    (hw : bindTextOrNull 1000000000 worker = some column) :
    insertRow 1000000000 id
        { sampleFind with key := key, worker := worker, hashes_per_second := rate } =
      some { sampleRow column (bindDouble rate) with id := id, key := key } := by
  have hhash : bindText 1000000000 sampleFind.hash_to_verify = some (lit "h1") := by decide
  have haccount : bindText 1000000000 sampleFind.account = some (lit "0xa") := by decide
  have hkind : bindText 1000000000 sampleFind.kind.text = some (FindKind.text .XEN11) := by decide
  have hfound : bindText 1000000000 sampleFind.found_at_utc =
      some (lit "1970-01-01T00:30:00Z") := by decide
  have hstatus : bindText 1000000000 (Journal.initialStatus sampleFind).1.text =
      some (FindStatus.text .Pending) := by decide
  have hreason : bindTextOrNull 1000000000 (Journal.initialStatus sampleFind).2 = some none := by
    decide
  have hinitial : Journal.initialStatus
      { sampleFind with key := key, worker := worker, hashes_per_second := rate } =
        Journal.initialStatus sampleFind := rfl
  unfold insertRow
  rw [hinitial]
  dsimp only
  rw [hk, hhash, haccount, hkind, hw, hfound, hstatus, hreason]
  rfl

/-- The sample find on an empty table, for whatever its worker and its rate are bound to. -/
theorem append_sample {worker : Bytes} {column : Option Bytes} {rate : Double}
    (hw : bindTextOrNull 1000000000 worker = some column) :
    append 1000000000 [] { sampleFind with worker := worker, hashes_per_second := rate } =
      some (1, [sampleRow column (bindDouble rate)]) := by
  have hkey : bindText 1000000000 (lit "k1") = some (lit "k1") := by decide
  have hrow : insertRow 1000000000 (nextId [])
      { sampleFind with key := lit "k1", worker := worker, hashes_per_second := rate } = _ :=
    insertRow_sample hkey hw
  unfold append
  rw [show ({ sampleFind with worker := worker, hashes_per_second := rate } : FoundPayload) =
    { sampleFind with key := lit "k1", worker := worker, hashes_per_second := rate } from rfl, hrow]
  rfl

/-- The row is read back, with NULL for the empty text and for 0.0. -/
theorem getById_sample (column : Option Bytes) (rate : Option Double) :
    ∃ rec, getById [sampleRow column rate] 1 = some (some rec) ∧
      rec.payload.worker = columnText column ∧
      rec.payload.hashes_per_second = columnDouble rate := by
  have hget : getById [sampleRow column rate] 1 = (rowToRecord (sampleRow column rate)).map some :=
    rfl
  rw [hget]
  unfold rowToRecord sampleRow
  dsimp only
  rw [kindFromString_text, statusFromString_text]
  exact ⟨_, rfl, rfl, rfl⟩

end Finds

open Finds in
/-- A NaN rate comes back as 0.0, and a worker name of 2^32 letters as the empty text. -/
theorem journal_fidelity_lossy :
    (∃ t' rec, append 1000000000 [] nanFind = some (1, t') ∧ getById t' 1 = some (some rec) ∧
      rec.payload.hashes_per_second ≠ nanFind.hashes_per_second) ∧
    (∃ t' rec, append 1000000000 [] { sampleFind with worker := longWorker } = some (1, t') ∧
      getById t' 1 = some (some rec) ∧ rec.payload.worker ≠ longWorker) ∧
    ¬∀ (cfg : Config) (tr : Trace) (c : Configuration), Run (core cfg) (start cfg) tr c →
      ∀ t, Holds t c.world.journal → ∀ limit p id t', (∀ value ∈ texts p, 0 ∉ value) →
        append limit t p = some (id, t') → c.world.journal.byKey p.key = none →
        ∃ rec, getById t' id = some (some rec) ∧ rec.payload = p := by
  -- a NaN and a name of 2^32 bytes, each stored as something else
  have hnan : append 1000000000 [] nanFind = some (1, [sampleRow (some (lit "w")) none]) :=
    append_sample (by decide)
  have hlong : append 1000000000 [] { sampleFind with worker := longWorker } =
      some (1, [sampleRow (some []) (some ⟨0#64⟩)]) :=
    append_sample bindTextOrNull_longWorker
  obtain ⟨rec, hget, -, hrate⟩ := getById_sample (some (lit "w")) none
  have hne : rec.payload.hashes_per_second ≠ nanFind.hashes_per_second := by
    rw [hrate]
    decide
  refine ⟨⟨_, rec, hnan, hget, hne⟩, ?_, ?_⟩
  · obtain ⟨rec, hget, hworker, -⟩ := getById_sample (some []) (some ⟨0#64⟩)
    refine ⟨_, rec, hlong, hget, fun h => ?_⟩
    have hlen : longWorker.length = 0 := by
      rw [← h, hworker]
      rfl
    rw [longWorker_length] at hlen
    cases hlen
  · intro hall
    obtain ⟨rec', hget', heq⟩ :=
      hall {} [] (start {}) (.nil _) [] List.Forall₂.nil _ _ _ _ (by decide) hnan rfl
    rw [hget] at hget'
    cases hget'
    rw [heq] at hne
    exact hne rfl

open Interleave in
/-- A mining thread appends the sample find. -/
def oneAppend : List (Choice Party Input Call) :=
  [.start (.miner 0) (.append sampleFind), .act (.miner 0) .nothing]

private theorem oneAppend_possible : ((core {}).replay (start {}) oneAppend).isSome = true := by
  decide

open Finds in
/-- The table after that. -/
def sampleTable : List Columns := [sampleRow (some (lit "w")) (some ⟨0#64⟩)]

open Finds in
/-- On a database with a row, which another find joins; the find whose key is there changes
nothing. -/
theorem journal_fidelity_sample :
    ∃ tr c, Run (core {}) (start {}) tr c ∧ Holds sampleTable c.world.journal ∧
      (∃ t' rec, append 1000000000
        sampleTable { sampleFind with key := lit "k2" } = some (2, t') ∧
        t'.length = 2 ∧ getById t' 2 = some (some rec) ∧
        rec.payload.attempts = sampleFind.attempts) ∧
      ∃ id t', append 1000000000 sampleTable sampleFind = some (id, t') ∧ id = 1 ∧
        t' = sampleTable := by
  have hr := Machine.replay_get oneAppend_possible
  have hrows : (((core {}).replay (start {}) oneAppend).get
      oneAppend_possible).2.world.journal.rows = [Journal.newRow 1 sampleFind] := by decide
  have hholds : Holds sampleTable (((core {}).replay (start {}) oneAppend).get
      oneAppend_possible).2.world.journal := by
    unfold Holds
    rw [hrows]
    refine .cons ?_ .nil
    constructor <;> rfl
  -- a second key is new to this table, the first one is known
  obtain ⟨happend, -⟩ := (journal_fidelity {} _ _ hr).2 sampleTable hholds
  have hworker : bindTextOrNull 1000000000 (lit "w") = some (some (lit "w")) := by decide
  have hnew : append 1000000000 sampleTable { sampleFind with key := lit "k2" } =
      some (2, sampleTable ++
        [{ sampleRow (some (lit "w")) (some ⟨0#64⟩) with id := 2, key := lit "k2" }]) := by
    unfold append
    rw [show ({ sampleFind with key := lit "k2" } : FoundPayload) =
      { sampleFind with key := lit "k2", worker := lit "w", hashes_per_second :=
        ⟨0#64⟩ } from rfl,
      insertRow_sample (by decide) hworker]
    rfl
  have hknown : append 1000000000 sampleTable sampleFind = some (1, sampleTable) := by
    unfold append
    rw [show (sampleFind : FoundPayload) =
      { sampleFind with key := lit "k1", worker := lit "w", hashes_per_second := ⟨0#64⟩ }
        from rfl,
      insertRow_sample (by decide) hworker]
    rfl
  have habsent : (((core {}).replay (start {}) oneAppend).get
      oneAppend_possible).2.world.journal.byKey (lit "k2") = none := by
    unfold Journal.byKey
    rw [hrows]
    decide
  obtain ⟨rec, hget, -, hpay, -⟩ := (happend _ _ _ _ (by decide) hnew).1 habsent
  refine ⟨_, _, hr, hholds, ⟨_, rec, hnew, rfl, hget, ?_⟩, 1, _, hknown, ?_⟩
  · rw [hpay]
  · exact (happend _ _ _ _ (by decide) hknown).2 (Journal.newRow 1 sampleFind)
      (by rw [hrows]; exact List.mem_singleton.mpr rfl) rfl

end TreeMiner
