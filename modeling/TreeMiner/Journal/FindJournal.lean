import Mathlib.Data.Int.Order.Basic
import Mathlib.Data.List.Nodup
import TreeMiner.Submit.Types

/-!
# `FindJournal.cpp`: the durable find journal

One SQLite table. A `Journal` is its committed content, with the two
constraints the schema declares as fields: `id` is the primary key, handed out
in increasing order, and `key` is UNIQUE. Each member function is one statement
or one `BEGIN IMMEDIATE … COMMIT`, so each is one function from journal to
journal; `none` is a `JournalError`.

Every statement but the INSERT rewrites rows in place (`Journal.update`) and
leaves `id` and the payload columns alone. That is the whole reason a find
cannot be lost or altered: `Journal.Ext` says it once for all operations.

Columns are held as they read back: an absent text is empty, and the NULL that
SQLite stores for a NaN rate is 0.0, as is -0.0. Reading a text column stops at a
NUL byte (`rowToRecord`).
-/

namespace TreeMiner

open Cxx

def kMaxHashToVerifyLength : Nat := 150

/-- NaN: all-ones exponent and a non-zero fraction. -/
def Double.isNaN (d : Double) : Bool := !d.isFinite && d.bits.extractLsb' 0 52 != 0#52

/-- `-0.0`. -/
def Double.isNegZero (d : Double) : Bool := d.bits == 0x8000000000000000#64

/-- What a REAL column reads back: NaN is stored as NULL, which reads as 0.0, and integral values
as integers, which loses the sign of zero. -/
def bindDouble (d : Double) : Double := if d.isNaN || d.isNegZero then ⟨0#64⟩ else d

/-- `memcmp` order of the BINARY collation. -/
def textLe : Bytes → Bytes → Bool
  | [], _ => true
  | _ :: _, [] => false
  | a :: s, b :: t => a < b || (a == b && textLe s t)

/-- The finds table and the difficulty log. -/
structure Journal where
  rows : List FindRecord
  difficulty_seen : List (Bytes × UInt32)
  ids_sorted : (rows.map (·.id)).Pairwise (· < ·)
  keys_nodup : (rows.map (·.payload.key)).Nodup

namespace Journal

/-- A fresh database file. -/
def empty : Journal := ⟨[], [], List.Pairwise.nil, List.nodup_nil⟩

/-- The row with this id. -/
def byId (j : Journal) (id : Int) : Option FindRecord := j.rows.find? (·.id = id)

/-- The row with this key. -/
def byKey (j : Journal) (key : Bytes) : Option FindRecord := j.rows.find? (·.payload.key = key)

/-- The rowid SQLite picks: one more than the largest in use. -/
def nextId (rows : List FindRecord) : Int := rows.foldr (fun r m => max r.id m) 0 + 1

/-- A new id is above all of the table. -/
theorem lt_nextId {rows : List FindRecord} {r : FindRecord} (hr : r ∈ rows) :
    r.id < nextId rows := by
  have h : r.id ≤ rows.foldr (fun r m => max r.id m) 0 := by
    induction rows with
    | nil => cases hr
    | cons x xs ih =>
      rcases List.mem_cons.mp hr with rfl | hx
      · exact le_max_left _ _
      · exact le_trans (ih hx) (le_max_right _ _)
  unfold nextId
  omega

/-- A row found by its id is in the table and has that id. -/
theorem byId_mem {j : Journal} {id : Int} {r : FindRecord} (h : j.byId id = some r) :
    r ∈ j.rows ∧ r.id = id := by
  refine ⟨List.mem_of_find?_eq_some h, ?_⟩
  simpa using List.find?_some h

/-- A row found by its key is in the table and has that key. -/
theorem byKey_mem {j : Journal} {key : Bytes} {r : FindRecord} (h : j.byKey key = some r) :
    r ∈ j.rows ∧ r.payload.key = key := by
  refine ⟨List.mem_of_find?_eq_some h, ?_⟩
  simpa using List.find?_some h

/-- The primary key is unique. -/
theorem eq_of_id {j : Journal} {r s : FindRecord} (hr : r ∈ j.rows) (hs : s ∈ j.rows)
    (h : r.id = s.id) : r = s :=
  List.inj_on_of_nodup_map (j.ids_sorted.imp fun h => ne_of_lt h) hr hs h

/-- UNIQUE(key). -/
theorem byId_of_mem {j : Journal} {r : FindRecord} (hr : r ∈ j.rows) : j.byId r.id = some r := by
  cases h : j.byId r.id with
  | none => exact absurd (List.find?_eq_none.mp h r hr) (by simp)
  | some r' =>
    obtain ⟨hm, hid⟩ := byId_mem h
    rw [eq_of_id hm hr hid]

/-- Keys are unique, so that two rows with one key are one row. -/
theorem eq_of_key {j : Journal} {r s : FindRecord} (hr : r ∈ j.rows) (hs : s ∈ j.rows)
    (h : r.payload.key = s.payload.key) : r = s :=
  List.inj_on_of_nodup_map j.keys_nodup hr hs h

/-- An UPDATE: rows are rewritten in place, their id and payload columns kept. -/
def update (j : Journal) (f : FindRecord → FindRecord)
    (hid : ∀ r, (f r).id = r.id) (hp : ∀ r, (f r).payload = r.payload) : Journal :=
  { j with
    rows := j.rows.map f
    ids_sorted := by
      have h : (j.rows.map f).map (·.id) = j.rows.map (·.id) := by
        rw [List.map_map]
        exact List.map_congr_left fun r _ => hid r
      rw [h]
      exact j.ids_sorted
    keys_nodup := by
      have h : (j.rows.map f).map (·.payload.key) = j.rows.map (·.payload.key) := by
        rw [List.map_map]
        exact List.map_congr_left fun r _ => congrArg FoundPayload.key (hp r)
      rw [h]
      exact j.keys_nodup }

/-! ## `append` -/

/-- The status and the reason `append` gives a new row. -/
def initialStatus (p : FoundPayload) : FindStatus × Bytes :=
  if p.hash_to_verify.length > kMaxHashToVerifyLength then
    (.PermanentlyInvalid, lit "hash_to_verify length " ++ toDecimal p.hash_to_verify.length ++
      lit " exceeds server limit of " ++ toDecimal kMaxHashToVerifyLength)
  else if p.account = [] then (.PermanentlyInvalid, lit "account is empty")
  else (.Pending, [])

/-- The payload columns of a new row. -/
def stored (p : FoundPayload) : FoundPayload :=
  { p with hashes_per_second := bindDouble p.hashes_per_second }

/-- The row `append` inserts. -/
def newRow (id : Int) (p : FoundPayload) : FindRecord where
  id := id
  payload := stored p
  status := (initialStatus p).1
  status_reason := (initialStatus p).2
  attempt_count := 0
  next_attempt_at := none
  last_attempt_at := none
  last_http_status := none
  last_response := []
  confirmed_at := none
  xuni_windows_tried := 0

/-- `FindJournal::append`: INSERT … ON CONFLICT(key) DO NOTHING, and the id of
the row that has the key afterwards. -/
def append (j : Journal) (p : FoundPayload) : Int × Journal :=
  match h : j.byKey p.key with
  | some r => (r.id, j)
  | none =>
    (nextId j.rows,
      { j with
        rows := j.rows ++ [newRow (nextId j.rows) p]
        ids_sorted := by
          rw [List.map_append, List.pairwise_append]
          refine ⟨j.ids_sorted, List.pairwise_singleton _ _, ?_⟩
          intro a ha b hb
          obtain ⟨r, hr, rfl⟩ := List.mem_map.mp ha
          rw [List.map_singleton, List.mem_singleton] at hb
          rw [hb]
          exact lt_nextId hr
        keys_nodup := by
          rw [List.map_append, List.nodup_append]
          refine ⟨j.keys_nodup, List.nodup_singleton _, ?_⟩
          intro a ha b hb hab
          obtain ⟨r, hr, rfl⟩ := List.mem_map.mp ha
          rw [List.map_singleton, List.mem_singleton] at hb
          have hn := List.find?_eq_none.mp h r hr
          exact hn (by simpa [hb, newRow, stored] using hab) })

/-! ## Reading -/

/-- A `std::string` built from a C string. -/
def cText (s : Bytes) : Bytes := s.takeWhile (· != 0)

/-- A text without NUL is read as a C string in full. -/
theorem cText_noNul {s : Bytes} (h : 0 ∉ s) : cText s = s := by
  have hall : ∀ c ∈ s, (c != 0) = true := by
    intro c hc
    refine bne_iff_ne.mpr ?_
    rintro rfl
    exact h hc
  have happ : (s ++ []).takeWhile (fun c => c != 0) = s ++ _ := List.takeWhile_append_of_pos hall
  rwa [List.append_nil, List.takeWhile_nil, List.append_nil] at happ

/-- `rowToRecord`. -/
def rowToRecord (r : FindRecord) : FindRecord :=
  { r with
    payload := { r.payload with
      key := cText r.payload.key
      hash_to_verify := cText r.payload.hash_to_verify
      account := cText r.payload.account
      worker := cText r.payload.worker
      found_at_utc := cText r.payload.found_at_utc }
    status_reason := cText r.status_reason
    next_attempt_at := r.next_attempt_at.map cText
    last_attempt_at := r.last_attempt_at.map cText
    last_response := cText r.last_response
    confirmed_at := r.confirmed_at.map cText }

/-- `fetchByStatusLocked`. -/
def fetchByStatus (j : Journal) (status : FindStatus) (kind : Option FindKind) (now_utc : Bytes)
    (limit : Nat) : List FindRecord :=
  ((j.rows.filter fun r =>
    r.status == status && (kind.all (r.payload.kind == ·)) &&
      r.next_attempt_at.all (textLe · now_utc)).take limit).map rowToRecord

/-- `fetchEligibleOfKind`. -/
def fetchEligibleOfKind (j : Journal) (kind : FindKind) (now_utc : Bytes) (limit : Nat) :
    List FindRecord :=
  j.fetchByStatus .Pending (some kind) now_utc limit

/-- `fetchAwaitingConfirmation`. -/
def fetchAwaitingConfirmation (j : Journal) (now_utc : Bytes) (limit : Nat) : List FindRecord :=
  j.fetchByStatus .AcceptedUnconfirmed none now_utc limit

/-- `IFindJournal::Counts`, as far as the submission core reads it. -/
structure Counts where
  pending : Nat
  parked : Nat
  accepted_unconfirmed : Nat
  quarantined : Nat

/-- `counts`. -/
def counts (j : Journal) : Counts where
  pending := j.rows.countP (·.status == .Pending)
  parked := j.rows.countP fun r => r.status == .ParkedDifficulty || r.status == .ParkedXuniWindow
  accepted_unconfirmed := j.rows.countP (·.status == .AcceptedUnconfirmed)
  quarantined := j.rows.countP (·.status == .Quarantined)

/-! ## Writing -/

/-- The SET clause of `recordAttempt`. -/
def attempted (c : Classification) (http_status : Option Int) (response_body : Bytes)
    (next_attempt_at : Option Bytes) (now_utc : Bytes) (r : FindRecord) : FindRecord :=
  { r with
    status := c.next_status
    status_reason := c.reason
    attempt_count := r.attempt_count + 1
    last_attempt_at := some now_utc
    last_http_status := http_status
    last_response := response_body
    next_attempt_at := next_attempt_at
    confirmed_at :=
      if c.next_status = .Acked then some (r.confirmed_at.getD now_utc) else r.confirmed_at }

/-- `FindJournal::recordAttempt`; throws for `Submitting` and for an unknown id. -/
def recordAttempt (j : Journal) (id : Int) (c : Classification) (http_status : Option Int)
    (response_body : Bytes) (next_attempt_at : Option Bytes) (now_utc : Bytes) : Option Journal :=
  if c.next_status = .Submitting then none
  else if (j.byId id).isNone then none
  else
    some (j.update
      (fun r => if r.id = id then attempted c http_status response_body next_attempt_at now_utc r
        else r)
      (fun r => by split <;> rfl) (fun r => by split <;> rfl))

/-- `FindJournal::unparkForDifficulty`: `m >= current` becomes eligible again. -/
def unparkForDifficulty (j : Journal) (current_difficulty : UInt32) : Journal :=
  j.update
    (fun r =>
      if r.status = .ParkedDifficulty ∧ current_difficulty ≤ r.payload.memory_cost then
        { r with status := .Pending, next_attempt_at := none }
      else r)
    (fun r => by split <;> rfl) (fun r => by split <;> rfl)

/-- What one window opening does to a row: out of budget it is dead, else it
gets one more window. -/
def windowOpened (max_windows : Int) (r : FindRecord) : FindRecord :=
  if r.status = .ParkedXuniWindow then
    if r.xuni_windows_tried ≥ max_windows then
      { r with
        status := .Dead
        status_reason := lit "xuni window budget exhausted"
        next_attempt_at := none }
    else
      { r with
        status := .Pending
        xuni_windows_tried := r.xuni_windows_tried + 1
        next_attempt_at := none }
  else r

/-- `FindJournal::unparkXuniForWindow`: the two UPDATEs of its transaction. -/
def unparkXuniForWindow (j : Journal) (max_windows : Int) : Journal :=
  j.update (windowOpened max_windows)
    (fun r => by unfold windowOpened; split <;> [split <;> rfl; rfl])
    (fun r => by unfold windowOpened; split <;> [split <;> rfl; rfl])

/-- `FindJournal::recoverOnStartup`. -/
def recoverOnStartup (j : Journal) : Journal :=
  j.update (fun r => if r.status = .Submitting then { r with status := .Pending } else r)
    (fun r => by split <;> rfl) (fun r => by split <;> rfl)

/-- `FindJournal::recordDifficulty`. -/
def recordDifficulty (j : Journal) (difficulty : UInt32) (at_utc : Bytes) : Journal :=
  { j with difficulty_seen := j.difficulty_seen ++ [(at_utc, difficulty)] }

/-! ## What an operation does to the rows -/

/-- The rows after an update are the updated rows. -/
theorem mem_update {j : Journal} {f : FindRecord → FindRecord} {hid : ∀ r, (f r).id = r.id}
    {hp : ∀ r, (f r).payload = r.payload} {r' : FindRecord} :
    r' ∈ (j.update f hid hp).rows ↔ ∃ r ∈ j.rows, f r = r' :=
  List.mem_map

/-- The rows after the opening of a window, for those that waited for it. -/
theorem mem_unparkXuniForWindow {j : Journal} {n : Int} {r' : FindRecord} :
    r' ∈ (j.unparkXuniForWindow n).rows ↔ ∃ r ∈ j.rows, windowOpened n r = r' :=
  List.mem_map

/-- An append adds one row, or none when the key is known. -/
theorem mem_append {j : Journal} {p : FoundPayload} {r : FindRecord} :
    r ∈ (j.append p).2.rows ↔
      r ∈ j.rows ∨ (j.byKey p.key = none ∧ r = newRow (nextId j.rows) p) := by
  unfold append
  split
  next r₀ h =>
    simp [h]
  next h =>
    simp [h]

/-- The id `append` returns names the row that has the key afterwards; a new row
holds the payload as given. -/
theorem append_row {j : Journal} {p : FoundPayload} :
    ∃ r ∈ (j.append p).2.rows, r.id = (j.append p).1 ∧ r.payload.key = p.key ∧
      (j.byKey p.key = none → r.payload = stored p) := by
  unfold append
  split
  next r₀ h =>
    obtain ⟨hm, hk⟩ := byKey_mem h
    exact ⟨r₀, hm, rfl, hk, fun hn => by rw [hn] at h; cases h⟩
  next h =>
    refine ⟨newRow (nextId j.rows) p, ?_, rfl, rfl, fun _ => rfl⟩
    exact List.mem_append_right _ (List.mem_singleton.mpr rfl)

/-- What a recorded attempt is: the row is there, its next status is not `Submitting`, and only that
row has changed. -/
theorem recordAttempt_some {j j' : Journal} {id : Int} {c : Classification} {st : Option Int}
    {body : Bytes} {na : Option Bytes} {now : Bytes}
    (h : j.recordAttempt id c st body na now = some j') :
    c.next_status ≠ .Submitting ∧ (∃ r ∈ j.rows, r.id = id) ∧
    ∀ r', r' ∈ j'.rows ↔
      ∃ r ∈ j.rows, (if r.id = id then attempted c st body na now r else r) = r' := by
  unfold recordAttempt at h
  split at h
  · cases h
  next hs =>
    split at h
    · cases h
    next hid =>
      cases h
      refine ⟨hs, ?_, fun r' => mem_update⟩
      cases hb : j.byId id with
      | none => rw [hb] at hid; exact absurd rfl hid
      | some r => exact ⟨r, byId_mem hb⟩

/-- Every row is still there, under its id and with its payload. -/
def Ext (j j' : Journal) : Prop :=
  ∀ r ∈ j.rows, ∃ r' ∈ j'.rows, r'.id = r.id ∧ r'.payload = r.payload

/-- A journal is an extension of itself. -/
theorem Ext.refl {j : Journal} : Ext j j := fun r hr => ⟨r, hr, rfl, rfl⟩

/-- An extension of an extension is one. -/
theorem Ext.trans {j j' j'' : Journal} (h₁ : Ext j j') (h₂ : Ext j' j'') : Ext j j'' := by
  intro r hr
  obtain ⟨r', hr', hid, hp⟩ := h₁ r hr
  obtain ⟨r'', hr'', hid', hp'⟩ := h₂ r' hr'
  exact ⟨r'', hr'', hid'.trans hid, hp'.trans hp⟩

/-- An update keeps the rows with their ids and payloads. -/
theorem ext_update {j : Journal} {f : FindRecord → FindRecord} {hid : ∀ r, (f r).id = r.id}
    {hp : ∀ r, (f r).payload = r.payload} : Ext j (j.update f hid hp) :=
  fun r hr => ⟨f r, mem_update.mpr ⟨r, hr, rfl⟩, hid r, hp r⟩

/-- So does an append. -/
theorem ext_append {j : Journal} {p : FoundPayload} : Ext j (j.append p).2 :=
  fun r hr => ⟨r, mem_append.mpr (Or.inl hr), rfl, rfl⟩

/-- And the record of an attempt. -/
theorem ext_recordAttempt {j j' : Journal} {id : Int} {c : Classification} {st : Option Int}
    {body : Bytes} {na : Option Bytes} {now : Bytes}
    (h : j.recordAttempt id c st body na now = some j') : Ext j j' := by
  intro r hr
  refine ⟨_, ((recordAttempt_some h).2.2 _).mpr ⟨r, hr, rfl⟩, ?_, ?_⟩
  · split <;> rfl
  · split <;> rfl

/-- What a fetch hands out is a row with the asked-for status, and no row twice. -/
theorem mem_fetchByStatus {j : Journal} {st : FindStatus} {kind : Option FindKind} {now : Bytes}
    {limit : Nat} {rec : FindRecord} (h : rec ∈ j.fetchByStatus st kind now limit) :
    ∃ r ∈ j.rows, r.status = st ∧ rec = rowToRecord r := by
  unfold fetchByStatus at h
  obtain ⟨r, hr, rfl⟩ := List.mem_map.mp h
  have hf := List.mem_filter.mp (List.mem_of_mem_take hr)
  simp only [Bool.and_eq_true, beq_iff_eq] at hf
  exact ⟨r, hf.1, hf.2.1.1, rfl⟩

/-- No row is fetched twice. -/
theorem fetchByStatus_nodup {j : Journal} {st : FindStatus} {kind : Option FindKind} {now : Bytes}
    {limit : Nat} : ((j.fetchByStatus st kind now limit).map (·.id)).Nodup := by
  unfold fetchByStatus
  rw [List.map_map]
  have hs : List.Sublist ((j.rows.filter fun r => r.status == st &&
      (kind.all (r.payload.kind == ·)) && r.next_attempt_at.all (textLe · now)).take limit)
      j.rows := (List.take_sublist _ _).trans List.filter_sublist
  exact ((j.ids_sorted.imp fun h => ne_of_lt h).sublist (hs.map _))

end Journal

end TreeMiner
