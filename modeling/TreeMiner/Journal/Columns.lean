import TreeMiner.Journal.FindJournal

/-!
# The columns of the finds table (`FindJournal::append`, `rowToRecord`)

A `Journal` holds its rows as they read back. Here a row is what SQLite stores: 64-bit
integers, texts, NULLs. Binding and reading are separate code, with a cast at each end;
`Holds` says which rows of the two layers belong together, `append_holds` that the INSERT
keeps them together, and `rowToRecord_payload` that they read alike.

The length of a text goes through `static_cast<int>` on the way to SQLite. A text of
2^32 bytes or more is cut there; one of 2^31 bytes up to that is bound up to its first NUL.
`limit` is the longest text SQLite accepts, whatever it is.
-/

namespace TreeMiner

open Cxx

/-! ## Names of kinds and statuses -/

/-- `to_string(FindKind)`. -/
def FindKind.text : FindKind → Bytes
  | .XEN11 => lit "XEN11"
  | .XUNI => lit "XUNI"

/-- `to_string(FindStatus)`. -/
def FindStatus.text : FindStatus → Bytes
  | .Pending => lit "Pending"
  | .Submitting => lit "Submitting"
  | .AcceptedUnconfirmed => lit "AcceptedUnconfirmed"
  | .Acked => lit "Acked"
  | .ParkedDifficulty => lit "ParkedDifficulty"
  | .ParkedXuniWindow => lit "ParkedXuniWindow"
  | .Quarantined => lit "Quarantined"
  | .Dead => lit "Dead"
  | .PermanentlyInvalid => lit "PermanentlyInvalid"

/-- `kindFromString`; throws for anything else. -/
def kindFromString (s : Bytes) : Option FindKind :=
  if s = lit "XEN11" then some .XEN11
  else if s = lit "XUNI" then some .XUNI
  else none

/-- `statusFromString`; throws for anything else. -/
def statusFromString (s : Bytes) : Option FindStatus :=
  if s = lit "Pending" then some .Pending
  else if s = lit "Submitting" then some .Submitting
  else if s = lit "AcceptedUnconfirmed" then some .AcceptedUnconfirmed
  else if s = lit "Acked" then some .Acked
  else if s = lit "ParkedDifficulty" then some .ParkedDifficulty
  else if s = lit "ParkedXuniWindow" then some .ParkedXuniWindow
  else if s = lit "Quarantined" then some .Quarantined
  else if s = lit "Dead" then some .Dead
  else if s = lit "PermanentlyInvalid" then some .PermanentlyInvalid
  else none

/-- The names are read back, as C strings too. -/
theorem kindFromString_text (k : FindKind) : kindFromString (Journal.cText k.text) = some k := by
  cases k <;> decide

/-- A status is read back from its text, as the column returns it. -/
theorem statusFromString_text (s : FindStatus) :
    statusFromString (Journal.cText s.text) = some s := by
  cases s <;> decide

namespace Finds

/-! ## Binding -/

/-- `static_cast<int>` of a size. -/
def intOfSize (n : Nat) : Int := (n : Int).bmod 4294967296

/-- `Statement::bindText`: so many bytes, or up to the first NUL if the number is negative;
`SQLITE_TOOBIG` is thrown. -/
def bindText (limit : Nat) (value : Bytes) : Option Bytes :=
  let n := intOfSize value.length
  let text := if 0 ≤ n then value.take n.toNat else Journal.cText value
  if text.length ≤ limit then some text else none

/-- `Statement::bindTextOrNull`. -/
def bindTextOrNull (limit : Nat) (value : Bytes) : Option (Option Bytes) :=
  if value = [] then some none else (bindText limit value).map some

/-- `Statement::bindDouble` into a REAL column: NULL for NaN, and no sign on a zero. -/
def bindDouble (d : Double) : Option Double :=
  if d.isNaN then none else if d.isNegZero then some ⟨0#64⟩ else some d

/-- A row of `finds`, by the types of its columns. -/
structure Columns where
  id : Int
  key : Bytes
  hash_to_verify : Bytes
  account : Bytes
  kind : Bytes
  m : Int64
  worker : Option Bytes
  attempts : Option Int64
  hashes_per_second : Option Double
  found_at : Bytes
  status : Bytes
  status_reason : Option Bytes
  attempt_count : Int64
  next_attempt_at : Option Bytes
  last_attempt_at : Option Bytes
  last_http_status : Option Int64
  last_response : Option Bytes
  confirmed_at : Option Bytes
  xuni_windows_tried : Int64

/-- The row id that SQLite picks. -/
def nextId (t : List Columns) : Int := t.foldr (fun row m => max row.id m) 0 + 1

/-- The row that the INSERT of `append` would add. -/
def insertRow (limit : Nat) (id : Int) (p : FoundPayload) : Option Columns := do
  let key ← bindText limit p.key
  let hash_to_verify ← bindText limit p.hash_to_verify
  let account ← bindText limit p.account
  let kind ← bindText limit p.kind.text
  let worker ← bindTextOrNull limit p.worker
  let found_at ← bindText limit p.found_at_utc
  let status ← bindText limit (Journal.initialStatus p).1.text
  let status_reason ← bindTextOrNull limit (Journal.initialStatus p).2
  some
    { id := id
      key := key
      hash_to_verify := hash_to_verify
      account := account
      kind := kind
      m := p.memory_cost.toUInt64.toInt64
      worker := worker
      attempts := some p.attempts.toInt64
      hashes_per_second := bindDouble p.hashes_per_second
      found_at := found_at
      status := status
      status_reason := status_reason
      attempt_count := 0
      next_attempt_at := none
      last_attempt_at := none
      last_http_status := none
      last_response := none
      confirmed_at := none
      xuni_windows_tried := 0 }

/-- `FindJournal::append`. A key that is there already is looked up again. -/
def append (limit : Nat) (t : List Columns) (p : FoundPayload) : Option (Int × List Columns) := do
  let row ← insertRow limit (nextId t) p
  match t.find? (·.key = row.key) with
  | some old => some (old.id, t)
  | none => some (row.id, t ++ [row])

/-! ## Reading -/

/-- `columnText`; NULL reads as the empty string. -/
def columnText (text : Option Bytes) : Bytes := Journal.cText (text.getD [])

/-- `columnInt64`; NULL reads as 0. -/
def columnInt64 (n : Option Int64) : Int64 := n.getD 0

/-- `columnDouble`; NULL reads as 0.0. -/
def columnDouble (d : Option Double) : Double := d.getD ⟨0#64⟩

/-- `rowToRecord`. -/
def rowToRecord (row : Columns) : Option FindRecord := do
  let kind ← kindFromString (Journal.cText row.kind)
  let status ← statusFromString (Journal.cText row.status)
  some
    { id := row.id
      payload :=
        { key := Journal.cText row.key
          hash_to_verify := Journal.cText row.hash_to_verify
          account := Journal.cText row.account
          kind := kind
          memory_cost := row.m.toUInt64.toUInt32
          worker := columnText row.worker
          attempts := (columnInt64 row.attempts).toUInt64
          hashes_per_second := columnDouble row.hashes_per_second
          found_at_utc := Journal.cText row.found_at }
      status := status
      status_reason := columnText row.status_reason
      attempt_count := row.attempt_count.toInt32.toNatClampNeg
      next_attempt_at := row.next_attempt_at.map Journal.cText
      last_attempt_at := row.last_attempt_at.map Journal.cText
      last_http_status := row.last_http_status.map fun n => n.toInt32.toInt
      last_response := columnText row.last_response
      confirmed_at := row.confirmed_at.map Journal.cText
      xuni_windows_tried := row.xuni_windows_tried.toInt32.toNatClampNeg }

/-- `FindJournal::getById`: the row, if there is one, and its record, unless reading it throws. -/
def getById (t : List Columns) (id : Int) : Option (Option FindRecord) :=
  match t.find? (·.id = id) with
  | none => some none
  | some row => (rowToRecord row).map some

/-! ## The rows of a journal and what the table stores -/

/-- The stored row reads back as `r`. -/
structure HoldsRow (row : Columns) (r : FindRecord) : Prop where
  id : row.id = r.id
  key : row.key = r.payload.key
  hash_to_verify : row.hash_to_verify = r.payload.hash_to_verify
  account : row.account = r.payload.account
  kind : row.kind = r.payload.kind.text
  m : row.m = r.payload.memory_cost.toUInt64.toInt64
  worker : row.worker.getD [] = r.payload.worker
  attempts : columnInt64 row.attempts = r.payload.attempts.toInt64
  hashes_per_second : columnDouble row.hashes_per_second = r.payload.hashes_per_second
  found_at : row.found_at = r.payload.found_at_utc
  status : row.status = r.status.text
  status_reason : row.status_reason.getD [] = r.status_reason
  attempt_count : row.attempt_count = Int64.ofNat r.attempt_count
  next_attempt_at : row.next_attempt_at = r.next_attempt_at
  last_attempt_at : row.last_attempt_at = r.last_attempt_at
  last_http_status : row.last_http_status = r.last_http_status.map Int64.ofInt
  last_response : row.last_response.getD [] = r.last_response
  confirmed_at : row.confirmed_at = r.confirmed_at
  xuni_windows_tried : row.xuni_windows_tried = Int64.ofNat r.xuni_windows_tried

/-- The table stores the rows of the journal. -/
def Holds (t : List Columns) (j : Journal) : Prop := List.Forall₂ HoldsRow t j.rows

section Reading

variable {row : Columns} {r : FindRecord}

/-- The payload is read back with no loss in a cast; reading a text stops at a NUL. -/
theorem rowToRecord_payload (h : HoldsRow row r) :
    ∃ rec, rowToRecord row = some rec ∧ rec.id = r.id ∧ rec.status = r.status ∧
      rec.payload = (Journal.rowToRecord r).payload := by
  unfold rowToRecord
  rw [h.kind, h.status, kindFromString_text, statusFromString_text]
  refine ⟨_, rfl, h.id, rfl, ?_⟩
  unfold columnText Journal.rowToRecord
  dsimp only
  rw [h.key, h.hash_to_verify, h.account, h.m, h.worker, h.attempts, h.hashes_per_second,
    h.found_at, UInt64.toUInt64_toInt64, UInt64.toUInt64_toInt64, UInt32.toUInt32_toUInt64]

/-- Every column is, when the counters and the status fit the 32 bits they are read into. -/
theorem rowToRecord_holds (h : HoldsRow row r) (hattempts : r.attempt_count < 2147483648)
    (hwindows : r.xuni_windows_tried < 2147483648)
    (hhttp : ∀ st, r.last_http_status = some st → -2147483648 ≤ st ∧ st < 2147483648) :
    rowToRecord row = some (Journal.rowToRecord r) := by
  have hstatus : (r.last_http_status.map Int64.ofInt).map (fun n => n.toInt32.toInt) =
      r.last_http_status := by
    cases hst : r.last_http_status with
    | none => rfl
    | some st =>
      obtain ⟨hlo, hhi⟩ := hhttp st hst
      rw [Option.map_some, Option.map_some, Int64.toInt32_ofInt, Int32.toInt_ofInt_of_le hlo hhi]
  unfold rowToRecord
  rw [h.kind, h.status, kindFromString_text, statusFromString_text]
  unfold columnText Journal.rowToRecord
  dsimp only [Option.bind_eq_bind, Option.bind_some]
  rw [h.id, h.key, h.hash_to_verify, h.account, h.m, h.worker, h.attempts, h.hashes_per_second,
    h.found_at, h.status_reason, h.attempt_count, h.next_attempt_at, h.last_attempt_at,
    h.last_http_status, h.last_response, h.confirmed_at, h.xuni_windows_tried, hstatus,
    UInt64.toUInt64_toInt64, UInt64.toUInt64_toInt64, UInt32.toUInt32_toUInt64,
    Int64.toInt32_ofNat', Int64.toInt32_ofNat', Int32.toNatClampNeg_ofNat_of_lt hattempts,
    Int32.toNatClampNeg_ofNat_of_lt hwindows]

end Reading

/-! ## The INSERT -/

section Insert

variable {limit : Nat} {value text : Bytes} {t t' : List Columns} {j : Journal} {p : FoundPayload}
  {row : Columns} {id : Int}

/-- Where the length as an `int` is not negative it is the length. -/
theorem intOfSize_nonneg {n : Nat} (hn : n < 4294967296) (h : 0 ≤ intOfSize n) :
    intOfSize n = n := by
  unfold intOfSize at h ⊢
  have hmod : (n : Int) % (4294967296 : Nat) = n := by omega
  rw [Int.bmod_def, hmod] at h ⊢
  split at h
  next hlt => rw [if_pos hlt]
  next => omega

/-- A text of less than 2^32 bytes without a NUL is bound as it is. -/
theorem bindText_eq (hnul : 0 ∉ value) (hlen : value.length < 4294967296)
    (h : bindText limit value = some text) : text = value := by
  have htext : (if 0 ≤ intOfSize value.length then value.take (intOfSize value.length).toNat
      else Journal.cText value) = value := by
    split
    next hn =>
      refine List.take_of_length_le ?_
      rw [intOfSize_nonneg hlen hn]
      exact le_refl _
    next => exact Journal.cText_noNul hnul
  unfold bindText at h
  dsimp only at h
  rw [htext] at h
  split at h
  next =>
    cases h
    rfl
  next => cases h

/-- A value without NUL is read back as it was; the empty one is bound as NULL and read as empty. -/
theorem bindTextOrNull_eq {column : Option Bytes} (hnul : 0 ∉ value)
    (hlen : value.length < 4294967296) (h : bindTextOrNull limit value = some column) :
    column.getD [] = value := by
  unfold bindTextOrNull at h
  split at h
  next hempty =>
    cases h
    exact hempty.symm
  next =>
    obtain ⟨text, hb, rfl⟩ := Option.map_eq_some_iff.mp h
    exact bindText_eq hnul hlen hb

/-- A number read back after it was bound: NaN, stored as NULL, and -0.0 are read as 0.0. -/
theorem columnDouble_bindDouble (d : Double) :
    columnDouble (bindDouble d) = TreeMiner.bindDouble d := by
  unfold bindDouble TreeMiner.bindDouble
  cases d.isNaN with
  | true => rfl
  | false =>
    cases d.isNegZero with
    | true => rfl
    | false => rfl

/-- What `bindText_eq` asks of a text. -/
def Bound (value : Bytes) : Prop := 0 ∉ value ∧ value.length < 4294967296

/-- Two bound texts after one another are bound, when their length fits. -/
theorem bound_append {s u : Bytes} (hs : 0 ∉ s) (hu : 0 ∉ u)
    (hlen : s.length + u.length < 4294967296) : Bound (s ++ u) := by
  refine ⟨fun h => ?_, by rwa [List.length_append]⟩
  rcases List.mem_append.mp h with h | h
  · exact hs h
  · exact hu h

/-- The text of a number has no NUL. -/
theorem zero_not_mem_toDecimal (n : Nat) : 0 ∉ toDecimal n := by
  intro h
  exact absurd (toDecimal_digits n 0 h) (by decide)

/-- The reason of a find that cannot be accepted. -/
theorem bound_reason (hlen : p.hash_to_verify.length < 4294967296) :
    Bound (Journal.initialStatus p).2 := by
  have hdigits : (toDecimal p.hash_to_verify.length).length ≤ 10 :=
    toDecimal_length (k := 9) (by omega)
  unfold Journal.initialStatus
  split
  · refine bound_append (fun h => ?_) (by decide) ?_
    · rcases List.mem_append.mp h with h | h
      · rcases List.mem_append.mp h with h | h
        · exact absurd h (by decide)
        · exact zero_not_mem_toDecimal _ h
      · exact absurd h (by decide)
    · rw [List.length_append, List.length_append]
      have h₁ : (lit "hash_to_verify length ").length = 22 := by decide
      have h₂ : (lit " exceeds server limit of ").length = 25 := by decide
      have h₃ : (toDecimal kMaxHashToVerifyLength).length = 3 := by decide
      omega
  · split
    · exact ⟨by decide, by decide⟩
    · exact ⟨by decide, by decide⟩

theorem bound_kind (k : FindKind) : Bound k.text := by
  cases k <;> exact ⟨by decide, by decide⟩

theorem bound_status (st : FindStatus) : Bound st.text := by
  cases st <;> exact ⟨by decide, by decide⟩

/-- The inserted row is the journal's new row. -/
theorem insertRow_holds (hp : ∀ value ∈ texts p, Bound value)
    (h : insertRow limit id p = some row) : HoldsRow row (Journal.newRow id p) := by
  simp only [texts, List.forall_mem_cons] at hp
  obtain ⟨hkey, hhash, haccount, hworker, hfound, -⟩ := hp
  unfold insertRow at h
  simp only [Option.bind_eq_bind, Option.bind_eq_some_iff, Option.some.injEq] at h
  obtain ⟨key, bkey, hash, bhash, account, baccount, kind, bkind, worker, bworker, found, bfound,
    status, bstatus, reason, breason, rfl⟩ := h
  exact
    { id := rfl
      key := bindText_eq hkey.1 hkey.2 bkey
      hash_to_verify := bindText_eq hhash.1 hhash.2 bhash
      account := bindText_eq haccount.1 haccount.2 baccount
      kind := bindText_eq (bound_kind _).1 (bound_kind _).2 bkind
      m := rfl
      worker := bindTextOrNull_eq hworker.1 hworker.2 bworker
      attempts := rfl
      hashes_per_second := columnDouble_bindDouble _
      found_at := bindText_eq hfound.1 hfound.2 bfound
      status := bindText_eq (bound_status _).1 (bound_status _).2 bstatus
      status_reason := bindTextOrNull_eq (bound_reason hhash.2).1 (bound_reason hhash.2).2 breason
      attempt_count := rfl
      next_attempt_at := rfl
      last_attempt_at := rfl
      last_http_status := rfl
      last_response := rfl
      confirmed_at := rfl
      xuni_windows_tried := rfl }

/-! ## The table along the journal -/

/-- The table gives the next row the id that the journal gives it. -/
theorem nextId_eq (h : Holds t j) : nextId t = Journal.nextId j.rows := by
  unfold Holds at h
  unfold nextId Journal.nextId
  congr 1
  generalize j.rows = rows at h
  induction h with
  | nil => rfl
  | cons hrow _ ih =>
    rw [List.foldr_cons, List.foldr_cons, ih, hrow.id]

/-- A search for something that a row and its stored form agree on. -/
theorem find_holds {P : Columns → Bool} {Q : FindRecord → Bool}
    (hPQ : ∀ row r, HoldsRow row r → P row = Q r) (h : Holds t j) :
    (t.find? P = none ∧ j.rows.find? Q = none) ∨
      ∃ row r, t.find? P = some row ∧ j.rows.find? Q = some r ∧ HoldsRow row r := by
  unfold Holds at h
  generalize j.rows = rows at h
  induction h with
  | nil => exact Or.inl ⟨rfl, rfl⟩
  | @cons row r t rows hrow _ ih =>
    have heq := hPQ row r hrow
    cases hQ : Q r with
    | true =>
      rw [hQ] at heq
      exact Or.inr ⟨row, r, List.find?_cons_of_pos heq, List.find?_cons_of_pos hQ, hrow⟩
    | false =>
      rw [hQ] at heq
      rw [List.find?_cons_of_neg (by rw [heq]; decide), List.find?_cons_of_neg (by rw [hQ]; decide)]
      exact ih

/-- `append` on the table is `append` on the journal. -/
theorem append_holds (hp : ∀ value ∈ texts p, Bound value) (hj : Holds t j)
    (h : append limit t p = some (id, t')) : id = (j.append p).1 ∧ Holds t' (j.append p).2 ∧
      (j.byKey p.key = none ∨ t' = t) := by
  unfold append at h
  simp only [Option.bind_eq_bind, Option.bind_eq_some_iff] at h
  obtain ⟨row, hrow, h⟩ := h
  have hnew := insertRow_holds hp hrow
  have hkey : row.key = p.key := hnew.key
  have hsearch := find_holds (P := (·.key = row.key)) (Q := (·.payload.key = p.key))
    (fun row' r hr => by rw [hr.key, hkey]) hj
  -- the INSERT goes through exactly when the journal does not know the key
  rcases hsearch with ⟨hfind, hnone⟩ | ⟨old, r, hfind, hsome, hold⟩
  · rw [hfind] at h
    cases h
    have hby : j.byKey p.key = none := hnone
    have hid : (j.append p).1 = Journal.nextId j.rows ∧
        (j.append p).2.rows = j.rows ++ [Journal.newRow (Journal.nextId j.rows) p] := by
      unfold Journal.append
      split
      next r hr =>
        rw [hby] at hr
        cases hr
      next => exact ⟨rfl, rfl⟩
    rw [nextId_eq hj] at hnew
    refine ⟨hnew.id.trans hid.1.symm, ?_, Or.inl hby⟩
    unfold Holds
    rw [hid.2]
    exact List.rel_append hj (List.Forall₂.cons hnew List.Forall₂.nil)
  · rw [hfind] at h
    cases h
    have hby : j.byKey p.key = some r := hsome
    have hid : j.append p = (r.id, j) := by
      unfold Journal.append
      split
      next r' hr =>
        rw [hby] at hr
        cases hr
        rfl
      next hr =>
        rw [hby] at hr
        cases hr
    rw [hid]
    exact ⟨hold.id, hj, Or.inr rfl⟩

end Insert

end Finds

end TreeMiner
