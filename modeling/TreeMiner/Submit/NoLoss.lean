import TreeMiner.Submit.Paths

/-!
# No find is lost and every status is justified

Over any run of the submission core: miners appending, the poller observing,
scheduling steps with any server answers, journal calls that throw, restarts.

The journal never loses a row or its payload (`step_ext`), so what is left is
who may change a status. Only `recordAttempt`, the two releases, recovery and
`append` write the column (`Touches.origin`), and `recordAttempt` is asked for
only as `Path` allows. Two invariants connect the call's history with the
journal: a fetched record still describes its row (`FetchedRows`), and a record
fetched but not yet recorded is still in the queue (`LiveRows`).
-/

namespace TreeMiner

open Cxx Interleave

variable {cfg : Config} {tr : Trace} {c c' : Configuration} {l : Label sig Party Call}

/-! ## Rows that stay put -/

/-- A row that is not parked for its difficulty stays exactly as it is until its
own outcome is recorded or, parked for a window, the window opens. -/
theorem Touches.keeps {o : Op} {j j' : Journal} (h : Touches o j j') {r : FindRecord}
    (hr : r ∈ j.rows) (hd : r.status ≠ .ParkedDifficulty)
    (hx : r.status = .ParkedXuniWindow → ∀ n, o ≠ .unparkXuniForWindow n)
    (ho : ∀ c st body next now, o ≠ .recordAttempt r.id c st body next now) :
    r ∈ j'.rows := by
  cases h with
  | same => exact hr
  | append => exact Journal.mem_append.mpr (Or.inl hr)
  | @record _ _ id c st body next now h =>
    refine ((Journal.recordAttempt_some h).2.2 r).mpr ⟨r, hr, if_neg ?_⟩
    rintro rfl
    exact ho _ _ _ _ _ rfl
  | unpark => exact Journal.mem_update.mpr ⟨r, hr, if_neg fun h => hd h.1⟩
  | window n => exact Journal.mem_update.mpr ⟨r, hr, if_neg fun hs => hx hs n rfl⟩
  | difficulty => exact hr

/-! ## The call's history and the journal -/

/-- Every record a thread fetched still describes its row. -/
def FetchedRows (c : Configuration) : Prop :=
  ∀ i t, c.pool i = some t → ∀ e ∈ t.hist, ∀ rec ∈ fetchedBy e,
    ∃ r ∈ c.world.journal.rows, r.id = rec.id ∧ (Journal.rowToRecord r).payload = rec.payload

/-- A reading of rows with equal payloads gives equal payloads. -/
private theorem rowToRecord_payload {r r' : FindRecord} (h : r'.payload = r.payload) :
    (Journal.rowToRecord r').payload = (Journal.rowToRecord r).payload := by
  simp only [Journal.rowToRecord, h]

/-- What a lookup proves of a row depends on the row's payload only. -/
private theorem proves_congr {r r' : FindRecord} {conf : TransportResult}
    (h : r'.payload = r.payload) (hp : Proves r conf) : Proves r' conf := by
  unfold Proves confirmationMatches at hp ⊢
  rw [h]
  exact hp

/-- Rows are never deleted and payloads never change, so every fetched record goes on standing for
its row. -/
theorem FetchedRows.step (hc : FetchedRows c) (hs : (core cfg).Step c l c') : FetchedRows c' := by
  intro i t ht e he rec hrec
  have hold : (∃ r ∈ c.world.journal.rows, r.id = rec.id ∧
      (Journal.rowToRecord r).payload = rec.payload) →
      ∃ r ∈ c'.world.journal.rows, r.id = rec.id ∧
        (Journal.rowToRecord r).payload = rec.payload := by
    rintro ⟨r, hr, hid, hp⟩
    obtain ⟨r', hr', hid', hp'⟩ := step_ext hs r hr
    exact ⟨r', hr', hid'.trans hid, (rowToRecord_payload hp').trans hp⟩
  rcases hs.thread ht with ⟨k, -, -, rfl⟩ | ⟨h, o, k, a, x, -, hp, hx, rfl⟩ | ⟨hp, -⟩
  · cases he
  · rcases List.mem_cons.mp he with rfl | he
    · -- the record was just read from the journal
      cases o
      case fetchEligibleOfKind =>
        simp only [core, exec, Option.some.injEq, Prod.mk.injEq] at hx
        obtain ⟨rfl, hw⟩ := hx
        obtain ⟨r, hr, -, rfl⟩ := Journal.mem_fetchByStatus hrec
        exact ⟨r, hw ▸ hr, rfl, rfl⟩
      case fetchAwaitingConfirmation =>
        simp only [core, exec, Option.some.injEq, Prod.mk.injEq] at hx
        obtain ⟨rfl, hw⟩ := hx
        obtain ⟨r, hr, -, rfl⟩ := Journal.mem_fetchByStatus hrec
        exact ⟨r, hw ▸ hr, rfl, rfl⟩
      all_goals cases hrec
    · exact hold (hc i _ hp e he rec hrec)
  · exact hold (hc i t hp e he rec hrec)

/-- In every run a record that a thread has fetched is the reading of a row that is still there. -/
theorem run_fetchedRows (hr : Run (core cfg) (start cfg) tr c) : FetchedRows c :=
  hr.invariant_conf (fun _ _ _ hI hs => hI.step hs) (fun _ _ ht => by cases ht)

/-- A status `recordAttempt` may be asked to change. -/
def FindStatus.isQueued : FindStatus → Bool
  | .Pending | .AcceptedUnconfirmed => true
  | _ => false

/-- What the submission thread fetched and did not record is still queued. -/
def LiveRows (c : Configuration) : Prop :=
  ∀ t, c.pool .submission = some t → ∀ id ∈ live t.hist,
    ∃ r ∈ c.world.journal.rows, r.id = id ∧ r.status.isQueued = true

/-- A row that may still be submitted stays so under every operation but the record of an attempt on
it. -/
private theorem keeps_queued {o : Op} {j j' : Journal} (h : Touches o j j') {id : Int}
    (ho : ∀ c st body next now, o ≠ .recordAttempt id c st body next now)
    (hr : ∃ r ∈ j.rows, r.id = id ∧ r.status.isQueued = true) :
    ∃ r ∈ j'.rows, r.id = id ∧ r.status.isQueued = true := by
  obtain ⟨r, hr, rfl, hq⟩ := hr
  refine ⟨r, h.keeps hr ?_ ?_ ho, rfl, hq⟩
  · intro hs
    rw [hs] at hq
    cases hq
  · intro hs
    rw [hs] at hq
    cases hq

/-- A record is in hand because it was just fetched, or because it was so before and has not been
recorded since. -/
private theorem live_cons_mem {e : Event sig} {h : History} {id : Int}
    (hid : id ∈ live (e :: h)) :
    (∃ rec ∈ fetchedBy e, rec.id = id) ∨
    (id ∈ live h ∧ ∀ c st body next now, e.op ≠ .recordAttempt id c st body next now) := by
  obtain ⟨o, a⟩ := e
  cases o
  case recordAttempt =>
    obtain ⟨hid, hne⟩ := List.mem_filter.mp hid
    refine Or.inr ⟨hid, ?_⟩
    rintro c st body next now hop
    cases hop
    simp at hne
  all_goals
    rcases List.mem_append.mp hid with hid | hid
    · obtain ⟨rec, hrec, rfl⟩ := List.mem_map.mp hid
      exact Or.inl ⟨rec, hrec, rfl⟩
    · exact Or.inr ⟨hid, by intros; simp⟩

/-- A step of any thread keeps the rows of the records in hand in the queue: the one thread that
records attempts holds them. -/
theorem LiveRows.step (hpath : c.Along (fun _ => Rely) (PathOf cfg) (fun _ h' _ => owes h' = none))
    (hc : LiveRows c) (hs : (core cfg).Step c l c') : LiveRows c' := by
  intro t ht id hid
  rcases hs.thread ht with ⟨k, -, -, rfl⟩ | ⟨h, o, k, a, x, rfl, hp, hx, rfl⟩ |
      ⟨hp, hnr, hnd⟩
  · cases hid
  · rcases live_cons_mem hid with ⟨rec, hrec, rfl⟩ | ⟨hid, hne⟩
    · cases o
      case fetchEligibleOfKind =>
        simp only [core, exec, Option.some.injEq, Prod.mk.injEq] at hx
        obtain ⟨rfl, hw⟩ := hx
        obtain ⟨r, hr, hst, rfl⟩ := Journal.mem_fetchByStatus hrec
        exact ⟨r, hw ▸ hr, rfl, by rw [hst]; rfl⟩
      case fetchAwaitingConfirmation =>
        simp only [core, exec, Option.some.injEq, Prod.mk.injEq] at hx
        obtain ⟨rfl, hw⟩ := hx
        obtain ⟨r, hr, hst, rfl⟩ := Journal.mem_fetchByStatus hrec
        exact ⟨r, hw ▸ hr, rfl, by rw [hst]; rfl⟩
      all_goals cases hrec
    · exact keeps_queued (exec_touches hx) hne (hc _ hp id hid)
  · have hold := hc t hp id hid
    rcases step_journal hs with hj | ⟨i, e, rfl, htch⟩ | ⟨rfl, -⟩
    · rw [hj]
      exact hold
    · -- another thread moved, and no other thread records
      refine keeps_queued htch (fun c st body next now hop => ?_) hold
      obtain ⟨h, k, -, -, hby⟩ := did_path hpath hs
      rw [hop] at hby
      exact hnd e (by rw [isBy_submission hby rfl fun _ => rfl])
    · exact absurd rfl hnr

/-- In every run the records in hand have rows that may still be submitted. -/
theorem run_liveRows (hr : Run (core cfg) (start cfg) tr c) : LiveRows c :=
  hr.invariant (I := fun _ => LiveRows) (G := fun _ _ => True)
    (fun _ _ _ _ run hI _ hs => hI.step (run_paths run) hs)
    (fun _ ht => by cases ht) (fun _ _ _ _ => trivial)

/-! ## Who may record what -/

/-- Everything known about a row whose outcome is being recorded. -/
theorem recorded (hr : Run (core cfg) (start cfg) tr c) {i : Party} {id : Int} {cl : Classification}
    {st : Option Int} {body : Bytes} {next : Option Bytes} {now : Bytes} {a : Unit}
    (hs : (core cfg).Step c (.did i ⟨.recordAttempt id cl st body next now, a⟩) c')
    {r : FindRecord} (hrow : r ∈ c.world.journal.rows) (hid : r.id = id) :
    i = .submission ∧ r.status.isQueued = true ∧
      ∃ h k, c.pool .submission = some ⟨h, k⟩ ∧
      cl.next_status ≠ .Dead ∧
      (cl.next_status = .Acked → ∃ conf,
        ⟨.confirm (Journal.rowToRecord r).payload.key, conf⟩ ∈ h ∧
        Proves (Journal.rowToRecord r) conf) ∧
      (cl.next_status = .PermanentlyInvalid →
        ∃ res, ⟨.submit (Journal.rowToRecord r).payload, res⟩ ∈ h ∧ Rejects res) := by
  obtain ⟨h, k, hp, ⟨-, rec, hrid, hrec⟩, hby⟩ := did_path (run_paths hr) hs
  have hi : i = .submission := isBy_submission hby rfl fun _ => rfl
  subst hi
  obtain ⟨e, he, hm⟩ := hrec.fetched
  obtain ⟨r₁, hr₁, hid₁, hpay⟩ := run_fetchedRows hr _ _ hp e he rec hm
  obtain ⟨r₂, hr₂, hid₂, hq⟩ := run_liveRows hr _ hp _ hrec.live
  -- the row that was fetched, the row that is being submitted and the row at hand are one row
  have e₁ : r₁ = r := Journal.eq_of_id hr₁ hrow (by rw [hid₁, hrid, hid])
  have e₂ : r₂ = r := Journal.eq_of_id hr₂ hrow (by rw [hid₂, hrid, hid])
  subst e₁ e₂
  refine ⟨rfl, hq, h, _, hp, hrec.dead, ?_, ?_⟩
  · intro hack
    obtain ⟨conf, hconf, hpr⟩ := hrec.acked hack
    exact ⟨conf, hpay ▸ hconf, proves_congr hpay hpr⟩
  · intro hinv
    obtain ⟨res, hres, hrej⟩ := hrec.invalid hinv
    exact ⟨res, hpay ▸ hres, hrej⟩

/-- The ways a row of the next configuration can have its status: it kept it, it
was put back in the queue, its outcome was just recorded, its window budget ran
out, or it is new. -/
theorem step_row (hr : Run (core cfg) (start cfg) tr c) (hs : (core cfg).Step c l c')
    {r' : FindRecord} (hr' : r' ∈ c'.world.journal.rows) :
    (∃ r ∈ c.world.journal.rows, r'.id = r.id ∧ r'.payload = r.payload ∧
      (r'.status = r.status ∨ r'.status = .Pending ∨
       (∃ cl st body next now a,
         l = performed .submission (.recordAttempt r.id cl st body next now) a ∧
         r'.status = cl.next_status) ∨
       (r.status = .ParkedXuniWindow ∧ (r.xuni_windows_tried : Int) ≥ cfg.xuni_max_windows ∧
         r'.status = .Dead))) ∨
    (∃ i p a id, l = performed i (.append p) a ∧ r' = Journal.newRow id p) := by
  -- the journal is untouched, or one operation touched it, or a new process took it over
  rcases step_journal hs with hj | ⟨i, e, rfl, htch⟩ | ⟨rfl, hj⟩
  · rw [hj] at hr'
    exact Or.inl ⟨r', hr', rfl, rfl, Or.inl rfl⟩
  · obtain ⟨o, a⟩ := e
    rcases htch.origin hr' with ⟨r, hrow, hid, hp, hch⟩ | ⟨p, ho, -, rfl⟩
    · refine Or.inl ⟨r, hrow, hid, hp, ?_⟩
      rcases hch with rfl | ⟨cl, st, body, next, now, rfl, -, rfl⟩ | ⟨d, -, -, -, rfl⟩ |
        ⟨n, rfl, hst, rfl⟩
      · exact Or.inl rfl
      -- an outcome was recorded, and only of the row that was being submitted
      · obtain ⟨rfl, -⟩ := recorded hr hs hrow rfl
        exact Or.inr (Or.inr (Or.inl ⟨cl, st, body, next, now, a, rfl, rfl⟩))
      · exact Or.inr (Or.inl rfl)
      -- the opening of a window releases a parked row or gives it up
      · obtain ⟨h, k, -, ⟨-, hpath⟩, -⟩ := did_path (run_paths hr) hs
        have hn : n = cfg.xuni_max_windows := hpath
        unfold Journal.windowOpened
        rw [if_pos hst]
        split
        next hb => exact Or.inr (Or.inr (Or.inr ⟨hst, hn ▸ hb, rfl⟩))
        · exact Or.inr (Or.inl rfl)
    · cases ho
      exact Or.inr ⟨i, p, a, _, rfl, rfl⟩
  · rw [hj] at hr'
    obtain ⟨r, hrow, rfl⟩ := Journal.mem_update.mp hr'
    refine Or.inl ⟨r, hrow, ?_⟩
    split
    · exact ⟨rfl, rfl, Or.inr (Or.inl rfl)⟩
    · exact ⟨rfl, rfl, Or.inl rfl⟩

/-- A new row waits for its submission, unless its hash is longer than the server takes. -/
theorem newRow_status (id : Int) (p : FoundPayload) :
    (Journal.newRow id p).status = .Pending ∨
    ((Journal.newRow id p).status = .PermanentlyInvalid ∧
      ((Journal.newRow id p).payload.hash_to_verify.length > kMaxHashToVerifyLength ∨
        (Journal.newRow id p).payload.account = [])) := by
  unfold Journal.newRow Journal.initialStatus
  dsimp only
  split
  next h => exact Or.inr ⟨rfl, Or.inl h⟩
  split
  next h => exact Or.inr ⟨rfl, Or.inr h⟩
  · exact Or.inl rfl

/-! ## Terminal rows -/

/-- `Acked`, `Dead` and `PermanentlyInvalid`. -/
def FindStatus.isTerminal : FindStatus → Bool
  | .Acked | .Dead | .PermanentlyInvalid => true
  | _ => false

/-- A terminal row never changes again. -/
theorem step_terminal (hr : Run (core cfg) (start cfg) tr c) (hs : (core cfg).Step c l c')
    {r : FindRecord} (hrow : r ∈ c.world.journal.rows) (ht : r.status.isTerminal = true) :
    r ∈ c'.world.journal.rows := by
  have hne : ∀ st : FindStatus, st.isTerminal = false → r.status ≠ st := by
    intro st hst heq
    rw [heq, hst] at ht
    cases ht
  rcases step_journal hs with hj | ⟨i, ⟨o, a⟩, rfl, htch⟩ | ⟨rfl, hj⟩
  · rw [hj]
    exact hrow
  · refine htch.keeps hrow (hne _ rfl) (fun hx => absurd hx (hne _ rfl)) ?_
    rintro cl st body next now rfl
    have hq := (recorded hr hs hrow rfl).2.1
    revert hq ht
    cases r.status <;> simp [FindStatus.isQueued, FindStatus.isTerminal]
  · rw [hj]
    exact Journal.mem_update.mpr ⟨r, hrow, if_neg (hne _ rfl)⟩

/-! ## Every appended key has its row -/

/-- `p` was the first payload appended under its key, and got this id. -/
def FirstAppend (tr : Trace) (p : FoundPayload) (id : Int) : Prop :=
  ∃ tr₁ c₁ i tr₂, tr = tr₁ ++ (c₁, performed i (.append p) id) :: tr₂ ∧
    ∀ c₂ j q a, (c₂, performed j (.append q) a) ∈ tr₁ → q.key ≠ p.key

/-- A row's key was appended. -/
theorem run_keys (hr : Run (core cfg) (start cfg) tr c) :
    ∀ r ∈ c.world.journal.rows, ∃ c₁ i p a,
      (c₁, performed i (.append p) a) ∈ tr ∧ p.key = r.payload.key := by
  refine hr.invariant (G := fun _ _ => True) (I := fun tr c => ∀ r ∈ c.world.journal.rows,
    ∃ c₁ i p a, (c₁, performed i (.append p) a) ∈ tr ∧ p.key = r.payload.key) ?_ ?_
    (fun _ _ _ _ => trivial)
  · intro tr c₁ l c₂ run ih _ hs r' hr'
    rcases step_row run hs hr' with ⟨r, hrow, -, hp, -⟩ | ⟨i, p, a, id, rfl, rfl⟩
    · obtain ⟨c₀, i, p, a, hm, hk⟩ := ih r hrow
      exact ⟨c₀, i, p, a, List.mem_append_left _ hm, by rw [hk, hp]⟩
    · exact ⟨c₁, i, p, a, List.mem_append_right _ (List.mem_singleton.mpr rfl), rfl⟩
  · intro r hr
    cases hr

/-- Rows last, with their id and payload. -/
theorem run_ext {c₁ c₂ : Configuration} (hr : Run (core cfg) c₁ tr c₂) :
    Journal.Ext c₁.world.journal c₂.world.journal :=
  hr.invariant_conf (I := fun c => Journal.Ext c₁.world.journal c.world.journal)
    (fun _ _ _ hI hs => hI.trans (step_ext hs)) .refl

/-- The row that the first append of a find has made is there from then on, with its id and its
payload. -/
theorem firstAppend_row (hr : Run (core cfg) (start cfg) tr c) {p : FoundPayload} {id : Int}
    (hf : FirstAppend tr p id) :
    ∃ r ∈ c.world.journal.rows, r.payload.key = p.key ∧ r.id = id ∧
      r.payload = Journal.stored p := by
  obtain ⟨tr₁, c₁, i, tr₂, rfl, hfirst⟩ := hf
  obtain ⟨c₂, hr₁, hs, hr₂⟩ := hr.split rfl
  have hnone : c₁.world.journal.byKey p.key = none := by
    cases hb : c₁.world.journal.byKey p.key with
    | none => rfl
    | some r =>
      obtain ⟨hrow, hk⟩ := Journal.byKey_mem hb
      obtain ⟨c₀, j, q, a, hm, hq⟩ := run_keys hr₁ r hrow
      exact absurd (hq.trans hk) (hfirst c₀ j q a hm)
  obtain ⟨h, k, x, -, hx, -⟩ := hs.did
  simp only [core, exec, Option.some.injEq, Prod.mk.injEq] at hx
  obtain ⟨hid, hw⟩ := hx
  obtain ⟨r, hrow, hrid, hk, hp⟩ := Journal.append_row (j := c₁.world.journal) (p := p)
  have hrow₂ : r ∈ c₂.world.journal.rows := by
    rw [← hw]
    exact hrow
  obtain ⟨r', hrow', hid', hp'⟩ := run_ext hr₂ r hrow₂
  have hpay : r'.payload = Journal.stored p := hp'.trans (hp hnone)
  exact ⟨r', hrow', by rw [hpay]; rfl, by rw [hid', hrid, hid], hpay⟩

/-! ## The guarantee -/

/-- A permanently invalid row was unacceptable from the start, or the server
said that its hash is wrong. -/
theorem run_invalid (hr : Run (core cfg) (start cfg) tr c) :
    ∀ r ∈ c.world.journal.rows, r.status = .PermanentlyInvalid →
      r.payload.hash_to_verify.length > kMaxHashToVerifyLength ∨ r.payload.account = [] ∨
      ∃ c₁ res, (c₁, performed .submission
        (.submit (Journal.rowToRecord r).payload) res) ∈ tr ∧ Rejects res := by
  refine hr.invariant (G := fun _ _ => True) (I := fun tr c => ∀ r ∈ c.world.journal.rows,
    r.status = .PermanentlyInvalid →
      r.payload.hash_to_verify.length > kMaxHashToVerifyLength ∨ r.payload.account = [] ∨
      ∃ c₁ res, (c₁, performed .submission
        (.submit (Journal.rowToRecord r).payload) res) ∈ tr ∧ Rejects res) ?_ ?_
    (fun _ _ _ _ => trivial)
  · intro tr c₁ l c₂ run ih _ hs r' hr' hinv
    rcases step_row run hs hr' with ⟨r, hrow, hid, hp, hst | hst | hst | hst⟩ |
        ⟨i, p, a, id, rfl, rfl⟩
    · rcases ih r hrow (hst.symm.trans hinv) with h | h | ⟨c₀, res, hm, hrej⟩
      · exact Or.inl (hp ▸ h)
      · exact Or.inr (Or.inl (hp ▸ h))
      · refine Or.inr (Or.inr ⟨c₀, res, List.mem_append_left _ ?_, hrej⟩)
        rw [rowToRecord_payload hp]
        exact hm
    · exact absurd (hst.symm.trans hinv) (by decide)
    -- it became invalid by an outcome: the answer is in the history of the thread
    · obtain ⟨cl, st, body, next, now, a, rfl, hcl⟩ := hst
      obtain ⟨-, -, h, k, hpool, -, -, hrej⟩ := recorded run hs hrow rfl
      obtain ⟨res, hm, hrej⟩ := hrej (hcl.symm.trans hinv)
      obtain ⟨c₀, hc₀⟩ := run.hist_mem (fun _ => rfl) _ _ hpool _ hm
      refine Or.inr (Or.inr ⟨c₀, res, List.mem_append_left _ ?_, hrej⟩)
      rw [rowToRecord_payload hp]
      exact hc₀
    · exact absurd (hst.2.2.symm.trans hinv) (by decide)
    · rcases newRow_status id p with h | ⟨-, h | h⟩
      · exact absurd (h.symm.trans hinv) (by decide)
      · exact Or.inl h
      · exact Or.inr (Or.inl h)
  · intro r hr
    cases hr

/-- A row becomes `Acked` in one way: it was acknowledged already, or its attempt was recorded after
the server had shown the block. -/
theorem becomes_acked (hr : Run (core cfg) (start cfg) tr c) (hs : (core cfg).Step c l c')
    {r' : FindRecord} (hr' : r' ∈ c'.world.journal.rows) (hst : r'.status = .Acked) :
    (∃ r ∈ c.world.journal.rows, r.id = r'.id ∧ r.status = .Acked) ∨
    ∃ h k conf, c.pool .submission = some ⟨h, k⟩ ∧
      ⟨.confirm (Journal.rowToRecord r').payload.key, conf⟩ ∈ h ∧
      Proves (Journal.rowToRecord r') conf := by
  rcases step_row hr hs hr' with ⟨r, hrow, hid, hp, h | h | h | h⟩ | ⟨i, p, a, id, -, rfl⟩
  · exact Or.inl ⟨r, hrow, hid.symm, h.symm.trans hst⟩
  · exact absurd (h.symm.trans hst) (by decide)
  · obtain ⟨cl, st, body, next, now, a, rfl, hcl⟩ := h
    obtain ⟨-, -, h, k, hpool, -, hack, -⟩ := recorded hr hs hrow rfl
    obtain ⟨conf, hm, hpr⟩ := hack (hcl.symm.trans hst)
    have hpay := rowToRecord_payload hp
    refine Or.inr ⟨h, k, conf, hpool, hpay ▸ hm, proves_congr hpay hpr⟩
  · exact absurd (h.2.2.symm.trans hst) (by decide)
  · rcases newRow_status id p with h | ⟨h, -⟩
    · exact absurd (h.symm.trans hst) (by decide)
    · exact absurd (h.symm.trans hst) (by decide)

/-- A row becomes `Dead` in one way: it was dead already, or a XUNI has used up its windows. -/
theorem becomes_dead (hr : Run (core cfg) (start cfg) tr c) (hs : (core cfg).Step c l c')
    {r' : FindRecord} (hr' : r' ∈ c'.world.journal.rows) (hst : r'.status = .Dead) :
    (∃ r ∈ c.world.journal.rows, r.id = r'.id ∧ r.status = .Dead) ∨
    ∃ r ∈ c.world.journal.rows, r.id = r'.id ∧ r.status = .ParkedXuniWindow ∧
      (r.xuni_windows_tried : Int) ≥ cfg.xuni_max_windows := by
  rcases step_row hr hs hr' with ⟨r, hrow, hid, hp, h | h | h | h⟩ | ⟨i, p, a, id, -, rfl⟩
  · exact Or.inl ⟨r, hrow, hid.symm, h.symm.trans hst⟩
  · exact absurd (h.symm.trans hst) (by decide)
  · obtain ⟨cl, st, body, next, now, a, rfl, hcl⟩ := h
    obtain ⟨-, -, -, -, -, hdead, -, -⟩ := recorded hr hs hrow rfl
    exact absurd (hcl.symm.trans hst) hdead
  · exact Or.inr ⟨r, hrow, hid.symm, h.1, h.2.1⟩
  · rcases newRow_status id p with h | ⟨h, -⟩
    · exact absurd (h.symm.trans hst) (by decide)
    · exact absurd (h.symm.trans hst) (by decide)

/-- **No find is lost and every status is justified.** In every run, from the
configuration it has reached: each key ever appended has exactly one row, with
the id first returned for it and the payload first stored; a permanently
invalid row was oversized or without an account when appended, or `/verify`
answered for it that hash verification failed; and whatever step comes next, a
row turns `Acked` only in a scheduling step that has received a `/get_block`
answer proving this row, and turns `Dead` only from `ParkedXuniWindow` with its
window budget used up. -/
theorem no_find_lost (cfg : Config) (tr : Trace) (c : Configuration)
    (hr : Run (core cfg) (start cfg) tr c) :
    (∀ p id, FirstAppend tr p id →
      ∃ r ∈ c.world.journal.rows, r.id = id ∧ r.payload = Journal.stored p ∧
        ∀ r' ∈ c.world.journal.rows, r'.payload.key = p.key → r' = r) ∧
    (∀ r ∈ c.world.journal.rows, r.status = .PermanentlyInvalid →
      r.payload.hash_to_verify.length > 150 ∨ r.payload.account = [] ∨
      ∃ c₁ res, (c₁, performed .submission
        (.submit (Journal.rowToRecord r).payload) res) ∈ tr ∧ Rejects res) ∧
    (∀ l c', (core cfg).Step c l c' → ∀ r' ∈ c'.world.journal.rows,
      (r'.status = .Acked →
        (∃ r ∈ c.world.journal.rows, r.id = r'.id ∧ r.status = .Acked) ∨
        ∃ h k conf, c.pool .submission = some ⟨h, k⟩ ∧
          ⟨.confirm (Journal.rowToRecord r').payload.key, conf⟩ ∈ h ∧
          Proves (Journal.rowToRecord r') conf) ∧
      (r'.status = .Dead →
        (∃ r ∈ c.world.journal.rows, r.id = r'.id ∧ r.status = .Dead) ∨
        ∃ r ∈ c.world.journal.rows, r.id = r'.id ∧ r.status = .ParkedXuniWindow ∧
          (r.xuni_windows_tried : Int) ≥ cfg.xuni_max_windows)) := by
  refine ⟨?_, run_invalid hr, ?_⟩
  · intro p id hf
    obtain ⟨r, hrow, hk, hid, hp⟩ := firstAppend_row hr hf
    exact ⟨r, hrow, hid, hp, fun r' hr' hk' => Journal.eq_of_key hr' hrow (hk'.trans hk.symm)⟩
  · intro l c' hs r' hr'
    exact ⟨becomes_acked hr hs hr', becomes_dead hr hs hr'⟩

/-- A scheduling step at 00:30 that submits the sample find and confirms it. -/
def confirmedStep : List (Choice Party Input Call) :=
  .start .submission .runOnce :: acts .submission
    [.nothing, .nothing, .time 0, .time 0, .time 1800000, .nothing, .nothing, .time 1800000,
     .nothing, .time 0, .nothing, .answer (reply 200 (lit "saved")),
     .answer (reply 200 (lit "\x7b\"key\":\"k1\"\x7d")), .time 1800000, .nothing, .time 0,
     .time 1800000, .nothing, .nothing]

/-- A mining thread about to append the sample find, and just after it did. -/
def appending : Configuration :=
  ⟨boot {} .empty, Function.update (fun _ => none) (.miner 0)
    (some ⟨[], (core {}).body (.append sampleFind)⟩)⟩

@[inherit_doc appending]
def appended : Configuration :=
  ⟨{ boot {} .empty with journal := (Journal.empty.append sampleFind).2 },
    Function.update appending.pool (.miner 0)
      (some ⟨[⟨.append sampleFind, (1 : Int)⟩], .ret ()⟩)⟩

private theorem confirmedStep_possible :
    ((core {}).replay appended confirmedStep).isSome = true := by decide +kernel

/-- A find that is appended, submitted and confirmed. -/
theorem no_find_lost_confirmed :
    ∃ tr c, Run (core {}) (start {}) tr c ∧ c.world.journal.rows.map (·.status) = [.Acked] ∧
      ∃ r ∈ c.world.journal.rows, r.id = 1 ∧ r.payload = Journal.stored sampleFind ∧
        ∀ r' ∈ c.world.journal.rows, r'.payload.key = sampleFind.key → r' = r := by
  have hs₁ : (core {}).Step (start {}) (.started (.miner 0) (.append sampleFind)) appending :=
    ⟨.start (.miner 0) (.append sampleFind), rfl⟩
  have hs₂ : (core {}).Step appending (performed (.miner 0) (.append sampleFind) 1) appended :=
    ⟨.act (.miner 0) .nothing, rfl⟩
  have hr := ((Machine.replay_get confirmedStep_possible).cons hs₂).cons hs₁
  refine ⟨_, _, hr, by decide +kernel, (no_find_lost _ _ _ hr).1 sampleFind 1 ?_⟩
  exact ⟨[_], _, .miner 0, _, rfl, by simp⟩

end TreeMiner
