import TreeMiner.Submit.Manager

/-!
# The submission core as a concurrent system

The process around `runOnce`: one submission thread, the difficulty poller and
any number of mining threads over one journal. `exec` says what each atomic
operation does. Any journal or transport call may throw instead; on the
submission thread that sets the fatal flag, anywhere else the caller catches
it. A restart loses everything but the journal and begins with
`recoverOnStartup`.
-/

namespace TreeMiner

open Cxx Interleave

/-- Everything the threads share, and the submission thread's own members. -/
structure World where
  journal : Journal
  last_difficulty : Option UInt32 := none
  trend : DifficultyTrend := .Unknown
  last_window_open : Bool := false
  members : Members
  fatal : Bool := false

/-- What the outside supplies to an operation. -/
inductive Input where
  | nothing
  | time (t : Int)
  | answer (r : TransportResult)

/-- The locked section of `observeDifficulty`; the answer is
`decreased || first_observation`. -/
def World.observe (w : World) (d : UInt32) : Bool × World :=
  match w.last_difficulty with
  | none => (true, { w with last_difficulty := some d })
  | some last =>
    if d > last then (false, { w with last_difficulty := some d, trend := .Rising })
    else if d < last then (true, { w with last_difficulty := some d, trend := .Falling })
    else (false, { w with last_difficulty := some d, trend := .Flat })

/-- An observation of the difficulty is no write to the journal. -/
@[simp] theorem World.observe_journal {w : World} {d : UInt32} :
    (w.observe d).2.journal = w.journal := by
  unfold World.observe
  split
  · rfl
  · split
    · rfl
    · split <;> rfl

/-- What each operation does and answers. -/
def exec : (o : Op) → World → Input → Option (o.Ans × World)
  | .fatal, w, _ => some (w.fatal, w)
  | .members, w, _ => some (w.members, w)
  | .setMembers m, w, _ => some ((), { w with members := m })
  | .mono, w, .time t => some (t, w)
  | .wall, w, .time t => some (t, w)
  | .observe d, w, _ => some (w.observe d)
  | .lastDifficulty, w, _ => some (w.last_difficulty, w)
  | .trend, w, _ => some (w.trend, w)
  | .lastWindowOpen, w, _ => some (w.last_window_open, w)
  | .noteWindow t, w, _ => some ((), { w with last_window_open := (xuniWindowAt t).isOpen })
  | .append p, w, _ => some ((w.journal.append p).1, { w with journal := (w.journal.append p).2 })
  | .fetchEligibleOfKind kind now limit, w, _ =>
    some (w.journal.fetchEligibleOfKind kind now limit, w)
  | .fetchAwaitingConfirmation now limit, w, _ =>
    some (w.journal.fetchAwaitingConfirmation now limit, w)
  | .recordAttempt id c st body next now, w, _ =>
    match w.journal.recordAttempt id c st body next now with
    | some j => some ((), { w with journal := j })
    | none => none
  | .unparkForDifficulty d, w, _ =>
    some ((), { w with journal := w.journal.unparkForDifficulty d })
  | .unparkXuniForWindow n, w, _ =>
    some ((), { w with journal := w.journal.unparkXuniForWindow n })
  | .recordDifficulty d at_utc, w, _ =>
    some ((), { w with journal := w.journal.recordDifficulty d at_utc })
  | .counts, w, _ => some (w.journal.counts, w)
  | .submit _, w, .answer r => some (r, w)
  | .confirm _, w, .answer r => some (r, w)
  | .difficulty, w, .answer r => some (r, w)
  | .mono, _, _ => none
  | .wall, _, _ => none
  | .submit _, _, _ => none
  | .confirm _, _, _ => none
  | .difficulty, _, _ => none

/-- Journal and transport calls may throw. -/
def Op.mayThrow : Op → Bool
  | .append _ | .fetchEligibleOfKind .. | .fetchAwaitingConfirmation .. | .recordAttempt ..
  | .unparkForDifficulty _ | .unparkXuniForWindow _ | .recordDifficulty .. | .counts
  | .submit _ | .confirm _ | .difficulty => true
  | _ => false

/-- The threads. -/
inductive Party where
  | submission
  | poller
  | miner (n : Nat)
  deriving DecidableEq

/-- The calls they make. -/
inductive Call where
  | runOnce
  | observeDifficulty (d : UInt32)
  | append (p : FoundPayload)

/-- A process that has just opened this journal. -/
def boot (cfg : Config) (j : Journal) : World :=
  { journal := j, members := { scheduler := Drain.init cfg.drain } }

/-- The submission core. -/
def core (cfg : Config) : Machine sig World Party Input Call Unit where
  exec _ o w x := exec o w x
  body
    | .runOnce => (runOnce cfg).bind fun _ => .ret ()
    | .observeDifficulty d => observeDifficulty d
    | .append p => (call (.append p)).bind fun _ => .ret ()
  may
    | .submission, .runOnce => true
    | .poller, .observeDifficulty _ => true
    | .miner _, .append _ => true
    | _, _ => false
  abort i o w :=
    if o.mayThrow then some (if i = .submission then { w with fatal := true } else w) else none
  crash w := some (boot cfg w.journal.recoverOnStartup)

/-- First start, on a fresh database. -/
def start (cfg : Config) : Conf sig World Party Unit := ⟨boot cfg .empty, fun _ => none⟩

abbrev Configuration := Conf sig World Party Unit

abbrev Trace := List (Configuration × Label sig Party Call)

/-- The step in which `i` performed `o` and got `a`. -/
abbrev performed (i : Party) (o : Op) (a : o.Ans) : Label sig Party Call := .did i ⟨o, a⟩

/-! ## What a step does to the journal -/

/-- The effect of a performed operation on the journal. -/
inductive Touches : Op → Journal → Journal → Prop where
  | same (o : Op) (j : Journal) : Touches o j j
  | append (p : FoundPayload) (j : Journal) : Touches (.append p) j (j.append p).2
  | record {j j' : Journal} {id : Int} {c : Classification} {st : Option Int} {body : Bytes}
      {next : Option Bytes} {now : Bytes} (h : j.recordAttempt id c st body next now = some j') :
      Touches (.recordAttempt id c st body next now) j j'
  | unpark (d : UInt32) (j : Journal) : Touches (.unparkForDifficulty d) j (j.unparkForDifficulty d)
  | window (n : Int) (j : Journal) : Touches (.unparkXuniForWindow n) j (j.unparkXuniForWindow n)
  | difficulty (d : UInt32) (t : Bytes) (j : Journal) :
      Touches (.recordDifficulty d t) j (j.recordDifficulty d t)

/-- What an operation does to the journal, whatever the outside supplies. -/
theorem exec_touches {o : Op} {w w' : World} {x : Input} {a : o.Ans}
    (h : exec o w x = some (a, w')) : Touches o w.journal w'.journal := by
  cases o
  case append p => cases h; exact .append p _
  case recordAttempt id c st body next now =>
    simp only [exec] at h
    split at h
    next j hj =>
      cases h
      exact .record hj
    · cases h
  case unparkForDifficulty d => cases h; exact .unpark d _
  case unparkXuniForWindow n => cases h; exact .window n _
  case recordDifficulty d t => cases h; exact .difficulty d t _
  case observe d =>
    simp only [exec, Option.some.injEq] at h
    have hj : w'.journal = w.journal := by rw [← World.observe_journal (w := w) (d := d), h]
    rw [hj]
    exact .same _ _
  all_goals
    first
    | (cases h; exact .same _ _)
    | (cases x <;> first | (cases h; exact .same _ _) | cases h)

/-- Where a row comes from: it is an old row with the same id and payload whose
status changed only as the operation says, or `append` made it. -/
theorem Touches.origin {o : Op} {j j' : Journal} (h : Touches o j j') {r' : FindRecord}
    (hr : r' ∈ j'.rows) :
    (∃ r ∈ j.rows, r'.id = r.id ∧ r'.payload = r.payload ∧
      (r' = r ∨
       (∃ c st body next now, o = .recordAttempt r.id c st body next now ∧
         c.next_status ≠ .Submitting ∧ r' = Journal.attempted c st body next now r) ∨
       (∃ d, o = .unparkForDifficulty d ∧ r.status = .ParkedDifficulty ∧
         d ≤ r.payload.memory_cost ∧
           r' = { r with status := .Pending, next_attempt_at := none }) ∨
       (∃ n, o = .unparkXuniForWindow n ∧ r.status = .ParkedXuniWindow ∧
         r' = Journal.windowOpened n r))) ∨
    (∃ p, o = .append p ∧ j.byKey p.key = none ∧
      r' = Journal.newRow (Journal.nextId j.rows) p) := by
  -- one case for each operation that writes the journal
  cases h with
  | same => exact Or.inl ⟨r', hr, rfl, rfl, Or.inl rfl⟩
  | append p =>
    rcases Journal.mem_append.mp hr with hr | ⟨hn, rfl⟩
    · exact Or.inl ⟨r', hr, rfl, rfl, Or.inl rfl⟩
    · exact Or.inr ⟨p, rfl, hn, rfl⟩
  | record h =>
    obtain ⟨hs, -, hm⟩ := Journal.recordAttempt_some h
    obtain ⟨r, hm₀, rfl⟩ := (hm r').mp hr
    refine Or.inl ⟨r, hm₀, ?_⟩
    split
    next hid =>
      subst hid
      exact ⟨rfl, rfl, Or.inr (Or.inl ⟨_, _, _, _, _, rfl, hs, rfl⟩)⟩
    · exact ⟨rfl, rfl, Or.inl rfl⟩
  | unpark d =>
    obtain ⟨r, hm₀, rfl⟩ := Journal.mem_update.mp hr
    refine Or.inl ⟨r, hm₀, ?_⟩
    split
    next hp => exact ⟨rfl, rfl, Or.inr (Or.inr (Or.inl ⟨d, rfl, hp.1, hp.2, rfl⟩))⟩
    · exact ⟨rfl, rfl, Or.inl rfl⟩
  | window n =>
    obtain ⟨r, hm₀, rfl⟩ := Journal.mem_update.mp hr
    refine Or.inl ⟨r, hm₀, ?_⟩
    -- the opening of a window leaves every other row
    by_cases hp : r.status = .ParkedXuniWindow
    · refine ⟨?_, ?_, Or.inr (Or.inr (Or.inr ⟨n, rfl, hp, rfl⟩))⟩
      · unfold Journal.windowOpened
        rw [if_pos hp]
        split <;> rfl
      · unfold Journal.windowOpened
        rw [if_pos hp]
        split <;> rfl
    · have hw : Journal.windowOpened n r = r := by
        unfold Journal.windowOpened
        rw [if_neg hp]
      rw [hw]
      exact ⟨rfl, rfl, Or.inl rfl⟩
  | difficulty => exact Or.inl ⟨r', hr, rfl, rfl, Or.inl rfl⟩

/-- No operation loses a row. -/
theorem Touches.ext {o : Op} {j j' : Journal} (h : Touches o j j') : Journal.Ext j j' := by
  cases h with
  | same => exact .refl
  | append => exact Journal.ext_append
  | record h => exact Journal.ext_recordAttempt h
  | unpark => exact Journal.ext_update
  | window => exact Journal.ext_update
  | difficulty => exact .refl

/-- A step leaves the journal alone, performs an operation on it, or restarts
the process. -/
theorem step_journal {cfg : Config} {c c' : Configuration} {l : Label sig Party Call}
    (hs : (core cfg).Step c l c') :
    c'.world.journal = c.world.journal ∨
    (∃ i e, l = .did i e ∧ Touches e.op c.world.journal c'.world.journal) ∨
    (l = .restarted ∧ c'.world.journal = c.world.journal.recoverOnStartup) := by
  rcases Machine.step_cases hs with ⟨i, k, -, -, -, rfl⟩ |
      ⟨i, h, o, k, x, a, s, rfl, -, he, rfl⟩ |
    ⟨i, h, o, k, s, -, -, ha, rfl⟩ | ⟨s, rfl, hc, rfl⟩
  · exact Or.inl rfl
  · exact Or.inr (Or.inl ⟨i, ⟨o, a⟩, rfl, exec_touches he⟩)
  · refine Or.inl ?_
    simp only [core] at ha
    split at ha
    · cases ha
      dsimp only
      split <;> rfl
    · cases ha
  · refine Or.inr (Or.inr ⟨rfl, ?_⟩)
    simp only [core, Option.some.injEq] at hc
    rw [← hc]
    rfl

/-- A restart boots on the recovered journal. -/
theorem restarted_world {cfg : Config} {c c' : Configuration}
    (hs : (core cfg).Step c .restarted c') :
    c'.world = boot cfg c.world.journal.recoverOnStartup := by
  rcases Machine.step_cases hs with ⟨i, k, hl, -⟩ | ⟨i, h, o, k, x, a, s, hl, -⟩ |
    ⟨i, h, o, k, s, hl, -⟩ | ⟨s, -, hc, rfl⟩
  · cases hl
  · cases hl
  · cases hl
  · simp only [core, Option.some.injEq] at hc
    exact hc.symm

/-- No step of any thread, no throw and no restart loses a row or changes a payload. -/
theorem step_ext {cfg : Config} {c c' : Configuration} {l : Label sig Party Call}
    (hs : (core cfg).Step c l c') : Journal.Ext c.world.journal c'.world.journal := by
  rcases step_journal hs with h | ⟨i, e, -, h⟩ | ⟨-, h⟩
  · rw [h]
    exact .refl
  · exact h.ext
  · rw [h]
    exact Journal.ext_update

/-! ## Concrete schedules -/

/-- The next operations of `i`, each with its input. -/
def acts (i : Party) (xs : List Input) : List (Choice Party Input Call) := xs.map (.act i)

/-- A find to run the core on. -/
def sampleFind : FoundPayload where
  key := lit "k1"
  hash_to_verify := lit "h1"
  account := lit "0xa"
  kind := .XEN11
  memory_cost := 100
  worker := lit "w"
  attempts := 7
  hashes_per_second := ⟨0#64⟩
  found_at_utc := lit "1970-01-01T00:30:00Z"

/-- An answer without headers. -/
def reply (http_status : Int) (body : Bytes) : TransportResult :=
  { transport_ok := true, http_status := http_status, body := body }

end TreeMiner
