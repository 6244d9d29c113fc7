import TreeMiner.Submit.NoLoss

/-!
# Parked finds and the difficulty floor

A find is parked when its `m` is below the server's difficulty and released by
`unparkForDifficulty` when an observation lowers the floor. Observing is two
operations, the locked update of `last_difficulty_` and the release, and parking
is a third one made by another thread.

The invariant that survives every interleaving is `Accounted`: a parked row is
below the floor, or the floor is unknown, or some thread has recorded a floor
the row clears and has its release still to run (`owes`). Releases and
observations keep it by themselves. A parking write keeps it only when the row
is still below the floor at that moment, which neither the pre-park check nor
the hint guarantees: `parked_above_floor_missed` lets the poller in between.
-/

namespace TreeMiner

open Cxx Interleave

variable {cfg : Config} {tr : Trace} {c c' : Configuration} {l : Label sig Party Call}

/-- The row waits for a floor that is not there yet, or a thread is about to
release it. -/
def Accounted (c : Configuration) (r : FindRecord) : Prop :=
  c.world.last_difficulty = none ∨
  (∃ d, c.world.last_difficulty = some d ∧ r.payload.memory_cost < d) ∨
  ∃ i t d, c.pool i = some t ∧ owes t.hist = some d ∧ d ≤ r.payload.memory_cost

/-- The condition on a step: a row is parked for its difficulty only while it is
below the last observed floor, and no release fails. -/
def parksBelowFloor : Configuration × Label sig Party Call → Bool
  | (c, .did _ ⟨.recordAttempt id cl _ _ _ _, _⟩) =>
    cl.next_status != .ParkedDifficulty ||
      c.world.journal.rows.all fun r =>
        r.id != id || c.world.last_difficulty.any (r.payload.memory_cost < ·)
  | (_, .threw _ (.unparkForDifficulty _)) => false
  | _ => true

/-- What the test says of the statement that parks: the cost of the row is below the floor at that
moment. -/
theorem parksBelowFloor_record {i : Party} {id : Int} {cl : Classification} {st : Option Int}
    {body : Bytes} {next : Option Bytes} {now : Bytes} {a : Unit} {r : FindRecord}
    (h : parksBelowFloor (c, performed i (.recordAttempt id cl st body next now) a) = true)
    (hst : cl.next_status = .ParkedDifficulty) (hr : r ∈ c.world.journal.rows) (hid : r.id = id) :
    ∃ d, c.world.last_difficulty = some d ∧ r.payload.memory_cost < d := by
  simp only [parksBelowFloor, hst, bne_self_eq_false, Bool.false_or, List.all_eq_true] at h
  have h' := h r hr
  rw [hid, bne_self_eq_false, Bool.false_or, Option.any_eq_true] at h'
  obtain ⟨d, hd, hlt⟩ := h'
  exact ⟨d, hd, of_decide_eq_true hlt⟩

/-! ## What an operation does to the floor -/

/-- Only an observation moves the floor. -/
theorem exec_floor {o : Op} {w w' : World} {x : Input} {a : o.Ans}
    (h : exec o w x = some (a, w')) :
    w'.last_difficulty = w.last_difficulty ∨ ∃ d, o = .observe d := by
  cases o
  case observe d => exact Or.inr ⟨d, rfl⟩
  case recordAttempt id c st body next now =>
    simp only [exec] at h
    split at h
    · cases h
      exact Or.inl rfl
    · cases h
  all_goals
    first
    | (cases h; exact Or.inl rfl)
    | (cases x <;> first | (cases h; exact Or.inl rfl) | cases h)

/-- An observation that releases nothing leaves the floor where it was or raises
it. -/
theorem World.observe_floor {w : World} {d : UInt32} :
    (w.observe d).2.last_difficulty = some d ∧
    ((w.observe d).1 = false → ∃ last, w.last_difficulty = some last ∧ last ≤ d) := by
  unfold World.observe
  split
  · exact ⟨rfl, by simp⟩
  next last hl =>
    split
    next hlt => exact ⟨rfl, fun _ => ⟨last, hl, UInt32.le_of_lt hlt⟩⟩
    split
    · exact ⟨rfl, by simp⟩
    next h₁ h₂ => exact ⟨rfl, fun _ => ⟨last, hl, UInt32.not_lt.mp h₂⟩⟩

/-- What a release leaves parked is below the floor it was run for. -/
theorem unparked_below {j : Journal} {d : UInt32} {r : FindRecord}
    (hr : r ∈ (j.unparkForDifficulty d).rows) (hst : r.status = .ParkedDifficulty) :
    r.payload.memory_cost < d := by
  obtain ⟨r₀, -, rfl⟩ := Journal.mem_update.mp hr
  split at hst
  · cases hst
  next hn =>
    rw [if_neg hn]
    exact UInt32.not_le.mp fun hle => hn ⟨hst, hle⟩

/-! ## One step -/

/-- A thread that owes a release is about to run it. -/
theorem owes_next (hpath : c.Along (fun _ => Rely) (PathOf cfg) (fun _ h' _ => owes h' = none))
    {i : Party} {t : Thread sig Unit} {d : UInt32} (hp : c.pool i = some t)
    (ho : owes t.hist = some d) :
    ∃ k, t.prog = .op (.unparkForDifficulty d) k := by
  have ha := hpath i t hp
  obtain ⟨h, prog⟩ := t
  cases prog with
  | ret a =>
    have hn : owes h = none := ha
    rw [hn] at ho
    cases ho
  | op o k =>
    obtain ⟨⟨⟨hnext, -⟩, -⟩, -⟩ := ha
    cases hnext d ho
    exact ⟨k, rfl⟩

/-- A row that was parked and still is stays accounted for. -/
private theorem accounted_did
    (hpath : c.Along (fun _ => Rely) (PathOf cfg) (fun _ h' _ => owes h' = none)) {i : Party}
    {h : History} {o : Op} {k : o.Ans → Step Unit} {x : Input} {a : o.Ans} {w : World}
    (hp : c.pool i = some ⟨h, .op o k⟩) (hx : exec o c.world x = some (a, w)) {r : FindRecord}
    (hr : r ∈ w.journal.rows) (hst : r.status = .ParkedDifficulty) (hacc : Accounted c r) :
    Accounted ⟨w, Function.update c.pool i (some ⟨⟨o, a⟩ :: h, k a⟩)⟩ r := by
  -- only an observation moves the floor; it may fall by it or rise
  rcases exec_floor hx with hfl | ⟨d, rfl⟩
  · rcases hacc with hn | ⟨d, hd, hlt⟩ | ⟨j, t, d, hj, ho, hle⟩
    · exact Or.inl (hfl.trans hn)
    · exact Or.inr (Or.inl ⟨d, hfl.trans hd, hlt⟩)
    · by_cases hij : j = i
      · -- the thread just ran the release it owed, so the row is not parked
        subst hij
        rw [hp, Option.some.injEq] at hj
        subst hj
        obtain ⟨k', hk'⟩ := owes_next hpath hp ho
        cases hk'
        cases hx
        exact absurd (unparked_below hr hst) (UInt32.not_lt.mpr hle)
      · exact Or.inr
          (Or.inr ⟨j, t, d, by dsimp only; rw [Function.update_of_ne hij, hj], ho, hle⟩)
  · simp only [exec, Option.some.injEq] at hx
    obtain ⟨hlast, hraise⟩ := World.observe_floor (w := c.world) (d := d)
    rw [hx] at hlast hraise
    cases a with
    -- the floor fell: the row is above it, or this thread now owes its release
    | true =>
      by_cases hlt : r.payload.memory_cost < d
      · exact Or.inr (Or.inl ⟨d, hlast, hlt⟩)
      · refine Or.inr (Or.inr ⟨i, _, d, Function.update_self _ _ _, rfl, UInt32.not_lt.mp hlt⟩)
    -- the floor did not fall, so whoever was above it still is
    | false =>
      obtain ⟨last, hlast', hle'⟩ := hraise rfl
      rcases hacc with hn | ⟨d', hd, hlt⟩ | ⟨j, t, d', hj, ho, hle⟩
      · rw [hn] at hlast'
        cases hlast'
      · rw [hd, Option.some.injEq] at hlast'
        exact Or.inr (Or.inl ⟨d, hlast, UInt32.lt_of_lt_of_le (hlast' ▸ hlt) hle'⟩)
      · have hij : j ≠ i := by
          rintro rfl
          rw [hp, Option.some.injEq] at hj
          subst hj
          obtain ⟨k', hk'⟩ := owes_next hpath hp ho
          cases hk'
        exact Or.inr
          (Or.inr ⟨j, t, d', by dsimp only; rw [Function.update_of_ne hij, hj], ho, hle⟩)

/-- A step keeps every parked row accounted for: it is below the floor, or the thread that lowered
the floor is about to release it. -/
theorem accounted_step (hr : Run (core cfg) (start cfg) tr c)
    (ih : ∀ r ∈ c.world.journal.rows, r.status = .ParkedDifficulty → Accounted c r)
    (hG : parksBelowFloor (c, l) = true) (hs : (core cfg).Step c l c') :
    ∀ r ∈ c'.world.journal.rows, r.status = .ParkedDifficulty → Accounted c' r := by
  intro r' hr' hst
  have hpath := run_paths hr
  rcases Machine.step_cases hs with ⟨i, k, -, -, hdone, rfl⟩ |
    ⟨i, h, o, k, x, a, w, rfl, hp, hx, rfl⟩ | ⟨i, h, o, k, w, rfl, hp, ha, rfl⟩ | ⟨w, -,
      hc, rfl⟩
  · -- a call starts where the last one returned, and returned with nothing owed
    rcases ih r' hr' hst with hn | hb | ⟨j, t, d, hj, ho, hle⟩
    · exact Or.inl hn
    · exact Or.inr (Or.inl hb)
    · have hij : j ≠ i := by
        rintro rfl
        obtain ⟨k', hk'⟩ := owes_next hpath hj ho
        obtain ⟨h', p'⟩ := t
        cases hk'
        rw [hj] at hdone
        cases hdone
      exact Or.inr
        (Or.inr ⟨j, t, d, by dsimp only; rw [Function.update_of_ne hij, hj], ho, hle⟩)
  · rcases (exec_touches hx).origin hr' with ⟨r, hrow, -, hpay, hch⟩ | ⟨p, -, -, rfl⟩
    · rcases hch with rfl | ⟨cl, st, body, next, now, rfl, -, rfl⟩ | ⟨d, -, -, -, rfl⟩ |
        ⟨n, -, hx', rfl⟩
      · exact accounted_did hpath hp hx hr' hst (ih r' hrow hst)
      -- the row is parked by this very step, and above the floor by the condition
      · obtain ⟨d, hd, hlt⟩ := parksBelowFloor_record hG hst hrow rfl
        refine Or.inr (Or.inl ⟨d, ?_, hlt⟩)
        have hrec : exec (.recordAttempt r.id cl st body next now) c.world x = some (a, w) := hx
        rcases exec_floor hrec with hfl | ⟨d', hob⟩
        · exact hfl.trans hd
        · cases hob
      · cases hst
      -- a row that the window has opened is not parked for its difficulty
      · unfold Journal.windowOpened at hst
        rw [if_pos hx'] at hst
        split at hst <;> cases hst
    · unfold Journal.newRow Journal.initialStatus at hst
      dsimp only at hst
      split at hst
      · cases hst
      · split at hst <;> cases hst
  -- a thread has thrown: neither the journal nor the floor has changed
  · have hw : w.journal = c.world.journal ∧ w.last_difficulty = c.world.last_difficulty := by
      simp only [core] at ha
      split at ha
      · cases ha
        split <;> exact ⟨rfl, rfl⟩
      · cases ha
    rcases ih r' (hw.1 ▸ hr') hst with hn | ⟨d, hd, hlt⟩ | ⟨j, t, d, hj, ho, hle⟩
    · exact Or.inl (hw.2.trans hn)
    · exact Or.inr (Or.inl ⟨d, hw.2.trans hd, hlt⟩)
    · have hij : j ≠ i := by
        rintro rfl
        rw [hp, Option.some.injEq] at hj
        subst hj
        obtain ⟨k', hk'⟩ := owes_next hpath hp ho
        cases hk'
        cases hG
      exact Or.inr
        (Or.inr ⟨j, t, d, by dsimp only; rw [Function.update_of_ne hij, hj], ho, hle⟩)
  · simp only [core, Option.some.injEq] at hc
    exact Or.inl (by rw [← hc]; rfl)

/-! ## Runs -/

/-- So it is in every run whose parking statements meet the condition. -/
theorem run_accounted (hr : Run (core cfg) (start cfg) tr c)
    (hG : ∀ x ∈ tr, parksBelowFloor x = true) :
    ∀ r ∈ c.world.journal.rows, r.status = .ParkedDifficulty → Accounted c r :=
  hr.invariant (I := fun _ c => ∀ r ∈ c.world.journal.rows, r.status = .ParkedDifficulty →
      Accounted c r)
    (fun _ _ _ _ run hI hG hs => accounted_step run hI hG hs) (fun _ hr => by cases hr)
    (Each.of_forall hG)

/-- **No lost wake-up.** In every run in which finds are parked only while they
are below the observed floor and no release fails: once a difficulty has been
observed, with no submission step in flight and the poller not between recording
a floor and running its release, every find parked for its difficulty is below
the last observed one. -/
theorem parked_above_floor (cfg : Config) (tr : Trace) (c : Configuration)
    (hr : Run (core cfg) (start cfg) tr c) (hG : ∀ x ∈ tr, parksBelowFloor x = true)
    (hsub : Thread.isDone (c.pool .submission) = true)
    (hpoll : ∀ h d k, c.pool .poller ≠ some ⟨h, .op (.unparkForDifficulty d) k⟩)
      (d : UInt32)
    (hd : c.world.last_difficulty = some d) :
    ∀ r ∈ c.world.journal.rows, r.status = .ParkedDifficulty → r.payload.memory_cost < d := by
  intro r hrow hst
  rcases run_accounted hr hG r hrow hst with hn | ⟨d', hd', hlt⟩ | ⟨i, t, d', hp, ho, -⟩
  · rw [hn] at hd
    cases hd
  · rw [hd, Option.some.injEq] at hd'
    exact hd' ▸ hlt
  · obtain ⟨h, prog⟩ := t
    obtain ⟨k, hk⟩ := owes_next (run_paths hr) hp ho
    cases hk
    have hby := (run_paths hr i _ hp).1.2
    cases i with
    | submission =>
      rw [hp] at hsub
      cases hsub
    | poller => exact absurd hp (hpoll h d' k)
    | miner n => cases hby

/-! ## Two schedules -/

/-- The configuration the miner ships with. -/
def production : Config := { pre_park_below_difficulty := true }

/-- A whole `observeDifficulty` call that releases. -/
def observes (d : UInt32) : List (Choice Party Input Call) :=
  .start .poller (.observeDifficulty d) :: acts .poller [.nothing, .nothing]

/-- Find at `m = 100`, floor 200, and a scheduling step up to the pre-park check. -/
def checked : List (Choice Party Input Call) :=
  [.start (.miner 0) (.append sampleFind), .act (.miner 0) .nothing] ++ observes 200 ++
  .start .submission .runOnce :: acts .submission
    [.nothing, .nothing, .time 0, .time 0, .time 1800000, .nothing, .nothing, .time 1800000,
     .nothing, .time 0, .nothing, .nothing]

/-- The rest of the step: the parking write and an empty confirmation round. -/
def parks : List (Choice Party Input Call) :=
  acts .submission [.time 1800000, .nothing, .time 1800000, .nothing, .nothing]

private theorem parks_possible :
    ((core production).replay (start production) (checked ++ parks)).isSome = true := by
  decide

/-- Undisturbed, the find is parked below the floor. -/
theorem parked_above_floor_undisturbed :
    ∃ tr c, Run (core production) (start production) tr c ∧
      c.world.journal.rows.map (·.status) = [.ParkedDifficulty] ∧
      ∀ r ∈ c.world.journal.rows, r.status = .ParkedDifficulty →
        r.payload.memory_cost < 200 := by
  have hr := Machine.replay_get parks_possible
  have hpoll : Thread.isDone ((((core production).replay (start production)
      (checked ++ parks)).get parks_possible).2.pool .poller) = true := by decide
  refine ⟨_, _, hr, by decide, parked_above_floor _ _ _ hr (by decide)
    (by decide) ?_ 200 (by decide)⟩
  intro h d k hp
  rw [hp] at hpoll
  cases hpoll

/-- Every difficulty hint received for a record is above the record's `m`. -/
def hintAbove : Configuration × Label sig Party Call → Bool
  | (_, .did _ ⟨.submit p, res⟩) =>
    (classify (if res.transport_ok then res.http_status else kTransportError) res.body p.kind
      res.retry_after).server_difficulty_hint.all (p.memory_cost < ·)
  | _ => true

private theorem missed_possible :
    ((core production).replay (start production) (checked ++ observes 100 ++ parks)).isSome =
      true := by
  decide

/-- The floor falls to 100 between the check and the write: the release finds
nothing parked, the find is parked afterwards, and it stays parked although the
last observed difficulty is its own `m`. -/
theorem parked_above_floor_missed :
    ∃ tr c, Run (core production) (start production) tr c ∧
      (∀ x ∈ tr, hintAbove x = true) ∧
      Thread.isDone (c.pool .submission) = true ∧ Thread.isDone (c.pool .poller) = true ∧
      c.world.last_difficulty = some 100 ∧
      ∃ r ∈ c.world.journal.rows, r.status = .ParkedDifficulty ∧
        ¬ r.payload.memory_cost < 100 := by
  refine ⟨_, _, Machine.replay_get missed_possible, by decide, by decide,
    by decide, by decide, by decide⟩

end TreeMiner
