import TreeMiner.Lib.Solo
import TreeMiner.Submit.HalfOpen

/-!
# The margin over an outage

The outage clock is kept by `updateMargin_`, at the head of each step: it starts at the
first step that finds the breaker open and is cleared by any step that finds it in another
state. An outage lasts until the breaker closes, and on the way the breaker may be
half-open any number of times; each time the clock starts again.

`Steps` is the life of one process, step after step, with whatever the journal and the
servers answer and a clock that does not go back. Of each step it keeps what
`updateMargin_` saw and left (`Update`).
-/

namespace TreeMiner

open Cxx Interleave

variable {cfg : Config}

/-! ## Steps in a row -/

/-- What is left of `runStep_` after the margin. -/
def afterMargin (cfg : Config) (m : Members) : Step (StepResult × Members) :=
  if m.breaker.state = .Open then probeStep cfg m
  else do
    let (submit_result, m) ← submitStep cfg m
    let (confirm_result, m) ← confirmStep cfg m
    if submit_result = .Idle ∧ confirm_result ≠ .Idle then pure (confirm_result, m)
    else pure (submit_result, m)

/-- A step is the evaluation of the margin and what comes after it. -/
theorem runStep_eq {m : Members} :
    runStep cfg m = (updateMargin cfg m).bind (afterMargin cfg) :=
  rfl

/-- The reading of the monotonic clock that an answer is. -/
def Op.reading : (o : Op) → o.Ans → Option Int
  | .mono, t => some t
  | _, _ => none

/-- Any answers, with a monotonic clock. The state is its last reading. -/
def ticking : Effects sig Int where
  does o t a t' :=
    match o.reading a with
    | some now => t ≤ now ∧ t' = now
    | none => t' = t
  throws o t t' := o.mayThrow = true ∧ t' = t

/-- One `updateMargin_`: the members before and after, its reading of the clock and the
counts it took, if it evaluated the margin in Auto mode. -/
structure Update where
  before : Members
  now : Int
  counted : Option Journal.Counts
  after : Members

/-- What it did. -/
def Update.events (u : Update) : List (Event sig) :=
  ⟨.mono, u.now⟩ :: u.counted.toList.map fun c => ⟨.counts, c⟩

/-- `u` happens when the last reading was `t`. -/
def Updates (cfg : Config) (t : Int) (u : Update) (t' : Int) : Prop :=
  (updateMargin cfg u.before).Runs ticking t u.events (some u.after) t'

/-- The steps of a process up to now (newest first), the members they left and the last
reading. The clock starts above 0. -/
inductive Steps (cfg : Config) : List Update → Members → Int → Prop where
  | boot {t : Int} (pos : 0 < t) : Steps cfg [] { scheduler := Drain.init cfg.drain } t
  | step {us : List Update} {u : Update} {t t₁ t₂ : Int} {h : List (Event sig)}
      {r : StepResult} {m : Members} (before : Steps cfg us u.before t)
      (update : Updates cfg t u t₁)
      (rest : (afterMargin cfg u.after).Runs ticking t₁ h (some (r, m)) t₂) :
      Steps cfg (u :: us) m t₂

/-- When the outage that is going on began: the reading of the first update since the
breaker was last closed that saw it open. -/
def outageSince : List Update → Option Int
  | [] => none
  | u :: us =>
    match u.before.breaker.state with
    | .Closed => none
    | .Open => some ((outageSince us).getD u.now)
    | .HalfOpen => outageSince us

/-- An update of this outage saw the breaker half-open. -/
def sawHalfOpen : List Update → Bool
  | [] => false
  | u :: us =>
    match u.before.breaker.state with
    | .Closed => false
    | .Open => sawHalfOpen us
    | .HalfOpen => true

/-- The clock as `updateMargin_` keeps it. -/
def openSince : List Update → Int
  | [] => 0
  | u :: us =>
    if u.before.breaker.state = .Open then if openSince us = 0 then u.now else openSince us
    else 0

/-- What the margin should be that is evaluated at `now`. -/
def outageMargin (cfg : Config) (now since : Int) (c : Journal.Counts) : UInt32 :=
  computeMargin cfg.margin
    { breaker_open := true, outage_ms := now - since, backlog := backlogOf c }

/-! ## One update -/

/-- The start of an outage is set where the breaker is first found open and cleared where it is not
open. -/
theorem outageClock_started {m : Members} {now : Int} :
    (outageClock m now).outage_started_ms =
      if m.breaker.state = .Open then
        if m.outage_started_ms = 0 then now else m.outage_started_ms
      else 0 := by
  unfold outageClock
  split
  · split <;> rfl
  · rfl

/-- What an update leaves: the outage clock wound, and in Auto mode what it counted in the
margin. -/
structure Update.Winds (cfg : Config) (u : Update) : Prop where
  clock : u.after.outage_started_ms = (outageClock u.before u.now).outage_started_ms
  margin : ∀ c, cfg.margin.mode = .Auto → u.counted = some c →
    u.after.margin_kib = computeMargin cfg.margin
      { breaker_open := u.before.breaker.state = .Open
        outage_ms :=
          if u.before.breaker.state = .Open then u.now - u.after.outage_started_ms else 0
        backlog := backlogOf c }

/-- Every run of `updateMargin_` is an update, and winds the clock. -/
theorem updateMargin_runs {m m' : Members} {t t' : Int} {h : List (Event sig)}
    (hr : (updateMargin cfg m).Runs ticking t h (some m') t') :
    ∃ u :
    Update, u.before = m ∧ u.after = m' ∧ u.events = h ∧ t ≤ u.now ∧ t' = u.now ∧
      u.Winds cfg := by
  rcases runs_op.mp hr with ⟨now, t₁, h₁, rfl, ⟨hle, hnow⟩, hrest⟩ | ⟨-, hn, -⟩
  · subst hnow
    -- where nothing is counted nothing is said about the margin
    have quiet : ∀ {m₁ : Members}, Prog.Runs ticking (.ret m₁) t₁ h₁ (some m') t' →
        m₁.outage_started_ms = (outageClock m t₁).outage_started_ms →
        ∃ u : Update, u.before = m ∧ u.after = m' ∧ u.events = ⟨.mono, t₁⟩ :: h₁ ∧
          t ≤ u.now ∧
          t' = u.now ∧ u.Winds cfg := by
      intro m₁ hret hm₁
      obtain ⟨rfl, hv, rfl⟩ := runs_ret.mp hret
      cases hv
      refine ⟨⟨m, t', none, m'⟩, rfl, rfl, rfl, hle, rfl, hm₁, ?_⟩
      intro c _ hc
      cases hc
    simp only [Prog.bind_eq, Prog.pure_eq, Prog.ret_bind] at hrest
    split at hrest
    · exact quiet hrest rfl
    split at hrest
    · exact quiet hrest rfl
    split at hrest
    · rcases runs_op.mp hrest with ⟨c, t₂, h₂, rfl, ht₂, hret⟩ | ⟨-, hn, -⟩
      · have hsame : t₂ = t₁ := ht₂
        obtain ⟨rfl, hv, rfl⟩ := runs_ret.mp hret
        cases hv
        refine ⟨⟨m, t₁, some c, _⟩, rfl, rfl, rfl, hle, hsame, rfl, ?_⟩
        intro c' _ hc
        cases hc
        dsimp only
        rw [outageClock_breaker]
      · cases hn
    · exact quiet hrest rfl
  · cases hn

/-- An update is known by what it did. -/
theorem Update.of_events {u v : Update} (hb : u.before = v.before) (ha : u.after = v.after)
    (he : u.events = v.events) : u = v := by
  obtain ⟨b, now, counted, a⟩ := u
  obtain ⟨b', now', counted', a'⟩ := v
  cases hb
  cases ha
  cases counted <;> cases counted' <;> cases he <;> rfl

/-- An evaluation reads the clock once, at a time that does not go back, and winds the clock of the
outage by it. -/
theorem Updates.spec {u : Update} {t t' : Int} (hu : Updates cfg t u t') :
    t ≤ u.now ∧ t' = u.now ∧ u.Winds cfg := by
  obtain ⟨v, hb, ha, he, hle, ht, hw⟩ := updateMargin_runs hu
  rw [Update.of_events hb ha he] at hle ht hw
  exact ⟨hle, ht, hw⟩

/-! ## The rest of a step keeps the clock -/

/-- What is returned has this outage clock. -/
abbrev KeepsClock {β : Type} (of : β → Members) (started : Int) (p : Step β) : Prop :=
  p.Returns fun b => (of b).outage_started_ms = started

/-- From here on: no other part of a step touches the start of the outage. -/
theorem trackServerDate_keeps {m : Members} {r : TransportResult} :
    KeepsClock id m.outage_started_ms (trackServerDate m r) := by
  unfold trackServerDate
  split
  · exact rfl
  · intro w
    exact rfl

/-- An outcome moves breaker and scheduler. -/
theorem afterOutcome_started {m : Members} {was_closed : Bool} {c : Classification}
    {res : TransportResult} {now : Int} :
    (afterOutcome cfg m was_closed c res now).outage_started_ms = m.outage_started_ms := by
  unfold afterOutcome
  split
  · rfl
  · split
    · rfl
    · split <;> rfl

/-- A probe moves the breaker. -/
theorem probeStep_keeps {m : Members} :
    KeepsClock Prod.snd m.outage_started_ms (probeStep cfg m) := by
  refine .call ?_
  intro now
  split
  · exact rfl
  · refine .call ?_
    intro r
    refine trackServerDate_keeps.bind ?_
    intro m' hm'
    split
    · refine .after ?_
      intro _
      refine .after ?_
      intro _
      exact hm'
    · refine .call ?_
      intro now
      exact hm'

theorem confirmFresh_keeps {m : Members} {rec : FindRecord} {c : Classification} :
    KeepsClock Prod.fst m.outage_started_ms (confirmFresh cfg m rec c) := by
  unfold confirmFresh
  split
  · refine .call ?_
    intro conf
    refine trackServerDate_keeps.bind ?_
    intro m' hm'
    refine .after ?_
    intro _
    exact hm'
  · exact rfl

theorem attempt_keeps {m : Members} {now : Int} {rec : FindRecord} :
    KeepsClock Prod.snd m.outage_started_ms (attempt cfg m now rec) := by
  refine .call ?_
  intro res
  refine trackServerDate_keeps.bind ?_
  intro m₁ hm₁
  refine .after ?_
  intro _
  refine confirmFresh_keeps.bind ?_
  rintro ⟨m₂, c₂, next⟩ hm₂
  refine .after ?_
  intro _
  refine .call ?_
  intro w
  refine .call ?_
  intro _
  refine .call ?_
  intro now'
  refine .after ?_
  intro _
  exact afterOutcome_started.trans (hm₂.trans hm₁)

theorem admitRecord_keeps {m : Members} {now : Int} {rec : FindRecord} :
    KeepsClock Prod.snd m.outage_started_ms (admitRecord cfg m now rec) := by
  unfold admitRecord
  dsimp only
  split
  · exact attempt_keeps (m := { m with breaker := m.breaker.tryAdmit.2 })
  · exact rfl

theorem submitRecord_keeps {m : Members} {now : Int} {rec : FindRecord} :
    KeepsClock Prod.snd m.outage_started_ms (submitRecord cfg m now rec) := by
  unfold submitRecord
  split
  · refine .call ?_
    intro known
    split
    · split
      · refine .call ?_
        intro w
        refine .call ?_
        intro _
        exact rfl
      · exact admitRecord_keeps
    · exact admitRecord_keeps
  · exact admitRecord_keeps

/-- The scheduling step, whichever of its ends it comes to. -/
theorem submitStep_keeps {m : Members} :
    KeepsClock Prod.snd m.outage_started_ms (submitStep cfg m) := by
  refine .call ?_
  intro now
  split
  · exact rfl
  · refine .after ?_
    intro window
    refine .after ?_
    rintro ⟨eligible, pressure⟩
    refine .call ?_
    intro now'
    dsimp only
    split
    · exact rfl
    · refine .call ?_
      intro trend
      split
      · exact rfl
      · exact submitRecord_keeps
          (m := { m with breaker := m.breaker.setXuniPressure cfg.breaker pressure now' })

/-- The loop over the records that await confirmation, by induction on them. -/
theorem confirmLoop_keeps : ∀ {recs : List FindRecord} {m : Members},
    KeepsClock id m.outage_started_ms (confirmLoop cfg recs m)
  | [], m => rfl
  | rec :: recs, m => by
    have hone : KeepsClock Prod.fst m.outage_started_ms (confirmOne cfg m rec) := by
      refine .call ?_
      intro conf
      refine trackServerDate_keeps.bind ?_
      intro m₁ hm₁
      refine .after ?_
      intro _
      refine .call ?_
      intro w
      refine .call ?_
      intro _
      exact hm₁
    refine hone.bind ?_
    rintro ⟨m₁, goOn⟩ hm₁
    dsimp only at hm₁ ⊢
    split
    · rw [← hm₁]
      exact confirmLoop_keeps
    · exact hm₁

theorem confirmStep_keeps {m : Members} :
    KeepsClock Prod.snd m.outage_started_ms (confirmStep cfg m) := by
  unfold confirmStep
  split
  · exact rfl
  · refine .call ?_
    intro w
    refine .call ?_
    intro batch
    split
    · exact rfl
    · refine confirmLoop_keeps.bind ?_
      intro m₁ hm₁
      exact hm₁

/-- All that comes after the margin. -/
theorem afterMargin_keeps {m : Members} :
    KeepsClock Prod.snd m.outage_started_ms (afterMargin cfg m) := by
  unfold afterMargin
  split
  · exact probeStep_keeps
  · refine submitStep_keeps.bind ?_
    rintro ⟨r₁, m₁⟩ hm₁
    refine confirmStep_keeps.bind ?_
    rintro ⟨r₂, m₂⟩ hm₂
    dsimp only at hm₁ hm₂ ⊢
    split <;> exact hm₂.trans hm₁

/-! ## Runs -/

/-- The clock does not go back. -/
theorem ticking_mono {α : Type} {p : Step α} {t t' : Int} {h : List (Event sig)} {r : Option α}
    (hr : p.Runs ticking t h r t') : t ≤ t' := by
  induction hr with
  | ret => exact le_refl _
  | @op o k s s₁ s₂ a h r does rest ih =>
    refine le_trans ?_ ih
    have hdoes : (match o.reading a with
      | some now => s ≤ now ∧ s₁ = now
      | none => s₁ = s) := does
    split at hdoes
    · rw [hdoes.2]
      exact hdoes.1
    · exact hdoes.ge
  | threw throws => exact throws.2.ge

/-- Every reading is above 0. -/
theorem Steps.pos {us : List Update} {m : Members} {t : Int} (hs : Steps cfg us m t) :
    0 < t ∧ ∀ u ∈ us, 0 < u.now := by
  induction hs with
  | boot pos =>
    refine ⟨pos, ?_⟩
    intro u hu
    cases hu
  | @step us u t t₁ t₂ h r m before update rest ih =>
    obtain ⟨hle, rfl, -⟩ := update.spec
    have hnow : 0 < u.now := lt_of_lt_of_le ih.1 hle
    refine ⟨lt_of_lt_of_le hnow (ticking_mono rest), ?_⟩
    intro v hv
    rcases List.mem_cons.mp hv with rfl | hv
    · exact hnow
    · exact ih.2 v hv

/-- An update winds the clock that the updates before it left. -/
theorem Updates.openSince {us : List Update} {u : Update} {t t' : Int}
    (hstarted : u.before.outage_started_ms = openSince us) (hu : Updates cfg t u t') :
    u.after.outage_started_ms = openSince (u :: us) := by
  obtain ⟨-, -, hw⟩ := hu.spec
  rw [hw.clock, outageClock_started, hstarted]
  rfl

/-- **Run.** Between steps the members hold the clock of the updates so far. -/
theorem Steps.openSince {us : List Update} {m : Members} {t : Int} (hs : Steps cfg us m t) :
    m.outage_started_ms = openSince us := by
  induction hs with
  | boot => rfl
  | step before update rest ih =>
    rw [← update.openSince ih]
    exact rest.returns afterMargin_keeps

/-- With positive readings the start of an outage is positive, so that 0 can stand for no outage. -/
theorem outageSince_pos : ∀ {us : List Update}, (∀ u ∈ us, 0 < u.now) →
    ∀ {t : Int}, outageSince us = some t → 0 < t
  | [], _, t, ht => by cases ht
  | u :: us, hpos, t, ht => by
    have hrest := fun v hv => hpos v (List.mem_cons_of_mem u hv)
    unfold outageSince at ht
    split at ht
    · cases ht
    · cases hus : outageSince us with
      | none =>
        rw [hus] at ht
        cases ht
        exact hpos u List.mem_cons_self
      | some s =>
        rw [hus] at ht
        cases ht
        exact outageSince_pos hrest hus
    · exact outageSince_pos hrest ht

/-- While the breaker was not half-open, the clock that is kept is the clock of the
outage. -/
theorem openSince_eq :
    ∀ {us : List Update}, (∀ u ∈ us, 0 < u.now) → sawHalfOpen us = false →
    openSince us = (outageSince us).getD 0
  | [], _, _ => rfl
  | u :: us, hpos, hsaw => by
    have hrest := fun v hv => hpos v (List.mem_cons_of_mem u hv)
    unfold sawHalfOpen at hsaw
    unfold openSince outageSince
    cases hst : u.before.breaker.state with
    | Closed => rfl
    | HalfOpen =>
      rw [hst] at hsaw
      cases hsaw
    | Open =>
      rw [hst] at hsaw
      rw [openSince_eq hrest hsaw]
      cases hus : outageSince us with
      | none => rfl
      | some t =>
        have ht := outageSince_pos hrest hus
        have hne : t ≠ 0 := by omega
        simp [hne]

/-- What is evaluated in an outage covers it from its first update on. -/
def CoversOutage (cfg : Config) (us : List Update) (u : Update) : Prop :=
  ∀ since c, outageSince (u :: us) = some since → u.counted = some c →
    outageMargin cfg u.now since c ≤ u.after.margin_kib

/-- **The margin covers an outage as long as the breaker is not seen half-open in it.** In
Auto mode and in every run: each margin that is evaluated in an outage, none of whose
updates so far has found the breaker half-open, is at least that of the whole outage. -/
theorem outage_margin_covers (cfg : Config) (hauto : cfg.margin.mode = .Auto)
    (us : List Update) (u : Update) (t t' : Int) (hs : Steps cfg us u.before t)
    (hu : Updates cfg t u t') (hsaw : sawHalfOpen (u :: us) = false) : CoversOutage cfg us u := by
  intro since c hout hc
  obtain ⟨hle, -, hw⟩ := hu.spec
  have hpos : ∀ v ∈ u :: us, 0 < v.now := by
    intro v hv
    rcases List.mem_cons.mp hv with rfl | hv
    · exact lt_of_lt_of_le hs.pos.1 hle
    · exact hs.pos.2 v hv
  have hclock : u.after.outage_started_ms = since := by
    rw [hu.openSince hs.openSince, openSince_eq hpos hsaw, hout]
    rfl
  -- an outage that was never half-open is open
  have hopen : u.before.breaker.state = .Open := by
    unfold sawHalfOpen at hsaw
    unfold outageSince at hout
    cases hst : u.before.breaker.state with
    | Open => rfl
    | Closed =>
      rw [hst] at hout
      cases hout
    | HalfOpen =>
      rw [hst] at hsaw
      cases hsaw
  rw [hw.margin c hauto hc, hclock]
  simp only [hopen, decide_true, if_true]
  exact UInt32.le_refl _

/-! ## An outage with a probe that succeeds -/

/-- What a step at time `t`, in which every request gets `r`, is supplied with. -/
def supply (t : Int) (r : TransportResult) : Op → Input
  | .mono => .time t
  | .wall => .time (1800000 + t)
  | _ => .answer r

/-- The answers of such a step, as long as the clock does not go back. -/
def respond (t : Int) (r : TransportResult) (o : Op) (s : World × Int) :
    Option (o.Ans × World × Int) :=
  match exec o s.1 (supply t r o) with
  | none => none
  | some (a, w) =>
    match o.reading a with
    | some now => if s.2 ≤ now then some (a, w, now) else none
    | none => some (a, w, s.2)

/-- The replay of a script is a run whose clock does not go back. -/
theorem respond_ticking (t : Int) (r : TransportResult) (o : Op) (s : World × Int) (a : o.Ans)
    (s' : World × Int) (h : respond t r o s = some (a, s')) : ticking.does o s.2 a s'.2 := by
  unfold respond at h
  split at h
  · cases h
  next b w _ =>
    show match o.reading a with
      | some now => s.2 ≤ now ∧ s'.2 = now
      | none => s'.2 = s.2
    split at h
    next now hb =>
      split at h
      next hle =>
        cases h
        rw [hb]
        exact ⟨hle, rfl⟩
      · cases h
    next hb =>
      cases h
      rw [hb]

/-- The update that did this. -/
def updateOf (m : Members) (h : List (Event sig)) (m' : Members) : Update where
  before := m
  now := match h with
    | ⟨.mono, t⟩ :: _ => t
    | _ => 0
  counted := match h with
    | [_, ⟨.counts, c⟩] => some c
    | _ => none
  after := m'

/-- An update is known by its members before and after and by what it read. -/
theorem updateOf_events {u : Update} : updateOf u.before u.events u.after = u := by
  obtain ⟨before, now, counted, after⟩ := u
  cases counted <;> rfl

/-- A process: its updates, its members, the world and the last reading. -/
structure Process where
  updates : List Update
  members : Members
  world : World
  last : Int

/-- The update of a step. -/
def Process.update (cfg : Config) (p : Process) (t : Int) (r : TransportResult) :
    Option (Update × World × Int) :=
  ((updateMargin cfg p.members).follow (respond t r) (p.world, p.last)).map fun s =>
    (updateOf p.members s.1 s.2.1, s.2.2)

/-- A whole step. -/
def Process.step (cfg : Config) (p : Process) (t : Int) (r : TransportResult) : Option Process :=
  match p.update cfg t r with
  | none => none
  | some (u, s) =>
    ((afterMargin cfg u.after).follow (respond t r) s).map fun e =>
      ⟨u :: p.updates, e.2.1.2, e.2.2.1, e.2.2.2⟩

/-- An update of the replay is one that the program makes. -/
theorem Process.update_spec {p : Process} {t : Int} {r : TransportResult} {u : Update}
    {s : World × Int} (h : p.update cfg t r = some (u, s)) :
    u.before = p.members ∧ Updates cfg p.last u s.2 := by
  obtain ⟨⟨es, m', s'⟩, hf, heq⟩ := Option.map_eq_some_iff.mp h
  cases heq
  have hr := Prog.follow_runs Prod.snd (respond_ticking t r) hf
  obtain ⟨v, hb, ha, he, -⟩ := updateMargin_runs hr
  have hv : updateOf p.members es m' = v := by
    rw [← hb, ← ha, ← he, updateOf_events]
  dsimp only
  rw [hv]
  refine ⟨hb, ?_⟩
  unfold Updates
  rw [hb, ha, he]
  exact hr

/-- One more step of the replay is one more step of the run. -/
theorem Process.step_spec {p q : Process} {t : Int} {r : TransportResult}
    (hs : Steps cfg p.updates p.members p.last) (h : p.step cfg t r = some q) :
    Steps cfg q.updates q.members q.last := by
  unfold Process.step at h
  split at h
  · cases h
  next u s hu =>
    obtain ⟨⟨es, ⟨res, m⟩, s'⟩, hf, heq⟩ := Option.map_eq_some_iff.mp h
    cases heq
    obtain ⟨hb, hup⟩ := Process.update_spec hu
    rw [← hb] at hs
    exact hs.step hup (Prog.follow_runs Prod.snd (respond_ticking t r) hf)

/-- Steps at these times with these answers. -/
def Process.steps (cfg : Config) : Process → List (Int × TransportResult) → Option Process
  | p, [] => some p
  | p, (t, r) :: script =>
    match p.step cfg t r with
    | none => none
    | some q => q.steps cfg script

/-- So are all its steps, by induction on the script. -/
theorem Process.steps_spec : ∀ {script : List (Int × TransportResult)} {p q : Process},
    Steps cfg p.updates p.members p.last → p.steps cfg script = some q →
    Steps cfg q.updates q.members q.last
  | [], p, q, hs, h => by
    cases h
    exact hs
  | (t, r) :: script, p, q, hs, h => by
    unfold Process.steps at h
    split at h
    · cases h
    next p' hp => exact Process.steps_spec (Process.step_spec hs hp) h

/-- The defaults with the margin in Auto mode. -/
def autoMargin : Config := { margin := { mode := .Auto } }

/-- One find is queued. -/
def queued : Process where
  updates := []
  members := { scheduler := Drain.init autoMargin.drain }
  world := boot autoMargin (Journal.empty.append sampleFind).2
  last := 1

/-- No connection. -/
def unreachable : TransportResult := { transport_ok := false, http_status := 0, body := [] }

/-- `/difficulty` answers. -/
def difficultyUp : TransportResult := reply 200 (lit "\x7b\"difficulty\": \"100\"\x7d")

/-- Three attempts fail, the breaker opens and a first probe fails. -/
def down : List (Int × TransportResult) :=
  [(1000, unreachable), (10000, unreachable), (20000, unreachable), (25000, unreachable)]

/-- Where a script leads, and the update of the step after it. -/
def reaches (script : List (Int × TransportResult)) (t : Int) : Option (Process × Update) :=
  (queued.steps autoMargin script).bind fun p =>
    (p.update autoMargin t unreachable).map fun u => (p, u.1)

/-- A state that the replay reaches is reached by a run of the process. -/
theorem reaches_spec {script : List (Int × TransportResult)} {t : Int} {p : Process} {u : Update}
    (h : reaches script t = some (p, u)) :
    ∃ t₁ t₂, Steps autoMargin p.updates u.before t₁ ∧ Updates autoMargin t₁ u t₂ := by
  obtain ⟨q, hq, hu⟩ := Option.bind_eq_some_iff.mp h
  obtain ⟨⟨v, s⟩, hv, heq⟩ := Option.map_eq_some_iff.mp hu
  cases heq
  obtain ⟨hb, hup⟩ := Process.update_spec hv
  have hs : Steps autoMargin p.updates p.members p.last :=
    Process.steps_spec (.boot (by decide)) hq
  rw [← hb] at hs
  exact ⟨_, _, hs, hup⟩

/-- What is checked of a script: the time, when the outage began, the margin and the backlog
that were evaluated, and whether the breaker was seen half-open. -/
def outcome (pu : Process × Update) : Int × Option Int × UInt32 × Option Nat × Bool :=
  (pu.2.now, outageSince (pu.2 :: pu.1.updates), pu.2.after.margin_kib,
    pu.2.counted.map backlogOf, sawHalfOpen (pu.2 :: pu.1.updates))

private theorem reaches_of_outcome {script : List (Int × TransportResult)} {t : Int}
    {o : Int × Option Int × UInt32 × Option Nat × Bool}
    (h : (reaches script t).map outcome = some o) :
    ∃ p u, reaches script t = some (p, u) ∧ outcome (p, u) = o := by
  obtain ⟨⟨p, u⟩, hr, ho⟩ := Option.map_eq_some_iff.mp h
  exact ⟨p, u, hr, ho⟩

/-- Five minutes into an outage in which no probe got through the margin has two steps. -/
theorem outage_margin_covers_down :
    ∃ us u t t', Steps autoMargin us u.before t ∧ Updates autoMargin t u t' ∧
      outageSince (u :: us) = some 25000 ∧ u.after.margin_kib = 2000 ∧
      CoversOutage autoMargin us u := by
  have hrun : (reaches down 325000).map outcome = some (325000, some 25000, 2000, some 1, false) :=
    by decide +kernel
  obtain ⟨p, u, hr, ho⟩ := reaches_of_outcome hrun
  obtain ⟨t, t', hs, hu⟩ := reaches_spec hr
  simp only [outcome, Prod.mk.injEq] at ho
  obtain ⟨-, hsince, hmargin, -, hsaw⟩ := ho
  exact ⟨p.updates, u, t, t', hs, hu, hsince, hmargin,
    outage_margin_covers autoMargin rfl p.updates u t t' hs hu hsaw⟩

/-- Then `/difficulty` answers and nothing else has changed: the next step, with the breaker
half-open and the same find queued, takes the margin back to one step. -/
theorem outage_margin_falls :
    ¬ ∀ cfg : Config, cfg.margin.mode = .Auto → ∀ us u t t', Steps cfg us u.before t →
      Updates cfg t u t' → CoversOutage cfg us u := by
  intro hall
  have hrun : (reaches (down ++ [(325000, difficultyUp)]) 330000).map outcome =
      some (330000, some 25000, 1000, some 1, true) := by decide +kernel
  obtain ⟨p, u, hr, ho⟩ := reaches_of_outcome hrun
  obtain ⟨t, t', hs, hu⟩ := reaches_spec hr
  simp only [outcome, Prod.mk.injEq] at ho
  obtain ⟨hnow, hsince, hmargin, hbacklog, -⟩ := ho
  obtain ⟨c, hc, hb⟩ := Option.map_eq_some_iff.mp hbacklog
  have hcovers := hall autoMargin rfl p.updates u t t' hs hu 25000 c hsince hc
  unfold outageMargin at hcovers
  rw [hnow, hb, hmargin] at hcovers
  have hfull : ¬ computeMargin autoMargin.margin
      { breaker_open := true, outage_ms := 330000 - 25000, backlog := 1 } ≤ 1000 := by
    decide
  exact hfull hcovers

end TreeMiner
