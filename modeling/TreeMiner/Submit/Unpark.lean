import Mathlib.Data.List.Induction
import TreeMiner.Lib.Solo
import TreeMiner.Submit.WakeUp

/-!
# A failed release

`observeDifficulty` stores the observed floor under its lock and releases parked finds
afterwards, in the journal, which may throw; the poller catches that and polls again. The
floor that was stored stays stored, and only a first or a lower observation releases. So a
release that failed is made good by a later fall of the floor and by nothing else.

`NothingMissed` is a condition on the observations and on which of the releases fail: a
release that failed would have released nothing. It is looked at along the sequence, with
the floor that is stored as the only thing one observation leaves to the next.
-/

namespace TreeMiner

open Cxx Interleave

variable {cfg : Config}

/-- Every find parked for its difficulty is below `d`. -/
def ParkedBelow (w : World) (d : UInt32) : Prop :=
  ∀ r ∈ w.journal.rows, r.status = .ParkedDifficulty → r.payload.memory_cost < d

/-- Parked finds are below the last observed floor, if there is one. -/
def ParkedBelowFloor (w : World) : Prop := ∀ d, w.last_difficulty = some d → ParkedBelow w d

/-- The observation calls the journal. -/
def World.releases (w : World) (d : UInt32) : Prop := (w.observe d).1 = true

/-- One call of the poller: what it observed, and `none` when the call threw. -/
abbrev Observation := UInt32 × Option Unit

/-- The poller's calls one after the other, with nothing in between. -/
inductive Polled (cfg : Config) : World → List Observation → World → Prop where
  | nil (w : World) : Polled cfg w [] w
  | snoc {w w₁ w₂ : World} {os : List Observation} {d : UInt32} {h : List (Event sig)}
      {r : Option Unit} (before : Polled cfg w os w₁)
      (call : (observeDifficulty d).Runs ((core cfg).effects .poller) w₁ h r w₂) :
      Polled cfg w (os ++ [(d, r)]) w₂

/-- After every observation that did not throw, parked finds are below it. -/
def ReleasesKept (cfg : Config) (w : World) (os : List Observation) : Prop :=
  ∀ pre d w', pre ++ [(d, some ())] <+: os → Polled cfg w (pre ++ [(d, some ())]) w' →
    ParkedBelow w' d

/-- At every observation whose release threw there was nothing to release. -/
def NothingMissed (cfg : Config) (w : World) (os : List Observation) : Prop :=
  ∀ pre d w', pre ++ [(d, none)] <+: os → Polled cfg w pre w' → w'.releases d →
    ParkedBelow w' d

/-! ## One call -/

/-- The difficulty that is observed is the last one from then on. -/
theorem World.observe_last {w : World} {d : UInt32} :
    (w.observe d).2.last_difficulty = some d := by
  unfold World.observe
  split
  · rfl
  · split
    · rfl
    · split <;> rfl

/-- An observation releases unless the floor it finds is at most the observed one. -/
theorem releases_iff {w : World} {d : UInt32} :
    w.releases d ↔ ∀ last, w.last_difficulty = some last → d < last := by
  unfold World.releases World.observe
  split
  next hn => simp [hn]
  next last hl =>
    rw [hl]
    by_cases hgt : d > last
    · rw [if_pos hgt]
      have hle : ¬ d < last := UInt32.not_lt.mpr (UInt32.le_of_lt hgt)
      simp [hle]
    · rw [if_neg hgt]
      by_cases hlt : d < last
      · rw [if_pos hlt]
        simp [hlt]
      · rw [if_neg hlt]
        simp [hlt]

/-- What one call can do. The floor is stored in each case. -/
theorem observeDifficulty_runs {d : UInt32} {w w' : World} {h : List (Event sig)}
    {r : Option Unit}
    (hr : (observeDifficulty d).Runs ((core cfg).effects .poller) w h r w') :
    (w.releases d ∧ r = some () ∧
      w' = { (w.observe d).2 with journal := w.journal.unparkForDifficulty d }) ∨
    (w.releases d ∧ r = none ∧ w' = (w.observe d).2) ∨
    (¬ w.releases d ∧ r = some () ∧ w' = (w.observe d).2) := by
  rcases runs_op.mp hr with ⟨a, w₁, h₁, -, ⟨x, hx⟩, hrest⟩ | ⟨-, -, hthrow⟩
  · have hobs : w.observe d = (a, w₁) := Option.some.inj hx
    have hj : w₁.journal = w.journal := by rw [← World.observe_journal (w := w) (d := d), hobs]
    rw [World.releases, hobs]
    -- the answer says whether the difficulty fell; only then is the unpark called, and only it can
    -- throw
    cases a with
    | true =>
      rcases runs_op.mp hrest with ⟨u, w₂, h₂, -, ⟨y, hy⟩, hret⟩ | ⟨-, rfl, hthrow⟩
      · obtain ⟨-, hv, rfl⟩ := runs_ret.mp hret
        have hw : { w₁ with journal := w₁.journal.unparkForDifficulty d } = w' :=
          congrArg Prod.snd (Option.some.inj hy)
        refine Or.inl ⟨rfl, hv, ?_⟩
        rw [← hw, hj]
      · have hw : w₁ = w' := Option.some.inj hthrow
        exact Or.inr (Or.inl ⟨rfl, rfl, hw.symm⟩)
    | false =>
      obtain ⟨-, hv, rfl⟩ := runs_ret.mp hrest
      exact Or.inr (Or.inr ⟨Bool.false_ne_true, hv, rfl⟩)
  · cases hthrow

/-- A call that does not release returns. -/
theorem observeDifficulty_quiet {d : UInt32} {w : World} (hq : ¬ w.releases d) :
    (observeDifficulty d).Runs ((core cfg).effects .poller) w [⟨.observe d, false⟩] (some ())
      (w.observe d).2 := by
  have ha : w.observe d = (false, (w.observe d).2) :=
    Prod.ext (Bool.eq_false_iff.mpr hq) rfl
  have hdoes : ((core cfg).effects .poller).does (.observe d) w false (w.observe d).2 := by
    refine ⟨.nothing, ?_⟩
    show some (w.observe d) = _
    rw [ha]
  exact .op hdoes (.ret () _)

/-- A call whose release throws. -/
theorem observeDifficulty_threw {d : UInt32} {w : World} (hd : w.releases d) :
    (observeDifficulty d).Runs ((core cfg).effects .poller) w [⟨.observe d, true⟩] none
      (w.observe d).2 := by
  have ha : w.observe d = (true, (w.observe d).2) := Prod.ext hd rfl
  have hdoes : ((core cfg).effects .poller).does (.observe d) w true (w.observe d).2 := by
    refine ⟨.nothing, ?_⟩
    show some (w.observe d) = _
    rw [ha]
  exact .op hdoes (.threw rfl)

/-- An observation alone releases nothing. -/
theorem ParkedBelow.observed {w : World} {d e : UInt32} :
    ParkedBelow (w.observe e).2 d ↔ ParkedBelow w d := by
  unfold ParkedBelow
  rw [World.observe_journal]

/-- **Step.** A call keeps parked finds below the floor, if it did not throw or had nothing
to release. -/
theorem observeDifficulty_keeps {d : UInt32} {w w' : World} {h : List (Event sig)}
    {r : Option Unit} (hfloor : ParkedBelowFloor w)
    (hr : (observeDifficulty d).Runs ((core cfg).effects .poller) w h r w')
    (hmiss : r = none → w.releases d → ParkedBelow w d) : ParkedBelow w' d := by
  rcases observeDifficulty_runs hr with ⟨-, -, rfl⟩ | ⟨hd, rfl, rfl⟩ | ⟨hq, -, rfl⟩
  · intro r hrow hst
    exact unparked_below hrow hst
  · exact ParkedBelow.observed.mpr (hmiss rfl hd)
  · -- not lower than the floor, below which everything parked is
    rw [releases_iff] at hq
    push Not at hq
    obtain ⟨last, hl, hle⟩ := hq
    apply ParkedBelow.observed.mpr
    intro r hrow hst
    exact UInt32.lt_of_lt_of_le (hfloor last hl r hrow hst) (UInt32.not_lt.mp (by simpa using hle))

/-- A call of `observeDifficulty` has stored its difficulty also where it ends with an exception. -/
theorem observeDifficulty_stores {d : UInt32} {w w' : World} {h : List (Event sig)}
    {r : Option Unit}
    (hr : (observeDifficulty d).Runs ((core cfg).effects .poller) w h r w') :
    w'.last_difficulty = some d := by
  rcases observeDifficulty_runs hr with ⟨-, -, rfl⟩ | ⟨-, -, rfl⟩ | ⟨-, -, rfl⟩ <;>
    exact World.observe_last

/-! ## Every sequence -/

/-- A sequence of observations, split before its last one. -/
theorem Polled.last {w w' : World} {os : List Observation} {o : Observation}
    (hp : Polled cfg w (os ++ [o]) w') :
    ∃ w₁ h, Polled cfg w os w₁ ∧
      (observeDifficulty o.1).Runs ((core cfg).effects .poller) w₁ h o.2 w' := by
  generalize hos : os ++ [o] = all at hp
  cases hp with
  | nil => exact absurd hos (by simp)
  | snoc before call =>
    obtain ⟨rfl, ho⟩ := List.append_inj' hos rfl
    cases ho
    exact ⟨_, _, before, call⟩

/-- Without observations nothing has changed. -/
theorem Polled.start {w w' : World} (hp : Polled cfg w [] w') : w' = w := by
  generalize hos : ([] : List Observation) = all at hp
  cases hp with
  | nil => rfl
  | snoc before call => exact absurd hos (by simp)

/-- Such a sequence is a run of the core in which only the poller moves. -/
theorem Polled.run {w w' : World} {os : List Observation} (hp : Polled cfg w os w')
    {pool : Party → Option (Thread sig Unit)} (hidle : Thread.isDone (pool .poller) = true) :
    ∃ tr c, Run (core cfg) ⟨w, pool⟩ tr c ∧ c.world = w' ∧
      Thread.isDone (c.pool .poller) = true := by
  induction hp with
  | nil => exact ⟨[], _, .nil _, rfl, hidle⟩
  | @snoc w₁ w₂ os d h r before call ih =>
    obtain ⟨tr, c, hr, rfl, hdone⟩ := ih
    have hstart : (core cfg).Step c (.started .poller (.observeDifficulty d))
        ⟨c.world, Function.update c.pool .poller (some ⟨[], observeDifficulty d⟩)⟩ := by
      refine ⟨.start .poller (.observeDifficulty d), ?_⟩
      simp only [Machine.step, core, Bool.true_and, hdone, if_true]
    obtain ⟨tr', hr'⟩ := call.run (Function.update_self Party.poller _ c.pool)
    refine ⟨_, _, (hr.snoc hstart).append hr', rfl, ?_⟩
    dsimp only
    rw [Function.update_self]
    cases r with
    | none => rfl
    | some u => rfl

/-- What holds of all the observations holds of the first of them. -/
theorem NothingMissed.shorter {w : World} {os pre : List Observation}
    (hm : NothingMissed cfg w os) (hpre : pre <+: os) : NothingMissed cfg w pre :=
  fun p d w' hp hw hd => hm p d w' (hp.trans hpre) hw hd

/-- **Run.** While no failed release missed anything, parked finds stay below the floor. -/
theorem Polled.floor {w w' : World} {os : List Observation} (hp : Polled cfg w os w')
    (hfloor : ParkedBelowFloor w) (hm : NothingMissed cfg w os) : ParkedBelowFloor w' := by
  induction hp with
  | nil => exact hfloor
  | @snoc w₁ w₂ os d h r before call ih =>
    have hbefore := ih (hm.shorter (List.prefix_append _ _))
    intro e he
    rw [observeDifficulty_stores call, Option.some.injEq] at he
    subst he
    refine observeDifficulty_keeps hbefore call ?_
    rintro rfl hd
    exact hm os d w₁ (List.prefix_refl _) before hd

/-- Observations that returned add nothing that could have been missed. -/
theorem NothingMissed.append {w : World} {os : List Observation} (hm : NothingMissed cfg w os)
    (ds : List UInt32) : NothingMissed cfg w (os ++ ds.map fun d => (d, some ())) := by
  intro pre d w' hpre hw hd
  refine hm pre d w' ?_ hw hd
  induction ds using List.reverseRecOn with
  | nil => simpa using hpre
  | append_singleton ds e ih =>
    rw [List.map_append, ← List.append_assoc] at hpre
    rcases List.prefix_concat_iff.mp hpre with heq | hin
    · have hlast := (List.append_inj' heq rfl).2
      cases hlast
    · exact ih hin

/-- **A failed release is made good, whatever is observed next, only if it had nothing to
release.** From parked finds below the floor and for every sequence of observations: those
that throw have nothing to release if and only if, from every point of the sequence and
however the floor goes on from there, each observation that does not throw leaves the
parked finds below it. -/
theorem failed_release_kept (cfg : Config) (w : World) (hfloor : ParkedBelowFloor w)
    (os : List Observation) :
    NothingMissed cfg w os ↔
      ∀ pre, pre <+: os → ∀ ds : List UInt32,
        ReleasesKept cfg w (pre ++ ds.map fun d => (d, some ())) := by
  constructor
  · intro hm pre hpre ds p d w' hp hw
    obtain ⟨w₁, h, hbefore, hcall⟩ := hw.last
    have hmp := ((hm.shorter hpre).append ds).shorter ((List.prefix_append p _).trans hp)
    refine observeDifficulty_keeps (hbefore.floor hfloor hmp) hcall ?_
    intro hnone
    cases hnone
  · intro hkept pre d w' hpre hw hd
    -- the same floor once more: no release is due, and it returns
    have hthrew := hw.snoc (observeDifficulty_threw hd)
    have hq : ¬ (w'.observe d).2.releases d := by
      rw [releases_iff]
      intro hlt
      exact absurd (hlt d World.observe_last) (by simp)
    have hagain := hthrew.snoc (observeDifficulty_quiet hq)
    have hbelow := hkept _ hpre [d] _ d _ (List.prefix_refl _) hagain
    exact ParkedBelow.observed.mp (ParkedBelow.observed.mp hbelow)

/-! ## A floor that comes back -/

/-- One find at `m = 100`, parked for its difficulty. -/
def parkedJournal : Journal :=
  ((Journal.empty.append sampleFind).2.recordAttempt 1
    { next_status := .ParkedDifficulty, reason := [] } (some 401) [] none []).getD .empty

/-- A process that has just opened it. -/
def parkedBoot : World := boot production parkedJournal

/-- The sample process has seen no difficulty, so that nothing is below the floor. -/
private theorem parkedBoot_floor : ParkedBelowFloor parkedBoot := by
  intro d hd
  cases hd

/-- Its journal has a parked row of cost 100. -/
private theorem parkedBoot_row :
    ∃ r ∈ parkedJournal.rows, r.status = .ParkedDifficulty ∧ r.payload.memory_cost = 100 := by
  decide

/-- A first floor of 200 has nothing to release, so its failure costs nothing. -/
theorem failed_release_kept_above :
    ReleasesKept production parkedBoot ([(200, none)] ++ [90].map fun d => (d, some ())) := by
  refine (failed_release_kept production parkedBoot parkedBoot_floor [(200, none)]).mp ?_ _
    (List.prefix_refl _) [90]
  intro pre d w' hpre hw _
  rcases List.prefix_concat_iff.mp (show pre ++ [(d, none)] <+: [] ++ [(200, none)] from hpre) with
    heq | hnil
  · obtain ⟨rfl, hd⟩ := List.append_inj' heq rfl
    cases hd
    rw [hw.start]
    show ∀ r ∈ parkedJournal.rows, r.status = .ParkedDifficulty → r.payload.memory_cost < 200
    decide
  · exact absurd (List.prefix_nil.mp hnil) (by simp)

/-- The first poll finds the floor at 90 and its release throws; the second finds it at 90
and returns. The find, valid at 90, stays parked. -/
theorem failed_release_forgotten :
    ¬ ∀ w, ParkedBelowFloor w → ∀ os, ReleasesKept production w os := by
  intro hkept
  have hd : parkedBoot.releases 90 := rfl
  have hstart : Polled production parkedBoot [] parkedBoot := .nil _
  have hthrew := hstart.snoc (observeDifficulty_threw hd)
  have hq : ¬ (parkedBoot.observe 90).2.releases 90 := Bool.false_ne_true
  have hagain := hthrew.snoc (observeDifficulty_quiet hq)
  obtain ⟨r, hrow, hst, hm⟩ := parkedBoot_row
  have hbelow := hkept parkedBoot parkedBoot_floor _ _ 90 _ (List.prefix_refl _) hagain r hrow hst
  rw [hm] at hbelow
  exact absurd hbelow (by decide)

end TreeMiner
