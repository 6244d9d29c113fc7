import TreeMiner.Lib.Solo
import TreeMiner.Submit.System

/-!
# The fatal boundary (`SubmissionManager::runOnce`, `handleFatal_`)

A step is called in a `try` block. The first exception that leaves a step latches
`fatal_`, is counted and is reported; after that a step reads the flag and returns.

A `Life` of a manager is any sequence of steps. While a step runs, and between the
steps, the other threads do what they like with everything but the flag, and each journal
or transport call may throw, wherever in the step it stands.
-/

namespace TreeMiner

open Cxx Interleave

/-- A manager with its fatal counters: `thread_loop_exceptions`, and how often the fatal
callback ran, if one is set. -/
structure Life where
  world : World
  fatal_cb : Bool := true
  thread_loop_exceptions : Nat := 0
  fatal_callbacks : Nat := 0

/-- `handleFatal_`: the exchange of the flag, the metric and the callback. -/
def Life.handleFatal (l : Life) : Life :=
  if l.world.fatal then l
  else
    { l with
      world := { l.world with fatal := true }
      thread_loop_exceptions := l.thread_loop_exceptions + 1
      fatal_callbacks := if l.fatal_cb then l.fatal_callbacks + 1 else l.fatal_callbacks }

/-- The `try` block of `runOnce`, by how its body ended: with a result, or with an
exception (`none`). -/
def boundary : Option StepResult → Life → StepResult × Life
  | some r, l => (r, l)
  | none, l => (.Idle, l.handleFatal)

/-- What an operation of a step can do, from whatever the other threads have left. -/
def manager : Effects sig Life where
  does o l a l' := ∃ w x w', w.fatal = l.world.fatal ∧ exec o w x = some (a, w') ∧
    l' = { l with world := w' }
  throws o l l' := o.mayThrow = true ∧ ∃ w, w.fatal = l.world.fatal ∧
    l' = { l with world := w }

/-- One call of `runOnce`: what its body performed, whether it ended with an exception, and
what the call returned. -/
structure Turn where
  performed : List (Event sig)
  threw : Bool
  result : StepResult

/-- The life of a manager: steps, and what other threads do in between. -/
inductive Lives (cfg : Config) (l : Life) : List Turn → Life → Prop where
  | born : Lives cfg l [] l
  | step {turns : List Turn} {l₁ l₂ : Life} {h : List (Event sig)} {outcome : Option StepResult}
      (before : Lives cfg l turns l₁) (body : (runOnce cfg).Runs manager l₁ h outcome l₂) :
      Lives cfg l (turns ++ [⟨h, outcome.isNone, (boundary outcome l₂).1⟩])
        (boundary outcome l₂).2
  | others {turns : List Turn} {l₁ : Life} {w : World} (before : Lives cfg l turns l₁)
      (flag : w.fatal = l₁.world.fatal) : Lives cfg l turns { l₁ with world := w }

/-! ## One step -/

section Steps

variable {cfg : Config} {l l' : Life} {h : List (Event sig)} {outcome : Option StepResult}

/-- No operation touches the flag. -/
theorem exec_fatal {o : Op} {w w' : World} {x : Input} {a : o.Ans}
    (he : exec o w x = some (a, w')) : w'.fatal = w.fatal := by
  cases o with
  | observe d =>
    simp only [exec, Option.some.injEq] at he
    have hw : w' = (w.observe d).2 := by rw [he]
    rw [hw]
    unfold World.observe
    split
    · rfl
    · split
      · rfl
      · split <;> rfl
  | recordAttempt id c st body next now =>
    simp only [exec] at he
    split at he
    · cases he
      rfl
    · cases he
  | mono | wall | submit | confirm | difficulty =>
    cases x <;> cases he
    rfl
  | _ =>
    cases he
    rfl

/-- Same flag, same counters. -/
structure Untouched (l l' : Life) : Prop where
  fatal : l'.world.fatal = l.world.fatal
  cb : l'.fatal_cb = l.fatal_cb
  exceptions : l'.thread_loop_exceptions = l.thread_loop_exceptions
  callbacks : l'.fatal_callbacks = l.fatal_callbacks

/-- What neither of two operations touches is untouched by both. -/
theorem Untouched.trans {l₁ l₂ l₃ : Life} (h₁ : Untouched l₁ l₂)
    (h₂ : Untouched l₂ l₃) :
    Untouched l₁ l₃ :=
  ⟨h₂.fatal.trans h₁.fatal, h₂.cb.trans h₁.cb, h₂.exceptions.trans h₁.exceptions,
    h₂.callbacks.trans h₁.callbacks⟩

/-- No operation of the manager touches the state of the thread itself. -/
theorem does_untouched {o : Op} {a : o.Ans} (hd : manager.does o l a l') : Untouched l l' := by
  obtain ⟨w, x, w', hw, he, rfl⟩ := hd
  exact ⟨(exec_fatal he).trans hw, rfl, rfl, rfl⟩

/-- The body of a step leaves flag and counters to the boundary. -/
theorem runs_untouched {α : Type} {p : Prog sig α} {r : Option α}
    (hr : p.Runs manager l h r l') :
    Untouched l l' := by
  induction hr with
  | ret => exact ⟨rfl, rfl, rfl, rfl⟩
  | op does rest ih => exact (does_untouched does).trans ih
  | threw throws =>
    obtain ⟨-, w, hw, rfl⟩ := throws
    exact ⟨hw, rfl, rfl, rfl⟩

/-- Once the flag is set a step reads it and returns. -/
theorem runOnce_inert (hf : l.world.fatal = true) (hr : (runOnce cfg).Runs manager l h outcome l') :
    outcome = some .Idle ∧ h = [⟨.fatal, true⟩] := by
  rcases runs_op.mp hr with ⟨a, l₁, h₁, rfl, ⟨w, x, w', hw, he, -⟩, rest⟩ |
      ⟨-, -, hthrow, -⟩
  · simp only [exec, Option.some.injEq, Prod.mk.injEq] at he
    have ha : a = true := he.1.symm.trans (hw.trans hf)
    subst ha
    obtain ⟨rfl, rfl, -⟩ := runs_ret.mp rest
    exact ⟨rfl, rfl⟩
  · -- reading the flag does not throw
    cases hthrow

end Steps

/-! ## Lives -/

section Lives

variable {cfg : Config} {l l' : Life} {turns : List Turn}

/-- The manager has been halted: from the start, or by a step. -/
def halted (l : Life) (turns : List Turn) : Bool := l.world.fatal || turns.any Turn.threw

/-- What the turns so far have added to a counter. -/
def raised (l : Life) (turns : List Turn) : Nat :=
  if l.world.fatal = false ∧ turns.any Turn.threw = true then 1 else 0

/-- A step that does nothing: no exception, no journal call, no transport call. -/
structure Turn.Inert (t : Turn) : Prop where
  threw : t.threw = false
  result : t.result = .Idle
  performed : ∀ e ∈ t.performed, e.op.mayThrow = false

/-- Where a manager stands after the turns. -/
structure Counted (l : Life) (turns : List Turn) (l' : Life) : Prop where
  flag : l'.world.fatal = halted l turns
  cb : l'.fatal_cb = l.fatal_cb
  exceptions : l'.thread_loop_exceptions = l.thread_loop_exceptions + raised l turns
  callbacks : l'.fatal_callbacks =
    l.fatal_callbacks + if l.fatal_cb = true then raised l turns else 0

/-- The count of the turns stays true while the thread is untouched. -/
theorem Counted.untouched {l₁ l₂ : Life} (hc : Counted l turns l₁)
    (hu : Untouched l₁ l₂) :
    Counted l turns l₂ :=
  ⟨hu.fatal.trans hc.flag, hu.cb.trans hc.cb, hu.exceptions.trans hc.exceptions,
    hu.callbacks.trans hc.callbacks⟩

/-- A step without an exception counts nothing. -/
theorem Counted.quiet {t : Turn} (hc : Counted l turns l') (ht : t.threw = false) :
    Counted l (turns ++ [t]) l' := by
  have hany : (turns ++ [t]).any Turn.threw = turns.any Turn.threw := by
    rw [List.any_append, List.any_cons, ht, List.any_nil, Bool.or_false, Bool.or_false]
  have hhalted : halted l (turns ++ [t]) = halted l turns := by
    unfold halted
    rw [hany]
  have hraised : raised l (turns ++ [t]) = raised l turns := by
    unfold raised
    rw [hany]
  refine ⟨?_, hc.cb, ?_, ?_⟩
  · rw [hhalted]
    exact hc.flag
  · rw [hraised]
    exact hc.exceptions
  · rw [hraised]
    exact hc.callbacks

/-- The first exception is counted and reported. -/
theorem Counted.first {t : Turn} (hc : Counted l turns l') (hf : l'.world.fatal = false)
    (ht : t.threw = true) : Counted l (turns ++ [t]) l'.handleFatal := by
  have hnone : l.world.fatal = false ∧ turns.any Turn.threw = false := by
    have hflag := hc.flag
    rw [hf] at hflag
    exact Bool.or_eq_false_iff.mp hflag.symm
  have hany : (turns ++ [t]).any Turn.threw = true := by
    rw [List.any_append, List.any_cons, ht, Bool.true_or, Bool.or_true]
  -- the first turn that threw: the callback has not been called before and is called now
  have hbefore : raised l turns = 0 := by
    unfold raised
    rw [hnone.2]
    exact if_neg fun h => Bool.false_ne_true h.2
  have hafter : raised l (turns ++ [t]) = 1 := if_pos ⟨hnone.1, hany⟩
  have hexceptions := hc.exceptions
  have hcallbacks := hc.callbacks
  rw [hbefore] at hexceptions hcallbacks
  rw [ite_self, Nat.add_zero] at hcallbacks
  unfold Life.handleFatal
  rw [hf, if_neg Bool.false_ne_true]
  refine ⟨?_, hc.cb, ?_, ?_⟩
  · unfold halted
    rw [hany, Bool.or_true]
  · rw [hafter]
    exact congrArg (· + 1) hexceptions
  · rw [hafter, ← hcallbacks, ← hc.cb]
    dsimp only
    split <;> rfl

/-- Counters and flag along a life, and what later steps do. -/
theorem Lives.counted (hr : Lives cfg l turns l') : Counted l turns l' ∧
    ∀ t₁ t t₂, turns = t₁ ++ t :: t₂ → halted l t₁ = true → t.Inert := by
  induction hr with
  | born =>
    have hzero : raised l [] = 0 := if_neg fun h => Bool.false_ne_true h.2
    refine ⟨⟨?_, rfl, ?_, ?_⟩, ?_⟩
    · exact (Bool.or_false _).symm
    · rw [hzero, Nat.add_zero]
    · rw [hzero, ite_self, Nat.add_zero]
    · intro t₁ t t₂ ht
      exact absurd ht (by simp)
  | others before flag ih => exact ⟨ih.1.untouched ⟨flag, rfl, rfl, rfl⟩, ih.2⟩
  | @step turns l₁ l₂ h outcome before body ih =>
    have hcount := ih.1.untouched (runs_untouched body)
    constructor
    · cases outcome with
      | some r => exact hcount.quiet rfl
      | none =>
        refine hcount.first ?_ rfl
        rw [(runs_untouched body).fatal]
        cases hf : l₁.world.fatal with
        | false => rfl
        | true =>
          -- a halted manager does not throw
          obtain ⟨hidle, -⟩ := runOnce_inert hf body
          cases hidle
    · intro t₁ t t₂ ht hhalted
      rcases List.eq_nil_or_concat t₂ with rfl | ⟨t₃, last, rfl⟩
      · obtain ⟨rfl, hlast⟩ := List.append_inj' ht rfl
        obtain rfl := (List.cons.inj hlast).1
        obtain ⟨rfl, rfl⟩ := runOnce_inert (ih.1.flag.trans hhalted) body
        refine ⟨rfl, rfl, fun e he => ?_⟩
        rw [List.mem_singleton.mp he]
        rfl
      · refine ih.2 t₁ t t₃ ?_ hhalted
        rw [List.concat_eq_append, ← List.cons_append, ← List.append_assoc] at ht
        exact (List.append_inj' ht rfl).1

/-- In every life of a manager, from any state and with exceptions at any journal or
transport call: the first exception is counted once and reported once, whatever comes
later; and every step after it returns without an exception, a journal call or a
transport call. -/
theorem fatal_boundary (hr : Lives cfg l turns l') :
    l'.thread_loop_exceptions = l.thread_loop_exceptions + raised l turns ∧
    l'.fatal_callbacks = l.fatal_callbacks + (if l.fatal_cb = true then raised l turns else 0) ∧
    ∀ t₁ t t₂, turns = t₁ ++ t :: t₂ → halted l t₁ = true → t.Inert := by
  obtain ⟨hcount, hlater⟩ := hr.counted
  exact ⟨hcount.exceptions, hcount.callbacks, hlater⟩

end Lives

/-! ## A sample -/

/-- A new manager on an empty journal. -/
def newManager : Life := { world := boot {} .empty }

/-- The journal throws when the first step opens the XUNI window; then there is a second
step. -/
theorem fatal_boundary_sample :
    ∃ t₁ t₂ l', Lives {} newManager [t₁, t₂] l' ∧ t₁.threw = true ∧
    l'.thread_loop_exceptions = 1 ∧ l'.fatal_callbacks = 1 ∧ t₂.Inert := by
  have hturn : ∀ {o : Op} {a : o.Ans} (x : Input), exec o newManager.world x =
    some (a, newManager.world) →
      manager.does o newManager a newManager :=
    fun x he => ⟨newManager.world, x, newManager.world, rfl, he, rfl⟩
  have hbody₁ : ∃ h, (runOnce {}).Runs manager newManager h none newManager :=
    ⟨_, .op (hturn .nothing rfl) <| .op (hturn .nothing rfl) <| .op (hturn (.time 0) rfl) <|
      .op (hturn (.time 0) rfl) <| .op (hturn (.time 0) rfl) <| .op (hturn .nothing rfl) <|
      .threw ⟨rfl, newManager.world, rfl, rfl⟩⟩
  obtain ⟨h₁, hbody₁⟩ := hbody₁
  have hbody₂ : (runOnce {}).Runs manager newManager.handleFatal [⟨.fatal, true⟩] (some .Idle)
      newManager.handleFatal :=
    .op ⟨newManager.handleFatal.world, .nothing, _, rfl, rfl, rfl⟩ (.ret _ _)
  have hborn : Lives {} newManager [] newManager := .born
  have hlife := (hborn.step hbody₁).step hbody₂
  obtain ⟨hexceptions, hcallbacks, hlater⟩ := fatal_boundary hlife
  exact ⟨_, _, _, hlife, rfl, hexceptions, hcallbacks, hlater _ _ [] rfl rfl⟩

end TreeMiner
