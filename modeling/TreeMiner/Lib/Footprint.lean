import Mathlib.Data.Finset.Basic
import TreeMiner.Lib.Interleave

/-!
# Programs over one memory with footprints of their own

Programs that load and store cells of a shared memory and run at the same time, each
operation being atomic. `eval` is a program running alone. If every program keeps to a
region of the memory (`Stays`) and the regions are apart, then in every interleaving each
region goes through what its program would do alone (`Launched.result`), and every
interleaving can be brought to an end (`exists_completion`).

The regions are given by a predicate on addresses for each program, and being apart is a
hypothesis on these alone. Termination needs no fairness: every step takes an operation
off one of the programs, and there are finitely many.
-/

namespace Interleave

/-- Load a cell, or store into one. -/
inductive MemOp (A V : Type) where
  | load (a : A)
  | store (a : A) (v : V)

/-- The cell. -/
def MemOp.addr {A V : Type} : MemOp A V → A
  | .load a => a
  | .store a _ => a

@[reducible] def MemOp.Ans {A V : Type} : MemOp A V → Type
  | .load _ => V
  | .store _ _ => Unit

/-- Programs over a memory. -/
@[reducible] def memSig (A V : Type) : Sig := ⟨MemOp A V, MemOp.Ans⟩

section Memory

variable {A V α β ι : Type} [DecidableEq A]

/-- What an operation answers and leaves. -/
def MemOp.act : (o : MemOp A V) → (A → V) → o.Ans × (A → V)
  | .load a, s => (s a, s)
  | .store a v, s => ((), Function.update s a v)

/-- A program running alone. -/
def Prog.eval : Prog (memSig A V) α → (A → V) → α × (A → V)
  | .ret a, s => (a, s)
  | .op o k, s => (k (o.act s).1).eval (o.act s).2

/-- One program after another is evaluated one after the other. -/
theorem Prog.eval_bind (p : Prog (memSig A V) α) (f : α → Prog (memSig A V) β) (s : A → V) :
    (p.bind f).eval s = (f (p.eval s).1).eval (p.eval s).2 := by
  induction p generalizing s with
  | ret a => rfl
  | op o k ih => exact ih _ _

/-- The operations of a program running alone. -/
def Prog.trace : Prog (memSig A V) α → (A → V) → List (MemOp A V)
  | .ret _, _ => []
  | .op o k, s => o :: (k (o.act s).1).trace (o.act s).2

/-- And leaves both traces. -/
theorem Prog.trace_bind (p : Prog (memSig A V) α) (f : α → Prog (memSig A V) β) (s : A → V) :
    (p.bind f).trace s = p.trace s ++ (f (p.eval s).1).trace (p.eval s).2 := by
  induction p generalizing s with
  | ret a => rfl
  | op o k ih => exact congrArg (List.cons o) (ih _ _)

/-- Every operation on every path is on a cell of the region, and every result meets `P`. -/
def Prog.Within (R : A → Prop) (P : α → Prop) : Prog (memSig A V) α → Prop
  | .ret a => P a
  | .op o k => R o.addr ∧ ∀ a, (k a).Within R P

/-- Any result will do. -/
abbrev Prog.Stays (R : A → Prop) (p : Prog (memSig A V) α) : Prop := p.Within R fun _ => True

omit [DecidableEq A] in
/-- Two parts that stay in a region stay in it together. -/
theorem Prog.Within.bind {R : A → Prop} {P : α → Prop} {Q : β → Prop}
    {f : α → Prog (memSig A V) β} : ∀ {p : Prog (memSig A V) α}, p.Within R P →
      (∀ a, P a → (f a).Within R Q) → (p.bind f).Within R Q
  | .ret _, hp, hf => hf _ hp
  | .op _ _, hp, hf => ⟨hp.1, fun a => Prog.Within.bind (hp.2 a) hf⟩

omit [DecidableEq A] in
/-- A region may be made larger, and what is promised of the result weaker. -/
theorem Prog.Within.mono {R R' : A → Prop} {P Q : α → Prop} (hR : ∀ a, R a → R' a)
    (hPQ : ∀ a, P a → Q a) : ∀ {p : Prog (memSig A V) α}, p.Within R P → p.Within R' Q
  | .ret _, hp => hPQ _ hp
  | .op _ _, hp => ⟨hR _ hp.1, fun a => Prog.Within.mono hR hPQ (hp.2 a)⟩

/-- An operation depends on its cell and changes no other. -/
theorem MemOp.act_congr {R : A → Prop} {o : MemOp A V} {s s' : A → V} (ho : R o.addr)
    (hs : ∀ a, R a → s a = s' a) :
    (o.act s).1 = (o.act s').1 ∧ ∀ a, R a → (o.act s).2 a = (o.act s').2 a := by
  cases o with
  | load b => exact ⟨hs b ho, hs⟩
  | store b v =>
    refine ⟨rfl, fun a ha => ?_⟩
    show Function.update s b v a = Function.update s' b v a
    by_cases hab : a = b
    · rw [hab, Function.update_self, Function.update_self]
    · rw [Function.update_of_ne hab, Function.update_of_ne hab]
      exact hs a ha

/-- An operation leaves every address but its own. -/
theorem MemOp.act_frame {o : MemOp A V} {s : A → V} {a : A} (ha : a ≠ o.addr) :
    (o.act s).2 a = s a := by
  cases o with
  | load b => rfl
  | store b v => exact Function.update_of_ne ha v s

/-- A program depends on its region alone. -/
theorem Prog.Stays.eval_congr {R : A → Prop} : ∀ {p : Prog (memSig A V) α} {s s' : A → V},
    p.Stays R → (∀ a, R a → s a = s' a) →
      (p.eval s).1 = (p.eval s').1 ∧ ∀ a, R a → (p.eval s).2 a = (p.eval s').2 a
  | .ret _, _, _, _, hs => ⟨rfl, hs⟩
  | .op o k, s, s', hp, hs => by
    obtain ⟨hans, hmem⟩ := MemOp.act_congr hp.1 hs
    show ((k (o.act s).1).eval (o.act s).2).1 = ((k (o.act s').1).eval (o.act s').2).1 ∧
      ∀ a, R a →
        ((k (o.act s).1).eval (o.act s).2).2 a = ((k (o.act s').1).eval (o.act s').2).2 a
    rw [← hans]
    exact Prog.Stays.eval_congr (hp.2 _) hmem

/-! ## Running at the same time -/

/-- Programs over one memory; nothing starts, throws or restarts. -/
def parallel (A V ι : Type) [DecidableEq A] :
    Machine (memSig A V) (A → V) ι Unit Empty Unit where
  exec _ o s _ := some (o.act s)
  body k := nomatch k
  may _ k := nomatch k
  abort _ _ _ := none
  crash _ := none

abbrev MemConf (A V ι : Type) := Conf (memSig A V) (A → V) ι Unit

/-- All programs at their beginning. -/
def launch (p : ι → Option (Prog (memSig A V) Unit)) (s : A → V) : MemConf A V ι :=
  ⟨s, fun i => (p i).map fun q => ⟨[], q⟩⟩

/-- Everything has returned. -/
def AllDone (c : MemConf A V ι) : Prop := ∀ i, Thread.isDone (c.pool i) = true

variable [DecidableEq ι]

/-- A step is an operation of one program. -/
theorem parallel_step {c c' : MemConf A V ι} {l : Label (memSig A V) ι Empty}
    (hs : (parallel A V ι).Step c l c') :
    ∃ i h o k, l = .did i ⟨o, (o.act c.world).1⟩ ∧ c.pool i = some ⟨h, .op o k⟩ ∧
      c' = ⟨(o.act c.world).2, Function.update c.pool i
        (some ⟨⟨o, (o.act c.world).1⟩ :: h, k (o.act c.world).1⟩)⟩ := by
  rcases Machine.step_cases hs with ⟨i, k, -⟩ | ⟨i, h, o, k, x, a, s, rfl, hp, he, rfl⟩ |
    ⟨i, h, o, k, s, -, -, ha, -⟩ | ⟨s, -, hc, -⟩
  · exact nomatch k
  · have hact : o.act c.world = (a, s) := Option.some.inj he
    refine ⟨i, h, o, k, ?_, hp, ?_⟩
    · rw [hact]
    · rw [hact]
  · cases ha
  · cases hc

/-- What every interleaving keeps: the rest of each program, run alone from here, leaves in
its region what the whole program leaves when it runs alone. -/
structure Launched
    (p : ι → Option (Prog (memSig A V) Unit)) (R : ι → A → Prop) (s : A → V)
    (c : MemConf A V ι) : Prop where
  within : ∀ i t, c.pool i = some t → t.prog.Stays (R i)
  same : ∀ i, (c.pool i).isSome = (p i).isSome
  result : ∀ i t q, c.pool i = some t → p i = some q →
    ∀ a, R i a → (t.prog.eval c.world).2 a = (q.eval s).2 a
  frame : ∀ a, (∀ i, (p i).isSome = true → ¬ R i a) → c.world a = s a

section Launch

variable {p : ι → Option (Prog (memSig A V) Unit)} {R : ι → A → Prop} {s : A → V}
  {c c' : MemConf A V ι}

omit [DecidableEq ι] in
/-- At the launch each thread has its whole program and the memory is the first one. -/
theorem launched_launch (hp : ∀ i q, p i = some q → q.Stays (R i)) :
    Launched p R s (launch p s) := by
  have hpool : ∀ i t, (launch p s).pool i = some t → ∃ q, p i = some q ∧
    t = ⟨[], q⟩ := by
    intro i t ht
    obtain ⟨q, hq, rfl⟩ := Option.map_eq_some_iff.mp ht
    exact ⟨q, hq, rfl⟩
  refine ⟨fun i t ht => ?_, fun i => ?_, fun i t q ht hq a _ => ?_, fun _ _ => rfl⟩
  · obtain ⟨q, hq, rfl⟩ := hpool i t ht
    exact hp i q hq
  · exact Option.isSome_map
  · obtain ⟨q', hq', rfl⟩ := hpool i t ht
    rw [hq] at hq'
    cases hq'
    rfl

/-- A thread that writes in its own region disturbs none of the others. -/
theorem Launched.step (hR : ∀ i j, i ≠ j → ∀ a, R i a → ¬ R j a) (hc : Launched p R s c)
    {l : Label (memSig A V) ι Empty} (hs : (parallel A V ι).Step c l c') : Launched p R s c' := by
  obtain ⟨i, h, o, k, -, hp, rfl⟩ := parallel_step hs
  -- the operation is one on an address of its own program
  have hown : R i o.addr := (hc.within i _ hp).1
  have hmine : ∀ {t : Thread (memSig A V) Unit}, Function.update c.pool i
      (some ⟨⟨o, (o.act c.world).1⟩ :: h, k (o.act c.world).1⟩) i = some t →
      t = ⟨⟨o, (o.act c.world).1⟩ :: h, k (o.act c.world).1⟩ := by
    intro t ht
    rw [Function.update_self] at ht
    exact (Option.some.inj ht).symm
  refine ⟨fun j t ht => ?_, fun j => ?_, fun j t q ht hq a ha => ?_, fun a ha => ?_⟩
  · by_cases hj : j = i
    · subst hj
      rw [hmine ht]
      exact (hc.within j _ hp).2 _
    · dsimp only at ht
      rw [Function.update_of_ne hj] at ht
      exact hc.within j t ht
  · by_cases hj : j = i
    · subst hj
      dsimp only
      rw [Function.update_self, ← hc.same j, hp]
      rfl
    · dsimp only
      rw [Function.update_of_ne hj]
      exact hc.same j
  · by_cases hj : j = i
    · subst hj
      rw [hmine ht]
      exact hc.result j _ q hp hq a ha
    · -- another program's cell: this one does not see it
      dsimp only at ht ⊢
      rw [Function.update_of_ne hj] at ht
      rw [← hc.result j t q ht hq a ha]
      refine (Prog.Stays.eval_congr (hc.within j t ht) fun b hb => ?_).2 a ha
      refine MemOp.act_frame fun hbo => ?_
      rw [hbo] at hb
      exact hR j i hj _ hb hown
  · have hne : a ≠ o.addr := by
      intro hao
      rw [hao] at ha
      refine ha i ?_ hown
      rw [← hc.same i, hp]
      rfl
    exact (MemOp.act_frame hne).trans (hc.frame a ha)

/-- From one step to a whole run, in any order of the threads. -/
theorem launched_of_run (hR : ∀ i j, i ≠ j → ∀ a, R i a → ¬ R j a)
    (hp : ∀ i q, p i = some q → q.Stays (R i))
    {tr : List (MemConf A V ι × Label (memSig A V) ι Empty)}
    (hr : Run (parallel A V ι) (launch p s) tr c) : Launched p R s c :=
  hr.invariant_conf (fun _ _ _ hI hs => hI.step hR hs) (launched_launch hp)

omit [DecidableEq ι] in
/-- When everything has returned, each region holds what its program leaves alone. -/
theorem Launched.final (hc : Launched p R s c) (hd : AllDone c) {i : ι}
    {q : Prog (memSig A V) Unit} (hq : p i = some q) {a : A} (ha : R i a) :
    c.world a = (q.eval s).2 a := by
  have hsome : (c.pool i).isSome = true := by
    rw [hc.same i, hq]
    rfl
  obtain ⟨t, ht⟩ := Option.isSome_iff_exists.mp hsome
  rw [← hc.result i t q ht hq a ha]
  have hdone := hd i
  rw [ht] at hdone
  obtain ⟨h, r⟩ := t
  cases r with
  | ret u => rfl
  | op o k => cases hdone

/-- An operation that was performed is on a cell of the region of its program. -/
theorem Launched.did_within (hc : Launched p R s c) {i : ι} {e : Event (memSig A V)}
    (hs : (parallel A V ι).Step c (.did i e) c') : R i e.op.addr := by
  obtain ⟨j, h, o, k, hl, hp, -⟩ := parallel_step hs
  cases hl
  exact (hc.within i _ hp).1

/-! ## Coming to an end -/

/-- One program runs to its end. -/
theorem run_thread {i : ι} : ∀ {q : Prog (memSig A V) Unit} {c : MemConf A V ι} {h},
    c.pool i = some ⟨h, q⟩ → ∃ tr c', Run (parallel A V ι) c tr c' ∧
      Thread.isDone (c'.pool i) = true ∧ (∀ j, j ≠ i → c'.pool j = c.pool j) ∧
      c'.world = (q.eval c.world).2
  | .ret u, c, h, hp => ⟨[], c, .nil c, by rw [hp]; rfl, fun _ _ => rfl, rfl⟩
  | .op o k, c, h, hp => by
    have hstep : (parallel A V ι).Step c (.did i ⟨o, (o.act c.world).1⟩)
        ⟨(o.act c.world).2, Function.update c.pool i
          (some ⟨⟨o, (o.act c.world).1⟩ :: h, k (o.act c.world).1⟩)⟩ := by
      refine ⟨.act i (), ?_⟩
      simp only [Machine.step, hp]
      rfl
    obtain ⟨tr, c', hr, hd, hother, hworld⟩ := run_thread (q := k (o.act c.world).1)
      (c := ⟨(o.act c.world).2, Function.update c.pool i
        (some ⟨⟨o, (o.act c.world).1⟩ :: h, k (o.act c.world).1⟩)⟩)
      (Function.update_self i _ c.pool)
    refine ⟨_, c', hr.cons hstep, hd, fun j hj => (hother j hj).trans ?_, hworld⟩
    exact Function.update_of_ne hj _ _

/-- Finitely many programs can all be run to their ends. -/
theorem exists_completion (I : Finset ι)
    (hI : ∀ i, i ∉ I → Thread.isDone (c.pool i) = true) :
    ∃ tr c', Run (parallel A V ι) c tr c' ∧ AllDone c' := by
  induction I using Finset.induction_on generalizing c with
  | empty => exact ⟨[], c, .nil c, fun i => hI i (by simp)⟩
  | insert i I hi ih =>
    have hrun : ∃ tr c₁, Run (parallel A V ι) c tr c₁ ∧
      Thread.isDone (c₁.pool i) = true ∧
        ∀ j, j ≠ i → c₁.pool j = c.pool j := by
      cases hp : c.pool i with
      | none => exact ⟨[], c, .nil c, by rw [hp]; rfl, fun _ _ => rfl⟩
      | some t =>
        obtain ⟨tr, c₁, hr, hd, hother, -⟩ := run_thread hp
        exact ⟨tr, c₁, hr, hd, hother⟩
    obtain ⟨tr, c₁, hr, hd, hother⟩ := hrun
    obtain ⟨tr', c', hr', hdone⟩ := ih (c := c₁) fun j hj => by
      by_cases hji : j = i
      · rw [hji]
        exact hd
      · rw [hother j hji]
        exact hI j (by simp [hji, hj])
    exact ⟨tr ++ tr', c', hr.append hr', hdone⟩

/-- What programs leave that run one after the other. -/
def sequential (q : ι → Prog (memSig A V) Unit) (order : List ι) (s : A → V) : A → V :=
  order.foldl (fun s i => ((q i).eval s).2) s

/-- That is the outcome of an interleaving. -/
theorem run_sequential (q : ι → Prog (memSig A V) Unit) (order : List ι) (horder : order.Nodup)
    (hfresh : ∀ i ∈ order, c.pool i = some ⟨[], q i⟩)
    (hdone : ∀ i, i ∉ order → Thread.isDone (c.pool i) = true) :
    ∃ tr c', Run (parallel A V ι) c tr c' ∧ AllDone c' ∧
      c'.world = sequential q order c.world := by
  induction order generalizing c with
  | nil => exact ⟨[], c, .nil c, fun i => hdone i (by simp), rfl⟩
  | cons i order ih =>
    obtain ⟨hi, hnodup⟩ := List.nodup_cons.mp horder
    obtain ⟨tr, c₁, hr, hd, hother, hworld⟩ := run_thread (hfresh i List.mem_cons_self)
    have hne : ∀ j ∈ order, j ≠ i := fun j hj hji => hi (hji ▸ hj)
    obtain ⟨tr', c', hr', hall, hlast⟩ := ih (c := c₁) hnodup
      (fun j hj => (hother j (hne j hj)).trans (hfresh j (List.mem_cons_of_mem _ hj)))
      fun j hj => by
        by_cases hji : j = i
        · rw [hji]
          exact hd
        · rw [hother j hji]
          exact hdone j (by simp [hji, hj])
    refine ⟨tr ++ tr', c', hr.append hr', hall, ?_⟩
    rw [hlast, hworld]
    rfl

end Launch

end Memory

end Interleave
