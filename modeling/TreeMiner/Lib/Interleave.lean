import Mathlib.Logic.Function.Basic
import Mathlib.Data.List.Basic

/-!
# Programs of atomic operations and their interleavings

A thread of a concurrent program is a tree: at each node it either returns or
asks for one atomic operation and continues with the answer (`Prog`). The
operations and the types of their answers are a parameter (`Sig`), so the same
tree is the sequential reading of a function body and the thing a scheduler
cuts at every operation.

A `Machine` says what an operation does to the shared world (`exec`, which may
consult an external input: a clock, a network answer), which calls a thread may
start (`body`, `may`), what is left of the world when an operation throws
(`abort`) and what a restart of the whole process does (`crash`). `Run` is any
sequence of such steps, in any order.

Two rules carry every proof about runs:

* `Prog.Along A C D h p`: as long as each answer meets `A` in the history it comes in, on every path
  through `p` each operation is asked for in a history that meets `C`, and each return happens in a
  history that meets `D`. It is a property of the program text alone; `Run.along` lifts it to the
  threads of any configuration a run reaches.
* `Run.invariant`: what holds initially and survives every permitted step holds
  in every configuration reached.
-/

namespace Interleave

/-- The operations a program may ask for, and the type of each answer. -/
structure Sig where
  Op : Type
  Ans : Op → Type

/-- A sequential program: return a value, or ask for an operation and go on
with its answer. -/
inductive Prog (S : Sig) (α : Type) : Type where
  | ret (a : α) : Prog S α
  | op (o : S.Op) (k : S.Ans o → Prog S α) : Prog S α

variable {S : Sig} {α β : Type}

namespace Prog

/-- Run `p`, then `f` on what it returned. -/
def bind : Prog S α → (α → Prog S β) → Prog S β
  | .ret a, f => f a
  | .op o k, f => .op o fun a => (k a).bind f

instance : Monad (Prog S) where
  pure := .ret
  bind := bind

/-- Ask for one operation. -/
def call (o : S.Op) : Prog S (S.Ans o) := .op o .ret

@[simp] theorem pure_eq (a : α) : (pure a : Prog S α) = .ret a := rfl

@[simp] theorem bind_eq (p : Prog S α) (f : α → Prog S β) : (p >>= f) = p.bind f := rfl

@[simp] theorem ret_bind (a : α) (f : α → Prog S β) : (ret a : Prog S α).bind f = f a := rfl

@[simp] theorem op_bind (o : S.Op) (k : S.Ans o → Prog S α) (f : α → Prog S β) :
    (op o k).bind f = .op o fun a => (k a).bind f := rfl

@[simp] theorem call_bind (o : S.Op) (f : S.Ans o → Prog S β) :
    (call o).bind f = .op o f := rfl

/-- Three programs after one another, however they are grouped. -/
theorem bind_assoc {γ : Type} (p : Prog S α) (f : α → Prog S β) (g : β → Prog S γ) :
    (p.bind f).bind g = p.bind fun a => (f a).bind g := by
  induction p with
  | ret a => rfl
  | op o k ih => exact congrArg (op o) (funext ih)

end Prog

/-- One performed operation, with the answer it got. -/
structure Event (S : Sig) where
  op : S.Op
  ans : S.Ans op

/-- Given answers that meet `A`, every operation on every path through the
program is asked for in a history that meets `C`, and every return happens in a
history that meets `D`. Histories are newest first. -/
def Prog.Along (A : List (Event S) → Event S → Prop) (C : List (Event S) → S.Op → Prop)
    (D : List (Event S) → α → Prop) : List (Event S) → Prog S α → Prop
  | h, .ret a => D h a
  | h, .op o k => C h o ∧ ∀ a, A h ⟨o, a⟩ → (k a).Along A C D (⟨o, a⟩ :: h)

section Along

variable {A : List (Event S) → Event S → Prop} {C : List (Event S) → S.Op → Prop}

@[simp] theorem along_ret {D : List (Event S) → α → Prop} {h : List (Event S)} {a : α} :
    Prog.Along A C D h (.ret a) ↔ D h a := Iff.rfl

@[simp] theorem along_op {D : List (Event S) → α → Prop} {h : List (Event S)} {o : S.Op}
    {k : S.Ans o → Prog S α} :
    Prog.Along A C D h (.op o k) ↔
      C h o ∧ ∀ a, A h ⟨o, a⟩ → Prog.Along A C D (⟨o, a⟩ :: h) (k a) := Iff.rfl

/-- Sequencing: the second program starts in a history the first one left. -/
theorem Prog.Along.bind {E : List (Event S) → α → Prop} {D : List (Event S) → β → Prop}
    {f : α → Prog S β} :
    ∀ {p : Prog S α} {h : List (Event S)}, Prog.Along A C E h p →
      (∀ h' a, E h' a → Prog.Along A C D h' (f a)) → Prog.Along A C D h (p.bind f)
  | .ret _, _, hp, hf => hf _ _ hp
  | .op _ _, _, hp, hf => ⟨hp.1, fun a ha => Prog.Along.bind (hp.2 a ha) hf⟩

/-- One operation, then the rest. -/
theorem Prog.Along.call {D : List (Event S) → β → Prop} {h : List (Event S)} {o : S.Op}
    {f : S.Ans o → Prog S β} (hC : C h o)
    (hf : ∀ a, A h ⟨o, a⟩ → Prog.Along A C D (⟨o, a⟩ :: h) (f a)) :
    Prog.Along A C D h ((Prog.call o).bind f) :=
  ⟨hC, hf⟩

/-- More can be relied on, less is owed. -/
theorem Prog.Along.mono {A' : List (Event S) → Event S → Prop}
    {C' : List (Event S) → S.Op → Prop} {D D' : List (Event S) → α → Prop}
    (hA : ∀ h e, A' h e → A h e) (hC : ∀ h o, C h o → C' h o)
    (hD : ∀ h a, D h a → D' h a) :
    ∀ {p : Prog S α} {h : List (Event S)}, Prog.Along A C D h p → Prog.Along A' C' D' h p
  | .ret _, _, hp => hD _ _ hp
  | .op _ _, _, hp =>
    ⟨hC _ _ hp.1, fun a ha => Prog.Along.mono hA hC hD (hp.2 a (hA _ _ ha))⟩

/-- Two readings of one program. -/
theorem Prog.Along.and {C' : List (Event S) → S.Op → Prop}
    {D D' : List (Event S) → α → Prop} :
    ∀ {p : Prog S α} {h : List (Event S)}, Prog.Along A C D h p → Prog.Along A C' D' h p →
      Prog.Along A (fun h o => C h o ∧ C' h o) (fun h a => D h a ∧ D' h a) h p
  | .ret _, _, hp, hp' => ⟨hp, hp'⟩
  | .op _ _, _, hp, hp' =>
    ⟨⟨hp.1, hp'.1⟩, fun a ha => Prog.Along.and (hp.2 a ha) (hp'.2 a ha)⟩

/-- Nothing that was done is forgotten. -/
theorem Prog.Along.suffix {D : List (Event S) → α → Prop} :
    ∀ {p : Prog S α} {h : List (Event S)}, Prog.Along A C D h p →
      Prog.Along A C (fun h' a => D h' a ∧ h <:+ h') h p
  | .ret _, _, hp => ⟨hp, List.suffix_refl _⟩
  | .op _ _, _, hp =>
    ⟨hp.1, fun a ha => (Prog.Along.suffix (hp.2 a ha)).mono (fun _ _ h => h) (fun _ _ h => h)
      fun _ _ hD => ⟨hD.1, (List.suffix_cons _ _).trans hD.2⟩⟩

end Along

/-! ## Machines -/

/-- A thread in the middle of a call: what it has done so far (newest first)
and what is left. -/
structure Thread (S : Sig) (α : Type) where
  hist : List (Event S)
  prog : Prog S α

/-- A thread may start a new call when it has none or its last one returned. -/
def Thread.isDone : Option (Thread S α) → Bool
  | none => true
  | some ⟨_, .ret _⟩ => true
  | some ⟨_, .op _ _⟩ => false

variable {σ ι ε κ : Type}

/-- `exec i o s x` is what operation `o` of thread `i` does in world `s` when
the outside supplies `x`; `none` when it cannot happen (a lock is taken, the
input does not fit). `abort` is the world after `o` threw, `crash` the world
after a restart. -/
structure Machine (S : Sig) (σ ι ε κ α : Type) where
  exec : ι → (o : S.Op) → σ → ε → Option (S.Ans o × σ)
  body : κ → Prog S α
  may : ι → κ → Bool
  abort : ι → S.Op → σ → Option σ
  crash : σ → Option σ

/-- The shared world and every thread. -/
structure Conf (S : Sig) (σ ι α : Type) where
  world : σ
  pool : ι → Option (Thread S α)

/-- What the scheduler may do next. -/
inductive Choice (ι ε κ : Type) where
  | start (i : ι) (c : κ)
  | act (i : ι) (x : ε)
  | throw (i : ι)
  | restart

/-- What a step did, as seen from outside. -/
inductive Label (S : Sig) (ι κ : Type) where
  | started (i : ι) (c : κ)
  | did (i : ι) (e : Event S)
  | threw (i : ι) (o : S.Op)
  | restarted

namespace Machine

variable [DecidableEq ι] (M : Machine S σ ι ε κ α)

/-- One scheduler choice, when it is possible. -/
def step (c : Conf S σ ι α) : Choice ι ε κ → Option (Label S ι κ × Conf S σ ι α)
  | .start i k =>
    if M.may i k && Thread.isDone (c.pool i) then
      some (.started i k, ⟨c.world, Function.update c.pool i (some ⟨[], M.body k⟩)⟩)
    else none
  | .act i x =>
    match c.pool i with
    | some ⟨h, .op o k⟩ =>
      match M.exec i o c.world x with
      | some (a, s) =>
        some (.did i ⟨o, a⟩,
          ⟨s, Function.update c.pool i (some ⟨⟨o, a⟩ :: h, k a⟩)⟩)
      | none => none
    | _ => none
  | .throw i =>
    match c.pool i with
    | some ⟨_, .op o _⟩ =>
      match M.abort i o c.world with
      | some s => some (.threw i o, ⟨s, Function.update c.pool i none⟩)
      | none => none
    | _ => none
  | .restart =>
    match M.crash c.world with
    | some s => some (.restarted, ⟨s, fun _ => none⟩)
    | none => none

/-- One step of the machine, whoever took it. -/
def Step (c : Conf S σ ι α) (l : Label S ι κ) (c' : Conf S σ ι α) : Prop :=
  ∃ ch, M.step c ch = some (l, c')

/-- Everything a step can be. -/
theorem step_cases {M : Machine S σ ι ε κ α} {c c' : Conf S σ ι α} {l : Label S ι κ}
    (hs : M.Step c l c') :
    (∃ i k, l = .started i k ∧ M.may i k = true ∧ Thread.isDone (c.pool i) = true ∧
      c' = ⟨c.world, Function.update c.pool i (some ⟨[], M.body k⟩)⟩) ∨
    (∃ i h o k x a s, l = .did i ⟨o, a⟩ ∧ c.pool i = some ⟨h, .op o k⟩ ∧
      M.exec i o c.world x = some (a, s) ∧
      c' = ⟨s, Function.update c.pool i (some ⟨⟨o, a⟩ :: h, k a⟩)⟩) ∨
    (∃ i h o k s, l = .threw i o ∧ c.pool i = some ⟨h, .op o k⟩ ∧
      M.abort i o c.world = some s ∧ c' = ⟨s, Function.update c.pool i none⟩) ∨
    (∃ s, l = .restarted ∧ M.crash c.world = some s ∧ c' = ⟨s, fun _ => none⟩) := by
  obtain ⟨ch, hch⟩ := hs
  -- one case for each choice of the scheduler
  cases ch with
  | start i k =>
    simp only [step] at hch
    split at hch
    next hg =>
      simp only [Bool.and_eq_true] at hg
      simp only [Option.some.injEq, Prod.mk.injEq] at hch
      exact Or.inl ⟨i, k, hch.1.symm, hg.1, hg.2, hch.2.symm⟩
    next => cases hch
  | act i x =>
    simp only [step] at hch
    split at hch
    next h o k hp =>
      split at hch
      next a s he =>
        simp only [Option.some.injEq, Prod.mk.injEq] at hch
        exact Or.inr (Or.inl ⟨i, h, o, k, x, a, s, hch.1.symm, hp, he, hch.2.symm⟩)
      next => cases hch
    next => cases hch
  | throw i =>
    simp only [step] at hch
    split at hch
    next h o k hp =>
      split at hch
      next s he =>
        simp only [Option.some.injEq, Prod.mk.injEq] at hch
        exact Or.inr (Or.inr (Or.inl ⟨i, h, o, k, s, hch.1.symm, hp, he, hch.2.symm⟩))
      next => cases hch
    next => cases hch
  | restart =>
    simp only [step] at hch
    split at hch
    next s he =>
      simp only [Option.some.injEq, Prod.mk.injEq] at hch
      exact Or.inr (Or.inr (Or.inr ⟨s, hch.1.symm, he, hch.2.symm⟩))
    next => cases hch

/-- A performed operation was the thread's next one. -/
theorem Step.did {M : Machine S σ ι ε κ α} {c c' : Conf S σ ι α} {i : ι} {e : Event S}
    (hs : M.Step c (.did i e) c') :
    ∃ h k x, c.pool i = some ⟨h, .op e.op k⟩ ∧
      M.exec i e.op c.world x = some (e.ans, c'.world) ∧
      c'.pool = Function.update c.pool i (some ⟨e :: h, k e.ans⟩) := by
  rcases step_cases hs with ⟨j, k, hl, -⟩ | ⟨j, h, o, k, x, a, s, hl, hp, he, rfl⟩ |
    ⟨j, h, o, k, s, hl, -⟩ | ⟨s, hl, -⟩
  · cases hl
  · cases hl
    exact ⟨h, k, x, hp, he, rfl⟩
  · cases hl
  · cases hl

/-- Where a thread of the next configuration comes from: it was just started,
it just did its next operation, or it was there before and did not move. -/
theorem Step.thread {M : Machine S σ ι ε κ α} {c c' : Conf S σ ι α} {l : Label S ι κ}
    (hs : M.Step c l c') {i : ι} {t : Thread S α} (ht : c'.pool i = some t) :
    (∃ k, l = .started i k ∧ M.may i k = true ∧ t = ⟨[], M.body k⟩) ∨
    (∃ h o k a x, l = .did i ⟨o, a⟩ ∧ c.pool i = some ⟨h, .op o k⟩ ∧
      M.exec i o c.world x = some (a, c'.world) ∧ t = ⟨⟨o, a⟩ :: h, k a⟩) ∨
    (c.pool i = some t ∧ l ≠ .restarted ∧ ∀ e, l ≠ .did i e) := by
  -- a thread changes only by its own step, by being started, or by being thrown away
  rcases step_cases hs with ⟨j, k, rfl, hm, -, rfl⟩ |
      ⟨j, h, o, k, x, a, s, rfl, hp, he, rfl⟩ |
    ⟨j, h, o, k, s, rfl, -, -, rfl⟩ | ⟨s, -, -, rfl⟩
  · dsimp only at ht
    by_cases hij : i = j
    · subst hij
      rw [Function.update_self, Option.some.injEq] at ht
      exact Or.inl ⟨k, rfl, hm, ht.symm⟩
    · rw [Function.update_of_ne hij] at ht
      exact Or.inr (Or.inr ⟨ht, by simp, by simp⟩)
  · dsimp only at ht
    by_cases hij : i = j
    · subst hij
      rw [Function.update_self, Option.some.injEq] at ht
      exact Or.inr (Or.inl ⟨h, o, k, a, x, rfl, hp, he, ht.symm⟩)
    · rw [Function.update_of_ne hij] at ht
      refine Or.inr (Or.inr ⟨ht, by simp, ?_⟩)
      rintro e hl
      cases hl
      exact hij rfl
  · dsimp only at ht
    by_cases hij : i = j
    · subst hij
      rw [Function.update_self] at ht
      cases ht
    · rw [Function.update_of_ne hij] at ht
      exact Or.inr (Or.inr ⟨ht, by simp, by simp⟩)
  · cases ht

end Machine

/-! ## Runs -/

/-- Every step of the trace meets `G`, given the steps before it. -/
def Each (G : List (Conf S σ ι α × Label S ι κ) → Conf S σ ι α × Label S ι κ → Prop)
    (tr : List (Conf S σ ι α × Label S ι κ)) : Prop :=
  ∀ tr₁ x tr₂, tr = tr₁ ++ x :: tr₂ → G tr₁ x

/-- What holds at each step of a run holds at each step of its beginning. -/
theorem Each.of_append
    {G : List (Conf S σ ι α × Label S ι κ) → Conf S σ ι α × Label S ι κ → Prop}
    {tr tr' : List (Conf S σ ι α × Label S ι κ)} (h : Each G (tr ++ tr')) : Each G tr := by
  intro tr₁ x tr₂ ht
  refine h tr₁ x (tr₂ ++ tr') ?_
  rw [ht, List.append_assoc, List.cons_append]

/-- A condition on single steps holds of a trace when it holds of its members. -/
theorem Each.of_forall {P : Conf S σ ι α × Label S ι κ → Prop}
    {tr : List (Conf S σ ι α × Label S ι κ)} (h : ∀ x ∈ tr, P x) :
    Each (fun _ => P) tr := by
  rintro tr₁ x tr₂ rfl
  exact h x (List.mem_append_right _ List.mem_cons_self)

section Runs

variable [DecidableEq ι]

/-- A run, with the configuration before each step and what the step did. -/
inductive Run (M : Machine S σ ι ε κ α) :
    Conf S σ ι α → List (Conf S σ ι α × Label S ι κ) → Conf S σ ι α → Prop where
  | nil (c) : Run M c [] c
  | snoc {c c₁ c₂ tr l} (run : Run M c tr c₁) (step : M.Step c₁ l c₂) :
      Run M c (tr ++ [(c₁, l)]) c₂

variable {M : Machine S σ ι ε κ α} {c c' : Conf S σ ι α}
  {tr : List (Conf S σ ι α × Label S ι κ)}

/-- What holds at the start and survives each step that meets `G` holds at the
end of a run whose steps all meet `G`. -/
theorem Run.invariant {I : List (Conf S σ ι α × Label S ι κ) → Conf S σ ι α → Prop}
    {G : List (Conf S σ ι α × Label S ι κ) → Conf S σ ι α × Label S ι κ → Prop}
    (hstep : ∀ tr c₁ l c₂, Run M c tr c₁ → I tr c₁ → G tr (c₁, l) →
      M.Step c₁ l c₂ →
      I (tr ++ [(c₁, l)]) c₂)
    (hr : Run M c tr c') (h0 : I [] c) (hG : Each G tr) : I tr c' := by
  induction hr with
  | nil => exact h0
  | snoc run step ih => exact hstep _ _ _ _ run (ih hG.of_append) (hG _ _ [] rfl) step

/-- `Run.invariant` for a property of the configuration alone, in every run. -/
theorem Run.invariant_conf {I : Conf S σ ι α → Prop}
    (hstep : ∀ c₁ l c₂, I c₁ → M.Step c₁ l c₂ → I c₂) (hr : Run M c tr c')
    (h0 : I c) : I c' :=
  hr.invariant (I := fun _ => I) (G := fun _ _ => True)
    (fun _ _ _ _ _ hI _ hs => hstep _ _ _ hI hs) h0 (fun _ _ _ _ => trivial)

/-- A run splits at any of its steps. -/
theorem Run.split (hr : Run M c tr c') {c₁ : Conf S σ ι α} {l : Label S ι κ}
    {tr₁ tr₂ : List (Conf S σ ι α × Label S ι κ)}
    (ht : tr = tr₁ ++ (c₁, l) :: tr₂) :
    ∃ c₂, Run M c tr₁ c₁ ∧ M.Step c₁ l c₂ ∧ Run M c₂ tr₂ c' := by
  induction hr generalizing tr₁ tr₂ with
  | nil => exact absurd ht (by simp)
  | @snoc cb cd tr l' run step ih =>
    rcases List.eq_nil_or_concat tr₂ with rfl | ⟨tr₃, y, rfl⟩
    · have hinj := List.append_inj' ht rfl
      obtain ⟨rfl, hl⟩ := hinj
      simp only [List.cons.injEq, Prod.mk.injEq, and_true] at hl
      obtain ⟨rfl, rfl⟩ := hl
      exact ⟨cd, run, step, .nil _⟩
    · rw [List.concat_eq_append] at ht ⊢
      have hinj : tr ++ [(cb, l')] = (tr₁ ++ (c₁, l) :: tr₃) ++ [y] := by
        rw [ht]; simp
      obtain ⟨h1, h2⟩ := List.append_inj' hinj rfl
      obtain ⟨c₂, hr1, hs, hr2⟩ := ih h1
      rw [← h2]
      exact ⟨c₂, hr1, hs, .snoc hr2 step⟩

/-- Every thread of the configuration is on a path of a program with the given
obligations. -/
def Conf.Along (A : List (Event S) → Event S → Prop)
    (C : ι → List (Event S) → S.Op → Prop) (D : ι → List (Event S) → α → Prop)
    (c : Conf S σ ι α) : Prop :=
  ∀ i t, c.pool i = some t → Prog.Along A (C i) (D i) t.hist t.prog

section

variable {A : List (Event S) → Event S → Prop} {C : ι → List (Event S) → S.Op → Prop}
  {D : ι → List (Event S) → α → Prop}

omit [DecidableEq ι] in
/-- With no thread in the pool there is nothing to show. -/
theorem Conf.along_of_empty (h0 : ∀ i, c.pool i = none) : c.Along A C D := by
  intro i t ht
  rw [h0 i] at ht
  cases ht

/-- A step whose answer is what the programs rely on keeps every thread on its
path. -/
theorem Conf.Along.step {l : Label S ι κ} (hc : c.Along A C D) (hs : M.Step c l c')
    (hA : ∀ i h p e, l = .did i e → c.pool i = some ⟨h, p⟩ → A h e)
    (hb : ∀ i k, M.may i k = true → Prog.Along A (C i) (D i) [] (M.body k)) :
    c'.Along A C D := by
  intro i t ht
  rcases hs.thread ht with ⟨k, -, hm, rfl⟩ | ⟨h, o, k, a, x, hl, hp, he, rfl⟩ | ⟨hp, -⟩
  · exact hb i k hm
  · exact (hc i _ hp).2 a (hA i _ _ _ hl hp)
  · exact hc i t hp

/-- If the answers are what the programs rely on and every call a thread may
make keeps the thread's obligations, then so does every thread of every
configuration a run reaches. -/
theorem Run.along (hA : ∀ i h o s x a s', M.exec i o s x = some (a, s') → A h ⟨o, a⟩)
    (hb : ∀ i k, M.may i k = true → Prog.Along A (C i) (D i) [] (M.body k)) (hr : Run M c tr c')
    (h0 : c.Along A C D) : c'.Along A C D := by
  refine hr.invariant_conf (I := Conf.Along A C D) (fun c₁ l c₂ hc hs => ?_) h0
  refine hc.step hs (fun i h p e hl _ => ?_) hb
  subst hl
  obtain ⟨-, -, x, -, he, -⟩ := hs.did
  exact hA _ _ _ _ _ _ _ he

end

/-- What a thread remembers was done, by that thread. -/
theorem Run.hist_mem (hr : Run M c tr c') (h0 : ∀ i, c.pool i = none) :
    ∀ i t, c'.pool i = some t → ∀ e ∈ t.hist, ∃ c₁, (c₁, Label.did i e) ∈ tr := by
  refine hr.invariant (G := fun _ _ => True)
    (I := fun tr c' => ∀ i t, c'.pool i = some t → ∀ e ∈ t.hist,
      ∃ c₁, (c₁, Label.did i e) ∈ tr) ?_ ?_ (fun _ _ _ _ => trivial)
  · intro tr c₁ l c₂ _ ih _ hs i t ht e he
    have hold : ∀ u, c₁.pool i = some u → e ∈ u.hist →
        ∃ c, (c, Label.did i e) ∈ tr ++ [(c₁, l)] := by
      intro u hu heu
      obtain ⟨c, hc⟩ := ih i u hu e heu
      exact ⟨c, List.mem_append_left _ hc⟩
    rcases hs.thread ht with ⟨k, -, -, rfl⟩ | ⟨h, o, k, a, x, rfl, hp, -, rfl⟩ | ⟨hp, -⟩
    · cases he
    · rcases List.mem_cons.mp he with rfl | he
      · exact ⟨c₁, List.mem_append_right _ (List.mem_singleton.mpr rfl)⟩
      · exact hold _ hp he
    · exact hold t hp he
  · intro i t ht
    rw [h0 i] at ht
    cases ht

omit [DecidableEq ι] in
/-- The configurations before and after each step of a trace that ends in `c`. -/
def transitions : List (Conf S σ ι α × Label S ι κ) → Conf S σ ι α →
    List (Conf S σ ι α × Conf S σ ι α)
  | [], _ => []
  | [x], c => [(x.1, c)]
  | x :: y :: tr, c => (x.1, y.1) :: transitions (y :: tr) c

omit [DecidableEq ι] in
/-- A step at the end adds its own pair of configurations. -/
theorem transitions_snoc {c₁ c₂ : Conf S σ ι α} {l : Label S ι κ} :
    transitions (tr ++ [(c₁, l)]) c₂ = transitions tr c₁ ++ [(c₁, c₂)] := by
  induction tr with
  | nil => rfl
  | cons x tr ih =>
    cases tr with
    | nil => rfl
    | cons y tr => exact congrArg ((x.1, y.1) :: ·) ih

/-- A counter that goes up by one in each transition that meets `P`, and stays as it is in the
others, counts these transitions. -/
theorem Run.tally {f : Conf S σ ι α → Nat} {P : Conf S σ ι α → Conf S σ ι α → Bool}
    (hstep : ∀ tr c₁ l c₂, Run M c tr c₁ → M.Step c₁ l c₂ →
      f c₂ = f c₁ + if P c₁ c₂ then 1 else 0) (hr : Run M c tr c') :
    f c' = f c + (transitions tr c').countP fun x => P x.1 x.2 := by
  induction hr with
  | nil => rfl
  | @snoc c₁ c₂ tr l run step ih =>
    rw [hstep _ _ _ _ run step, ih, transitions_snoc, List.countP_append, Nat.add_assoc]
    congr 1
    cases hP : P c₁ c₂ with
    | false => simp [hP]
    | true => simp [hP]

end Runs

/-! ## Replaying a schedule -/

section Replay

variable [DecidableEq ι] (M : Machine S σ ι ε κ α)

/-- Follow a list of scheduler choices. -/
def Machine.replay (c : Conf S σ ι α) :
    List (Choice ι ε κ) → Option (List (Conf S σ ι α × Label S ι κ) × Conf S σ ι α)
  | [] => some ([], c)
  | ch :: chs =>
    match M.step c ch with
    | some (l, c') => (Machine.replay c' chs).map fun r => ((c, l) :: r.1, r.2)
    | none => none

/-- Prefixing a run with one step. -/
theorem Run.cons {M : Machine S σ ι ε κ α} {c c₁ c₂ : Conf S σ ι α} {l : Label S ι κ}
    {tr : List (Conf S σ ι α × Label S ι κ)} (hs : M.Step c l c₁)
    (hr : Run M c₁ tr c₂) :
    Run M c ((c, l) :: tr) c₂ := by
  induction hr with
  | nil => exact .snoc (.nil c) hs
  | snoc run step ih => exact .snoc ih step

/-- One run after another. -/
theorem Run.append {M : Machine S σ ι ε κ α} {c c₁ c₂ : Conf S σ ι α}
    {tr tr' : List (Conf S σ ι α × Label S ι κ)} (hr : Run M c tr c₁)
    (hr' : Run M c₁ tr' c₂) :
    Run M c (tr ++ tr') c₂ := by
  induction hr' with
  | nil =>
    rw [List.append_nil]
    exact hr
  | snoc run step ih =>
    rw [← List.append_assoc]
    exact .snoc ih step

/-- A schedule that can be followed is a run. -/
theorem Machine.replay_run {M : Machine S σ ι ε κ α} :
    ∀ {chs : List (Choice ι ε κ)} {c : Conf S σ ι α}
      {r : List (Conf S σ ι α × Label S ι κ) × Conf S σ ι α},
      M.replay c chs = some r → Run M c r.1 r.2
  | [], c, r, h => by
    simp only [replay, Option.some.injEq] at h
    subst h
    exact .nil _
  | ch :: chs, c, r, h => by
    simp only [replay] at h
    split at h
    next l c₁ hstep =>
      obtain ⟨r', hr', rfl⟩ := Option.map_eq_some_iff.mp h
      exact (replay_run hr').cons ⟨ch, hstep⟩
    next => cases h

/-- The run a schedule gives. -/
theorem Machine.replay_get {M : Machine S σ ι ε κ α} {chs : List (Choice ι ε κ)}
    {c : Conf S σ ι α} (h : (M.replay c chs).isSome = true) :
    Run M c ((M.replay c chs).get h).1 ((M.replay c chs).get h).2 :=
  replay_run (Option.some_get h).symm

end Replay

end Interleave
