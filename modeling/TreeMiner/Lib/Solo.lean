import TreeMiner.Lib.Interleave

/-!
# A program running alone

`Machine` cuts a program at every operation so that others can come between. Where
nobody does, the program has a big-step reading: `Prog.Runs` takes a state to a state
through a list of performed operations, and ends with a value or with the exception of
an operation that threw.

`Runs.run` says that such a run is a run of the machine in which only one thread moves.
`Prog.Returns` bounds what a program can return, whatever the operations answer, and
`Prog.follow` runs a program against a responder.
-/

namespace Interleave

variable {S : Sig} {σ ι ε κ α β : Type}

/-- What an operation can answer and leave, and what it can leave when it throws. -/
structure Effects (S : Sig) (σ : Type) where
  does : (o : S.Op) → σ → S.Ans o → σ → Prop
  throws : S.Op → σ → σ → Prop

/-- `p` goes from a state to a state, performs these operations (oldest first) and
returns a value, or `none` when the last thing it asked for threw. -/
inductive Prog.Runs (E : Effects S σ) :
    Prog S α → σ → List (Event S) → Option α → σ → Prop where
  | ret (a : α) (s : σ) : Runs E (.ret a) s [] (some a) s
  | op {o : S.Op} {k : S.Ans o → Prog S α} {s s₁ s₂ : σ} {a : S.Ans o} {h : List (Event S)}
      {r : Option α} (does : E.does o s a s₁) (rest : Runs E (k a) s₁ h r s₂) :
      Runs E (.op o k) s (⟨o, a⟩ :: h) r s₂
  | threw {o : S.Op} {k : S.Ans o → Prog S α} {s s₁ : σ} (throws : E.throws o s s₁) :
      Runs E (.op o k) s [] none s₁

section Rules

variable {E : Effects S σ} {s s' : σ} {h : List (Event S)}

@[simp] theorem runs_ret {a : α} {r : Option α} :
    Prog.Runs E (.ret a) s h r s' ↔ h = [] ∧ r = some a ∧ s' = s := by
  constructor
  · intro hr
    cases hr
    exact ⟨rfl, rfl, rfl⟩
  · rintro ⟨rfl, rfl, rfl⟩
    exact .ret a s'

/-- A run of a program that asks first: it is answered and goes on, or it is cut off. -/
theorem runs_op {o : S.Op} {k : S.Ans o → Prog S α} {r : Option α} :
    Prog.Runs E (.op o k) s h r s' ↔
      (∃ a s₁ h₁, h = ⟨o, a⟩ :: h₁ ∧ E.does o s a s₁ ∧
        (k a).Runs E s₁ h₁ r s') ∨
      (h = [] ∧ r = none ∧ E.throws o s s') := by
  constructor
  · intro hr
    cases hr with
    | op does rest => exact Or.inl ⟨_, _, _, rfl, does, rest⟩
    | threw throws => exact Or.inr ⟨rfl, rfl, throws⟩
  · rintro (⟨a, s₁, h₁, rfl, does, rest⟩ | ⟨rfl, rfl, throws⟩)
    · exact .op does rest
    · exact .threw throws

/-- A sequence threw in its first part, or went on from what that returned. -/
theorem Prog.Runs.bind_cases {f : α → Prog S β} {r : Option β} :
    ∀ {p : Prog S α} {s : σ} {h : List (Event S)}, (p.bind f).Runs E s h r s' →
      (∃ h₁ a s₁ h₂, h = h₁ ++ h₂ ∧ p.Runs E s h₁ (some a) s₁ ∧
        (f a).Runs E s₁ h₂ r s') ∨
      (r = none ∧ p.Runs E s h none s')
  | .ret a, s, h, hr => Or.inl ⟨[], a, s, h, rfl, .ret a s, hr⟩
  | .op o k, s, h, hr => by
    rcases runs_op.mp hr with ⟨a, s₁, h₁, rfl, does, rest⟩ | ⟨rfl, rfl, throws⟩
    · rcases Prog.Runs.bind_cases rest with ⟨h₂, b, s₂, h₃, rfl, hp, hf⟩ | ⟨rfl, hp⟩
      · exact Or.inl ⟨⟨o, a⟩ :: h₂, b, s₂, h₃, rfl, .op does hp, hf⟩
      · exact Or.inr ⟨rfl, .op does hp⟩
    · exact Or.inr ⟨rfl, .threw throws⟩

/-- One run after another. -/
theorem Prog.Runs.bind {f : α → Prog S β} {p : Prog S α} {a : α} {r : Option β} {s₁ : σ}
    {h₁ h₂ : List (Event S)} (hp : p.Runs E s h₁ (some a) s₁)
    (hf : (f a).Runs E s₁ h₂ r s') :
    (p.bind f).Runs E s (h₁ ++ h₂) r s' := by
  generalize hv : some a = v at hp
  induction hp with
  | ret b s =>
    cases hv
    exact hf
  | op does rest ih => exact .op does (ih hf hv)
  | threw throws => cases hv

/-- An exception of the first part is one of the sequence. -/
theorem Prog.Runs.bind_threw {f : α → Prog S β} {p : Prog S α} (hp : p.Runs E s h none s') :
    (p.bind f).Runs E s h none s' := by
  generalize hv : (none : Option α) = v at hp
  induction hp with
  | ret b s => cases hv
  | op does rest ih => exact .op does (ih hv)
  | threw throws => exact .threw throws

end Rules

/-! ## What a program can return -/

/-- Whatever the operations answer, a value that is returned meets `P`. -/
def Prog.Returns (P : α → Prop) : Prog S α → Prop
  | .ret a => P a
  | .op _ k => ∀ a, (k a).Returns P

@[simp] theorem returns_ret {P : α → Prop} {a : α} : Prog.Returns P (.ret a : Prog S α) ↔
  P a :=
  Iff.rfl

@[simp] theorem returns_op {P : α → Prop} {o : S.Op} {k : S.Ans o → Prog S α} :
    Prog.Returns P (.op o k) ↔ ∀ a, (k a).Returns P :=
  Iff.rfl

/-- What the first part returns is what the second may rely on. -/
theorem Prog.Returns.bind {P : α → Prop} {Q : β → Prop} {f : α → Prog S β} :
    ∀ {p : Prog S α}, p.Returns P → (∀ a, P a → (f a).Returns Q) → (p.bind f).Returns Q
  | .ret a, hp, hf => hf a hp
  | .op _ _, hp, hf => fun a => Prog.Returns.bind (hp a) hf

/-- Of what is returned nothing need be known. -/
theorem Prog.Returns.any : ∀ {p : Prog S α}, p.Returns fun _ => True
  | .ret _ => trivial
  | .op _ _ => fun _ => Prog.Returns.any

/-- The value of `p` does not matter for what comes after it. -/
theorem Prog.Returns.after {Q : β → Prop} {p : Prog S α} {f : α → Prog S β}
    (hf : ∀ a, (f a).Returns Q) : (p.bind f).Returns Q :=
  Prog.Returns.any.bind fun a _ => hf a

theorem Prog.Returns.call {Q : β → Prop} {o : S.Op} {f : S.Ans o → Prog S β}
    (hf : ∀ a, (f a).Returns Q) : ((Prog.call o).bind f).Returns Q :=
  hf

/-- A run to its end gives a value that the program may return. -/
theorem Prog.Runs.returns {E : Effects S σ} {P : α → Prop} {p : Prog S α} {s s' : σ}
    {h : List (Event S)} {a : α} (hr : p.Runs E s h (some a) s') (hp : p.Returns P) : P a := by
  generalize hv : some a = v at hr
  induction hr with
  | ret b s =>
    cases hv
    exact hp
  | op does rest ih => exact ih (hp _) hv
  | threw throws => cases hv

/-- What every path through a program keeps, a run of it keeps. -/
theorem Prog.Runs.along {E : Effects S σ} {A : List (Event S) → Event S → Prop}
    {C : List (Event S) → S.Op → Prop} {D : List (Event S) → α → Prop} {p : Prog S α}
    {s s' : σ} {h : List (Event S)} {r : Option α} (hr : p.Runs E s h r s')
    (hA : ∀ g o s a s', E.does o s a s' → A g ⟨o, a⟩) {g : List (Event S)}
    (hp : Prog.Along A C D g p) :
    (∀ e ∈ h, ∃ g', C g' e.op) ∧ ∀ a, r = some a → D (h.reverse ++ g) a := by
  induction hr generalizing g with
  | ret a s =>
    refine ⟨fun e he => absurd he List.not_mem_nil, fun b hb => ?_⟩
    cases hb
    exact hp
  | op does rest ih =>
    obtain ⟨hops, hret⟩ := ih (hp.2 _ (hA g _ _ _ _ does))
    refine ⟨fun e he => ?_, fun b hb => ?_⟩
    · rcases List.mem_cons.mp he with rfl | he
      · exact ⟨g, hp.1⟩
      · exact hops e he
    · rw [List.reverse_cons, List.append_assoc]
      exact hret b hb
  | threw throws => exact ⟨fun e he => absurd he List.not_mem_nil, fun b hb => by cases hb⟩

/-! ## Against a responder -/

/-- Run `p` with a function that answers. -/
def Prog.follow {τ : Type} (answer : (o : S.Op) → τ → Option (S.Ans o × τ)) :
    Prog S α → τ → Option (List (Event S) × α × τ)
  | .ret a, t => some ([], a, t)
  | .op o k, t =>
    match answer o t with
    | some (a, t) => ((k a).follow answer t).map fun r => (⟨o, a⟩ :: r.1, r.2)
    | none => none

/-- A responder whose answers are possible makes a run. -/
theorem Prog.follow_runs {τ : Type} {E : Effects S σ} (view : τ → σ)
    {answer : (o : S.Op) → τ → Option (S.Ans o × τ)}
    (hans : ∀ o t a t', answer o t = some (a, t') → E.does o (view t) a (view t')) :
    ∀ {p : Prog S α} {t t' : τ} {h : List (Event S)} {a : α},
      p.follow answer t = some (h, a, t') → p.Runs E (view t) h (some a) (view t')
  | .ret a, t, t', h, b, hf => by
    simp only [follow, Option.some.injEq, Prod.mk.injEq] at hf
    obtain ⟨rfl, rfl, rfl⟩ := hf
    exact .ret a _
  | .op o k, t, t', h, b, hf => by
    simp only [follow] at hf
    split at hf
    next a t₁ ha =>
      obtain ⟨⟨h₁, b₁, t₂⟩, hrest, heq⟩ := Option.map_eq_some_iff.mp hf
      cases heq
      exact .op (hans o t a t₁ ha) (follow_runs view hans hrest)
    next => cases hf

/-! ## As a run of the machine -/

section Machine

variable [DecidableEq ι] {M : Machine S σ ι ε κ α} {i : ι}

/-- What thread `i` can do when it is its turn. -/
def Machine.effects (M : Machine S σ ι ε κ α) (i : ι) : Effects S σ where
  does o s a s' := ∃ x, M.exec i o s x = some (a, s')
  throws o s s' := M.abort i o s = some s'

/-- What is left of the thread. -/
def leaves (g h : List (Event S)) : Option α → Option (Thread S α)
  | some a => some ⟨h.reverse ++ g, .ret a⟩
  | none => none

/-- A program running alone is a thread of the machine that nobody comes between. -/
theorem Prog.Runs.run {p : Prog S α} {s s' : σ} {h : List (Event S)} {r : Option α}
    (hr : p.Runs (M.effects i) s h r s') :
    ∀ {g : List (Event S)} {pool : ι → Option (Thread S α)}, pool i = some ⟨g, p⟩ →
      ∃ tr, Run M ⟨s, pool⟩ tr ⟨s', Function.update pool i (leaves g h r)⟩ := by
  -- each operation of the solo run is a step of the machine with the others at rest
  induction hr with
  | ret a s =>
    intro g pool hp
    refine ⟨[], ?_⟩
    have hsame : Function.update pool i (leaves g [] (some a)) = pool := by
      show Function.update pool i (some ⟨g, .ret a⟩) = pool
      rw [← hp, Function.update_eq_self]
    rw [hsame]
    exact .nil _
  | @op o k s s₁ s₂ a h r does rest ih =>
    intro g pool hp
    obtain ⟨x, hx⟩ := does
    have hpool : Function.update pool i (some ⟨⟨o, a⟩ :: g, k a⟩) i =
      some ⟨⟨o, a⟩ :: g, k a⟩ :=
      Function.update_self i _ pool
    obtain ⟨tr, htr⟩ := ih hpool
    have hstep : M.Step ⟨s, pool⟩ (.did i ⟨o, a⟩)
        ⟨s₁, Function.update pool i (some ⟨⟨o, a⟩ :: g, k a⟩)⟩ := by
      refine ⟨.act i x, ?_⟩
      simp only [Machine.step, hp, hx]
    have hsame : leaves (⟨o, a⟩ :: g) h r = leaves g (⟨o, a⟩ :: h) r := by
      cases r with
      | none => rfl
      | some b =>
        simp only [leaves, List.reverse_cons, List.append_assoc, List.singleton_append]
    rw [Function.update_idem, hsame] at htr
    exact ⟨_, htr.cons hstep⟩
  | @threw o k s s₁ throws =>
    intro g pool hp
    have hstep : M.Step ⟨s, pool⟩ (.threw i o) ⟨s₁, Function.update pool i none⟩ := by
      refine ⟨.throw i, ?_⟩
      have hab : M.abort i o s = some s₁ := throws
      simp only [Machine.step, hp, hab]
    exact ⟨_, (Run.nil _).snoc hstep⟩

end Machine

end Interleave
