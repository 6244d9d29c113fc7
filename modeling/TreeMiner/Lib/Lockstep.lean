import TreeMiner.Lib.Faults
import TreeMiner.Lib.Solo

/-!
# Two programs in lockstep

One procedure written twice: as a program of atomic operations that a responder answers
(`Prog.follow`), and as a computation that passes a state along (`Faulty`). `Lockstep` says
that from these two states both come to their end, without an exception, and how the ends
are related. The rules follow the two texts: where both run a part, both parts are in
lockstep; where only one of them does something, the other waits.

The state of the responder is carried along, and so is the list of answers of the
computation. Where the two sides keep their state in different members the relation at the
end says which belong together.
-/

namespace Interleave

open Faults

variable {S : Sig} {τ ρ σ α α' β β' : Type} {answer : (o : S.Op) → τ →
  Option (S.Ans o × τ)}

/-- A sequence is followed part by part. -/
theorem Prog.follow_bind {f : α → Prog S α'} {t' : τ} {a : α} :
    ∀ {p : Prog S α} {t : τ} {h : List (Event S)}, p.follow answer t = some (h, a, t') →
      (p.bind f).follow answer t = ((f a).follow answer t').map fun r => (h ++ r.1, r.2)
  | .ret b, t, h, hp => by
    simp only [follow, Option.some.injEq, Prod.mk.injEq] at hp
    obtain ⟨rfl, rfl, rfl⟩ := hp
    show (f b).follow answer t = _
    cases (f b).follow answer t with
    | none => rfl
    | some r => rfl
  | .op o k, t, h, hp => by
    simp only [follow] at hp
    rw [op_bind, follow]
    cases hans : answer o t with
    | none =>
      rw [hans] at hp
      cases hp
    | some r =>
      rw [hans] at hp
      obtain ⟨⟨h₁, b, t₁⟩, hrest, heq⟩ := Option.map_eq_some_iff.mp hp
      cases heq
      simp only
      rw [follow_bind hrest, Option.map_map]
      rfl

/-- From `t` and from `s` both return, and the ends meet `Q`. -/
def Lockstep (answer : (o : S.Op) → τ → Option (S.Ans o × τ)) (p : Prog S α) (t : τ)
    (m : Faulty ρ σ β) (s : σ) (as : Answers ρ)
    (Q : α → τ → β → σ → Answers ρ → Prop) : Prop :=
  ∃ h a t' b s' as', p.follow answer t = some (h, a, t') ∧ m s as = (some b, s', as') ∧
    Q a t' b s' as'

section Rules

variable {p : Prog S α} {f : α → Prog S α'} {m : Faulty ρ σ β} {g : β → Faulty ρ σ β'}
  {t t' : τ}
  {s s' : σ} {as as' : Answers ρ} {Q Q' : α → τ → β → σ → Answers ρ → Prop}
  {R : α' → τ → β' → σ → Answers ρ → Prop}

/-- The relation at the end of two programs in lockstep may be weakened. -/
theorem Lockstep.mono (hp : Lockstep answer p t m s as Q)
    (hQ : ∀ a t b s as, Q a t b s as → Q' a t b s as) : Lockstep answer p t m s as Q' := by
  obtain ⟨h, a, t', b, s', as', hf, hr, hq⟩ := hp
  exact ⟨h, a, t', b, s', as', hf, hr, hQ _ _ _ _ _ hq⟩

/-- Part by part. -/
theorem Lockstep.bind (hp : Lockstep answer p t m s as fun a t b s as =>
    Lockstep answer (f a) t (g b) s as R) : Lockstep answer (p.bind f) t (m >>= g) s as R := by
  obtain ⟨h, a, t₁, b, s₁, as₁, hf, hr, h', a', t₂, b', s₂, as₂, hf', hr', hR⟩ := hp
  refine ⟨h ++ h', a', t₂, b', s₂, as₂, ?_, ?_, hR⟩
  · rw [Prog.follow_bind hf, hf', Option.map_some]
  · rw [Faulty.bind_run hr, hr']

/-- The program goes on alone. -/
theorem Lockstep.alone {R : α' → τ → β → σ → Answers ρ → Prop}
    (hp : Lockstep answer p t m s as fun a t b s as => Lockstep answer (f a) t (pure b) s as R) :
    Lockstep answer (p.bind f) t m s as R := by
  obtain ⟨h, a, t₁, b, s₁, as₁, hf, hr, h', a', t₂, b', s₂, as₂, hf', hr', hR⟩ := hp
  cases hr'
  refine ⟨h ++ h', a', t₂, b, s₁, as₁, ?_, hr, hR⟩
  rw [Prog.follow_bind hf, hf', Option.map_some]

/-- Only the program performs an operation. -/
theorem lockstep_op {o : S.Op} {k : S.Ans o → Prog S α} {a : S.Ans o}
    (hans : answer o t = some (a, t')) (hk : Lockstep answer (k a) t' m s as Q) :
    Lockstep answer (.op o k) t m s as Q := by
  obtain ⟨h, a', t₁, b, s₁, as₁, hf, hr, hQ⟩ := hk
  refine ⟨⟨o, a⟩ :: h, a', t₁, b, s₁, as₁, ?_, hr, hQ⟩
  rw [Prog.follow, hans]
  simp only [hf, Option.map_some]

/-- Only the computation does something. -/
theorem lockstep_run {Q : α → τ → β' → σ → Answers ρ → Prop} {b : β}
    (hr : m s as = (some b, s', as')) (hk : Lockstep answer p t (g b) s' as' Q) :
    Lockstep answer p t (m >>= g) s as Q := by
  obtain ⟨h, a, t₁, b', s₁, as₁, hf, hr', hQ⟩ := hk
  exact ⟨h, a, t₁, b', s₁, as₁, hf, by rw [Faulty.bind_run hr, hr'], hQ⟩

/-- A handler that is not needed. -/
theorem Lockstep.orElse {h : Faulty ρ σ β} (hp : Lockstep answer p t m s as Q) :
    Lockstep answer p t (m.orElse h) s as Q := by
  obtain ⟨e, a, t₁, b, s₁, as₁, hf, hr, hQ⟩ := hp
  refine ⟨e, a, t₁, b, s₁, as₁, hf, ?_, hQ⟩
  unfold Faulty.orElse
  rw [hr]

end Rules

end Interleave
