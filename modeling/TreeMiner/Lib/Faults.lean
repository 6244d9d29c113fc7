import Mathlib.Data.List.Basic

/-!
# Computations whose calls may throw

State passing with exceptions. A computation over a state `σ` calls functions outside the
model; each call answers with a value of `ρ` or throws, and what the calls of a run do is a
list given in advance (`none` throws). A statement about every list covers every place where
an exception can come from. An exception leaves the state as far as it got.

`Ensures` is the total-correctness triple of such computations: what holds when a value is
returned, and what holds when an exception is thrown. `Calls` is for a computation that makes
a fixed number of calls and throws nothing of its own: it returns exactly if none of these
calls throws, which ties what it leaves to a place in the list of answers.
-/

namespace Faults

variable {ρ σ α β : Type}

/-- What the calls answer, one after the other; calls beyond the list succeed. -/
abbrev Answers (ρ : Type) := List (Option ρ)

/-- A computation: its value, or `none` for an exception, with the state it leaves. -/
def Faulty (ρ σ α : Type) : Type := σ → Answers ρ → Option α × σ × Answers ρ

namespace Faulty

instance : Monad (Faulty ρ σ) where
  pure a := fun s as => (some a, s, as)
  bind m f := fun s as =>
    match m s as with
    | (some a, s, as) => f a s as
    | (none, s, as) => (none, s, as)

/-- Call a function that may throw. -/
def call [Inhabited ρ] : Faulty ρ σ ρ := fun s as =>
  match as with
  | [] => (some default, s, [])
  | a :: as => (a, s, as)

def throw : Faulty ρ σ α := fun s as => (none, s, as)

def get : Faulty ρ σ σ := fun s as => (some s, s, as)

def modify (f : σ → σ) : Faulty ρ σ Unit := fun s as => (some (), f s, as)

/-- `try m catch (...) { h }`. -/
def orElse (m h : Faulty ρ σ α) : Faulty ρ σ α := fun s as =>
  match m s as with
  | (some a, s, as) => (some a, s, as)
  | (none, s, as) => h s as

/-- Work on a part of the state. -/
def zoom {τ : Type} (get : σ → τ) (set : τ → σ → σ) (m : Faulty ρ τ α) :
    Faulty ρ σ α := fun s as =>
  match m (get s) as with
  | (a, t, as) => (a, set t s, as)

/-- A computation that returns is followed by what comes next. -/
theorem bind_run {m : Faulty ρ σ α} {f : α → Faulty ρ σ β} {s s' : σ}
    {as as' : Answers ρ} {a : α}
    (h : m s as = (some a, s', as')) : (m >>= f) s as = f a s' as' := by
  show (match m s as with
    | (some a, s, as) => f a s as
    | (none, s, as) => (none, s, as)) = f a s' as'
  rw [h]

/-- One that throws is not. -/
theorem bind_threw {m : Faulty ρ σ α} {f : α → Faulty ρ σ β} {s s' : σ}
    {as as' : Answers ρ} (h : m s as = (none, s', as')) : (m >>= f) s as = (none, s', as') := by
  show (match m s as with
    | (some a, s, as) => f a s as
    | (none, s, as) => (none, s, as)) = (none, s', as')
  rw [h]

/-- The value of a run tells that it returned. -/
theorem run_of_value {m : Faulty ρ σ α} {s : σ} {as : Answers ρ} {a : α}
    (h : (m s as).1 = some a) :
    m s as = (some a, (m s as).2.1, (m s as).2.2) := by
  rw [← h]

/-! ## Triples -/

/-- From `s`, whatever the calls answer: a value that is returned meets `Q` with the state
then, and an exception leaves a state in `E`. Calls throw only if `fails`. -/
def Ensures (fails : Prop) (m : Faulty ρ σ α) (s : σ) (Q : α → σ → Prop)
    (E : σ → Prop) : Prop :=
  ∀ as, (none ∈ as → fails) → (none ∈ (m s as).2.2 → fails) ∧
    match m s as with
    | (some a, s', _) => Q a s'
    | (none, s', _) => E s'

variable {fails : Prop} {m h : Faulty ρ σ α} {f : α → Faulty ρ σ β} {s : σ}
  {Q Q' : α → σ → Prop} {R : β → σ → Prop} {E E' : σ → Prop}

/-- A value that is returned at once ensures what holds of it. -/
theorem ensures_pure {a : α} (hQ : Q a s) : (pure a : Faulty ρ σ α).Ensures fails s Q E :=
  fun _ has => ⟨has, hQ⟩

/-- One part after another: what the first ensures is what the second needs. -/
theorem Ensures.bind (hm : m.Ensures fails s (fun a s => (f a).Ensures fails s R E) E) :
    (m >>= f).Ensures fails s R E := by
  intro as has
  obtain ⟨hrest, hpost⟩ := hm as has
  show (none ∈ (match m s as with
      | (some a, s, as) => f a s as
      | (none, s, as) => (none, s, as)).2.2 → fails) ∧ (match (match m s as with
      | (some a, s, as) => f a s as
      | (none, s, as) => (none, s, as)) with
    | (some a, s', _) => R a s'
    | (none, s', _) => E s')
  match hr : m s as, hrest, hpost with
  | (some a, s', as'), hrest, hpost => exact hpost as' hrest
  | (none, s', as'), hrest, hpost => exact ⟨hrest, hpost⟩

/-- A call ensures what holds of every answer; when it may fail, the failure is to be covered too.
-/
theorem ensures_call [Inhabited ρ] {Q : ρ → σ → Prop} (hQ : ∀ r, Q r s)
    (hE : fails → E s) :
    (call : Faulty ρ σ ρ).Ensures fails s Q E := by
  intro as has
  match as, has with
  | [], has => exact ⟨has, hQ default⟩
  | some r :: as, has => exact ⟨fun h => has (List.mem_cons_of_mem _ h), hQ r⟩
  | none :: as, has =>
    exact ⟨fun h => has (List.mem_cons_of_mem _ h), hE (has List.mem_cons_self)⟩

/-- A part that throws ensures what is asked of failures. -/
theorem ensures_throw (hE : E s) : (throw : Faulty ρ σ α).Ensures fails s Q E :=
  fun _ has => ⟨has, hE⟩

theorem ensures_get {Q : σ → σ → Prop} (hQ : Q s s) :
    (get : Faulty ρ σ σ).Ensures fails s Q E :=
  fun _ has => ⟨has, hQ⟩

theorem ensures_modify {g : σ → σ} {Q : Unit → σ → Prop} (hQ : Q () (g s)) :
    (modify g : Faulty ρ σ Unit).Ensures fails s Q E :=
  fun _ has => ⟨has, hQ⟩

/-- What catches a failure takes over from the state in which it was thrown. -/
theorem Ensures.orElse (hm : m.Ensures fails s Q fun s => h.Ensures fails s Q E) :
    (m.orElse h).Ensures fails s Q E := by
  intro as has
  obtain ⟨hrest, hpost⟩ := hm as has
  unfold Faulty.orElse
  match hr : m s as, hrest, hpost with
  | (some a, s', as'), hrest, hpost => exact ⟨hrest, hpost⟩
  | (none, s', as'), hrest, hpost => exact hpost as' hrest

/-- A part of the state is worked on as if it were all of it. -/
theorem Ensures.zoom {τ : Type} {get : σ → τ} {set : τ → σ → σ} {m : Faulty ρ τ α}
    (hm : m.Ensures fails (get s) (fun a t => Q a (set t s)) fun t => E (set t s)) :
    (m.zoom get set).Ensures fails s Q E := by
  intro as has
  obtain ⟨hrest, hpost⟩ := hm as has
  unfold Faulty.zoom
  match hr : m (get s) as, hrest, hpost with
  | (some a, t, as'), hrest, hpost => exact ⟨hrest, hpost⟩
  | (none, t, as'), hrest, hpost => exact ⟨hrest, hpost⟩

/-- More may be ensured than is asked for. -/
theorem Ensures.mono (hm : m.Ensures fails s Q E) (hQ : ∀ a s, Q a s → Q' a s)
    (hE : ∀ s, E s → E' s) : m.Ensures fails s Q' E' := by
  intro as has
  obtain ⟨hrest, hpost⟩ := hm as has
  refine ⟨hrest, ?_⟩
  match hr : m s as, hpost with
  | (some a, s', as'), hpost => exact hQ a s' hpost
  | (none, s', as'), hpost => exact hE s' hpost

/-- What a run that returned a value left. -/
theorem Ensures.returned {a : α} {s' : σ} {as as' : Answers ρ} (hm : m.Ensures True s Q E)
    (hr : m s as = (some a, s', as')) : Q a s' := by
  have hpost := (hm as fun _ => trivial).2
  rw [hr] at hpost
  exact hpost

/-- What a run left that ended with an exception. -/
theorem Ensures.threw {s' : σ} {as as' : Answers ρ} (hm : m.Ensures True s Q E)
    (hr : m s as = (none, s', as')) : E s' := by
  have hpost := (hm as fun _ => trivial).2
  rw [hr] at hpost
  exact hpost

/-- A computation that only throws because of a call returns if none of them does. -/
theorem Ensures.returns (hm : m.Ensures False s Q fun _ => False) {as : Answers ρ}
    (has : none ∉ as) : ∃ a s' as', m s as = (some a, s', as') ∧ Q a s' := by
  have hpost := (hm as has).2
  match hr : m s as, hpost with
  | (some a, s', as'), hpost => exact ⟨a, s', as', rfl, hpost⟩

/-! ## Invariants -/

/-- Whatever the calls answer, `I` stays true, also where an exception ends the computation. -/
def Preserves (I : σ → Prop) (m : Faulty ρ σ α) : Prop := ∀ s as, I s → I (m s as).2.1

section Preserves

variable {τ : Type} {I : σ → Prop} {J : τ → Prop}

theorem preserves_pure (a : α) : (pure a : Faulty ρ σ α).Preserves I := fun _ _ hI => hI

/-- Two parts that keep an invariant keep it together. -/
theorem Preserves.bind (hm : m.Preserves I) (hf : ∀ a, (f a).Preserves I) :
    (m >>= f).Preserves I := by
  intro s as hI
  have hfirst := hm s as hI
  match hr : m s as, hfirst with
  | (some a, s', as'), hfirst =>
    rw [bind_run hr]
    exact hf a s' as' hfirst
  | (none, s', as'), hfirst =>
    rw [bind_threw hr]
    exact hfirst

/-- A call touches nothing of the state. -/
theorem preserves_call [Inhabited ρ] : (call : Faulty ρ σ ρ).Preserves I := by
  intro s as hI
  match as with
  | [] => exact hI
  | some _ :: _ => exact hI
  | none :: _ => exact hI

theorem preserves_throw : (throw : Faulty ρ σ α).Preserves I := fun _ _ hI => hI

theorem preserves_get : (get : Faulty ρ σ σ).Preserves I := fun _ _ hI => hI

/-- An update keeps what it is shown to keep. -/
theorem preserves_modify {g : σ → σ} (hg : ∀ s, I s → I (g s)) :
    (modify g : Faulty ρ σ Unit).Preserves I := fun s _ hI => hg s hI

/-- An invariant is kept through a failure that is caught. -/
theorem Preserves.orElse (hm : m.Preserves I) (hh : h.Preserves I) : (m.orElse h).Preserves I := by
  intro s as hI
  have hfirst := hm s as hI
  unfold Faulty.orElse
  match hr : m s as, hfirst with
  | (some a, s', as'), hfirst => exact hfirst
  | (none, s', as'), hfirst => exact hh s' as' hfirst

/-- A part of the state: what stays true of it and what makes it true of the whole. -/
theorem Preserves.zoom {get : σ → τ} {set : τ → σ → σ} {m : Faulty ρ τ α}
    (hm : m.Preserves J) (hget : ∀ s, I s → J (get s))
    (hset : ∀ t s, I s → J t → I (set t s)) :
    (m.zoom get set).Preserves I := by
  intro s as hI
  exact hset _ s hI (hm (get s) as (hget s hI))

/-- An invariant that is ensured for both endings. -/
theorem preserves_of_ensures (hm : ∀ s, I s → m.Ensures True s (fun _ s' => I s') I) :
    m.Preserves I := by
  intro s as hI
  have hpost := (hm s hI as fun _ => trivial).2
  match hr : m s as, hpost with
  | (some _, _, _), hpost => exact hpost
  | (none, _, _), hpost => exact hpost

/-- An invariant as a triple. -/
theorem Preserves.ensures (hm : m.Preserves I) (hI : I s) :
    m.Ensures True s (fun _ s' => I s') I := by
  intro as _
  have hpost := hm s as hI
  refine ⟨fun _ => trivial, ?_⟩
  match hr : m s as, hpost with
  | (some _, _, _), hpost => exact hpost
  | (none, _, _), hpost => exact hpost

/-- An invariant next to what is ensured. -/
theorem Ensures.and (hm : m.Ensures fails s Q E) (hp : m.Preserves I) (hI : I s) :
    m.Ensures fails s (fun a s => Q a s ∧ I s) fun s => E s ∧ I s := by
  intro as has
  obtain ⟨hrest, hpost⟩ := hm as has
  have hinv := hp s as hI
  refine ⟨hrest, ?_⟩
  match hr : m s as, hpost, hinv with
  | (some a, s', as'), hpost, hinv => exact ⟨hpost, hinv⟩
  | (none, s', as'), hpost, hinv => exact ⟨hpost, hinv⟩

end Preserves

/-! ## A fixed number of calls -/

/-- None of the `n` calls from the `i`-th on throws. -/
def unharmed (as : Answers ρ) (i n : Nat) : Bool := ((as.drop i).take n).all Option.isSome

/-- The answers of two parts are unharmed when those of each are. -/
theorem unharmed_add {as : Answers ρ} {i n k : Nat} :
    unharmed as i (n + k) = (unharmed as i n && unharmed as (i + n) k) := by
  unfold unharmed
  rw [List.take_add, List.all_append, List.drop_drop]

/-- A computation of `n` calls that throws only where one of them does. -/
def Calls (n : Nat) (m : Faulty ρ σ α) : Prop :=
  ∀ s as, (m s as).1.isSome = unharmed as 0 n ∧
    ((m s as).1.isSome = true → (m s as).2.2 = as.drop n)

/-- Nothing is asked to return a value. -/
theorem calls_pure (a : α) :
    (pure a : Faulty ρ σ α).Calls 0 := fun _ _ => ⟨rfl, fun _ => rfl⟩

theorem calls_modify (g : σ → σ) : (modify g : Faulty ρ σ Unit).Calls 0 :=
  fun _ _ => ⟨rfl, fun _ => rfl⟩

/-- A call takes one answer. -/
theorem calls_call [Inhabited ρ] : (call : Faulty ρ σ ρ).Calls 1 := by
  intro s as
  match as with
  | [] => exact ⟨rfl, fun _ => rfl⟩
  | some _ :: _ => exact ⟨rfl, fun _ => rfl⟩
  | none :: _ => exact ⟨rfl, fun h => (nomatch h)⟩

/-- Two parts take the answers of both. -/
theorem Calls.bind {n k : Nat} (hm : m.Calls n) (hf : ∀ a, (f a).Calls k) :
    (m >>= f).Calls (n + k) := by
  intro s as
  obtain ⟨hsome, hrest⟩ := hm s as
  rw [unharmed_add]
  match hr : m s as, hsome, hrest with
  | (some a, s', as'), hsome, hrest =>
    -- the second part goes on with what the first has left of the answers
    obtain rfl : as' = as.drop n := hrest rfl
    obtain ⟨hsome', hrest'⟩ := hf a s' (as.drop n)
    rw [bind_run hr, ← hsome, hsome']
    refine ⟨?_, fun h => ?_⟩
    · unfold unharmed
      rw [List.drop_zero, Nat.zero_add]
      rfl
    · rw [hrest' (hsome'.trans h), List.drop_drop]
  | (none, s', as'), hsome, hrest =>
    rw [bind_threw hr, ← hsome]
    exact ⟨rfl, fun h => (nomatch h)⟩

end Faulty

end Faults
