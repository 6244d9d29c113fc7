import Mathlib.Order.Lattice

/-!
# Choosing from a list in one pass

Of the members of a list with a property, the one with the least key, and of several
with that key the earliest (`Earliest`); with a constant key it is the first (`First`).
`Chosen` allows for there being none. A pass over the list keeps `Chosen` of what it has
seen: the `snoc` rules say what the next member does to it, and `Chosen.unique` that there
is nothing else it could hold.

The key is any function into a linear order. A pass that keeps several such choices at
once, with different properties, is handled member by member, each with its own `Chosen`.
-/

namespace Choice

variable {α κ : Type} [LinearOrder κ] {P : α → Prop} {key : α → κ} {l : List α}
  {r s x : α}
  {o o' : Option α}

/-- Of the members with `P`, `r` has the least key, and no earlier one has it too. -/
structure Earliest (P : α → Prop) (key : α → κ) (l : List α) (r : α) : Prop where
  holds : P r
  placed : ∃ l₁ l₂, l = l₁ ++ r :: l₂ ∧ (∀ x ∈ l₁, P x → key r < key x) ∧
    ∀ x ∈ l₂, P x → key r ≤ key x

/-- The first member with `P`. -/
def First (P : α → Prop) (l : List α) (r : α) : Prop := Earliest P (fun _ => ()) l r

/-- The choice from `l`, `none` where no member has `P`. -/
def Chosen (P : α → Prop) (key : α → κ) (l : List α) : Option α → Prop
  | none => ∀ x ∈ l, ¬ P x
  | some r => Earliest P key l r

/-- The earliest one is one of the list. -/
theorem Earliest.mem (h : Earliest P key l r) : r ∈ l := by
  obtain ⟨l₁, l₂, rfl, -, -⟩ := h.placed
  exact List.mem_append_right _ List.mem_cons_self

/-- And none that is asked for is before it. -/
theorem Earliest.le (h : Earliest P key l r) (hx : x ∈ l) (hP : P x) : key r ≤ key x := by
  obtain ⟨l₁, l₂, rfl, hbefore, hafter⟩ := h.placed
  rcases List.mem_append.mp hx with hx | hx
  · exact le_of_lt (hbefore x hx hP)
  rcases List.mem_cons.mp hx with rfl | hx
  · exact le_refl _
  · exact hafter x hx hP

/-- A list in ascending order of some measure: the first with `P` has the least measure. -/
theorem First.least {ι : Type} [LinearOrder ι] {f : α → ι} (h : First P l r)
    (hs : l.Pairwise fun a b => f a < f b) (hx : x ∈ l) (hP : P x) : f r ≤ f x := by
  obtain ⟨l₁, l₂, rfl, hbefore, -⟩ := h.placed
  rcases List.mem_append.mp hx with hx | hx
  · exact absurd (hbefore x hx hP) (lt_irrefl _)
  rcases List.mem_cons.mp hx with rfl | hx
  · exact le_refl _
  · exact le_of_lt ((List.pairwise_cons.mp (List.pairwise_append.mp hs).2.1).1 x hx)

/-- The head of a list, if it has `P`. -/
theorem first_cons (h : P r) : First P (r :: l) r :=
  ⟨h, [], l, rfl, by simp, fun _ _ _ => le_refl _⟩

/-! ## One more member -/

/-- Nothing is chosen from an empty list. -/
theorem chosen_nil : Chosen P key [] none := fun _ hx => absurd hx List.not_mem_nil

/-- One that is not asked for changes nothing. -/
theorem Chosen.skip (h : Chosen P key l o) (hx : ¬ P x) : Chosen P key (l ++ [x]) o := by
  cases o with
  | none =>
    intro y hy
    rcases List.mem_append.mp hy with hy | hy
    · exact h y hy
    · rw [List.mem_singleton.mp hy]
      exact hx
  | some r =>
    obtain ⟨hr, l₁, l₂, rfl, hbefore, hafter⟩ := h
    refine ⟨hr, l₁, l₂ ++ [x], by simp, hbefore, ?_⟩
    intro y hy hPy
    rcases List.mem_append.mp hy with hy | hy
    · exact hafter y hy hPy
    · rw [List.mem_singleton.mp hy] at hPy
      exact absurd hPy hx

/-- The first that is asked for is chosen. -/
theorem Chosen.start (h : Chosen P key l none) (hx : P x) : Chosen P key (l ++ [x]) (some x) :=
  ⟨hx, l, [], rfl, fun y hy hPy => absurd hPy (h y hy), by simp⟩

/-- A strictly earlier one is chosen in its place. -/
theorem Chosen.better (h : Chosen P key l (some r)) (hx : P x) (hlt : key x < key r) :
    Chosen P key (l ++ [x]) (some x) :=
  ⟨hx, l, [], rfl, fun _ hy hPy => lt_of_lt_of_le hlt (Earliest.le h hy hPy), by simp⟩

/-- One that is no earlier is not, so that the first of equals stays. -/
theorem Chosen.keep (h : Chosen P key l (some r)) (hle : key r ≤ key x) :
    Chosen P key (l ++ [x]) (some r) := by
  obtain ⟨hr, l₁, l₂, rfl, hbefore, hafter⟩ := h
  refine ⟨hr, l₁, l₂ ++ [x], by simp, hbefore, ?_⟩
  intro y hy hPy
  rcases List.mem_append.mp hy with hy | hy
  · exact hafter y hy hPy
  · rw [List.mem_singleton.mp hy]
    exact hle

/-! ## Uniqueness -/

/-- There is one earliest. -/
theorem Earliest.unique (h : Earliest P key l r) (h' : Earliest P key l s) : r = s := by
  have hkey : key r = key s := le_antisymm (h.le h'.mem h'.holds) (h'.le h.mem h.holds)
  obtain ⟨l₁, l₂, hl, hbefore, -⟩ := h.placed
  obtain ⟨l₁', l₂', hl', hbefore', -⟩ := h'.placed
  rw [hl] at hl'
  rcases List.append_eq_append_iff.mp hl' with ⟨m, rfl, hm⟩ | ⟨m, rfl, hm⟩
  · cases m with
    | nil => exact (List.cons.inj hm).1
    | cons y m =>
      -- `r` would stand before `s`
      obtain ⟨rfl, -⟩ := List.cons.inj hm
      have hlt := hbefore' r (List.mem_append_right _ List.mem_cons_self) h.holds
      exact absurd hkey (ne_of_gt hlt)
  · cases m with
    | nil => exact (List.cons.inj hm).1.symm
    | cons y m =>
      obtain ⟨rfl, -⟩ := List.cons.inj hm
      have hlt := hbefore s (List.mem_append_right _ List.mem_cons_self) h'.holds
      exact absurd hkey (ne_of_lt hlt)

/-- And so one choice. -/
theorem Chosen.unique (h : Chosen P key l o) (h' : Chosen P key l o') : o = o' := by
  cases o with
  | none =>
    cases o' with
    | none => rfl
    | some s => exact absurd (Earliest.holds h') (h s (Earliest.mem h'))
  | some r =>
    cases o' with
    | none => exact absurd (Earliest.holds h) (h' r (Earliest.mem h))
    | some s => exact congrArg some (Earliest.unique h h')

end Choice
