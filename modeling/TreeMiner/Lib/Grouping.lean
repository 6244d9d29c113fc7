import Mathlib.Algebra.BigOperators.Group.List.Lemmas
import Mathlib.Algebra.Ring.Nat
import Mathlib.Data.List.Dedup

/-!
# Counting by groups

`SELECT key, COUNT(*) … GROUP BY key`: every key that occurs, once, with the number of its
rows, in whatever order (`Grouping`). Whatever the order, the counts of the groups that meet
a condition add up to the number of rows whose key meets it (`Grouping.sum`).

The order is left open because SQL leaves it open. A loop over the groups may therefore rely
on nothing but `Grouping`, and a loop that adds up by key comes to the same whatever it is
handed.
-/

namespace Grouped

variable {α κ : Type} [DecidableEq κ]

/-- The groups of `xs` by `f`. -/
structure Grouping (f : α → κ) (xs : List α) (gs : List (κ × Nat)) : Prop where
  nodup : (gs.map Prod.fst).Nodup
  mem_iff : ∀ k n, (k, n) ∈ gs ↔ 0 < n ∧ n = (xs.map f).count k

/-- One way to list them. -/
def groups (f : α → κ) (xs : List α) : List (κ × Nat) :=
  (xs.map f).dedup.map fun k => (k, (xs.map f).count k)

variable {f : α → κ} {xs : List α} {gs : List (κ × Nat)}

/-- There is one group for each key that occurs. -/
theorem groups_keys : (groups f xs).map Prod.fst = (xs.map f).dedup := by
  unfold groups
  rw [List.map_map]
  exact List.map_id _

/-- The groups hold all elements, each under its own key. -/
theorem groups_grouping : Grouping f xs (groups f xs) where
  nodup := by
    rw [groups_keys]
    exact List.nodup_dedup _
  mem_iff k n := by
    unfold groups
    rw [List.mem_map]
    constructor
    · rintro ⟨k', hk, heq⟩
      cases heq
      exact ⟨List.count_pos_iff.mpr (List.mem_dedup.mp hk), rfl⟩
    · rintro ⟨hpos, rfl⟩
      exact ⟨k, List.mem_dedup.mpr (List.count_pos_iff.mp hpos), rfl⟩

/-- A key of a group is the key of a row. -/
theorem Grouping.key (h : Grouping f xs gs) {g : κ × Nat} (hg : g ∈ gs) :
    ∃ x ∈ xs, f x = g.1 := by
  obtain ⟨hpos, hn⟩ := (h.mem_iff g.1 g.2).mp hg
  rw [hn] at hpos
  exact List.mem_map.mp (List.count_pos_iff.mp hpos)

/-- Two listings of the groups differ in their order only. -/
theorem Grouping.perm (h : Grouping f xs gs) : gs.Perm (groups f xs) := by
  have hnodup : ∀ {gs : List (κ × Nat)}, Grouping f xs gs → gs.Nodup :=
    fun hg => List.Nodup.of_map _ hg.nodup
  refine (List.perm_ext_iff_of_nodup (hnodup h) (hnodup groups_grouping)).mpr ?_
  rintro ⟨k, n⟩
  rw [h.mem_iff, groups_grouping.mem_iff]

/-- The groups whose keys meet `P` count the rows whose keys do. -/
theorem Grouping.sum (h : Grouping f xs gs) (P : κ → Bool) :
    (gs.map fun g => if P g.1 then g.2 else 0).sum = xs.countP fun x => P (f x) := by
  have hfilter : ∀ ks : List κ, (ks.map fun k => if P k then (xs.map f).count k else 0).sum =
      ((ks.filter P).map fun k => (xs.map f).count k).sum := by
    intro ks
    induction ks with
    | nil => rfl
    | cons k ks ih =>
      cases hP : P k with
      | false => simp [hP, ih]
      | true => simp [hP, ih]
  calc (gs.map fun g => if P g.1 then g.2 else 0).sum
      = ((groups f xs).map fun g => if P g.1 then g.2 else 0).sum := (h.perm.map _).sum_eq
    _ = ((xs.map f).dedup.map fun k => if P k then (xs.map f).count k else 0).sum := by
      unfold groups
      rw [List.map_map]
      rfl
    _ = (((xs.map f).dedup.filter P).map fun k => (xs.map f).count k).sum := hfilter _
    _ = (xs.map f).countP P := List.sum_map_count_dedup_filter_eq_countP P _
    _ = xs.countP fun x => P (f x) := List.countP_map ..

/-! ## A loop over the groups -/

variable {γ : Type} {step : γ → κ × Nat → Option γ} {c c' : γ}

omit [DecidableEq κ] in
/-- The loop goes through when no group stops it. -/
theorem foldlM_isSome (h : ∀ g ∈ gs, ∀ c, (step c g).isSome = true) :
    (gs.foldlM step c).isSome = true := by
  induction gs generalizing c with
  | nil => rfl
  | cons g gs ih =>
    obtain ⟨c₁, hc₁⟩ := Option.isSome_iff_exists.mp (h g List.mem_cons_self c)
    rw [List.foldlM_cons, hc₁]
    exact ih fun g' hg' => h g' (List.mem_cons_of_mem g hg')

omit [DecidableEq κ] in
/-- A counter `r` that the loop raises by the count of each group whose key meets `P`. -/
theorem foldlM_count {r : γ → Nat} {P : κ → Bool}
    (hstep : ∀ c g c', step c g = some c' → r c' = r c + if P g.1 then g.2 else 0)
    (h : gs.foldlM step c = some c') :
    r c' = r c + (gs.map fun g => if P g.1 then g.2 else 0).sum := by
  induction gs generalizing c with
  | nil =>
    cases h
    rfl
  | cons g gs ih =>
    rw [List.foldlM_cons] at h
    obtain ⟨c₁, hc₁, hrest⟩ := Option.bind_eq_some_iff.mp h
    rw [ih hrest, hstep c g c₁ hc₁, List.map_cons, List.sum_cons, Nat.add_assoc]

/-- Over the groups of `xs`, it has counted the rows whose keys meet `P`. -/
theorem Grouping.foldlM (hg : Grouping f xs gs) {r : γ → Nat} {P : κ → Bool}
    (hstep : ∀ c g c', step c g = some c' → r c' = r c + if P g.1 then g.2 else 0)
    (h : gs.foldlM step c = some c') : r c' = r c + xs.countP fun x => P (f x) := by
  rw [foldlM_count hstep h, hg.sum P]

end Grouped
