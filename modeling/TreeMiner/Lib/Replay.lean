import Mathlib.Data.List.Basic

/-!
# Replaying a log

An operation that takes an item in, keeps what it has and does nothing for an item
it already has. Then a log can be replayed: after any beginning of it, any
beginning of it again leads to the longer of the two.

That is the situation of an import that is cut short and made again. The two laws on
the operation are hypotheses of the section (`Absorbs`), and the results are about
folds over prefixes of one list.
-/

namespace Replay

variable {σ α : Type}

/-- `has` says that the item was taken in. -/
structure Absorbs (op : σ → α → σ) (has : σ → α → Prop) : Prop where
  takes : ∀ s a, has (op s a) a
  keeps : ∀ s a b, has s a → has (op s b) a
  skips : ∀ s a, has s a → op s a = s

variable {op : σ → α → σ} {has : σ → α → Prop} (h : Absorbs op has)

include h

/-- What was taken up once stays through all that follows. -/
theorem Absorbs.foldl_keeps {a : α} :
    ∀ (as : List α) {s : σ}, has s a → has (as.foldl op s) a
  | [], _, ha => ha
  | b :: as, s, ha => Absorbs.foldl_keeps as (h.keeps s a b ha)

/-- After a log its items are there. -/
theorem Absorbs.foldl_takes {a : α} :
    ∀ {as : List α} {s : σ}, a ∈ as → has (as.foldl op s) a
  | b :: as, s, ha => by
    rcases List.mem_cons.mp ha with rfl | ha
    · exact h.foldl_keeps as (h.takes s a)
    · show has (as.foldl op (op s b)) a
      exact Absorbs.foldl_takes ha

/-- A log of items that are there does nothing. -/
theorem Absorbs.foldl_skips :
    ∀ {as : List α} {s : σ}, (∀ a ∈ as, has s a) → as.foldl op s = s
  | [], _, _ => rfl
  | a :: as, s, hall => by
    rw [List.foldl_cons, h.skips s a (hall a List.mem_cons_self)]
    exact Absorbs.foldl_skips fun b hb => hall b (List.mem_cons_of_mem _ hb)

/-- The log again from its beginning, after a beginning of it. -/
theorem Absorbs.replay (as : List α) (k m : Nat) (s : σ) :
    (as.take m).foldl op ((as.take k).foldl op s) = (as.take (max k m)).foldl op s := by
  have hagain : ∀ m ≤ k, (as.take m).foldl op ((as.take k).foldl op s) =
    (as.take k).foldl op s :=
    fun m hm => h.foldl_skips fun a ha => h.foldl_takes ((List.take_subset_take_left as hm) ha)
  by_cases hm : m ≤ k
  · rw [hagain m hm, Nat.max_eq_left hm]
  · -- the part up to `k` does nothing, the rest goes on
    have hle : k ≤ m := by omega
    have hsplit : as.take m = as.take k ++ (as.take m).drop k := by
      conv_lhs => rw [← List.take_append_drop k (as.take m)]
      rw [List.take_take, Nat.min_eq_left hle]
    rw [Nat.max_eq_right hle]
    conv_lhs => rw [hsplit]
    rw [List.foldl_append, hagain k (Nat.le_refl k), ← List.foldl_append, ← hsplit]

end Replay
