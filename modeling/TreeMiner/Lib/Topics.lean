import Mathlib.Data.List.Forall2

/-!
# Topic filters (MQTT 3.1.1, section 4.7)

A topic name is a sequence of levels. A level of a filter is a name, or a wildcard for one
level, or, at the end, a wildcard for any number of levels, which stands for the parent level
as well.

Matching is a relation on lists of levels, with one rule for each kind of level, over any
type of names. An implementation on strings is compared with it after both sides have been
split, and `HashLast` is what the specification asks of a filter.
-/

namespace Topics

/-- A level of a topic filter: a name, `+` or `#`. -/
inductive Level (α : Type) where
  | name (l : α)
  | plus
  | hash

variable {α : Type}

/-- A filter matches a topic name, both given by their levels. -/
inductive Matches : List (Level α) → List α → Prop where
  | nil : Matches [] []
  | name {l : α} {fs : List (Level α)} {ts : List α} :
      Matches fs ts → Matches (.name l :: fs) (l :: ts)
  | plus {t : α} {fs : List (Level α)} {ts : List α} : Matches fs ts →
    Matches (.plus :: fs) (t :: ts)
  | hash (ts : List α) : Matches [.hash] ts

/-- `#` stands nowhere but at the end. -/
def HashLast (fs : List (Level α)) : Prop := .hash ∉ fs.dropLast

section Matching

variable {f : Level α} {l t : α} {fs : List (Level α)} {ts : List α}

/-- The empty filter matches the empty topic only. -/
theorem matches_nil : Matches ([] : List (Level α)) ts ↔ ts = [] := by
  constructor
  · intro h
    cases h
    rfl
  · rintro rfl
    exact .nil

/-- A name matches that name. -/
theorem matches_name : Matches (.name l :: fs) (t :: ts) ↔ l = t ∧ Matches fs ts := by
  constructor
  · intro h
    cases h with
    | name h => exact ⟨rfl, h⟩
  · rintro ⟨rfl, h⟩
    exact .name h

/-- A `+` matches any one level. -/
theorem matches_plus : Matches (.plus :: fs) (t :: ts) ↔ Matches fs ts := by
  constructor
  · intro h
    cases h with
    | plus h => exact h
  · exact .plus

/-- Of the filters with a level, `#` is the one that matches where no level is left. -/
theorem matches_end (hlast : HashLast (f :: fs)) :
    Matches (f :: fs) ([] : List α) ↔ f = .hash := by
  constructor
  · intro h
    cases h
    rfl
  · rintro rfl
    cases fs with
    | nil => exact .hash []
    | cons g fs => exact absurd List.mem_cons_self hlast

/-- A filter stays valid without its first level. -/
theorem HashLast.tail (h : HashLast (f :: fs)) : HashLast fs := by
  cases fs with
  | nil => exact List.not_mem_nil
  | cons g fs => exact fun hmem => h (List.mem_cons_of_mem f hmem)

end Matching

end Topics
