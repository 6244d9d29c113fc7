import TreeMiner.Lib.Topics
import TreeMiner.Server.Broker

/-!
# Topic matching (`mqtt_topic_matches`)

The loop walks both level lists at once and stops at a `#`, wherever it stands. On valid
filters that is the matching of the specification, but for its rule on topic names that begin
with `$`, which the loop does not have.

Levels are the pieces between slashes, and a level that is `+` or `#` stands for a wildcard.
On a filter that is not valid the loop still gives an answer, of which nothing is said here.
-/

namespace TreeMiner.Broker

open Cxx Server Topics

/-- The level of a filter that is spelled so. -/
def levelOf (p : Str) : Level Str :=
  if p = ['#'] then .hash else if p = ['+'] then .plus else .name p

/-- The levels of a topic filter. -/
def filterLevels (filter : Str) : List (Level Str) := (filter.splitOn '/').map levelOf

/-- A topic filter: `+` only as a whole level, `#` only as the whole last level. -/
structure ValidFilter (filter : Str) : Prop where
  plus : ∀ l ∈ filter.splitOn '/', '+' ∈ l → l = ['+']
  hash : ∀ l ∈ filter.splitOn '/', '#' ∈ l → l = ['#']
  last : ['#'] ∉ (filter.splitOn '/').dropLast

/-- The relation of the specification: the levels match, and a wildcard at the front does not
match a topic name that begins with `$`. -/
def SpecMatches (filter topic : Str) : Prop :=
  Matches (filterLevels filter) (topic.splitOn '/') ∧
    (topic.head? = some '$' → ∃ l, (filterLevels filter).head? = some (.name l))

/-- A topic name without wildcards and without `$` at the front. -/
structure PlainTopic (topic : Str) : Prop where
  plus : '+' ∉ topic
  hash : '#' ∉ topic
  dollar : topic.head? ≠ some '$'

section Matching

variable {p : Str} {ps ts : List Str} {filter topic : Str}

/-- Only the level `#` is the many-level wildcard. -/
theorem levelOf_hash : levelOf p = .hash ↔ p = ['#'] := by
  unfold levelOf
  split
  next h => simp [h]
  next h =>
    split
    · simp [h]
    · simp [h]

/-- A filter with `#` nowhere but at its end has the wildcard there only. -/
theorem hashLast_map (h : ['#'] ∉ ps.dropLast) : HashLast (ps.map levelOf) := by
  unfold HashLast
  rw [← List.map_dropLast]
  intro hmem
  obtain ⟨p, hp, hlevel⟩ := List.mem_map.mp hmem
  rw [levelOf_hash.mp hlevel] at hp
  exact h hp

/-- The loop decides the matching of levels, where `#` is last. -/
theorem matchParts_iff (h : HashLast (ps.map levelOf)) :
    matchParts ps ts = true ↔ Matches (ps.map levelOf) ts := by
  induction ps generalizing ts with
  | nil =>
    unfold matchParts
    rw [List.map_nil, matches_nil, List.isEmpty_iff]
  | cons p ps ih =>
    rw [List.map_cons] at h ⊢
    have ih : matchParts ps ts.tail = true ↔ Matches (ps.map levelOf) ts.tail := ih h.tail
    cases ts with
    | nil =>
      unfold matchParts
      rw [matches_end h, levelOf_hash, decide_eq_true_iff]
    | cons t ts =>
      unfold matchParts
      by_cases hhash : p = ['#']
      · -- the rest of the filter is empty, and `#` takes what is left of the topic
        have hps : ps = [] := by
          cases ps with
          | nil => rfl
          | cons q ps =>
            rw [levelOf_hash.mpr hhash] at h
            exact absurd List.mem_cons_self h
        rw [if_pos hhash, hps, levelOf_hash.mpr hhash]
        exact ⟨fun _ => .hash _, fun _ => rfl⟩
      · rw [if_neg hhash]
        -- a `+` takes the level whatever it is, a name takes itself
        by_cases hplus : p = ['+']
        · have hlevel : levelOf p = .plus := by
            unfold levelOf
            rw [if_neg hhash, if_pos hplus]
          rw [if_pos hplus, hlevel, matches_plus]
          exact ih
        · have hlevel : levelOf p = .name p := by
            unfold levelOf
            rw [if_neg hhash, if_neg hplus]
          rw [if_neg hplus, hlevel, matches_name]
          by_cases heq : p = t
          · rw [if_neg (not_not_intro heq)]
            exact ⟨fun hm => ⟨heq, ih.mp hm⟩, fun hm => ih.mpr hm.2⟩
          · rw [if_pos heq]
            constructor
            · intro hm
              cases hm
            · intro hm
              exact absurd hm.1 heq

/-- On a valid filter the loop decides the matching relation of the levels. -/
theorem mqtt_topic_matches_levels (hf : ValidFilter filter) :
    mqttTopicMatches filter topic = true ↔
      Matches (filterLevels filter) (topic.splitOn '/') :=
  matchParts_iff (hashLast_map hf.last)

end Matching

/-- On a valid filter and a plain topic name, `mqtt_topic_matches` is the relation of the
specification. -/
theorem mqtt_topic_matches_iff (filter topic : Str) (hf : ValidFilter filter)
    (ht : PlainTopic topic) :
    mqttTopicMatches filter topic = true ↔ SpecMatches filter topic := by
  rw [mqtt_topic_matches_levels hf]
  constructor
  · intro h
    exact ⟨h, fun hdollar => absurd hdollar ht.dollar⟩
  · intro h
    exact h.1

/-- `#` matches the parent level, and an empty level is a level. -/
theorem mqtt_topic_matches_iff_parent :
    SpecMatches "workers/+/#".toList "workers/".toList ∧
      ¬ SpecMatches "workers/+/#".toList "workers".toList := by
  have hf : ValidFilter "workers/+/#".toList := by
    constructor
    · decide
    · decide
    · decide
  constructor
  · refine (mqtt_topic_matches_iff _ _ hf ⟨by decide, by decide, by decide⟩).mp ?_
    decide
  · intro h
    exact absurd ((mqtt_topic_matches_iff _ _ hf ⟨by decide, by decide, by decide⟩).mpr h)
      (by decide)

end TreeMiner.Broker
