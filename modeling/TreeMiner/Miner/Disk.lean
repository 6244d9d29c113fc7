import TreeMiner.Miner.Host

/-!
# What a step of the miner does to the disk

The journal keeps its rows, the sink is only opened, written behind its end and archived,
and the flags of the process go up.

Each lemma says what one kind of step leaves as it was: rows stay under any operation of
the journal, the sink is untouched by everything but its three operations, and a restart
keeps both. These are the frame conditions of the invariant in `Durable`.
-/

namespace TreeMiner.Miner

open Cxx Interleave FallbackSink

section Steps

variable {cfg : Config} {libc : Libc} {machineId : Bytes} {c c' : Configuration}
  {l : Label sig Party Call} {o : Op} {w w' : World} {x : Input} {a : o.Ans}

/-- An operation of the submission core changes the core alone. -/
theorem execOp_core {o : TreeMiner.Op} {a : o.Ans} (he : execOp (.core o) w x = some (a, w')) :
    (∀ p, o ≠ .append p) ∧ (∃ x', TreeMiner.exec o w.core x' = some (a, w'.core)) ∧
      w' = { w with core := w'.core } := by
  cases x with
  | core x' =>
    simp only [execOp] at he
    split at he
    · cases he
    next hno =>
      obtain ⟨⟨a', core⟩, hr, heq⟩ := Option.map_eq_some_iff.mp he
      cases heq
      refine ⟨?_, ⟨x', hr⟩, rfl⟩
      rintro p rfl
      exact hno rfl
  | _ => cases he

/-- What the operations do to the journal. -/
theorem execOp_journal (he : execOp o w x = some (a, w')) :
    Journal.Ext w.core.journal w'.core.journal ∧
      ∀ r' ∈ w'.core.journal.rows, (∃ r ∈ w.core.journal.rows, r'.payload = r.payload) ∨
        ∃ p, o = .append p ∧ r'.payload = Journal.stored p := by
  have hsame : w'.core = w.core → Journal.Ext w.core.journal w'.core.journal ∧
      ∀ r' ∈ w'.core.journal.rows, (∃ r ∈ w.core.journal.rows, r'.payload = r.payload) ∨
        ∃ p, o = .append p ∧ r'.payload = Journal.stored p := by
    intro h
    rw [h]
    exact ⟨.refl, fun r' hr => Or.inl ⟨r', hr, rfl⟩⟩
  -- three operations write rows: those of the core, an append, and the recovery
  cases o with
  | core o =>
    obtain ⟨hno, ⟨x', hx⟩, -⟩ := execOp_core he
    have htouch := exec_touches hx
    refine ⟨htouch.ext, fun r' hr => ?_⟩
    rcases htouch.origin hr with ⟨r, hmem, -, hp, -⟩ | ⟨p, ho, -⟩
    · exact Or.inl ⟨r, hmem, hp⟩
    · exact absurd ho (hno p)
  | append p =>
    cases x with
    | works =>
      cases he
      refine ⟨Journal.ext_append, fun r' hr => ?_⟩
      rcases Journal.mem_append.mp hr with hmem | ⟨-, rfl⟩
      · exact Or.inl ⟨r', hmem, rfl⟩
      · exact Or.inr ⟨p, rfl, rfl⟩
    | fails =>
      cases he
      exact hsame rfl
    | _ => cases he
  | recoverOnStartup =>
    cases x with
    | works =>
      cases he
      have hext : Journal.Ext w.core.journal w.core.journal.recoverOnStartup := Journal.ext_update
      refine ⟨hext, fun r' hr => ?_⟩
      have hr' : r' ∈ w.core.journal.recoverOnStartup.rows := hr
      obtain ⟨r, hmem, rfl⟩ := Journal.mem_update.mp hr'
      refine Or.inl ⟨r, hmem, ?_⟩
      split <;> rfl
    | _ => cases he
  | writeSink data =>
    cases x with
    | wrote n =>
      simp only [execOp] at he
      split at he
      · cases he
        exact hsame rfl
      · cases he
    | fails =>
      cases he
      exact hsame rfl
    | _ => cases he
  | archiveSink =>
    cases x with
    | files removed renamed =>
      cases he
      cases renamed <;> exact hsame rfl
    | _ => cases he
  | openSink | syncSink | closeSink | onBlockFound | declareFatalDurabilityFailure | readSink |
      started =>
    cases x <;> first | (cases he; exact hsame rfl) | cases he

/-- What they do to the sink. -/
theorem execOp_sink (he : execOp o w x = some (a, w')) :
    w'.sink = w.sink ∨ (o = .openSink ∧ w'.sink = some (w.sink.getD [])) ∨
    (∃ data n, (⟨o, a⟩ : Event sig) = ⟨.writeSink data, some n⟩ ∧
      w'.sink = some (w.sink.getD [] ++ data.take n)) ∨
    (o = .archiveSink ∧ w'.sink = none) := by
  -- three operations touch the sink
  cases o with
  | core o =>
    obtain ⟨-, -, hw⟩ := execOp_core he
    rw [hw]
    exact Or.inl rfl
  | openSink =>
    cases x with
    | works =>
      cases he
      exact Or.inr (Or.inl ⟨rfl, rfl⟩)
    | fails =>
      cases he
      exact Or.inl rfl
    | _ => cases he
  | writeSink data =>
    cases x with
    | wrote n =>
      simp only [execOp] at he
      split at he
      · cases he
        exact Or.inr (Or.inr (Or.inl ⟨data, n, rfl, rfl⟩))
      · cases he
    | fails =>
      cases he
      exact Or.inl rfl
    | _ => cases he
  | archiveSink =>
    cases x with
    | files removed renamed =>
      cases he
      cases renamed with
      | true => exact Or.inr (Or.inr (Or.inr ⟨rfl, rfl⟩))
      | false => exact Or.inl rfl
    | _ => cases he
  | append | recoverOnStartup | syncSink | closeSink | onBlockFound |
      declareFatalDurabilityFailure | readSink | started =>
    cases x <;> first | (cases he; exact Or.inl rfl) | cases he

/-- A write puts the beginning of the data behind what the sink holds. -/
theorem execOp_write {data : Bytes} {n : Nat}
    (he : execOp (.writeSink data) w x = some (some n, w')) :
    w'.sink = some (w.sink.getD [] ++ data.take n) := by
  cases x with
  | wrote k =>
    simp only [execOp] at he
    split at he
    · cases he
      rfl
    · cases he
  | _ => cases he

/-- What they tell the platform. -/
theorem execOp_reported (he : execOp o w x = some (a, w')) :
    w'.reported = w.reported ∨ ∃ p, o = .onBlockFound p ∧
      w'.reported = w.reported ++ [p] := by
  -- one operation reports
  cases o with
  | core o =>
    obtain ⟨-, -, hw⟩ := execOp_core he
    rw [hw]
    exact Or.inl rfl
  | onBlockFound p =>
    cases x with
    | works =>
      cases he
      exact Or.inr ⟨p, rfl, rfl⟩
    | fails =>
      cases he
      exact Or.inl rfl
    | _ => cases he
  | writeSink data =>
    cases x with
    | wrote n =>
      simp only [execOp] at he
      split at he
      · cases he
        exact Or.inl rfl
      · cases he
    | fails =>
      cases he
      exact Or.inl rfl
    | _ => cases he
  | archiveSink =>
    cases x with
    | files removed renamed =>
      cases he
      cases renamed <;> exact Or.inl rfl
    | _ => cases he
  | append | openSink | recoverOnStartup | syncSink | closeSink |
      declareFatalDurabilityFailure | readSink | started =>
    cases x <;> first | (cases he; exact Or.inl rfl) | cases he

/-- The flags of the process only go up. -/
theorem execOp_flags (he : execOp o w x = some (a, w')) :
    (w.ready = true → w'.ready = true) ∧
      (w.fatal = true ∨ o = .declareFatalDurabilityFailure → w'.fatal = true) := by
  have hsame : o ≠ .declareFatalDurabilityFailure → w'.ready = w.ready →
    w'.fatal = w.fatal →
      (w.ready = true → w'.ready = true) ∧
        (w.fatal = true ∨ o = .declareFatalDurabilityFailure → w'.fatal = true) := by
    intro hne hready hfatal
    rw [hready, hfatal]
    exact ⟨fun h => h, fun h => h.resolve_right hne⟩
  -- the flags go up with the two operations named after them
  cases o with
  | core o =>
    obtain ⟨-, -, hw⟩ := execOp_core he
    rw [hw]
    exact ⟨fun h => h, fun h => h.resolve_right (by simp)⟩
  | writeSink data =>
    cases x with
    | wrote n =>
      simp only [execOp] at he
      split at he
      · cases he
        exact hsame (by simp) rfl rfl
      · cases he
    | fails =>
      cases he
      exact hsame (by simp) rfl rfl
    | _ => cases he
  | archiveSink =>
    cases x with
    | files removed renamed =>
      cases he
      cases renamed <;> exact hsame (by simp) rfl rfl
    | _ => cases he
  | declareFatalDurabilityFailure =>
    cases x with
    | works =>
      cases he
      exact ⟨fun h => h, fun _ => rfl⟩
    | _ => cases he
  | started =>
    cases x with
    | works =>
      cases he
      exact ⟨fun _ => rfl, fun h => h.resolve_right (by simp)⟩
    | _ => cases he
  | append | openSink | recoverOnStartup | syncSink | closeSink | onBlockFound | readSink =>
    cases x <;> first | (cases he; exact hsame (by simp) rfl rfl) | cases he

/-- What they answer about the sink. -/
theorem execOp_readSink {content : Bytes}
    (he : execOp .readSink w x = some (.bytes content, w')) : w.sink = some content := by
  cases x with
  | works =>
    cases hw : w.sink with
    | none =>
      simp [execOp, hw] at he
    | some content' =>
      simp only [execOp, hw, Option.some.injEq, Prod.mk.injEq, SinkFile.bytes.injEq] at he
      rw [he.1]
  | fails =>
    simp only [execOp, Option.some.injEq, Prod.mk.injEq] at he
    split at he
    · cases he.1
    · cases he.1
  | _ => cases he

/-- What a journaled append leaves. -/
theorem execOp_append {p : FoundPayload} {id : Int}
    (he : execOp (.append p) w x = some (some id, w')) :
    ∃ r ∈ w'.core.journal.rows, r.payload.key = p.key := by
  cases x with
  | works =>
    cases he
    obtain ⟨r, hr, -, hkey, -⟩ := Journal.append_row (j := w.core.journal) (p := p)
    exact ⟨r, hr, hkey⟩
  | _ => cases he

/-- A step is an operation of a thread that may run, or leaves the disk alone. -/
theorem step_disk (hs : (miner cfg libc machineId).Step c l c') :
    (∃ i e x, l = .did i e ∧ execOp e.op c.world x = some (e.ans, c'.world) ∧
      (i = .main ↔ c.world.ready = false)) ∨
    ((∀ i e, l ≠ .did i e) ∧ c'.world.core.journal = c.world.core.journal ∧
      c'.world.sink = c.world.sink ∧ c'.world.reported = c.world.reported ∧
      (l = .restarted ∨
        (c'.world.ready = c.world.ready ∧ c'.world.fatal = c.world.fatal))) := by
  rcases Machine.step_cases hs with ⟨i, k, rfl, -, -, rfl⟩ |
      ⟨i, h, o, k, x, a, s, rfl, -, he, rfl⟩ |
    ⟨i, h, o, k, s, rfl, -, ha, rfl⟩ | ⟨s, rfl, hc, rfl⟩
  · exact Or.inr ⟨by simp, rfl, rfl, rfl, Or.inr ⟨rfl, rfl⟩⟩
  · refine Or.inl ⟨i, ⟨o, a⟩, x, rfl, ?_⟩
    simp only [miner, exec] at he
    split at he
    · cases he
    next hgate =>
      refine ⟨he, ?_⟩
      cases hready : c.world.ready with
      | false => simpa [hready] using hgate
      | true => simpa [hready] using hgate
  · refine Or.inr ⟨by simp, ?_⟩
    simp only [miner] at ha
    cases o with
    | core o =>
      simp only [abort] at ha
      split at ha
      · cases ha
        dsimp only
        split <;> exact ⟨rfl, rfl, rfl, Or.inr ⟨rfl, rfl⟩⟩
      · cases ha
    | onBlockFound p =>
      cases ha
      exact ⟨rfl, rfl, rfl, Or.inr ⟨rfl, rfl⟩⟩
    | _ => cases ha
  · cases hc
    exact Or.inr ⟨by simp, rfl, rfl, rfl, Or.inl rfl⟩

end Steps

end TreeMiner.Miner
