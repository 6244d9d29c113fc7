import TreeMiner.Server.Atomic

/-!
# When a lease ended (`matcher.py`, `storage/leases.py`)

The runs here are of any calls, started at any time, with restarts of the server in
between (`market`). Nothing in them ends a lease by itself: `ended_at` is written by
whichever coroutine completes the lease, a stop request or a pass of the watchdog, and
what it writes is the clock of its own UPDATE. `LeaseRepo.get` computes the elapsed time
from that column, or from its own clock where the column is still empty.

`Lease.endedAt` is the end that a read sees, and `run_ends` says where it comes from:
an end that stands in the table was there at the start, or is the reading of the clock
in an earlier step of the run that completed the lease (`CompletedAt`). Commits,
ROLLBACKs and restarts only move a row between the two copies of the database, so the
invariant is about both.
-/

namespace TreeMiner.Server

open Interleave

/-! ## The runs -/

/-- A restart: what was not committed is gone, and so is the lock. -/
def World.restarted (w : World) :
    World := ⟨⟨w.conn.committed, w.conn.committed, false⟩, none⟩

/-- `settle_lease`; only the stop endpoint and the watchdog call it. -/
def Call.isSettle : Call → Bool
  | .settle _ => true
  | _ => false

/-- The server with calls that come at any time, and restarts. -/
def market : Machine sig World Nat ℚ Call Outcome where
  exec := exec
  body := Call.body
  may := fun _ k => !k.isSettle
  abort := fun _ _ _ => none
  crash := fun w => some w.restarted

/-- The database at rest and no call yet. -/
def opened (db : Db) : Configuration := ⟨⟨⟨db, db, false⟩, none⟩, fun _ => none⟩

/-- Everything a step of the market can be. -/
theorem market_step {c c' : Configuration} {lab : Label sig Nat Call}
    (hs : market.Step c lab c') :
    (∃ i k, lab = .started i k ∧ k.isSettle = false ∧ Thread.isDone (c.pool i) = true ∧
      c' = ⟨c.world, Function.update c.pool i (some ⟨[], k.body⟩)⟩) ∨
    (∃ i h o k x a, lab = .did i ⟨o, a⟩ ∧ c.pool i = some ⟨h, .op o k⟩ ∧
      exec i o c.world x = some (a, c'.world) ∧
      c'.pool = Function.update c.pool i (some ⟨⟨o, a⟩ :: h, k a⟩)) ∨
    (lab = .restarted ∧ c' = ⟨c.world.restarted, fun _ => none⟩) := by
  rcases Machine.step_cases hs with ⟨i, k, hl, hm, hd, hc⟩ |
      ⟨i, h, o, k, x, a, s, hl, hp, he, rfl⟩ |
    ⟨i, h, o, k, s, -, -, ha, -⟩ | ⟨s, hl, hcr, rfl⟩
  · have hk : (!k.isSettle) = true := hm
    exact Or.inl ⟨i, k, hl, by simpa using hk, hd, hc⟩
  · exact Or.inr (Or.inl ⟨i, h, o, k, x, a, hl, hp, he, rfl⟩)
  · cases ha
  · cases hcr
    exact Or.inr (Or.inr ⟨hl, rfl⟩)

/-! ## The end of a lease -/

/-- The end that a read at time `now` sees: the column `ended_at`, or the clock of the read
where the column is empty or 0. -/
def Lease.endedAt (r : Lease) (now : ℚ) : ℚ :=
  match r.ended_at with
  | some e => if e = 0 then now else e
  | none => now

/-- The time a settlement charges for runs from the creation of the lease to its end, or to now
while it has none. -/
theorem elapsed_info {r : Lease} {now : ℚ} :
    (r.info now).elapsed_sec = r.endedAt now - r.created_at := rfl

/-- The row of the lease has the end `e`. -/
def Ends (db : Db) (lease_id : Str) (e : ℚ) : Prop :=
  ∃ r, db.leases.get lease_id = some r ∧ r.ended_at = some e

/-- Some coroutine completed the lease in a step of the trace, when the clock showed `e`. -/
def CompletedAt (tr : Trace) (c : Configuration) (lease_id : Str) (e : ℚ) : Prop :=
  ∃ c₁ c₂ j, (c₁, c₂) ∈ transitions tr c ∧
    market.step c₁ (.act j e) = some (.did j ⟨.completeLease lease_id, ()⟩, c₂)

/-- The row has the end `e` in the copy that the coroutines see, or in the committed one. -/
def World.Ends (w : World) (lease_id : Str) (e : ℚ) : Prop :=
  Server.Ends w.conn.working lease_id e ∨ Server.Ends w.conn.committed lease_id e

section Statements

variable {i : Nat} {o : Op} {w w' : World} {x e : ℚ} {a : o.Ans} {l : Str}

/-- Only completing the lease writes an end, and it writes its own clock. -/
theorem exec_ends (he : exec i o w x = some (a, w')) (ho : o ≠ .rollback)
    (hends : Ends w'.conn.working l e) :
    Ends w.conn.working l e ∨ (o = .completeLease l ∧ e = x) := by
  obtain ⟨r', hg', hend⟩ := hends
  rcases exec_leases he ho with ⟨id, rfl, hl⟩ | ⟨id, f, hf, -, -, hkeep, hl⟩ |
      ⟨row, rfl, hl⟩ |
    ⟨hl, -⟩
  · unfold Db.updateLease at hl
    rw [hl, Table.get_modify] at hg'
    obtain ⟨r, hg, rfl⟩ := Option.map_eq_some_iff.mp hg'
    split at hend
    next hid =>
      have hx : x = e := Option.some.inj hend
      rw [(Table.mem_of_get hg).2] at hid
      exact Or.inr ⟨congrArg _ hid.symm, hx.symm⟩
    next => exact Or.inl ⟨r, hg, hend⟩
  · unfold Db.updateLease at hl
    rw [hl, Table.get_modify] at hg'
    obtain ⟨r, hg, rfl⟩ := Option.map_eq_some_iff.mp hg'
    refine Or.inl ⟨r, hg, ?_⟩
    split at hend
    · rw [← hkeep r]
      exact hend
    · exact hend
  · rw [Table.get_insert? hl] at hg'
    split at hg'
    · -- a new row has no end
      cases hg'
      cases hend
    · exact Or.inl ⟨r', hg', hend⟩
  · rw [hl] at hg'
    exact Or.inl ⟨r', hg', hend⟩

/-- The same for both copies of the database, whatever the statement is. -/
theorem exec_world_ends (he : exec i o w x = some (a, w')) (hends : w'.Ends l e) :
    w.Ends l e ∨ (o = .completeLease l ∧ e = x) := by
  by_cases hrb : o = .rollback
  · subst hrb
    simp only [exec, World.rollback, Option.some.injEq] at he
    split at he
    · rw [← (Prod.mk.inj he).2] at hends
      exact Or.inl (Or.inr (hends.elim id id))
    · rw [← (Prod.mk.inj he).2] at hends
      exact Or.inl hends
  rcases hends with hends | hends
  · exact (exec_ends he hrb hends).imp_left Or.inl
  · by_cases hcm : o = .commit
    · subst hcm
      simp only [exec, World.commit, Option.some.injEq, Prod.mk.injEq, true_and] at he
      split at he
      · rw [← he] at hends
        exact Or.inl (Or.inl hends)
      · rw [← he] at hends
        exact Or.inl (Or.inr hends)
    · rw [(exec_working he hrb hcm).1] at hends
      exact Or.inl (Or.inr hends)

end Statements

/-! ## Where an end comes from -/

section Runs

variable {db : Db} {tr : Trace} {c c' : Configuration} {lab : Label sig Nat Call} {l : Str}
  {e : ℚ}

/-- A lease that was completed at some step stays completed at that step as the run goes on. -/
theorem CompletedAt.snoc (hc : CompletedAt tr c l e) : CompletedAt (tr ++ [(c, lab)]) c' l e := by
  obtain ⟨c₁, c₂, j, hmem, hstep⟩ := hc
  refine ⟨c₁, c₂, j, ?_, hstep⟩
  rw [transitions_snoc]
  exact List.mem_append_left _ hmem

/-- An end that a step puts into the table is the clock of that step. -/
theorem step_ends (hs : market.Step c lab c') (hends : c'.world.Ends l e) :
    c.world.Ends l e ∨ CompletedAt (tr ++ [(c, lab)]) c' l e := by
  rcases market_step hs with ⟨i, k, -, -, -, rfl⟩ | ⟨i, h, o, k, x, a, rfl, hp, he, hp'⟩ |
      ⟨-, rfl⟩
  · exact Or.inl hends
  · rcases exec_world_ends he hends with hold | ⟨rfl, rfl⟩
    · exact Or.inl hold
    · refine Or.inr ⟨c, c', i, ?_, ?_⟩
      · rw [transitions_snoc]
        exact List.mem_append_right _ (List.mem_singleton.mpr rfl)
      · have hc' : c' = ⟨c'.world,
          Function.update c.pool i (some ⟨⟨.completeLease l, a⟩ :: h, k a⟩)⟩ := by
          rw [← hp']
        have hmarket : market.exec i (.completeLease l) c.world e = some (a, c'.world) := he
        rw [hc']
        simp only [Machine.step, hp, hmarket]
  · exact Or.inl (Or.inr (hends.elim id id))

/-- In every run: an end in the table was there at the start, or a step of the run
completed the lease at that time. -/
theorem run_ends (hr : Run market (opened db) tr c) (hends : c.world.Ends l e) :
    Ends db l e ∨ CompletedAt tr c l e := by
  refine hr.invariant
    (I := fun tr c => ∀ l e, c.world.Ends l e → Ends db l e ∨ CompletedAt tr c l e)
    (G := fun _ _ => True) (fun tr₁ c₁ lab c₂ _ hI _ hs l e hends => ?_)
    (fun l e hends => Or.inl (hends.elim id id)) (fun _ _ _ _ => trivial) l e hends
  rcases step_ends hs hends with hold | hnew
  · exact (hI l e hold).imp_right CompletedAt.snoc
  · exact Or.inr hnew

end Runs

end TreeMiner.Server
