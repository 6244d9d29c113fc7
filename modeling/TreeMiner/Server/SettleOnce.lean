import Mathlib.Algebra.BigOperators.Pi
import Mathlib.Algebra.Order.BigOperators.Group.Finset
import Mathlib.Algebra.Order.Group.Multiset
import TreeMiner.Server.Owing

/-!
# When an ended lease is settled exactly once

No lease is completed twice and every coroutine pays for what it completes
(`Owing.lean`). So none is settled twice, the UNIQUE constraint on `settlements`
never fires, and at the end none is missing.

What can go wrong is excluded by `Orderly`: completing a lease that another
coroutine has completed, a BEGIN inside somebody else's transaction (the
settlement is then given up, after a ROLLBACK of whatever is open, and never
retried), a missing account, an absolute write over a charge.
-/

namespace TreeMiner.Server

open Interleave

/-! ## Leases and settlements of the database -/

/-- The lease is there and completed. -/
def IsCompleted (db : Db) (lease_id : Str) : Prop :=
  ∃ r, db.leases.get lease_id = some r ∧ r.state = .completed

section Statements

variable {i : Nat} {o : Op} {w w' : World} {x : ℚ} {a : o.Ans} {l : Str} {r : Lease}

/-- An update of one lease leaves every other row as it was. -/
theorem get_updateLease {db : Db} {id : Str} {f : Lease → Lease}
    {hf : ∀ r, (f r).lease_id = r.lease_id} (hg : db.leases.get l = some r) :
    (db.updateLease id f hf).leases.get l = some (if l = id then f r else r) := by
  unfold Db.updateLease
  rw [Table.get_modify, hg, Option.map_some, (Table.mem_of_get hg).2]

/-- A row that is inserted enters the table as it was opened. -/
theorem leases_insertLease {db db' : Db} {row : Lease} (h : db.insertLease row = some db') :
    db.leases.insert? row.opened = some db'.leases := by
  unfold Db.insertLease at h
  split at h
  · obtain ⟨t, ht, rfl⟩ := Option.map_eq_some_iff.mp h
    exact ht
  · cases h

/-- The statements that keep a lease's statistics. -/
def Op.counts : Op → Bool
  | .incrementBlocks _ | .updateHashrate _ _ => true
  | _ => false

/-- What the statements do to the leases. -/
theorem exec_leases (he : exec i o w x = some (a, w')) (ho : o ≠ .rollback) :
    (∃ id, o = .completeLease id ∧ w'.conn.working.leases = (w.conn.working.updateLease id
      (fun r => { r with state := .completed, ended_at := some x }) fun _ => rfl).leases) ∨
    (∃ id f hf, o.counts = true ∧ (∀ r : Lease, (f r).consumer_id = r.consumer_id ∧
        (f r).worker_id = r.worker_id ∧ (f r).state = r.state) ∧
      (∀ r : Lease, (f r).ended_at = r.ended_at) ∧
      w'.conn.working.leases = (w.conn.working.updateLease id f hf).leases) ∨
    (∃ row, o = .insertLease row ∧
      w.conn.working.leases.insert? row.opened = some w'.conn.working.leases) ∨
    (w'.conn.working.leases = w.conn.working.leases ∧ ∀ id, o ≠ .completeLease id) := by
  -- the table of leases is written by four statements
  cases o with
  | completeLease id =>
    cases he
    exact Or.inl ⟨id, rfl, rfl⟩
  | incrementBlocks id | updateHashrate id hashrate =>
    cases he
    refine Or.inr (Or.inl ⟨id, _, ?_, rfl, ?_, ?_, rfl⟩)
    · exact fun _ => rfl
    · exact fun _ => ⟨rfl, rfl, rfl⟩
    · exact fun _ => rfl
  | insertLease row =>
    cases he
    simp only [World.dml]
    cases hdb : w.conn.working.insertLease row with
    | none => exact Or.inr (Or.inr (Or.inr ⟨rfl, by simp⟩))
    | some db' => exact Or.inr (Or.inr (Or.inl ⟨row, rfl, leases_insertLease hdb⟩))
  | rollback => exact absurd rfl ho
  | insertTransaction row =>
    cases he
    refine Or.inr (Or.inr (Or.inr ⟨?_, by simp⟩))
    simp only [World.dml, Db.insertTransaction]
    split <;> rfl
  | insertSettlement row =>
    cases he
    refine Or.inr (Or.inr (Or.inr ⟨?_, by simp⟩))
    simp only [World.dml, Db.insertSettlement]
    split
    · cases w.conn.working.settlements.insert? row <;> rfl
    · rfl
  | begin_immediate =>
    simp only [exec] at he
    split at he <;> cases he <;> exact Or.inr (Or.inr (Or.inr ⟨rfl, by simp⟩))
  | commit =>
    cases he
    refine Or.inr (Or.inr (Or.inr ⟨?_, by simp⟩))
    unfold World.commit
    split <;> rfl
  | debit =>
    simp only [exec] at he
    split at he <;> cases he <;> exact Or.inr (Or.inr (Or.inr ⟨rfl, by simp⟩))
  | acquire =>
    simp only [exec] at he
    split at he <;> cases he
    exact Or.inr (Or.inr (Or.inr ⟨rfl, by simp⟩))
  | getAccount | selectBalance | getLease | selectExpired | release | setBalance | credit | charge |
      payout | setWorkerState =>
    cases he
    exact Or.inr (Or.inr (Or.inr ⟨rfl, by simp⟩))

/-- A lease stays, with its consumer and worker; only completing it changes its
state. -/
theorem exec_lease_kept (he : exec i o w x = some (a, w')) (ho : o ≠ .rollback)
    (hg : w.conn.working.leases.get l = some r) :
    ∃ r', w'.conn.working.leases.get l = some r' ∧ r'.consumer_id = r.consumer_id ∧
      r'.worker_id = r.worker_id ∧
      r'.state = if o = .completeLease l then .completed else r.state := by
  -- an operation completes a lease, updates fields of it, inserts a new one, or leaves the table
  -- alone
  rcases exec_leases he ho with ⟨id, rfl, hl⟩ | ⟨id, f, hf, hop, hkeep, -, hl⟩ |
    ⟨row, rfl, hl⟩ | ⟨hl, hne⟩
  · rw [hl, get_updateLease hg]
    refine ⟨_, rfl, ?_⟩
    by_cases hid : l = id
    · subst hid
      simp
    · rw [if_neg hid, if_neg (by simpa using fun h => hid h.symm)]
      exact ⟨rfl, rfl, rfl⟩
  · have hne : o ≠ .completeLease l := by
      rintro rfl
      cases hop
    rw [hl, get_updateLease hg, if_neg hne]
    refine ⟨_, rfl, ?_⟩
    split
    · exact hkeep r
    · exact ⟨rfl, rfl, rfl⟩
  · refine ⟨r, ?_, rfl, rfl, rfl⟩
    rw [Table.get_insert? hl, if_neg, hg]
    rintro rfl
    have hnone := Table.insert?_isSome.mp (by rw [hl]; rfl)
    rw [hnone] at hg
    cases hg
  · rw [hl, if_neg (hne l)]
    exact ⟨r, hg, rfl, rfl, rfl⟩

/-- A lease that was not there before is active. -/
theorem exec_lease_new (he : exec i o w x = some (a, w')) (ho : o ≠ .rollback)
    (hg : w.conn.working.leases.get l = none) (hg' : w'.conn.working.leases.get l = some r) :
    r.state = .active := by
  have hupd : ∀ id f hf, (w.conn.working.updateLease id f hf).leases.get l = none := by
    intro id f hf
    unfold Db.updateLease
    rw [Table.get_modify, hg, Option.map_none]
  rcases exec_leases he ho with ⟨id, rfl, hl⟩ | ⟨id, f, hf, -, -, -, hl⟩ |
    ⟨row, rfl, hl⟩ | ⟨hl, -⟩
  · rw [hl, hupd] at hg'
    cases hg'
  · rw [hl, hupd] at hg'
    cases hg'
  · rw [Table.get_insert? hl] at hg'
    split at hg'
    · cases hg'
      rfl
    · rw [hg] at hg'
      cases hg'
  · rw [hl, hg] at hg'
    cases hg'

/-- A lease is completed by its own `completeLease` and by no other statement. -/
theorem exec_isCompleted (he : exec i o w x = some (a, w')) (ho : o ≠ .rollback) :
    IsCompleted w'.conn.working l ↔ IsCompleted w.conn.working l ∨
      (o = .completeLease l ∧ ∃ r, w.conn.working.leases.get l = some r) := by
  constructor
  · rintro ⟨r', hg', hst⟩
    cases hg : w.conn.working.leases.get l with
    | none => rw [exec_lease_new he ho hg hg'] at hst; cases hst
    | some r =>
      obtain ⟨r₁, hg₁, -, -, hst₁⟩ := exec_lease_kept he ho hg
      rw [hg'] at hg₁
      cases hg₁
      by_cases hc : o = .completeLease l
      · exact Or.inr ⟨hc, r, rfl⟩
      · rw [if_neg hc] at hst₁
        exact Or.inl ⟨r, hg, hst₁ ▸ hst⟩
  · rintro (⟨r, hg, hst⟩ | ⟨hc, r, hg⟩)
    · obtain ⟨r₁, hg₁, -, -, hst₁⟩ := exec_lease_kept he ho hg
      refine ⟨r₁, hg₁, ?_⟩
      rw [hst₁]
      split
      · rfl
      · exact hst
    · obtain ⟨r₁, hg₁, -, -, hst₁⟩ := exec_lease_kept he ho hg
      exact ⟨r₁, hg₁, by rw [hst₁, if_pos hc]⟩

/-- Only an INSERT that succeeds changes the settlements. -/
theorem exec_settlements (he : exec i o w x = some (a, w')) (ho : o ≠ .rollback)
    (h : List (Event sig)) :
    ∃ rows : List Settlement, w'.conn.working.settlements.rows =
      w.conn.working.settlements.rows ++ rows ∧ (∀ s ∈ rows, o = .insertSettlement s) ∧
      inserted (⟨o, a⟩ :: h) = (rows : Multiset Settlement) + inserted h := by
  have hsame : o.closes = false → w'.conn.working.settlements = w.conn.working.settlements →
      ∃ rows : List Settlement, w'.conn.working.settlements.rows =
        w.conn.working.settlements.rows ++ rows ∧ (∀ s ∈ rows, o = .insertSettlement s) ∧
        inserted (⟨o, a⟩ :: h) = (rows : Multiset Settlement) + inserted h := by
    intro hc hs
    refine ⟨[], by rw [hs, List.append_nil], by simp, ?_⟩
    rw [inserted_of_not_closes hc, Multiset.coe_nil, zero_add]
  -- the table of settlements is written by one statement
  cases o with
  | insertSettlement row =>
    cases he
    simp only [World.dml, Db.insertSettlement, inserted]
    split
    · cases hins : w.conn.working.settlements.insert? row with
      | none => exact ⟨[], by simp, by simp, by simp⟩
      | some t =>
        refine ⟨[row], ?_, by simp, by simp⟩
        simpa using Table.rows_insert? hins
    · exact ⟨[], by simp, by simp, by simp⟩
  | completeLease id =>
    cases he
    exact ⟨[], by simp [World.dml, Db.updateLease], by simp, by simp [inserted]⟩
  | rollback => exact absurd rfl ho
  | insertTransaction row =>
    cases he
    refine hsame rfl ?_
    simp only [World.dml, Db.insertTransaction]
    split <;> rfl
  | insertLease row =>
    cases he
    refine hsame rfl ?_
    simp only [World.dml, Db.insertLease]
    split
    · cases w.conn.working.leases.insert? _ <;> rfl
    · rfl
  | begin_immediate =>
    simp only [exec] at he
    split at he <;> cases he <;> exact hsame rfl rfl
  | commit =>
    cases he
    refine hsame rfl ?_
    unfold World.commit
    split <;> rfl
  | debit =>
    simp only [exec] at he
    split at he <;> cases he <;> exact hsame rfl rfl
  | acquire =>
    simp only [exec] at he
    split at he <;> cases he
    exact hsame rfl rfl
  | getAccount | selectBalance | getLease | selectExpired | release | setBalance | credit | charge |
      payout | setWorkerState | incrementBlocks | updateHashrate =>
    cases he
    exact hsame rfl rfl

end Statements

/-! ## The invariant -/

/-- The condition on a statement and the state before it. -/
def Orderly (w : World) (h : List (Event sig)) : Op → Prop
  | .begin_immediate => w.conn.in_transaction = false
  | .selectBalance id => w.conn.working.hasAccount id = true
  | .payout _ id _ => w.conn.working.hasAccount id = true
  | .setBalance id _ => w.conn.working.balance id = readBalance id h
  | .completeLease l => (w.conn.working.leases.get l).map Lease.state = some .active
  | _ => True

/-- Everything that was completed, or inserted, by `n` coroutines. -/
def allCompleted (n : Nat) (c : Configuration) : Multiset Str :=
  ∑ i ∈ Finset.range n, completed (history c i)

def allInserted (n : Nat) (c : Configuration) : Multiset Settlement :=
  ∑ i ∈ Finset.range n, inserted (history c i)

/-- Where a run from `db` stands. -/
structure Settling (db : Db) (calls : List Call) (c : Configuration) : Prop where
  balanced : Balanced db calls.length c
  paths : c.Along (Settles db.hasAccount) (fun _ => Due db.hasAccount)
    (fun i h _ => ∀ k, calls[i]? = some k → Paid k h)
  once : (allCompleted calls.length c).Nodup
  fresh : ∀ l ∈ allCompleted calls.length c, ¬ IsCompleted db l
  ended : ∀ l, IsCompleted c.world.conn.working l ↔
    IsCompleted db l ∨ l ∈ allCompleted calls.length c
  rows : ∃ new, c.world.conn.working.settlements.rows = db.settlements.rows ++ new ∧
    (new : Multiset Settlement) = allInserted calls.length c
  named : ∀ s ∈ allInserted calls.length c, ∃ r, c.world.conn.working.leases.get s.lease_id =
    some r ∧ r.consumer_id = s.consumer_id ∧ r.worker_id = s.worker_id
  read : ∀ i l c' w', HasRead (history c i) l c' w' → ∃ r,
    c.world.conn.working.leases.get l = some r ∧ r.consumer_id = c' ∧ r.worker_id = w'

section Runs

variable {db : Db} {calls : List Call} {c c' : Configuration}

/-- Every coroutine owes something definite. -/
theorem Settling.owing (hc : Settling db calls c) (i : Nat) : ∃ ids, Owing (history c i) ids := by
  cases hp : c.pool i with
  | none =>
    refine ⟨0, ?_⟩
    unfold history
    rw [hp]
    rfl
  | some t =>
    obtain ⟨h, p⟩ := t
    rw [history_of_pool hp]
    have hpath := hc.paths i _ hp
    cases p with
    | op o k => exact hpath.1.1
    | ret r =>
      have hi : i < calls.length := hc.balanced.threads i _ hp
      exact ⟨0, (hpath _ (List.getElem?_eq_getElem hi)).owing⟩

/-- What is settled is completed, and what one coroutine still owes is settled by
nobody else. -/
theorem Settling.owed_not_inserted (hc : Settling db calls c) {i : Nat} (hi : i < calls.length)
    {l : Str} {ids : Multiset Str} (hw : Owing (history c i) (l ::ₘ ids)) :
    l ∈ allCompleted calls.length c ∧
      l ∉ (allInserted calls.length c).map Settlement.lease_id := by
  have hmem : i ∈ Finset.range calls.length := Finset.mem_range.mpr hi
  have hle : (allInserted calls.length c).map Settlement.lease_id + {l} ≤
      allCompleted calls.length c := by
    unfold allInserted allCompleted
    rw [← Finset.add_sum_erase _ _ hmem, ← Finset.add_sum_erase _ _ hmem, Multiset.map_add,
      hw, add_right_comm]
    refine add_le_add ?_ ?_
    · rw [← Multiset.singleton_add]
      exact add_le_add le_rfl (Multiset.le_add_right _ _)
    · rw [← Multiset.coe_mapAddMonoidHom, map_sum]
      refine Finset.sum_le_sum fun j _ => ?_
      obtain ⟨ids', hj⟩ := hc.owing j
      rw [hj]
      exact Multiset.le_add_right _ _
  have hnodup := Multiset.nodup_of_le hle hc.once
  refine ⟨Multiset.mem_of_le hle (Multiset.mem_add.mpr (Or.inr (Multiset.mem_singleton_self l))),
    ?_⟩
  intro hin
  exact Multiset.disjoint_left.mp (Multiset.nodup_add.mp hnodup).2.2 hin
    (Multiset.mem_singleton_self l)

/-- What one of the tasks has completed is among what all of them have. -/
theorem mem_allCompleted {n i : Nat} {l : Str} (hi : i < n) (hl : l ∈ completed (history c i)) :
    l ∈ allCompleted n c :=
  Multiset.mem_sum.mpr ⟨i, Finset.mem_range.mpr hi, hl⟩

/-- The row of a lease that is owed can be inserted. -/
theorem Settling.insertable (hc : Settling db calls c)
    (hdb : ∀ s ∈ db.settlements.rows, IsCompleted db s.lease_id) {i : Nat}
    (hi : i < calls.length) {s : Settlement} {ids : Multiset Str}
    (hw : Owing (history c i) (s.lease_id ::ₘ ids)) :
    (c.world.conn.working.insertSettlement s).isSome = true := by
  obtain ⟨hmem, hnot⟩ := hc.owed_not_inserted hi hw
  obtain ⟨r, hg, -⟩ := (hc.ended s.lease_id).mpr (Or.inr hmem)
  unfold Db.insertSettlement
  rw [hg, if_pos (by rfl), Option.isSome_map, Table.insert?_isSome, Table.get_eq_none]
  obtain ⟨new, hrows, hnew⟩ := hc.rows
  rw [hrows, List.map_append, List.mem_append]
  rintro (hold | hin)
  · obtain ⟨s', hs', hid⟩ := List.mem_map.mp hold
    exact hc.fresh _ hmem (hid ▸ hdb s' hs')
  · rw [← hnew, Multiset.map_coe] at hnot
    exact hnot (Multiset.mem_coe.mpr hin)

/-- Under the condition the answers are those the coroutines rely on. -/
theorem Settling.answers (hc : Settling db calls c)
    (hdb : ∀ s ∈ db.settlements.rows, IsCompleted db s.lease_id) {i : Nat}
    {h : List (Event sig)} {o : Op} {k : o.Ans → Async Outcome} {x : ℚ} {a : o.Ans} {w' : World}
    (hp : c.pool i = some ⟨h, .op o k⟩) (he : exec i o c.world x = some (a, w'))
    (ho : Orderly c.world h o) : Settles db.hasAccount h ⟨o, a⟩ := by
  have hrely := exec_rely hc.balanced.accounts he
  have hi : i < calls.length := hc.balanced.threads i _ hp
  have hhist := history_of_pool hp
  -- only the answers the history reads matter; every other operation answers as the database does
  cases o with
  | begin_immediate =>
    have hno : c.world.conn.in_transaction = false := ho
    simp only [exec, hno] at he
    cases he
    rfl
  | selectBalance id =>
    have hE : db.hasAccount id = true := (hc.balanced.accounts id).symm.trans ho
    exact ⟨hrely.trans hE, hE⟩
  | payout l id amount =>
    have hE : db.hasAccount id = true := (hc.balanced.accounts id).symm.trans ho
    exact ⟨hrely.trans hE, hE⟩
  | insertSettlement s =>
    cases he
    obtain ⟨ids, hw⟩ := (hc.paths i _ hp).1.2.1
    rw [← hhist] at hw
    exact hc.insertable hdb hi hw
  | getLease l =>
    cases he
    refine ⟨fun info hinfo => ?_, fun hl => ?_⟩
    · obtain ⟨r, hg, rfl⟩ := Option.map_eq_some_iff.mp hinfo
      exact (Table.mem_of_get hg).2
    · rw [← hhist] at hl
      obtain ⟨r, hg, -⟩ := (hc.ended l).mpr (Or.inr (mem_allCompleted hi hl))
      rw [hg]
      rfl
  | _ => exact hrely

/-- What a statement completes. -/
def Op.completes : Op → Multiset Str
  | .completeLease l => {l}
  | _ => 0

/-- A statement adds what it completes to what its task has completed. -/
theorem completed_cons {o : Op} {a : o.Ans} {h : List (Event sig)} :
    completed (⟨o, a⟩ :: h) = o.completes + completed h := by
  cases o with
  | completeLease l => rfl
  | _ => exact (zero_add _).symm

/-- A lease that is completed was active, and nobody had completed it. -/
theorem Orderly.completes_new {h : List (Event sig)} {o : Op} {l : Str}
    (ho : Orderly c.world h o) (hl : l ∈ o.completes) :
    o = .completeLease l ∧ (∃ r, c.world.conn.working.leases.get l = some r) ∧
      ¬ IsCompleted c.world.conn.working l := by
  cases o with
  | completeLease l' =>
    rw [Multiset.mem_singleton.mp hl]
    obtain ⟨r, hg, hst⟩ := Option.map_eq_some_iff.mp ho
    refine ⟨rfl, ⟨r, hg⟩, ?_⟩
    rintro ⟨r', hg', hst'⟩
    rw [hg] at hg'
    cases hg'
    rw [hst] at hst'
    cases hst'
  | _ => exact absurd hl (Multiset.notMem_zero l)

/-- An orderly step of the server keeps the settlements one to each completed lease. -/
theorem Settling.step (hc : Settling db calls c)
    (hdb : ∀ s ∈ db.settlements.rows, IsCompleted db s.lease_id) {l : Label sig Nat Call}
    (hs : server.Step c l c')
    (horder : ∀ i e, l = .did i e → Orderly c.world (history c i) e.op) :
    Settling db calls c' := by
  obtain ⟨i, h, o, k, x, a, rfl, hp, he, hp'⟩ := server_step hs
  have ho : Orderly c.world h o := by
    rw [← history_of_pool hp]
    exact horder i _ rfl
  have hi : i < calls.length := hc.balanced.threads i _ hp
  have hdue : Due db.hasAccount h o := (hc.paths i _ hp).1
  have hrb : o ≠ .rollback := by
    rintro rfl
    exact hdue.2
  have hknown : WritesKnown db.hasAccount o := by
    cases o with
    | setBalance => exact hdue.2
    | _ => trivial
  have hund : Undisturbed c.world h o := by
    cases o with
    | setBalance => exact ho
    | rollback => exact absurd rfl hrb
    | _ => trivial
  have hcompleted : allCompleted calls.length c' = o.completes + allCompleted calls.length c :=
    sum_history hi hp hp' completed_cons
  obtain ⟨rows, hrows, hown, hins⟩ := exec_settlements he hrb h
  have hinserted : allInserted calls.length c' =
      (rows : Multiset Settlement) + allInserted calls.length c := sum_history hi hp hp' hins
  -- consumer and worker of a lease never change
  have hkeep : ∀ {l cid wid}, (∃ r, c.world.conn.working.leases.get l = some r ∧
      r.consumer_id = cid ∧ r.worker_id = wid) →
        ∃ r, c'.world.conn.working.leases.get l = some r ∧
      r.consumer_id = cid ∧ r.worker_id = wid := by
    rintro l cid wid ⟨r, hg, hcid, hwid⟩
    obtain ⟨r', hg', hcid', hwid', -⟩ := exec_lease_kept he hrb hg
    exact ⟨r', hg', hcid'.trans hcid, hwid'.trans hwid⟩
  have hfresh : ∀ l ∈ o.completes, l ∉ allCompleted calls.length c ∧
    ¬ IsCompleted db l := by
    intro l hl
    obtain ⟨-, -, hnot⟩ := ho.completes_new hl
    exact ⟨fun hin => hnot ((hc.ended l).mpr (Or.inr hin)),
      fun hin => hnot ((hc.ended l).mpr (Or.inl hin))⟩
  refine ⟨hc.balanced.step hp he hp' hknown hund, ?_, ?_, ?_, ?_, ?_, ?_, ?_⟩
  · refine hc.paths.step hs (fun j h' p e hl hj => ?_) (fun _ _ hm => by cases hm)
    cases hl
    rw [hp] at hj
    cases hj
    exact hc.answers hdb hp he ho
  · rw [hcompleted, Multiset.nodup_add]
    refine ⟨?_, hc.once, Multiset.disjoint_left.mpr fun hl => (hfresh _ hl).1⟩
    cases o with
    | completeLease l => exact Multiset.nodup_singleton l
    | _ => exact Multiset.nodup_zero
  · intro l hl
    rw [hcompleted, Multiset.mem_add] at hl
    rcases hl with hl | hl
    · exact (hfresh l hl).2
    · exact hc.fresh l hl
  · intro l
    rw [exec_isCompleted he hrb, hc.ended l, hcompleted, Multiset.mem_add]
    constructor
    · rintro ((hdb' | hin) | ⟨rfl, -⟩)
      · exact Or.inl hdb'
      · exact Or.inr (Or.inr hin)
      · exact Or.inr (Or.inl (Multiset.mem_singleton_self l))
    · rintro (hdb' | hin | hin)
      · exact Or.inl (Or.inl hdb')
      · obtain ⟨hop, hex, -⟩ := ho.completes_new hin
        exact Or.inr ⟨hop, hex⟩
      · exact Or.inl (Or.inr hin)
  · obtain ⟨new, hold, hnew⟩ := hc.rows
    refine ⟨new ++ rows, by rw [hrows, hold, List.append_assoc], ?_⟩
    rw [hinserted, ← hnew, ← Multiset.coe_add, add_comm]
  · intro s hs'
    rw [hinserted, Multiset.mem_add] at hs'
    rcases hs' with hs' | hs'
    · have hop := hown s (Multiset.mem_coe.mp hs')
      subst hop
      refine hkeep (hc.read i _ _ _ ?_)
      rw [history_of_pool hp]
      exact hdue.2.2
    · exact hkeep (hc.named s hs')
  · rintro j l cid wid ⟨info, hmem, hcid, hwid⟩
    rw [history_update hp'] at hmem
    split at hmem
    · rcases List.mem_cons.mp hmem with heq | hmem
      · cases heq
        -- just read
        simp only [exec, Option.some.injEq, Prod.mk.injEq] at he
        obtain ⟨r, hg, rfl⟩ := Option.map_eq_some_iff.mp he.1
        rw [← he.2]
        exact ⟨r, hg, hcid, hwid⟩
      · refine hkeep (hc.read i l cid wid ⟨info, ?_, hcid, hwid⟩)
        rw [history_of_pool hp]
        exact hmem
    · exact hkeep (hc.read j l cid wid ⟨info, hmem, hcid, hwid⟩)

/-- At the start nothing is completed and nothing is stored. -/
theorem start_settling (hkinds : ∀ k ∈ calls, ∀ lease, k ≠ .settle lease) :
    Settling db calls (start db calls) := by
  -- nothing has run yet, so every count over the histories is empty
  have hnil : ∀ i, history (start db calls) i = [] := by
    intro i
    simp only [history, start]
    cases calls[i]? <;> rfl
  have hcompleted : allCompleted calls.length (start db calls) = 0 := by
    simp only [allCompleted, hnil, completed, Finset.sum_const_zero]
  have hinserted : allInserted calls.length (start db calls) = 0 := by
    simp only [allInserted, hnil, inserted, Finset.sum_const_zero]
  refine ⟨start_balanced, ?_, ?_, ?_, ?_, ?_, ?_, ?_⟩
  · intro i t ht
    obtain ⟨k, hk, rfl⟩ := Option.map_eq_some_iff.mp ht
    refine (body_paid (hkinds k (List.mem_of_getElem? hk))).mono
      (fun _ _ ha => ha) (fun _ _ hC => hC) fun h r hD k' hk' => ?_
    rw [hk] at hk'
    cases hk'
    exact hD
  · rw [hcompleted]
    exact Multiset.nodup_zero
  · intro l hl
    rw [hcompleted] at hl
    exact absurd hl (Multiset.notMem_zero l)
  · intro l
    rw [hcompleted]
    simp only [Multiset.notMem_zero, or_false]
    rfl
  · exact ⟨[], (List.append_nil _).symm, hinserted.symm⟩
  · intro s hs
    rw [hinserted] at hs
    exact absurd hs (Multiset.notMem_zero s)
  · rintro i l cid wid ⟨info, hmem, -⟩
    rw [hnil] at hmem
    cases hmem

/-- What the calls that end no lease have added to the balances. -/
def ownOf (calls : List Call) (c : Configuration) (i : Nat) : Str → ℚ :=
  match calls[i]? with
  | some k => k.own (history c i)
  | none => 0

/-- A finished coroutine has paid. -/
theorem Settling.finished (hc : Settling db calls c) (hf : Finished c) {i : Nat}
    (hi : i < calls.length) : Owing (history c i) 0 ∧ (books (history c i)).cur =
      ownOf calls c i + ((inserted (history c i)).map Settlement.effect).sum := by
  have hdone := hf i
  have hk : calls[i]? = some calls[i] := List.getElem?_eq_getElem hi
  unfold ownOf
  rw [hk]
  cases hp : c.pool i with
  | none =>
    have hnil : history c i = [] := by
      unfold history
      rw [hp]
    rw [hnil]
    refine ⟨rfl, ?_⟩
    cases calls[i] <;> simp [Call.own, books, inserted]
  | some t =>
    rw [hp] at hdone
    obtain ⟨h, p⟩ := t
    rw [history_of_pool hp]
    cases p with
    | ret r =>
      have hpaid := hc.paths i _ hp calls[i] hk
      exact ⟨hpaid.owing, hpaid.booked⟩
    | op o k => cases hdone

/-- When all coroutines have finished, what was completed was settled. -/
theorem Settling.completed_eq (hc : Settling db calls c) (hf : Finished c) :
    allCompleted calls.length c = (allInserted calls.length c).map Settlement.lease_id := by
  unfold allCompleted allInserted
  rw [← Multiset.coe_mapAddMonoidHom, map_sum]
  refine Finset.sum_congr rfl fun i hi => ?_
  have hw := (hc.finished hf (Finset.mem_range.mp hi)).1
  rw [hw, add_zero]
  rfl

/-- When all tasks are finished, each balance is the first one with the calls' own effects and those
of the settlements stored. -/
theorem Settling.balance_eq (hc : Settling db calls c) (hf : Finished c) (b : Str) :
    c.world.conn.working.balance b = db.balance b +
      ∑ i ∈ Finset.range calls.length, ownOf calls c i b +
      ((allInserted calls.length c).map fun s => s.effect b).sum := by
  have hsum : ((allInserted calls.length c).map fun s => s.effect b).sum =
      ∑ i ∈ Finset.range calls.length,
        ((inserted (history c i)).map fun s => s.effect b).sum := by
    unfold allInserted
    rw [← Multiset.coe_mapAddMonoidHom, map_sum, ← Multiset.coe_sumAddMonoidHom, map_sum]
  rw [hc.balanced.ledger b, hsum, add_assoc, ← Finset.sum_add_distrib]
  congr 1
  refine Finset.sum_congr rfl fun i hi => ?_
  rw [(hc.finished hf (Finset.mem_range.mp hi)).2, Pi.add_apply]
  congr 1
  rw [Pi.multiset_sum_apply, Multiset.map_map]
  rfl

/-- In every run of stop requests, watchdog passes and other repository calls
whose steps are all orderly, once all coroutines have finished: the rows added to
`settlements` are of leases completed in the run; every such lease has exactly one
row, with its consumer and worker; and the balances are the initial ones plus what
the other calls did plus what the added rows say. -/
theorem settled_exactly_once (hkinds : ∀ k ∈ calls, ∀ lease, k ≠ .settle lease)
    (hdb : ∀ s ∈ db.settlements.rows, IsCompleted db s.lease_id)
    {tr : Trace} (hr : Run server (start db calls) tr c)
    (horder : ∀ y ∈ tr, ∀ i e, y.2 = .did i e → Orderly y.1.world (history y.1 i) e.op)
    (hf : Finished c) :
    ∃ new, c.world.conn.working.settlements.rows = db.settlements.rows ++ new ∧
      (∀ s ∈ new, IsCompleted c.world.conn.working s.lease_id ∧
        ¬ IsCompleted db s.lease_id) ∧
      (∀ l r, c.world.conn.working.leases.get l = some r → r.state = .completed →
        ¬ IsCompleted db l → ∃ s ∈ new, s.lease_id = l ∧ s.consumer_id = r.consumer_id ∧
          s.worker_id = r.worker_id ∧
          ∀ s' ∈ c.world.conn.working.settlements.rows, s'.lease_id = l → s' = s) ∧
      (∀ b, c.world.conn.working.balance b = db.balance b +
        ∑ i ∈ Finset.range calls.length, ownOf calls c i b +
        (new.map fun s => s.effect b).sum) := by
  have hc : Settling db calls c :=
    hr.invariant (I := fun _ => Settling db calls)
      (fun _ _ _ _ _ hI hG hs => hI.step hdb hs hG) (start_settling hkinds)
      (Each.of_forall horder)
  obtain ⟨new, hrows, hnew⟩ := hc.rows
  have hpaid := hc.completed_eq hf
  rw [← hnew, Multiset.map_coe] at hpaid
  refine ⟨new, hrows, fun s hs => ?_, fun l r hg hst hdb' => ?_, fun b => ?_⟩
  · have hmem : s.lease_id ∈ allCompleted calls.length c := by
      rw [hpaid]
      exact Multiset.mem_coe.mpr (List.mem_map_of_mem hs)
    exact ⟨(hc.ended _).mpr (Or.inr hmem), hc.fresh _ hmem⟩
  · have hmem : l ∈ allCompleted calls.length c :=
      ((hc.ended l).mp ⟨r, hg, hst⟩).resolve_left hdb'
    rw [hpaid] at hmem
    obtain ⟨s, hs, rfl⟩ := List.mem_map.mp (Multiset.mem_coe.mp hmem)
    have hsin : s ∈ allInserted calls.length c := hnew ▸ Multiset.mem_coe.mpr hs
    obtain ⟨r', hg', hcid, hwid⟩ := hc.named s hsin
    rw [hg] at hg'
    cases hg'
    refine ⟨s, hs, rfl, hcid.symm, hwid.symm, fun s' hs' hid => ?_⟩
    have hall : s ∈ c.world.conn.working.settlements.rows := by
      rw [hrows]
      exact List.mem_append_right _ hs
    exact List.inj_on_of_nodup_map c.world.conn.working.settlements.nodup hs' hall hid
  · rw [hc.balance_eq hf b, ← hnew]
    rfl

end Runs

/-- A database with one expired lease. -/
def leaseDb : Db where
  accounts :=
    ⟨[⟨['c'], "consumer".toList, [], 100, []⟩, ⟨['w'], "provider".toList, [], 0, []⟩,
    ⟨PLATFORM_ACCOUNT_ID, "consumer".toList, [], 0, []⟩], by decide⟩
  workers := ⟨[⟨['w'], "LEASED".toList⟩], by decide⟩
  leases := ⟨[⟨['l'], ['w'], ['c'], 10, 1, .active, 80, none, 3, 0, 0⟩], by decide⟩
  settlements := Table.empty
  transactions := []

/-- A database with two expired leases. -/
def twoLeasesDb : Db where
  accounts :=
    ⟨[⟨['c'], "consumer".toList, [], 100, []⟩, ⟨['w'], "provider".toList, [], 0, []⟩,
    ⟨['v'], "provider".toList, [], 0, []⟩,
    ⟨PLATFORM_ACCOUNT_ID, "consumer".toList, [], 0, []⟩], by decide⟩
  workers := ⟨[⟨['w'], "LEASED".toList⟩, ⟨['v'], "LEASED".toList⟩], by decide⟩
  leases := ⟨[⟨['l'], ['w'], ['c'], 10, 1, .active, 80, none, 3, 0, 0⟩,
    ⟨['m'], ['v'], ['c'], 10, 1, .active, 80, none, 3, 0, 0⟩], by decide⟩
  settlements := Table.empty
  transactions := []

/-- One lease is stopped, money is deposited, and the watchdog ends the other lease. -/
def endCalls : List Call := [.stop ['l'], .deposit ['c'] 7, .watchdog]

/-- One statement each of the coroutines, at time 100. -/
def inOrderAt100 (is : List Nat) : List (Choice Nat ℚ Call) := is.map fun i => .act i 100

/-- In turn, once the first lease is completed; the second settlement waits for the first. -/
def endOrder : List Nat :=
  [0, 0, 0, 0, 1, 2, 0, 1, 2, 0, 1, 2, 0, 1, 2, 0, 1, 2, 0, 2, 0, 2] ++ List.replicate 8 0 ++
    [2, 0, 2, 0] ++ List.replicate 9 2

/-- The server can take the steps of the sample order, in which the endpoint and the watchdog
interleave. -/
private theorem endOrder_runs :
    (server.replay (start twoLeasesDb endCalls) (inOrderAt100 endOrder)).isSome = true := by
  decide +kernel

/-- `Orderly` as a test. -/
def orderlyNow (w : World) (h : List (Event sig)) : Op → Bool
  | .begin_immediate => !w.conn.in_transaction
  | .selectBalance id => w.conn.working.hasAccount id
  | .payout _ id _ => w.conn.working.hasAccount id
  | .setBalance id _ => w.conn.working.balance id = readBalance id h
  | .completeLease l => (w.conn.working.leases.get l).map Lease.state = some .active
  | _ => true

/-- The decidable form of the condition, by which a sample run is checked. -/
theorem orderly_of_orderlyNow {w : World} {h : List (Event sig)} {o : Op}
    (hc : orderlyNow w h o = true) : Orderly w h o := by
  cases o with
  | begin_immediate =>
    show w.conn.in_transaction = false
    simpa [orderlyNow] using hc
  | selectBalance | payout => exact hc
  | setBalance id b => exact of_decide_eq_true (p := _ = _) hc
  | completeLease l => exact of_decide_eq_true (p := _ = _) hc
  | _ => trivial

/-- Every step of the trace passes the test. -/
def allOrderlyNow (tr : Trace) : Bool :=
  tr.all fun y => match y.2 with
    | .did i e => orderlyNow y.1.world (history y.1 i) e.op
    | _ => true

/-- The same for every step of a run. -/
theorem orderly_of_allOrderlyNow {tr : Trace} (hc : allOrderlyNow tr = true) :
    ∀ y ∈ tr, ∀ i e, y.2 = .did i e → Orderly y.1.world (history y.1 i) e.op := by
  intro y hy i e hl
  have hy' := List.all_eq_true.mp hc y hy
  rw [hl] at hy'
  exact orderly_of_orderlyNow hy'

/-- An endpoint and a pass of the watchdog that settle one lease each, with their statements
interleaved. -/
theorem settled_exactly_once_sample :
    ∃ tr c, Run server (start twoLeasesDb endCalls) tr c ∧ Finished c ∧
      allOrderlyNow tr = true ∧
      (∃ new, c.world.conn.working.settlements.rows = twoLeasesDb.settlements.rows ++ new ∧
        (∀ b, c.world.conn.working.balance b = twoLeasesDb.balance b +
          ∑ i ∈ Finset.range endCalls.length, ownOf endCalls c i b +
          (new.map fun s => s.effect b).sum)) ∧
      c.world.conn.working.settlements.rows.map Settlement.lease_id = [['l'], ['m']] ∧
      c.world.conn.working.balance ['c'] = 67 ∧ c.world.conn.working.balance ['w'] = 19 ∧
      c.world.conn.working.balance ['v'] = 19 := by
  have hr := Machine.replay_get endOrder_runs
  have horder : allOrderlyNow ((server.replay (start twoLeasesDb endCalls)
      (inOrderAt100 endOrder)).get endOrder_runs).1 = true := by decide +kernel
  have hf : Finished ((server.replay (start twoLeasesDb endCalls)
      (inOrderAt100 endOrder)).get endOrder_runs).2 :=
    finished_of_lt (run_threads hr) (by decide +kernel)
  -- stop, stop and the watchdog: none of the three is a bare settlement
  have hkinds : ∀ k ∈ endCalls, ∀ lease, k ≠ .settle lease := by
    intro k hk lease
    simp only [endCalls, List.mem_cons, List.not_mem_nil, or_false] at hk
    rcases hk with rfl | rfl | rfl <;> simp
  have hdb : ∀ s ∈ twoLeasesDb.settlements.rows, IsCompleted twoLeasesDb s.lease_id := by
    intro s hs
    cases hs
  obtain ⟨new, hrows, -, -, hbal⟩ :=
    settled_exactly_once hkinds hdb hr (orderly_of_allOrderlyNow horder) hf
  exact ⟨_, _, hr, hf, horder, ⟨new, hrows, hbal⟩, by decide +kernel, by decide +kernel,
    by decide +kernel, by decide +kernel⟩

/-- The watchdog has read the expired lease when a stop request ends it. -/
def raceCalls : List Call := [.watchdog, .stop ['l']]

def raceOrder : List Nat := [0, 0] ++ List.replicate 20 1 ++ List.replicate 15 0

/-- The server can take the steps in which both read the lease before either completes it. -/
private theorem raceOrder_runs :
    (server.replay (start leaseDb raceCalls) (inOrderAt100 raceOrder)).isSome = true := by
  decide +kernel

/-- The lease is settled twice: one row for 20, and 40 gone from the consumer. -/
theorem settled_twice :
    ∃ tr c, Run server (start leaseDb raceCalls) tr c ∧ Finished c ∧
      (c.world.conn.working.leases.get ['l']).map Lease.state = some .completed ∧
      c.world.conn.working.settlements.rows.map Settlement.total_cost = [20] ∧
      leaseDb.balance ['c'] = 100 ∧ c.world.conn.working.balance ['c'] = 60 ∧
      c.world.conn.committed.balance ['c'] = 60 := by
  have hr := Machine.replay_get raceOrder_runs
  exact ⟨_, _, hr, finished_of_lt (run_threads hr) (by decide +kernel), by decide +kernel,
    by decide +kernel, by decide, by decide +kernel, by decide +kernel⟩

end TreeMiner.Server
