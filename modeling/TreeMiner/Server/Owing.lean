import Mathlib.Algebra.BigOperators.Group.Multiset.Basic
import TreeMiner.Server.Balance

/-!
# What the coroutines that end leases owe

A lease ends in one of two ways, a stop request or a pass of the watchdog, and
whoever completes it settles it afterwards. Each coroutine owes a settlement for
every lease it has completed (`Owing`). On every path on which the settlements go
through it has paid when it returns, and its books hold what its settlements moved
(`body_paid`).

What a coroutine has done is read off its history, and so is what it owes. Statements
of other calls do not enter: the histories are separate, and a commit of another
coroutine makes what is paid durable but pays nothing itself.
-/

namespace TreeMiner.Server

open Interleave

/-! ## What a coroutine owes -/

/-- The leases a coroutine has completed. -/
def completed : List (Event sig) → Multiset Str
  | [] => 0
  | ⟨.completeLease l, _⟩ :: h => l ::ₘ completed h
  | _ :: h => completed h

/-- The rows it has inserted into `settlements`. -/
def inserted : List (Event sig) → Multiset Settlement
  | [] => 0
  | ⟨.insertSettlement s, ok⟩ :: h => if ok then s ::ₘ inserted h else inserted h
  | _ :: h => inserted h

/-- The leases it has completed are those it has settled and those in `ids`. -/
def Owing (h : List (Event sig)) (ids : Multiset Str) : Prop :=
  completed h = (inserted h).map Settlement.lease_id + ids

/-- It owes `ids`, and its books hold its settlements and nothing else. -/
structure Tidy (h : List (Event sig)) (ids : Multiset Str) : Prop where
  owing : Owing h ids
  booked : (books h).cur = ((inserted h).map Settlement.effect).sum

/-- It has read the lease, with this consumer and worker. -/
def HasRead (h : List (Event sig)) (lease_id consumer_id worker_id : Str) : Prop :=
  ∃ info : LeaseInfo, (⟨.getLease lease_id, some info⟩ : Event sig) ∈ h ∧
    info.consumer_id = consumer_id ∧ info.worker_id = worker_id

/-- Completing a lease or inserting its row. -/
def Op.closes : Op → Bool
  | .completeLease _ | .insertSettlement _ => true
  | _ => false

/-- The statements nothing is asked of. -/
def Op.routine : Op → Bool
  | .rollback | .setBalance _ _ | .completeLease _ | .insertSettlement _ => false
  | _ => true

/-- A routine statement neither completes a lease nor stores a settlement. -/
theorem Op.closes_of_routine {o : Op} (ho : o.routine = true) : o.closes = false := by
  cases o with
  | completeLease | insertSettlement => cases ho
  | _ => rfl

section Owing

variable {h h' : List (Event sig)} {ids : Multiset Str} {o : Op} {a : o.Ans}

/-- Such a statement leaves the completed leases as they were. -/
theorem completed_of_not_closes (ho : o.closes = false) :
    completed (⟨o, a⟩ :: h) = completed h := by
  cases o with
  | completeLease | insertSettlement => cases ho
  | _ => rfl

/-- And the settlements that were stored. -/
theorem inserted_of_not_closes (ho : o.closes = false) :
    inserted (⟨o, a⟩ :: h) = inserted h := by
  cases o with
  | completeLease | insertSettlement => cases ho
  | _ => rfl

/-- A statement that closes nothing leaves the leases that are still to be settled. -/
theorem Owing.cons (hw : Owing h ids) (ho : o.closes = false) : Owing (⟨o, a⟩ :: h) ids := by
  unfold Owing
  rw [completed_of_not_closes ho, inserted_of_not_closes ho]
  exact hw

/-- A lease that is still to be settled has been completed by this coroutine. -/
theorem Owing.mem {l : Str} (hw : Owing h ids) (hl : l ∈ ids) : l ∈ completed h := by
  rw [hw]
  exact Multiset.mem_add.mpr (Or.inr hl)

/-- What was read before has been read. -/
theorem HasRead.of_suffix {l c w : Str} (hr : HasRead h l c w) (hs : h <:+ h') :
    HasRead h' l c w := by
  obtain ⟨info, hm, hc, hw⟩ := hr
  exact ⟨info, hs.mem hm, hc, hw⟩

end Owing

/-! ## Along the calls -/

/-- What the coroutines rely on. -/
def Settles (E : Str → Bool) (h : List (Event sig)) : Event sig → Prop
  | ⟨.begin_immediate, ok⟩ => ok = true
  | ⟨.selectBalance id, r⟩ => r.isSome = true ∧ E id = true
  | ⟨.payout _ id _, ok⟩ => ok = true ∧ E id = true
  | ⟨.insertSettlement _, ok⟩ => ok = true
  | ⟨.getLease l, r⟩ =>
    (∀ info, r = some info → info.lease_id = l) ∧ (l ∈ completed h → r.isSome = true)
  | e => Rely E e

/-- What they see to: a row is inserted for a lease they have read, completed and
not settled yet, nothing is rolled back, and absolute writes go to known accounts. -/
def Due (E : Str → Bool) (h : List (Event sig)) (o : Op) : Prop :=
  (∃ ids, Owing h ids) ∧
  match o with
  | .rollback => False
  | .setBalance id _ => E id = true
  | .insertSettlement s =>
    (∃ ids, Owing h (s.lease_id ::ₘ ids)) ∧ HasRead h s.lease_id s.consumer_id s.worker_id
  | _ => True

section Paths

variable {E : Str → Bool} {h : List (Event sig)} {ids : Multiset Str}

/-- An answer that settles is one that the known accounts allow. -/
theorem Settles.rely {e : Event sig} (he : Settles E h e) : Rely E e := by
  obtain ⟨o, a⟩ := e
  cases o with
  | selectBalance id => exact he.1.trans he.2.symm
  | payout l id amount => exact he.1.trans he.2.symm
  | begin_immediate | getLease | insertSettlement => trivial
  | _ => exact he

/-- And one that the books account for. -/
theorem Settles.posts {e : Event sig} (he : Settles E h e) : Posts E e := by
  have hrely := he.rely
  obtain ⟨o, a⟩ := e
  cases o with
  | insertSettlement => exact he
  | _ => exact hrely

/-- A routine statement is due whatever is owed. -/
theorem due_of_routine {o : Op} (hw : Owing h ids) (ho : o.routine = true) : Due E h o := by
  refine ⟨⟨ids, hw⟩, ?_⟩
  cases o with
  | rollback | setBalance | completeLease | insertSettlement => cases ho
  | _ => trivial

/-- A statement that neither moves money nor completes or settles a lease. -/
theorem Tidy.call {β : Type} {D : List (Event sig) → β → Prop} {o : Op}
    {f : o.Ans → Async β} (ht : Tidy h ids) (ho : o.routine = true) (hp : o.posts = false)
    (hb : o ≠ .begin_immediate)
    (hf : ∀ a, Settles E h ⟨o, a⟩ → Tidy (⟨o, a⟩ :: h) ids →
      Prog.Along (Settles E) (Due E) D (⟨o, a⟩ :: h) (f a)) :
    Prog.Along (Settles E) (Due E) D h ((await o).bind f) := by
  refine Prog.Along.call (due_of_routine ht.owing ho) fun a ha => hf a ha ?_
  have hc := Op.closes_of_routine ho
  refine ⟨ht.owing.cons hc, ?_⟩
  rw [books_of_not_posts hp (by rintro rfl; cases ho) hb, inserted_of_not_closes hc]
  exact ht.booked

/-- A settlement is under way: the lease was read and completed, and its row is
still to be inserted. -/
structure Ready (lease : LeaseInfo) (ids : Multiset Str) (rows : Multiset Settlement)
    (h : List (Event sig)) : Prop where
  owing : Owing h (lease.lease_id ::ₘ ids)
  rows : inserted h = rows
  read : HasRead h lease.lease_id lease.consumer_id lease.worker_id

variable {lease : LeaseInfo} {rows : Multiset Settlement}

/-- A statement of `settle_lease` other than the insert. -/
theorem Ready.call {β : Type} {D : List (Event sig) → β → Prop} {o : Op}
    {f : o.Ans → Async β} (hr : Ready lease ids rows h) (ho : o.routine = true)
    (hf : ∀ a, Settles E h ⟨o, a⟩ → Ready lease ids rows (⟨o, a⟩ :: h) →
      Prog.Along (Settles E) (Due E) D (⟨o, a⟩ :: h) (f a)) :
    Prog.Along (Settles E) (Due E) D h ((await o).bind f) := by
  refine Prog.Along.call (due_of_routine hr.owing ho) fun a ha => hf a ha ?_
  have hc := Op.closes_of_routine ho
  exact ⟨hr.owing.cons hc, (inserted_of_not_closes hc).trans hr.rows,
    hr.read.of_suffix (List.suffix_cons _ _)⟩

/-- The rows of the ledger are written without fail when all the accounts exist, and the settlement
is still ready to be stored. -/
theorem recordAll_ready :
    ∀ (rs : List Transaction), (∀ r ∈ rs, E r.account_id = true) →
      ∀ {h}, Ready lease ids rows h → Prog.Along (Settles E) (Due E)
        (fun h' ok => ok = true ∧ Ready lease ids rows h') h (recordAll rs)
  | [], _, _, hr => ⟨rfl, hr⟩
  | r :: rs, hE, h, hr => by
    refine hr.call rfl fun ok hok hr₁ => ?_
    have hok' : ok = true := hok.trans (hE r List.mem_cons_self)
    subst hok'
    exact recordAll_ready rs (fun r' hr' => hE r' (List.mem_cons_of_mem _ hr')) hr₁

/-- Under the conditions every settlement goes through. -/
theorem postSettlement_ready {total_cost : ℚ} (hE : E lease.consumer_id = true)
    (hr : Ready lease ids rows h) :
    Prog.Along (Settles E) (Due E)
      (fun h' r => ∃ s, r = .settled s ∧ Owing h' ids ∧ inserted h' = s ::ₘ rows) h
      (postSettlement (lease.settlement total_cost)) := by
  refine hr.call rfl fun _ _ hr₁ => ?_
  refine hr₁.call rfl fun paid hpaid hr₂ => ?_
  refine hr₂.call rfl fun taken htaken hr₃ => ?_
  have haudit : ∀ r ∈ (lease.settlement total_cost).audit, E r.account_id = true := by
    intro r hmem
    simp only [Settlement.audit, LeaseInfo.settlement, List.mem_cons, List.not_mem_nil,
      or_false] at hmem
    rcases hmem with rfl | rfl | rfl
    · exact hE
    · exact hpaid.2
    · exact htaken.2
  refine (recordAll_ready _ haudit hr₃).bind fun h₄ ok hD => ?_
  obtain ⟨rfl, hr₄⟩ := hD
  refine hr₄.call rfl fun _ _ hr₅ => ?_
  refine Prog.Along.call ⟨⟨_, hr₅.owing⟩, ⟨_, hr₅.owing⟩, hr₅.read⟩
    fun ok hok => ?_
  have hok' : ok = true := hok
  subst hok'
  -- the row pays for the lease
  have hpaid : Owing (⟨.insertSettlement (lease.settlement total_cost), true⟩ ::
      (⟨.commit, ()⟩ :: h₄)) ids := by
    have hw := hr₅.owing
    unfold Owing at hw ⊢
    simp only [completed, inserted, if_true, Multiset.map_cons] at hw ⊢
    rw [hw, Multiset.cons_add, Multiset.add_cons]
    rfl
  refine Prog.Along.call ⟨⟨_, hpaid⟩, trivial⟩ fun _ _ => ?_
  refine ⟨_, rfl, hpaid.cons rfl, ?_⟩
  show lease.settlement total_cost ::ₘ inserted h₄ = _
  rw [show inserted h₄ = rows from hr₅.rows]

/-- A settlement whose lease is owed stores its row, and nothing more is owed for that lease. -/
theorem settle_ready (hr : Ready lease ids rows h) :
    Prog.Along (Settles E) (Due E)
      (fun h' r => ∃ s, r = .settled s ∧ Owing h' ids ∧ inserted h' = s ::ₘ rows) h
      (settleLease lease) := by
  refine hr.call rfl fun ok hok hr₁ => ?_
  have hok' : ok = true := hok
  subst hok'
  refine hr₁.call rfl fun bal hbal hr₂ => ?_
  obtain ⟨hsome, hE⟩ := hbal
  obtain ⟨balance, rfl⟩ := Option.isSome_iff_exists.mp hsome
  exact postSettlement_ready hE hr₂

/-- `settle_lease` for a lease that was read and completed pays for it. -/
theorem settle_tidy (ht : Tidy h (lease.lease_id ::ₘ ids))
    (hread : HasRead h lease.lease_id lease.consumer_id lease.worker_id) :
    Prog.Along (Settles E) (Due E) (fun h' r => r ≠ .raised ∧ Tidy h' ids ∧ h <:+ h') h
      (settleLease lease) := by
  have hpath := settle_ready (E := E) ⟨ht.owing, rfl, hread⟩
  have hbooks : Prog.Along (Settles E) (fun _ => OfSettlement (0 ≤ lease.cost))
      (fun h' r => (books h').cur = (books h).cur + r.moved) h (settleLease lease) :=
    settle_along.mono (fun _ _ ha => ha.posts) (fun _ _ hC => hC) (fun _ _ hD => hD)
  refine (hpath.and hbooks).suffix.mono (fun _ _ ha => ha) (fun _ _ hC => hC.1) ?_
  rintro h' r ⟨⟨⟨s, rfl, howing, hrows⟩, hcur⟩, hsuf⟩
  refine ⟨by simp, ⟨howing, ?_⟩, hsuf⟩
  rw [hcur, hrows, ht.booked, Multiset.map_cons, Multiset.sum_cons, add_comm]
  rfl

/-- A completed lease is owed a settlement from here on. -/
theorem completeAndFree_tidy (ht : Tidy h ids) :
    Prog.Along (Settles E) (Due E) (fun h' _ => Tidy h' (lease.lease_id ::ₘ ids)) h
      (completeAndFree lease) := by
  refine Prog.Along.call ⟨⟨_, ht.owing⟩, trivial⟩ fun _ _ => ?_
  have ht₁ : Tidy (⟨.completeLease lease.lease_id, ()⟩ :: h) (lease.lease_id ::ₘ ids) := by
    refine ⟨?_, ?_⟩
    · have hw := ht.owing
      unfold Owing at hw ⊢
      simp only [completed, inserted]
      rw [hw, Multiset.add_cons]
    · rw [books_of_not_posts rfl (by simp) (by simp)]
      exact ht.booked
  refine ht₁.call rfl rfl (by simp) fun _ _ ht₂ => ?_
  refine ht₂.call rfl rfl (by simp) fun _ _ ht₃ => ?_
  exact ht₃.call rfl rfl (by simp) fun _ _ ht₄ => ht₄

/-- The row just read is one the task has read. -/
theorem hasRead_self {info : LeaseInfo} {l : Str} (hid : info.lease_id = l) :
    HasRead (⟨.getLease l, some info⟩ :: h) info.lease_id info.consumer_id info.worker_id :=
  ⟨info, by rw [hid]; exact List.mem_cons_self, rfl, rfl⟩

/-- A stop request that goes through leaves one lease to settle. -/
theorem stop_lease_tidy {l : Str} (ht : Tidy h 0) :
    Prog.Along (Settles E) (Due E)
      (fun h' r => (r = none ∧ Tidy h' 0) ∨ ∃ lease, r = some lease ∧
        Tidy h' {lease.lease_id} ∧
        HasRead h' lease.lease_id lease.consumer_id lease.worker_id) h (stopLease l) := by
  refine ht.call rfl rfl (by simp) fun _ _ ht₁ => ?_
  refine ht₁.call rfl rfl (by simp) fun lease hlease ht₂ => ?_
  cases lease with
  | none => exact ht₂.call rfl rfl (by simp) fun _ _ ht₃ => Or.inl ⟨rfl, ht₃⟩
  | some lease =>
    have hid : lease.lease_id = l := hlease.1 lease rfl
    show Prog.Along _ _ _ _ (if lease.state ≠ .active then _ else _)
    split
    · exact ht₂.call rfl rfl (by simp) fun _ _ ht₃ => Or.inl ⟨rfl, ht₃⟩
    · refine (completeAndFree_tidy ht₂).bind fun h₃ _ ht₃ => ?_
      refine ht₃.call rfl rfl (by simp) fun _ _ ht₄ => ?_
      refine ht₄.call (f := .ret) rfl rfl (by simp) fun r hr ht₅ => ?_
      -- the lease was completed, so it is there
      have hmem : l ∈ completed (⟨.release, ()⟩ :: h₃) :=
        ht₄.owing.mem (by rw [hid]; exact Multiset.mem_cons_self _ _)
      obtain ⟨info, rfl⟩ := Option.isSome_iff_exists.mp (hr.2 hmem)
      have hinfo : info.lease_id = l := hr.1 info rfl
      refine Or.inr ⟨info, rfl, ?_, hasRead_self hinfo⟩
      rw [hinfo.trans hid.symm]
      exact ht₅

/-- The endpoint that stops a lease settles it in the same call, so that nothing is owed at its end.
-/
theorem stopEndpoint_tidy {l : Str} (ht : Tidy h 0) :
    Prog.Along (Settles E) (Due E) (fun h' _ => Tidy h' 0) h (stopEndpoint l) := by
  refine ht.call rfl rfl (by simp) fun lease _ ht₁ => ?_
  cases lease with
  | none => exact ht₁
  | some lease =>
    refine (stop_lease_tidy ht₁).bind fun h₂ r hD => ?_
    rcases hD with ⟨rfl, ht₂⟩ | ⟨lease, rfl, ht₂, hread⟩
    · exact ht₂
    · exact (settle_tidy ht₂ hread).mono (fun _ _ ha => ha) (fun _ _ hC => hC)
        fun _ _ hD => hD.2.1

/-- Reading the rows owes nothing more. -/
theorem fetchLeases_tidy :
    ∀ (ls : List Str) {h : List (Event sig)}, Tidy h ids →
      Prog.Along (Settles E) (Due E) (fun h' _ => Tidy h' ids) h (fetchLeases ls)
  | [], _, ht => ht
  | l :: ls, _, ht => by
    refine ht.call rfl rfl (by simp) fun lease _ ht₁ => ?_
    exact (fetchLeases_tidy ls ht₁).bind fun h₂ rest ht₂ => ht₂

/-- The leases a watchdog pass has to settle. -/
def dueIds (leases : List LeaseInfo) : Multiset Str := (leases.map fun l => l.lease_id : List Str)

/-- Every lease the watchdog completes is read back. -/
theorem completeAll_tidy :
    ∀ (leases : List LeaseInfo) {ids : Multiset Str} {h : List (Event sig)}, Tidy h ids →
      Prog.Along (Settles E) (Due E)
        (fun h' rs => ∃ done : List LeaseInfo, rs = done.map some ∧
          Tidy h' (dueIds done + ids) ∧
          ∀ l ∈ done, HasRead h' l.lease_id l.consumer_id l.worker_id) h (completeAll leases)
  | [], ids, h, ht =>
    ⟨[], rfl, by rw [show dueIds [] + ids = ids from zero_add ids]; exact ht, by simp⟩
  | lease :: leases, ids, h, ht => by
    refine (completeAndFree_tidy ht).bind fun h₁ _ ht₁ => ?_
    refine ht₁.call rfl rfl (by simp) fun updated hup ht₂ => ?_
    have hmem : lease.lease_id ∈ completed h₁ := ht₁.owing.mem (Multiset.mem_cons_self _ _)
    obtain ⟨info, rfl⟩ := Option.isSome_iff_exists.mp (hup.2 hmem)
    have hid : info.lease_id = lease.lease_id := hup.1 info rfl
    refine (completeAll_tidy leases ht₂).suffix.bind fun h₃ rest hD => ?_
    obtain ⟨⟨done, rfl, ht₃, hread⟩, hsuf⟩ := hD
    refine ⟨info :: done, rfl, ?_, ?_⟩
    · have hids : dueIds (info :: done) + ids = dueIds done + lease.lease_id ::ₘ ids := by
        simp only [dueIds, List.map_cons, hid]
        rw [← Multiset.cons_coe, Multiset.cons_add, Multiset.add_cons]
      rw [hids]
      exact ht₃
    · intro l hl
      rcases List.mem_cons.mp hl with rfl | hl
      · exact (hasRead_self hid).of_suffix hsuf
      · exact hread l hl

/-- The settlements of a pass pay off, one by one, what its completions have left owed. -/
theorem settleAll_tidy :
    ∀ (done : List LeaseInfo) {h : List (Event sig)}, Tidy h (dueIds done) →
      (∀ l ∈ done, HasRead h l.lease_id l.consumer_id l.worker_id) →
      Prog.Along (Settles E) (Due E) (fun h' _ => Tidy h' 0) h (settleAll (done.map some))
  | [], _, ht, _ => ht
  | lease :: done, h, ht, hread => by
    have ht' : Tidy h (lease.lease_id ::ₘ dueIds done) := ht
    refine (settle_tidy ht' (hread lease List.mem_cons_self)).bind fun h₁ r hD => ?_
    obtain ⟨hr, ht₁, hsuf⟩ := hD
    have hrest := settleAll_tidy done ht₁ fun l hl =>
      (hread l (List.mem_cons_of_mem _ hl)).of_suffix hsuf
    cases r with
    | raised => exact absurd rfl hr
    | none | done | settled => exact hrest

/-- A pass of the watchdog ends with nothing owed. -/
theorem watchdogPass_tidy (ht : Tidy h 0) :
    Prog.Along (Settles E) (Due E) (fun h' _ => Tidy h' 0) h watchdogPass := by
  refine ht.call rfl rfl (by simp) fun ls _ ht₁ => ?_
  refine (fetchLeases_tidy ls ht₁).bind fun h₂ expired ht₂ => ?_
  refine (completeAll_tidy expired ht₂).bind fun h₃ rs hD => ?_
  obtain ⟨done, rfl, ht₃, hread⟩ := hD
  rw [add_zero] at ht₃
  exact settleAll_tidy done ht₃ hread

/-! ### The other calls -/

/-- The statements of a call that has nothing to do with leases' ends. -/
def Op.apart (E : Str → Bool) : Op → Prop
  | .setBalance id _ => E id = true
  | o => o.routine = true

/-- Such a call completes nothing and settles nothing. -/
theorem along_apart {β : Type} :
    ∀ {p : Async β} {h : List (Event sig)}, completed h = 0 → inserted h = 0 →
      Prog.Along (fun _ => Rely E) (fun _ => Op.apart E) (fun _ _ => True) h p →
      Prog.Along (Settles E) (Due E) (fun h' _ => completed h' = 0 ∧ inserted h' = 0) h p
  | .ret _, _, hc, hi, _ => ⟨hc, hi⟩
  | .op o k, h, hc, hi, hp => by
    have hw : Owing h 0 := by rw [Owing, hc, hi]; rfl
    have hcl : o.closes = false := by
      cases o with
      | setBalance => rfl
      | _ => exact Op.closes_of_routine hp.1
    refine ⟨⟨⟨0, hw⟩, ?_⟩, fun a ha => ?_⟩
    · cases o with
      | setBalance => exact hp.1
      | _ => exact (due_of_routine (E := E) hw hp.1).2
    · refine along_apart ((completed_of_not_closes hcl).trans hc)
        ((inserted_of_not_closes hcl).trans hi) (hp.2 a ?_)
      exact ha.rely

/-- A posting to a known account stays apart from leases and settlements. -/
theorem postBalance_apart {id : Str} {b amount : ℚ} {type : TxType} (hE : E id = true) :
    Prog.Along (fun _ => Rely E) (fun _ => Op.apart E) (fun _ _ => True) h
      (postBalance id b type amount) := by
  refine Prog.Along.call hE fun _ _ => ?_
  refine Prog.Along.call rfl fun _ _ => ?_
  refine Prog.Along.call rfl fun ok _ => ?_
  cases ok with
  | false => trivial
  | true => exact Prog.Along.call rfl fun _ _ => trivial

/-- A deposit touches no lease and no settlement. -/
theorem deposit_apart {id : Str} {amount : ℚ} :
    Prog.Along (fun _ => Rely E) (fun _ => Op.apart E) (fun _ _ => True) h
      (deposit id amount) := by
  unfold deposit
  split
  next => trivial
  next =>
    refine Prog.Along.call rfl fun acct hacct => ?_
    cases acct with
    | none => trivial
    | some acct => exact postBalance_apart hacct.symm

/-- A withdrawal touches no lease and no settlement. -/
theorem withdraw_apart {id : Str} {amount : ℚ} :
    Prog.Along (fun _ => Rely E) (fun _ => Op.apart E) (fun _ _ => True) h
      (withdraw id amount) := by
  unfold withdraw
  split
  next => trivial
  next =>
    refine Prog.Along.call rfl fun acct hacct => ?_
    cases acct with
    | none => trivial
    | some acct =>
      show Prog.Along _ _ _ _ (if acct.balance < amount then _ else _)
      split
      · trivial
      · exact postBalance_apart hacct.symm

/-- A transfer touches no lease and no settlement. -/
theorem transfer_apart {from_id to_id ref : Str} {amount : ℚ} :
    Prog.Along (fun _ => Rely E) (fun _ => Op.apart E) (fun _ _ => True) h
      (transfer from_id to_id amount ref) := by
  unfold transfer
  split
  next => trivial
  next =>
    refine Prog.Along.call rfl fun found _ => ?_
    cases found with
    | false => trivial
    | true =>
      refine Prog.Along.call rfl fun _ _ => ?_
      refine Prog.Along.call rfl fun out _ => ?_
      cases out with
      | false => trivial
      | true =>
        refine Prog.Along.call rfl fun into _ => ?_
        cases into with
        | false => trivial
        | true => exact Prog.Along.call rfl fun _ _ => trivial

/-- A single write of a repository touches no settlement and completes no lease. -/
theorem repoWrite_apart {w : RepoWrite} :
    Prog.Along (fun _ => Rely E) (fun _ => Op.apart E) (fun _ _ => True) h (repoWrite w) := by
  cases w with
  | incrementBlocks l =>
    exact Prog.Along.call rfl fun _ _ => Prog.Along.call rfl fun _ _ => trivial
  | updateHashrateStats l hashrate =>
    exact Prog.Along.call rfl fun _ _ => Prog.Along.call rfl fun _ _ => trivial
  | createLease r =>
    refine Prog.Along.call rfl fun ok _ => ?_
    cases ok with
    | false => trivial
    | true => exact Prog.Along.call rfl fun _ _ => trivial
  | setWorkerState id state =>
    exact Prog.Along.call rfl fun _ _ => Prog.Along.call rfl fun _ _ => trivial

/-- What a call that ends no lease has added to the balances. -/
def Call.own : Call → List (Event sig) → Str → ℚ
  | .stop _, _ | .watchdog, _ => 0
  | _, h => (books h).cur

/-- A call that has returned has paid its debts: its books hold its settlements,
and what it did besides. -/
structure Paid (k : Call) (h : List (Event sig)) : Prop where
  owing : Owing h 0
  booked : (books h).cur = k.own h + ((inserted h).map Settlement.effect).sum

/-- Every call that reaches `settle_lease` only through a lease's end pays. -/
theorem body_paid {k : Call} (hk : ∀ lease, k ≠ .settle lease) :
    Prog.Along (Settles E) (Due E) (fun h' _ => Paid k h') [] k.body := by
  have htidy : Tidy [] 0 := ⟨rfl, rfl⟩
  have hends : ∀ {p : Async Outcome},
    Prog.Along (Settles E) (Due E) (fun h' _ => Tidy h' 0) [] p →
      (∀ h, k.own h = 0) → Prog.Along (Settles E) (Due E) (fun h' _ => Paid k h') [] p := by
    intro p hp hown
    refine hp.mono (fun _ _ ha => ha) (fun _ _ hC => hC) fun h' _ ht => ⟨ht.owing, ?_⟩
    rw [hown, zero_add]
    exact ht.booked
  have hapart : ∀ {p : Async Outcome},
      Prog.Along (fun _ => Rely E) (fun _ => Op.apart E) (fun _ _ => True) [] p →
      (∀ h, k.own h = (books h).cur) →
      Prog.Along (Settles E) (Due E) (fun h' _ => Paid k h') [] p := by
    intro p hp hown
    refine (along_apart rfl rfl hp).mono (fun _ _ ha => ha) (fun _ _ hC => hC) ?_
    rintro h' _ ⟨hc, hi⟩
    refine ⟨by rw [Owing, hc, hi]; rfl, ?_⟩
    rw [hown, hi]
    simp
  -- only stop and the watchdog end leases; a bare settlement is excluded by the hypothesis
  cases k with
  | deposit => exact hapart deposit_apart fun _ => rfl
  | withdraw => exact hapart withdraw_apart fun _ => rfl
  | transfer => exact hapart transfer_apart fun _ => rfl
  | repo => exact hapart repoWrite_apart fun _ => rfl
  | stop l => exact hends (stopEndpoint_tidy htidy) fun _ => rfl
  | watchdog => exact hends (watchdogPass_tidy htidy) fun _ => rfl
  | settle lease => exact absurd rfl (hk lease)

end Paths

end TreeMiner.Server
