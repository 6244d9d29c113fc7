import Mathlib.Tactic.Linarith
import Mathlib.Tactic.Positivity
import TreeMiner.Server.Ledger

/-!
# When no balance update is lost

`deposit` and `withdraw` read a balance, give way, and write an absolute value;
`transfer` and `settle_lease` use relative UPDATEs. What a call leaves in its
books when it returns is its effect (`body_along`), so with `Balanced` the
balances of a finished run are the initial ones plus the effects of the calls
that succeeded, in every run whose steps are `Clear`: an absolute write finds
the balance that was read, a ROLLBACK discards only the coroutine's own work, a
charge is still covered, and what is credited or recorded can be. In such a run
no balance is ever negative either (`Solvent.step`).

Without that the law fails: two deposits that both read before either writes
leave one of the two amounts.
-/

namespace TreeMiner.Server

open Interleave

/-! ## Effects -/

/-- What a settlement moves. -/
def Settlement.effect (s : Settlement) : Str → ℚ :=
  Pi.single s.consumer_id (-s.total_cost) + Pi.single s.worker_id s.provider_payout +
    Pi.single PLATFORM_ACCOUNT_ID s.platform_fee

/-- What `settle_lease` moved, by its outcome. -/
def Outcome.moved : Outcome → Str → ℚ
  | .settled s => s.effect
  | _ => 0

/-- What a call that ended this way should have added to the balances: nothing
unless it succeeded. -/
def Call.effect : Call → Outcome → Str → ℚ
  | .deposit id amount, .done => Pi.single id amount
  | .withdraw id amount, .done => Pi.single id (-amount)
  | .transfer from_id to_id amount _, .done =>
    Pi.single from_id (-amount) + Pi.single to_id amount
  | .settle _, r => r.moved
  | _, _ => 0

/-- The calls that move balances and nothing else. -/
def Call.isBalanceCall : Call → Bool
  | .deposit _ _ | .withdraw _ _ | .transfer _ _ _ _ | .settle _ => true
  | _ => false

/-- The effect of coroutine `i`, if it has returned. -/
def effectOf (calls : List Call) (c : Configuration) (i : Nat) : Str → ℚ :=
  match calls[i]?, outcome c i with
  | some k, some r => k.effect r
  | _, _ => 0

/-! ## Along the calls -/

section Paths

variable {E : Str → Bool} {h : List (Event sig)}

/-- What a settlement relies on: the accounts are known and its row can be
inserted. -/
def Posts (E : Str → Bool) : Event sig → Prop
  | ⟨.insertSettlement _, ok⟩ => ok = true
  | e => Rely E e

/-- What the calls rely on: also that there is an account to credit. -/
def Answers (E : Str → Bool) : Event sig → Prop
  | ⟨.insertSettlement _, ok⟩ => ok = true
  | ⟨.credit id _, ok⟩ => ok = true ∧ E id = true
  | e => Rely E e

/-- No UPDATE is asked for that makes a balance negative by itself, and no
absolute write to an unknown account. -/
def Fair (E : Str → Bool) (h : List (Event sig)) : Op → Prop
  | .setBalance id b => E id = true ∧ (0 ≤ readBalance id h → 0 ≤ b)
  | .credit _ amount => 0 ≤ amount
  | .payout _ _ amount => 0 ≤ amount
  | _ => True

/-- The statements of a settlement whose cost is not negative if `P`. -/
def OfSettlement (P : Prop) : Op → Prop
  | .setBalance _ _ | .credit _ _ => False
  | .payout _ _ amount => P → 0 ≤ amount
  | _ => True

/-- Where the settlement has not gone negative its statements are fair, as a charge that the balance
read beforehand covers. -/
theorem OfSettlement.fair {P : Prop} {o : Op} (ho : OfSettlement P o) (hP : P) : Fair E h o := by
  cases o with
  | setBalance | credit => exact ho.elim
  | payout => exact ho hP
  | _ => trivial

/-- An answer that the database can give is one that the ledger of the task accounts for. -/
theorem Answers.posts {e : Event sig} (he : Answers E e) : Posts E e := by
  obtain ⟨o, a⟩ := e
  cases o with
  | credit id amount => exact he.1.trans he.2.symm
  | _ => exact he

/-- Statements that move no balance leave the books alone. -/
theorem books_of_not_posts {o : Op} {a : o.Ans} (hp : o.posts = false) (ho : o ≠ .rollback)
    (hb : o ≠ .begin_immediate) : books (⟨o, a⟩ :: h) = books h := by
  have hc : change h ⟨o, a⟩ = 0 := change_of_not_posts hp
  cases o with
  | begin_immediate => exact absurd rfl hb
  | rollback => exact absurd rfl ho
  | setBalance | debit | credit | charge | payout => cases hp
  | _ => simp only [books, hc, add_zero]

/-- A posting writes the new balance and its row; its effect is the difference to the balance that
was read. -/
theorem postBalance_along {id : Str} {b amount : ℚ} {type : TxType} {k : Call}
    (hE : E id = true) (hb : 0 ≤ readBalance id h → 0 ≤ b)
    (hcur : (books h).cur + Pi.single id (b - readBalance id h) = k.effect .done) :
    Prog.Along (fun _ => Answers E) (Fair E) (fun h' r => (books h').cur = k.effect r) h
      (postBalance id b type amount) := by
  refine Prog.Along.call ⟨hE, hb⟩ fun _ _ => ?_
  refine Prog.Along.call trivial fun _ _ => ?_
  refine Prog.Along.call trivial fun ok hok => ?_
  have htrue : ok = true := hok.trans hE
  rw [htrue, if_pos rfl]
  refine Prog.Along.call trivial fun _ _ => ?_
  show (books _).cur = _
  rw [books_of_not_posts rfl (by simp) (by simp), books_of_not_posts rfl (by simp) (by simp),
    books_of_not_posts rfl (by simp) (by simp)]
  exact hcur

/-- A deposit changes the books of its task by the amount, or by nothing when it fails. -/
theorem deposit_along {id : Str} {amount : ℚ} :
    Prog.Along (fun _ => Answers E) (Fair E)
      (fun h' r => (books h').cur = (Call.deposit id amount).effect r) [] (deposit id amount) := by
  unfold deposit
  split
  next => exact rfl
  next hpos =>
    refine Prog.Along.call trivial fun acct hacct => ?_
    cases acct with
    | none =>
      show (books _).cur = 0
      rw [books_of_not_posts rfl (by simp) (by simp)]
      rfl
    | some acct =>
      refine postBalance_along hacct.symm ?_ ?_
      · intro h0
        simp only [readBalance, if_true] at h0
        linarith
      · simp [books, change, readBalance, Call.effect]

/-- A withdrawal changes the books by what its outcome says, also when the balance was too small. -/
theorem withdraw_along {id : Str} {amount : ℚ} :
    Prog.Along (fun _ => Answers E) (Fair E)
      (fun h' r => (books h').cur = (Call.withdraw id amount).effect r) []
        (withdraw id amount) := by
  unfold withdraw
  split
  next => exact rfl
  next hpos =>
    refine Prog.Along.call trivial fun acct hacct => ?_
    cases acct with
    | none =>
      show (books _).cur = 0
      rw [books_of_not_posts rfl (by simp) (by simp)]
      rfl
    | some acct =>
      show Prog.Along _ _ _ _ (if acct.balance < amount then _ else _)
      split
      next => simp [books, change, Call.effect]
      next hle =>
        refine postBalance_along hacct.symm (fun _ => by linarith) ?_
        simp [books, change, readBalance, Call.effect]

/-- A transfer takes from one account what it gives to the other, or is rolled back and changes
nothing. -/
theorem transfer_along {from_id to_id ref : Str} {amount : ℚ} :
    Prog.Along (fun _ => Answers E) (Fair E)
      (fun h' r => (books h').cur = (Call.transfer from_id to_id amount ref).effect r) []
      (transfer from_id to_id amount ref) := by
  unfold transfer
  split
  next => exact rfl
  next hpos =>
    refine Prog.Along.call trivial fun found hfound => ?_
    cases found with
    | false => simp [books, change, Call.effect]
    | true =>
      have hfrom : E from_id = true := hfound rfl
      refine Prog.Along.call (le_of_lt (not_le.mp hpos)) fun credited hcred => ?_
      obtain ⟨rfl, hto⟩ := hcred
      refine Prog.Along.call trivial fun out hout => ?_
      have hout' : out = true := hout.trans hfrom
      subst hout'
      refine Prog.Along.call trivial fun into hinto => ?_
      have hinto' : into = true := hinto.trans hto
      subst hinto'
      refine Prog.Along.call trivial fun _ _ => ?_
      simp [books, change, Call.effect]

/-! ### Settlement -/

/-- The handler of a failed settlement rolls back to the books the transaction began with. -/
theorem settleFailed_along {P : Prop} :
    Prog.Along (fun _ => Posts E) (fun _ => OfSettlement P)
      (fun h' r => (books h').cur = (books h).base + r.moved) h settleFailed := by
  refine Prog.Along.call trivial fun _ _ => ?_
  simp [books, Outcome.moved]

/-- The audit rows move nothing; they can all be written when the accounts are
known. -/
theorem recordAll_along {P : Prop} :
    ∀ (rs : List Transaction) (h : List (Event sig)),
      Prog.Along (fun _ => Posts E) (fun _ => OfSettlement P)
        (fun h' ok => books h' = books h ∧ ok = rs.all fun r => E r.account_id) h (recordAll rs)
  | [], _ => ⟨rfl, rfl⟩
  | r :: rs, h => by
    refine Prog.Along.call trivial fun ok hok => ?_
    have hbooks : books (⟨.insertTransaction r, ok⟩ :: h) = books h :=
      books_of_not_posts rfl (by simp) (by simp)
    have hok' : ok = E r.account_id := hok
    cases ok with
    | false => exact ⟨hbooks, by simp [← hok']⟩
    | true =>
      refine (recordAll_along rs _).mono (fun _ _ ha => ha) (fun _ _ hC => hC) fun h' ok' hD => ?_
      exact ⟨hD.1.trans hbooks, by simp [hD.2, ← hok']⟩

/-- The charge and the two shares are what the settlement that is returned says. -/
theorem postSettlement_along {P : Prop} {s : Settlement} (hE : E s.consumer_id = true)
    (hpay : P → 0 ≤ s.provider_payout) (hfee : P → 0 ≤ s.platform_fee)
    (hbase : (books h).base = (books h).cur) :
    Prog.Along (fun _ => Posts E) (fun _ => OfSettlement P)
      (fun h' r => (books h').cur = (books h).cur + r.moved) h (postSettlement s) := by
  refine Prog.Along.call trivial fun charged hcharged => ?_
  refine Prog.Along.call hpay fun paid hpaid => ?_
  refine Prog.Along.call hfee fun taken htaken => ?_
  refine (recordAll_along s.audit _).bind fun h₁ ok hD => ?_
  obtain ⟨hbooks, hok⟩ := hD
  cases ok with
  | false =>
    -- an account is missing: the ROLLBACK takes the updates back
    refine settleFailed_along.mono (fun _ _ ha => ha) (fun _ _ hC => hC) fun h' r hD => ?_
    rw [hD, hbooks]
    simp only [books]
    rw [hbase]
  | true =>
    have hall := hok.symm
    simp only [Settlement.audit, List.all_cons, List.all_nil, Bool.and_true,
      Bool.and_eq_true] at hall
    obtain ⟨-, hworker, hplatform⟩ := hall
    have hcharged' : charged = true := hcharged.trans hE
    have hpaid' : paid = true := hpaid.trans hworker
    have htaken' : taken = true := htaken.trans hplatform
    subst hcharged' hpaid' htaken'
    refine Prog.Along.call trivial fun _ _ => ?_
    refine Prog.Along.call trivial fun ok hok => ?_
    have hok' : ok = true := hok
    subst hok'
    refine Prog.Along.call trivial fun _ _ => ?_
    show (books _).cur = _
    rw [books_of_not_posts rfl (by simp) (by simp), books_of_not_posts rfl (by simp) (by simp),
      books_of_not_posts rfl (by simp) (by simp), hbooks]
    simp only [books, change, if_true, Outcome.moved, Settlement.effect]
    simp only [add_assoc]

/-- The charge is never negative: a negative balance is charged nothing. -/
theorem chargedCost_nonneg {cost balance : ℚ} (h : 0 ≤ cost) :
    0 ≤ chargedCost cost balance := by
  unfold chargedCost
  split
  · exact le_max_right _ _
  · exact h

/-- A settlement moves what it returns, and nothing if it returns none. -/
theorem settle_along {lease : LeaseInfo} :
    Prog.Along (fun _ => Posts E) (fun _ => OfSettlement (0 ≤ lease.cost))
      (fun h' r => (books h').cur = (books h).cur + r.moved) h (settleLease lease) := by
  refine Prog.Along.call trivial fun ok _ => ?_
  cases ok with
  | false => exact settleFailed_along
  | true =>
    refine Prog.Along.call trivial fun bal hbal => ?_
    have hbooks : books (⟨.selectBalance lease.consumer_id, bal⟩ ::
        ⟨.begin_immediate, true⟩ :: h) = ⟨(books h).cur, (books h).cur⟩ :=
      books_of_not_posts rfl (by simp) (by simp)
    -- without an account there is nothing to charge, and the settlement is written off
    cases bal with
    | none =>
      refine Prog.Along.call trivial fun ok _ => ?_
      cases ok with
      | false =>
        refine settleFailed_along.mono (fun _ _ ha => ha) (fun _ _ hC => hC) fun h' r hD => ?_
        rw [hD]
        simp only [books]
      | true =>
        show (books _).cur = _
        simp only [books, Outcome.moved, add_zero]
    | some balance =>
      have hcost : 0 ≤ lease.cost → 0 ≤ chargedCost lease.cost balance := chargedCost_nonneg
      refine (postSettlement_along hbal.symm ?_ ?_ ?_).mono (fun _ _ ha => ha)
        (fun _ _ hC => hC) fun h' r hD => ?_
      · intro h0
        exact mul_nonneg (hcost h0) (by norm_num [PROVIDER_SHARE])
      · intro h0
        exact mul_nonneg (hcost h0) (by norm_num [PLATFORM_SHARE])
      · rw [hbooks]
      · rw [hD, hbooks]

/-- Every balance call leaves its effect in its books. -/
theorem body_along {k : Call} (hk : k.isBalanceCall = true)
    (hcost : ∀ lease, k = .settle lease → 0 ≤ lease.cost) :
    Prog.Along (fun _ => Answers E) (Fair E) (fun h' r => (books h').cur = k.effect r) []
      k.body := by
  cases k with
  | deposit => exact deposit_along
  | withdraw => exact withdraw_along
  | transfer => exact transfer_along
  | settle lease =>
    refine settle_along.mono (fun _ _ ha => ha.posts) (fun _ _ ho => ho.fair (hcost lease rfl))
      fun h' r hD => ?_
    rw [hD]
    exact zero_add _
  | stop | watchdog | repo => cases hk

end Paths

/-! ## Steps that nothing gets in the way of -/

/-- The condition on a statement and the state before it: an absolute write finds
what was read, a ROLLBACK discards the coroutine's own work only, a charge is
covered by the balance, and a credit and a settlement's row have a place to go. -/
def Clear (w : World) (h : List (Event sig)) : Op → Prop
  | .charge _ id amount => amount ≤ w.conn.working.balance id
  | .credit id _ => w.conn.working.hasAccount id = true
  | .insertSettlement s => (w.conn.working.insertSettlement s).isSome = true
  | o => Undisturbed w h o

/-- A step at which no other coroutine has written the account finds the balance it has read. -/
theorem Clear.undisturbed {w : World} {h : List (Event sig)} {o : Op} (hc : Clear w h o) :
    Undisturbed w h o := by
  cases o with
  | charge | credit | insertSettlement => trivial
  | _ => exact hc

section Steps

variable {E : Str → Bool} {i : Nat} {o : Op} {w w' : World} {x : ℚ} {a : o.Ans}
  {h : List (Event sig)}

/-- What the connection answers at a clear step, seen from the task that asked. -/
theorem exec_answers (hE : ∀ b, w.conn.working.hasAccount b = E b)
    (he : exec i o w x = some (a, w')) (hc : Clear w h o) : Answers E ⟨o, a⟩ := by
  have hrely := exec_rely hE he
  cases o with
  | credit id amount => exact ⟨hrely.trans ((hE id).symm.trans hc), (hE id).symm.trans hc⟩
  | insertSettlement s =>
    cases he
    exact hc
  | _ => exact hrely

/-- No balance is negative, committed or not. -/
def Solvent (w : World) : Prop :=
  ∀ b, 0 ≤ w.conn.working.balance b ∧ 0 ≤ w.conn.committed.balance b

/-- What a statement adds leaves no balance negative. -/
theorem change_covered (hw : Solvent w) (he : exec i o w x = some (a, w')) (hf : Fair E h o)
    (hc : Clear w h o) (b : Str) : 0 ≤ w.conn.working.balance b + change h ⟨o, a⟩ b := by
  have hb := (hw b).1
  have hsub : ∀ id amount, amount ≤ w.conn.working.balance id →
      0 ≤ w.conn.working.balance b + (Pi.single id (-amount) : Str → ℚ) b := by
    intro id amount hle
    by_cases hid : b = id
    · subst hid
      rw [Pi.single_eq_same]
      linarith
    · rw [Pi.single_eq_of_ne hid]
      linarith
  have hadd : ∀ id amount, 0 ≤ amount →
      0 ≤ w.conn.working.balance b + (Pi.single id amount : Str → ℚ) b := by
    intro id amount h0
    by_cases hid : b = id
    · subst hid
      rw [Pi.single_eq_same]
      linarith
    · rw [Pi.single_eq_of_ne hid]
      linarith
  have hzero : 0 ≤ w.conn.working.balance b + (0 : Str → ℚ) b := by
    simpa using hb
  -- a statement that takes is covered by what was read, one that gives by its sign
  cases o with
  | setBalance id v =>
    have hread : w.conn.working.balance id = readBalance id h := hc
    simp only [change]
    by_cases hid : b = id
    · subst hid
      have hv : 0 ≤ v := hf.2 (hread ▸ hb)
      rw [Pi.single_eq_same, ← hread]
      linarith
    · rw [Pi.single_eq_of_ne hid]
      linarith
  | debit id amount =>
    simp only [exec] at he
    split at he
    next hg =>
      cases he
      simp only [Bool.and_eq_true, decide_eq_true_eq] at hg
      simp only [change, hg.1, if_true]
      exact hsub id amount hg.2
    next =>
      cases he
      exact hzero
  | credit id amount =>
    simp only [change]
    split
    · exact hadd id amount hf
    · exact hzero
  | charge l id amount =>
    simp only [change]
    split
    · exact hsub id amount hc
    · exact hzero
  | payout l id amount =>
    simp only [change]
    split
    · exact hadd id amount hf
    · exact hzero
  | _ => exact hzero

/-- A step of a clear run keeps every balance from going negative. -/
theorem Solvent.step (hw : Solvent w) (he : exec i o w x = some (a, w')) (hf : Fair E h o)
    (hE : ∀ b, w.conn.working.hasAccount b = E b) (hc : Clear w h o) : Solvent w' := by
  intro b
  by_cases hrb : o = .rollback
  · subst hrb
    simp only [exec, World.rollback] at he
    split at he
    · simp only [Option.some.injEq, Prod.mk.injEq] at he
      rw [← he.2]
      exact ⟨(hw b).2, (hw b).2⟩
    · simp only [Option.some.injEq, Prod.mk.injEq] at he
      rw [← he.2]
      exact hw b
  · have hset : ∀ id v, o = .setBalance id v → w.conn.working.hasAccount id = true ∧
        w.conn.working.balance id = readBalance id h := by
      rintro id v rfl
      exact ⟨(hE id).trans hf.1, hc⟩
    have hwork : 0 ≤ w'.conn.working.balance b := by
      rw [exec_balance he hrb hset b]
      exact change_covered hw he hf hc b
    rcases exec_conn he hrb with ⟨hcom, -⟩ | ⟨hcom, -⟩
    · exact ⟨hwork, hcom ▸ (hw b).2⟩
    · exact ⟨hwork, hcom ▸ (hw b).1⟩

end Steps

/-! ## Runs -/

section Runs

variable {db : Db} {calls : List Call}

/-- Where the run stands: the books are right, no balance is negative, and every
coroutine is on a path that ends with its effect in its books. -/
structure OnBooks (db : Db) (calls : List Call) (c : Configuration) : Prop where
  balanced : Balanced db calls.length c
  solvent : Solvent c.world
  paths : c.Along (fun _ => Answers db.hasAccount) (fun _ => Fair db.hasAccount)
    (fun i h r => ∀ k, calls[i]? = some k → (books h).cur = k.effect r)

/-- At the start every task has its whole program before it and has changed nothing. -/
theorem start_onBooks (hkinds : ∀ k ∈ calls, k.isBalanceCall = true)
    (hcost : ∀ lease, .settle lease ∈ calls → 0 ≤ lease.cost)
    (hdb : ∀ b, 0 ≤ db.balance b) : OnBooks db calls (start db calls) where
  balanced := start_balanced
  solvent b := ⟨hdb b, hdb b⟩
  paths i t ht := by
    obtain ⟨k, hk, rfl⟩ := Option.map_eq_some_iff.mp ht
    have hmem : k ∈ calls := List.mem_of_getElem? hk
    refine (body_along (hkinds k hmem) fun lease hl => hcost lease (hl ▸ hmem)).mono
      (fun _ _ ha => ha) (fun _ _ hC => hC) fun h r hD k' hk' => ?_
    rw [hk] at hk'
    cases hk'
    exact hD

/-- A clear step keeps the books: the balance of each account is the first one with the changes of
all tasks. -/
theorem OnBooks.step {c c' : Configuration} {l : Label sig Nat Call} (hb : OnBooks db calls c)
    (hs : server.Step c l c')
    (hclear : ∀ i e, l = .did i e → Clear c.world (history c i) e.op) :
    OnBooks db calls c' := by
  obtain ⟨i, h, o, k, x, a, rfl, hp, he, hp'⟩ := server_step hs
  have hc : Clear c.world h o := by
    rw [← history_of_pool hp]
    exact hclear i _ rfl
  have hfair : Fair db.hasAccount h o := (hb.paths i _ hp).1
  have hknown : WritesKnown db.hasAccount o := by
    cases o with
    | setBalance => exact hfair.1
    | _ => trivial
  refine ⟨hb.balanced.step hp he hp' hknown hc.undisturbed,
    hb.solvent.step he hfair hb.balanced.accounts hc, ?_⟩
  refine hb.paths.step hs (fun j h' p e hl hj => ?_) (fun _ _ hm => by cases hm)
  cases hl
  exact exec_answers hb.balanced.accounts he hc

/-- A finished coroutine's books hold its effect. -/
theorem OnBooks.finished {c : Configuration} (hb : OnBooks db calls c) (hf : Finished c)
    {i : Nat} (hi : i < calls.length) : (books (history c i)).cur = effectOf calls c i := by
  have hdone := hf i
  have hk : calls[i]? = some calls[i] := List.getElem?_eq_getElem hi
  unfold effectOf outcome history
  rw [hk]
  split
  next t ht =>
    rw [ht] at hdone ⊢
    obtain ⟨h, p⟩ := t
    cases p with
    | ret r => exact hb.paths i _ ht calls[i] hk
    | op o k => cases hdone
  next ht =>
    rw [ht]
    rfl

/-- In every run of deposits, withdrawals, transfers and settlements whose steps
are all clear, no balance is ever negative, and when all calls have finished every
balance is the initial one plus the effects of the calls that succeeded. -/
theorem no_lost_update (hkinds : ∀ k ∈ calls, k.isBalanceCall = true)
    (hcost : ∀ lease, .settle lease ∈ calls → 0 ≤ lease.cost)
    (hdb : ∀ b, 0 ≤ db.balance b) {tr : Trace} {c : Configuration}
    (hr : Run server (start db calls) tr c)
    (hclear : ∀ y ∈ tr, ∀ i e, y.2 = .did i e → Clear y.1.world (history y.1 i) e.op) :
    (∀ b, 0 ≤ c.world.conn.working.balance b ∧ 0 ≤ c.world.conn.committed.balance b) ∧
      (Finished c → ∀ b, c.world.conn.working.balance b =
        db.balance b + ∑ i ∈ Finset.range calls.length, effectOf calls c i b) := by
  have hb : OnBooks db calls c :=
    hr.invariant (I := fun _ => OnBooks db calls)
      (fun _ _ _ _ _ hI hG hs => hI.step hs hG) (start_onBooks hkinds hcost hdb)
      (Each.of_forall hclear)
  refine ⟨hb.solvent, fun hf b => ?_⟩
  rw [hb.balanced.ledger b]
  congr 1
  refine Finset.sum_congr rfl fun i hi => ?_
  rw [hb.finished hf (Finset.mem_range.mp hi)]

end Runs

/-- A database with two funded accounts and nothing else. -/
def sampleDb : Db where
  accounts :=
    ⟨[⟨['a'], "consumer".toList, [], 10, []⟩, ⟨['b'], "provider".toList, [], 5, []⟩],
    by decide⟩
  workers := Table.empty
  leases := Table.empty
  settlements := Table.empty
  transactions := []

/-- No account of the sample database is overdrawn. -/
theorem sampleDb_balance_nonneg (id : Str) : 0 ≤ sampleDb.balance id := by
  have hall : ∀ r ∈ sampleDb.accounts.rows, 0 ≤ r.balance := by decide
  unfold Db.balance
  cases hg : sampleDb.accounts.get id with
  | none => exact le_refl 0
  | some r => exact hall r (Table.mem_of_get hg).1

/-- A deposit and a transfer out of the same account, the transfer after the
deposit's write and before its last commit. -/
def sampleCalls : List Call := [.deposit ['a'] 3, .transfer ['a'] ['b'] 12 []]

/-- One statement each of the coroutines, in this order. -/
def inOrder (is : List Nat) : List (Choice Nat ℚ Call) := is.map fun i => .act i 0

def sampleOrder : List Nat := [0, 0, 1, 0, 1, 1, 0, 1, 0, 1]

/-- The server can take the steps of the sample order, a statement of each call at a time. -/
private theorem sampleOrder_runs :
    (server.replay (start sampleDb sampleCalls) (inOrder sampleOrder)).isSome = true := by
  decide +kernel

/-- `Clear` for statements other than ROLLBACK, as a test. -/
def clearNow (w : World) (h : List (Event sig)) : Op → Bool
  | .setBalance id _ => w.conn.working.balance id = readBalance id h
  | .charge _ id amount => amount ≤ w.conn.working.balance id
  | .credit id _ => w.conn.working.hasAccount id
  | .insertSettlement s => (w.conn.working.insertSettlement s).isSome
  | .rollback => false
  | _ => true

/-- The decidable form of the condition, by which a sample run is checked. -/
theorem clear_of_clearNow {w : World} {h : List (Event sig)} {o : Op}
    (hc : clearNow w h o = true) : Clear w h o := by
  cases o with
  | setBalance id b => exact of_decide_eq_true (p := _ = _) hc
  | charge l id amount => exact of_decide_eq_true (p := _ ≤ _) hc
  | credit | insertSettlement => exact hc
  | rollback => cases hc
  | _ => trivial

/-- Every step of the trace passes the test. -/
def allClearNow (tr : Trace) : Bool :=
  tr.all fun y => match y.2 with
    | .did i e => clearNow y.1.world (history y.1 i) e.op
    | _ => true

/-- The same for every step of a run. -/
theorem clear_of_allClearNow {tr : Trace} (hc : allClearNow tr = true) :
    ∀ y ∈ tr, ∀ i e, y.2 = .did i e → Clear y.1.world (history y.1 i) e.op := by
  intro y hy i e hl
  have hy' := List.all_eq_true.mp hc y hy
  rw [hl] at hy'
  exact clear_of_clearNow hy'

/-- Calls that interleave without writing between another's read and write leave the sum of their
effects. -/
theorem no_lost_update_sample :
    (∀ k ∈ sampleCalls, k.isBalanceCall = true) ∧
    ∃ tr c, Run server (start sampleDb sampleCalls) tr c ∧ Finished c ∧
      allClearNow tr = true ∧
      (∀ b, c.world.conn.working.balance b = sampleDb.balance b +
        ∑ i ∈ Finset.range sampleCalls.length, effectOf sampleCalls c i b) ∧
      c.world.conn.working.balance ['a'] = 1 ∧ c.world.conn.working.balance ['b'] = 17 := by
  have hkinds : ∀ k ∈ sampleCalls, k.isBalanceCall = true := by decide
  have hr := Machine.replay_get sampleOrder_runs
  have hclear : allClearNow ((server.replay (start sampleDb sampleCalls)
      (inOrder sampleOrder)).get sampleOrder_runs).1 = true := by decide +kernel
  have hfin : Finished ((server.replay (start sampleDb sampleCalls)
      (inOrder sampleOrder)).get sampleOrder_runs).2 :=
    finished_of_lt (run_threads hr) (by decide +kernel)
  refine ⟨hkinds, _, _, hr, hfin, hclear, ?_, by decide +kernel, by decide +kernel⟩
  refine (no_lost_update hkinds ?_ sampleDb_balance_nonneg hr
    (clear_of_allClearNow hclear)).2 hfin
  intro lease hl
  simp [sampleCalls] at hl

/-- Two deposits into one account. -/
def twoDeposits : List Call := [.deposit ['a'] 3, .deposit ['a'] 4]

/-- Both read the balance before either writes. -/
def lostOrder : List Nat := [0, 1, 0, 0, 0, 0, 1, 1, 1, 1]

/-- The server can take the steps in which both deposits read before either writes. -/
private theorem lostOrder_runs :
    (server.replay (start sampleDb twoDeposits) (inOrder lostOrder)).isSome = true := by
  decide

/-- Both deposits succeed and one amount is gone. -/
theorem update_lost :
    ∃ tr c, Run server (start sampleDb twoDeposits) tr c ∧ Finished c ∧
      outcome c 0 = some .done ∧ outcome c 1 = some .done ∧
      c.world.conn.working.balance ['a'] = 14 ∧
      c.world.conn.working.balance ['a'] ≠ sampleDb.balance ['a'] +
        ∑ i ∈ Finset.range twoDeposits.length, effectOf twoDeposits c i ['a'] := by
  have hr := Machine.replay_get lostOrder_runs
  exact ⟨_, _, hr, finished_of_lt (run_threads hr) (by decide), by decide,
    by decide, by decide +kernel, by decide +kernel⟩

end TreeMiner.Server
