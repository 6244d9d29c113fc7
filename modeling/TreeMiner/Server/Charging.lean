import TreeMiner.Server.LeaseEnds

/-!
# What a renter is charged (`settlement.py`, `matcher.py`)

A lease is charged for the time until somebody noticed that it had ended, not for the
time that was rented: the watchdog completes a lease only once it is overdue, a restart
of the server delays it further, and a stop request may come at any time. What limits
the charge is the consumer's balance alone.

`charge_covered_iff` is about every charge of every run of `market`. It goes back to the
step that read the lease (`ReadAs`) and to the step that ended it, and says when the
charge stays within what was rented and within the balance: the row's end must lie within
`created_at + duration_sec`, or the consumer had no more than the rent (`Covered`). Its
second half is that a settlement passes on exactly what it takes as long as no other
coroutine commits or rolls back in the middle of it; for that the writes of a run are
kept in a log, and `Conserving` is the invariant over the log and the histories.
-/

namespace TreeMiner.Server

open Interleave

/-! ## What a settlement is given -/

/-- The lease as the coroutine read it last. -/
def lastRead (lease_id : Str) : List (Event sig) → Option LeaseInfo
  | [] => none
  | ⟨.getLease id, r⟩ :: h => if id = lease_id then r else lastRead lease_id h
  | _ :: h => lastRead lease_id h

/-- The balance as the coroutine selected it last. -/
def lastBalance (account_id : Str) : List (Event sig) → Option ℚ
  | [] => none
  | ⟨.selectBalance id, r⟩ :: h => if id = account_id then r else lastBalance account_id h
  | _ :: h => lastBalance account_id h

/-- What was rented. -/
def Lease.rented (r : Lease) : ℚ := r.duration_sec * r.price_per_sec

/-- A charge of `amount` for the lease, from a balance, is no more than was rented
and no more than is there. -/
def Charged (r : Lease) (amount balance : ℚ) : Prop := amount ≤ r.rented ∧ amount ≤ balance

/-- A lease that ended at `ended` did so within the time that was rented. Only a negative
price, which no settings path accepts, turns the comparison round. -/
def Lease.OnTime (r : Lease) (ended : ℚ) : Prop :=
  (0 < r.price_per_sec → ended ≤ r.created_at + r.duration_sec) ∧
  (r.price_per_sec < 0 → r.created_at + r.duration_sec ≤ ended)

/-- The condition on a row with the end `ended`, the balance that was selected and the one
at the UPDATE: the lease ended on time, or the consumer had no more than the rent; the
balance still covers the time until the end or what was selected; and a consumer who had
less than that time costs is charged for neither a negative rent nor a negative balance. -/
structure Covered (r : Lease) (ended asked balance : ℚ) : Prop where
  within_rent : r.OnTime ended ∨ asked ≤ r.rented
  within_balance : (ended - r.created_at) * r.price_per_sec ≤ balance ∨ asked ≤ balance
  solvent : asked < (ended - r.created_at) * r.price_per_sec → 0 ≤ r.rented ∧ 0 ≤ balance

/-- Coroutine `i`, with history `h`, read the lease last as the row `r`, when the clock
showed `now`. An end that stands in this row was there at the start, or is the clock of an
earlier step that completed the lease. -/
structure ReadAs (db : Db) (tr : Trace) (h : List (Event sig)) (i : Nat) (lease_id : Str)
    (r : Lease) (now : ℚ) : Prop where
  last : lastRead lease_id h = some (r.info now)
  step : ∃ tr₀ c₀,
    tr₀ ++ [(c₀, .did i ⟨.getLease lease_id, some (r.info now)⟩)] <+: tr ∧
    c₀.world.conn.working.leases.get lease_id = some r ∧
    ∀ e, r.ended_at = some e → Ends db lease_id e ∨ CompletedAt tr₀ c₀ lease_id e

/-! ## What a settlement takes and passes on -/

/-- What a statement takes from the consumer of a lease. -/
def takes (lease_id : Str) : Event sig → ℚ
  | ⟨.charge l _ amount, ok⟩ => if l = lease_id ∧ ok = true then amount else 0
  | _ => 0

/-- What it credits to provider or platform. -/
def credits (lease_id : Str) : Event sig → ℚ
  | ⟨.payout l _ amount, ok⟩ => if l = lease_id ∧ ok = true then amount else 0
  | _ => 0

/-- What a coroutine has taken for a lease and not passed on. -/
def inFlight (lease_id : Str) : List (Event sig) → ℚ
  | [] => 0
  | ⟨.rollback, _⟩ :: _ => 0
  | e :: h => inFlight lease_id h + takes lease_id e - credits lease_id e

/-- What coroutine `i` has taken for a lease, by the writes of a log. -/
def taken (i : Nat) (lease_id : Str) (log : List (Nat × Event sig)) : ℚ :=
  (log.map fun y => if y.1 = i then takes lease_id y.2 else 0).sum

def credited (i : Nat) (lease_id : Str) (log : List (Nat × Event sig)) : ℚ :=
  (log.map fun y => if y.1 = i then credits lease_id y.2 else 0).sum

/-- The condition on a commit or ROLLBACK: no other coroutine has taken money that it
has not passed on. -/
def Undivided (c : Configuration) : Label sig Nat Call → Prop
  | .did j ⟨.commit, _⟩ => ∀ i, i ≠ j → ∀ l, inFlight l (history c i) = 0
  | .did j ⟨.rollback, _⟩ => ∀ i, i ≠ j → ∀ l, inFlight l (history c i) = 0
  | _ => True

/-! ## Along the calls -/

section Paths

variable {E : Str → Bool} {h : List (Event sig)} {lease : LeaseInfo}

/-- The charge is within a bound when the cost or the balance is, and is nothing for a negative
balance. -/
theorem chargedCost_le {cost balance bound : ℚ} : chargedCost cost balance ≤ bound ↔
    (cost ≤ bound ∨ balance ≤ bound) ∧ (balance < cost → 0 ≤ bound) := by
  unfold chargedCost
  split
  next hlt =>
    rw [max_le_iff]
    constructor
    · intro hle
      exact ⟨Or.inr hle.1, fun _ => hle.2⟩
    · rintro ⟨hle | hle, h0⟩
      · exact ⟨(le_of_lt hlt).trans hle, h0 hlt⟩
      · exact ⟨hle, h0 hlt⟩
  next hge =>
    constructor
    · intro hle
      exact ⟨Or.inl hle, fun hlt => absurd hlt hge⟩
    · rintro ⟨hle | hle, -⟩
      · exact hle
      · exact (not_lt.mp hge).trans hle

/-- What `settle_lease` computes from a row that was read: the time up to its end, priced. -/
theorem cost_info {r : Lease} {now : ℚ} :
    (r.info now).cost = (r.endedAt now - r.created_at) * r.price_per_sec := by
  unfold LeaseInfo.cost
  rw [elapsed_info]
  rfl

/-- The time up to the end costs no more than the rent exactly if the lease ended on time. -/
theorem cost_le_rented {r : Lease} {ended : ℚ} :
    (ended - r.created_at) * r.price_per_sec ≤ r.rented ↔ r.OnTime ended := by
  unfold Lease.rented Lease.OnTime
  rcases lt_trichotomy r.price_per_sec 0 with hneg | hzero | hpos
  · rw [mul_le_mul_right_of_neg hneg, le_sub_iff_add_le, add_comm]
    exact ⟨fun h => ⟨fun h' => absurd h' hneg.not_gt, fun _ => h⟩, fun h => h.2 hneg⟩
  · rw [hzero, mul_zero, mul_zero]
    exact ⟨fun _ => ⟨fun h => absurd h (lt_irrefl 0), fun h => absurd h (lt_irrefl 0)⟩,
      fun _ => le_refl 0⟩
  · rw [mul_le_mul_iff_left₀ hpos, sub_le_iff_le_add, add_comm]
    exact ⟨fun h => ⟨fun _ => h, fun h' => absurd h' hpos.not_gt⟩, fun h => h.1 hpos⟩

/-- The share of the charge that the lease has used up, written once by the row read and once by the
time it ended. -/
theorem charged_iff {r : Lease} {now asked balance : ℚ} :
    Charged r (chargedCost (r.info now).cost asked) balance ↔
      Covered r (r.endedAt now) asked balance := by
  unfold Charged
  rw [chargedCost_le, chargedCost_le, cost_info, cost_le_rented]
  constructor
  · rintro ⟨⟨hrent, hrent0⟩, hbal, hbal0⟩
    exact ⟨hrent, hbal, fun hlt => ⟨hrent0 hlt, hbal0 hlt⟩⟩
  · intro hc
    exact ⟨⟨hc.within_rent, fun hlt => (hc.solvent hlt).1⟩, hc.within_balance,
      fun hlt => (hc.solvent hlt).2⟩

/-- What the coroutines see of the database. -/
def Seen (E : Str → Bool) : Event sig → Prop
  | ⟨.getLease l, r⟩ => ∀ info, r = some info → info.lease_id = l
  | ⟨.selectExpired, ids⟩ => List.Nodup ids
  | e => Rely E e

/-- Everything that was taken has been passed on. -/
def Passed (h : List (Event sig)) : Prop := ∀ l, inFlight l h = 0

/-- A charge is for a lease and from a balance that were read, and nothing is in flight
at a commit. -/
def Charges (h : List (Event sig)) : Op → Prop
  | .charge l id amount => ∃ lease asked, lastRead l h = some lease ∧ lease.consumer_id = id ∧
      lastBalance id h = some asked ∧ amount = chargedCost lease.cost asked
  | .commit => Passed h
  | _ => True

/-- The statements that are part of a settlement's money. -/
def Op.moves : Op → Bool
  | .charge _ _ _ | .payout _ _ _ | .rollback => true
  | _ => false

/-- A statement that moves no money leaves what is in flight as it is. -/
theorem inFlight_cons {l : Str} {o : Op} {a : o.Ans} (ho : o.moves = false) :
    inFlight l (⟨o, a⟩ :: h) = inFlight l h := by
  cases o with
  | charge | payout | rollback => cases ho
  | _ => simp only [inFlight, takes, credits, add_zero, sub_zero]

/-- The last read is one of the history. -/
theorem mem_of_lastRead {l : Str} :
    ∀ {h : List (Event sig)}, lastRead l h = some lease → ⟨.getLease l, some lease⟩ ∈ h
  | [], hlast => by cases hlast
  | ⟨o, a⟩ :: h, hlast => by
    cases o with
    | getLease id =>
      unfold lastRead at hlast
      split at hlast
      next hid =>
        subst hid hlast
        exact List.mem_cons_self
      next => exact List.mem_cons_of_mem _ (mem_of_lastRead hlast)
    | _ => exact List.mem_cons_of_mem _ (mem_of_lastRead hlast)

/-- After such a statement as much is passed on as before. -/
theorem Passed.cons {o : Op} {a : o.Ans} (hp : Passed h) (ho : o.moves = false) :
    Passed (⟨o, a⟩ :: h) := fun l => (inFlight_cons ho).trans (hp l)

/-- A rollback leaves nothing in flight. -/
theorem passed_rollback {a : Bool} : Passed (⟨.rollback, a⟩ :: h) := fun _ => rfl

/-- With nothing in flight, any statement that moves no money may come, a commit included. -/
theorem Passed.charges {o : Op} (hp : Passed h) (ho : o.moves = false) : Charges h o := by
  cases o with
  | charge => cases ho
  | commit => exact hp
  | _ => trivial

/-- A program without such statements. -/
theorem along_passed {β : Type} {A : List (Event sig) → Event sig → Prop}
    {D : List (Event sig) → β → Prop} :
    ∀ {p : Async β} {h : List (Event sig)}, Passed h →
      Prog.Along A (fun _ (o : Op) => o.moves = false) D h p →
      Prog.Along A Charges (fun h' _ => Passed h') h p
  | .ret _, _, hpass, _ => hpass
  | .op _ _, _, hpass, hp =>
    ⟨hpass.charges hp.1, fun a ha => along_passed (hpass.cons hp.1) (hp.2 a ha)⟩

/-! ### Settlement -/

/-- Nothing is in flight, and no lease was read since `h`. -/
def PassedSince (h h' : List (Event sig)) : Prop :=
  Passed h' ∧ ∀ l, lastRead l h' = lastRead l h

/-- A failed settlement is rolled back, and the lease that was read is still the last one read. -/
theorem settleFailed_passed {h₀ : List (Event sig)}
    (hread : ∀ l, lastRead l h = lastRead l h₀) :
    Prog.Along (fun _ => Seen E) Charges (fun h' _ => PassedSince h₀ h') h settleFailed :=
  Prog.Along.call trivial fun _ _ => ⟨passed_rollback, hread⟩

/-- The rows of the ledger move no money, and are written for known accounts only. -/
theorem recordAll_flight :
    ∀ (rs : List Transaction) (h : List (Event sig)),
      Prog.Along (fun _ => Seen E) Charges
        (fun h' ok => (∀ l, inFlight l h' = inFlight l h) ∧
          (∀ l, lastRead l h' = lastRead l h) ∧
          (ok = true → ∀ r ∈ rs, E r.account_id = true)) h (recordAll rs)
  | [], _ => ⟨fun _ => rfl, fun _ => rfl, fun _ r hr => by cases hr⟩
  | r :: rs, h => by
    refine Prog.Along.call trivial fun ok hok => ?_
    have hok' : ok = E r.account_id := hok
    cases ok with
    | false => exact ⟨fun _ => inFlight_cons rfl, fun _ => rfl, fun h => by cases h⟩
    | true =>
      refine (recordAll_flight rs _).mono (fun _ _ ha => ha) (fun _ _ hC => hC) ?_
      rintro h' ok ⟨hflight, hread, hall⟩
      refine ⟨fun l => (hflight l).trans (inFlight_cons rfl), hread, fun hok r' hr' => ?_⟩
      rcases List.mem_cons.mp hr' with rfl | hr'
      · exact hok'.symm
      · exact hall hok r' hr'

/-- The two shares make up the whole. -/
theorem shares_sum (amount : ℚ) : amount * PROVIDER_SHARE + amount * PLATFORM_SHARE = amount := by
  rw [← mul_add]
  norm_num [PROVIDER_SHARE, PLATFORM_SHARE]

/-- A settlement that can write its audit rows has found its accounts, and what it took
it has passed on. -/
theorem postSettlement_passed {total_cost : ℚ} (hp : Passed h)
    (hcharge : Charges h (.charge lease.lease_id lease.consumer_id total_cost)) :
    Prog.Along (fun _ => Seen E) Charges (fun h' _ => PassedSince h h') h
      (postSettlement (lease.settlement total_cost)) := by
  refine Prog.Along.call hcharge fun charged hcharged => ?_
  refine Prog.Along.call trivial fun paid hpaid => ?_
  refine Prog.Along.call trivial fun fee hfee => ?_
  refine (recordAll_flight (lease.settlement total_cost).audit _).bind fun h₄ ok hD => ?_
  obtain ⟨hflight, hread, hall⟩ := hD
  cases ok with
  | false => exact settleFailed_passed hread
  | true =>
    have hcharged' : charged = true :=
      Eq.trans hcharged (hall rfl _ List.mem_cons_self)
    have hpaid' : paid = true :=
      Eq.trans hpaid (hall rfl _ (List.mem_cons_of_mem _ List.mem_cons_self))
    have hfee' : fee = true :=
      Eq.trans hfee
        (hall rfl _ (List.mem_cons_of_mem _ (List.mem_cons_of_mem _ List.mem_cons_self)))
    subst hcharged' hpaid' hfee'
    -- the three payments of the record: the charge, what the worker gets, and the fee
    have hpass : Passed h₄ := by
      intro l
      rw [hflight l]
      simp only [inFlight, hp l, takes, credits, and_true, LeaseInfo.settlement, add_zero, sub_zero,
        zero_add]
      split
      · rw [sub_sub, shares_sum, sub_self]
      · rw [sub_self, sub_self]
    refine Prog.Along.call hpass fun _ _ => ?_
    refine Prog.Along.call trivial fun ok _ => ?_
    have hpass₆ : Passed (⟨.insertSettlement (lease.settlement total_cost), ok⟩ ::
        ⟨.commit, ()⟩ :: h₄) := (hpass.cons rfl).cons rfl
    cases ok with
    | false => exact ⟨hpass₆, hread⟩
    | true => exact Prog.Along.call hpass₆ fun _ _ => ⟨hpass₆.cons rfl, hread⟩

/-- A settlement passes on to the provider and the platform what it takes from the consumer. -/
theorem settle_passed (hp : Passed h) (hlease : lastRead lease.lease_id h = some lease) :
    Prog.Along (fun _ => Seen E) Charges (fun h' _ => PassedSince h h') h (settleLease lease) := by
  refine Prog.Along.call trivial fun ok _ => ?_
  cases ok with
  | false => exact settleFailed_passed fun _ => rfl
  | true =>
    refine Prog.Along.call trivial fun bal _ => ?_
    have hp₂ : Passed
      (⟨.selectBalance lease.consumer_id, bal⟩ :: ⟨.begin_immediate, true⟩ :: h) :=
      (hp.cons rfl).cons rfl
    cases bal with
    | none =>
      refine Prog.Along.call trivial fun ok _ => ?_
      cases ok with
      | false => exact settleFailed_passed fun _ => rfl
      | true => exact ⟨passed_rollback, fun _ => rfl⟩
    | some asked =>
      refine postSettlement_passed hp₂ ⟨lease, asked, hlease, rfl, ?_, rfl⟩
      exact if_pos rfl

/-! ### Whoever ends a lease -/

/-- Completing the lease and freeing its worker moves no money. -/
theorem completeAndFree_passed (hp : Passed h) :
    Prog.Along (fun _ => Seen E) Charges (fun h' _ => PassedSince h h') h
      (completeAndFree lease) := by
  refine Prog.Along.call trivial fun _ _ => ?_
  refine Prog.Along.call (hp.cons rfl) fun _ _ => ?_
  refine Prog.Along.call trivial fun _ _ => ?_
  refine Prog.Along.call (((hp.cons rfl).cons rfl).cons rfl) fun _ _ => ?_
  exact ⟨(((hp.cons rfl).cons rfl).cons rfl).cons rfl, fun _ => rfl⟩

/-- The row just read is the last one read. -/
theorem lastRead_self {l : Str} {r : Option LeaseInfo} :
    lastRead l (⟨.getLease l, r⟩ :: h) = r := if_pos rfl

/-- Stopping a lease moves no money, and what it returns is the row it read last. -/
theorem stop_lease_passed {l : Str} (hp : Passed h) :
    Prog.Along (fun _ => Seen E) Charges
      (fun h' r => Passed h' ∧ ∀ lease, r = some lease →
        lastRead lease.lease_id h' = some lease) h
      (stopLease l) := by
  refine Prog.Along.call trivial fun _ _ => ?_
  refine Prog.Along.call trivial fun lease _ => ?_
  have hp₂ : Passed (⟨.getLease l, lease⟩ :: ⟨.acquire, ()⟩ :: h) :=
    (hp.cons rfl).cons rfl
  cases lease with
  | none =>
    refine Prog.Along.call trivial fun _ _ => ?_
    exact ⟨hp₂.cons rfl, fun _ hr => by cases hr⟩
  | some lease =>
    show Prog.Along _ _ _ _ (if lease.state ≠ .active then _ else _)
    split
    · refine Prog.Along.call trivial fun _ _ => ?_
      exact ⟨hp₂.cons rfl, fun _ hr => by cases hr⟩
    · refine (completeAndFree_passed hp₂).bind fun h₃ _ hD => ?_
      refine Prog.Along.call trivial fun _ _ => ?_
      refine ⟨trivial, fun r hr => ?_⟩
      refine ⟨(hD.1.cons rfl).cons rfl, fun info hinfo => ?_⟩
      rw [hr info hinfo, lastRead_self, hinfo]

/-- The endpoint stops the lease and settles the row it got back. -/
theorem stopEndpoint_passed {l : Str} (hp : Passed h) :
    Prog.Along (fun _ => Seen E) Charges (fun h' _ => Passed h') h (stopEndpoint l) := by
  refine Prog.Along.call trivial fun lease _ => ?_
  have hp₁ : Passed (⟨.getLease l, lease⟩ :: h) := hp.cons rfl
  cases lease with
  | none => exact hp₁
  | some lease =>
    refine (stop_lease_passed hp₁).bind fun h₂ r hD => ?_
    cases r with
    | none => exact hD.1
    | some lease =>
      exact (settle_passed hD.1 (hD.2 lease rfl)).mono (fun _ _ ha => ha) (fun _ _ hC => hC)
        fun _ _ hD => hD.1

/-- The leases are fetched in the order of their ids. -/
theorem fetchLeases_passed :
    ∀ (ids : List Str) {h : List (Event sig)}, Passed h →
      Prog.Along (fun _ => Seen E) Charges
        (fun h' rs => Passed h' ∧ (rs.map fun r : LeaseInfo => r.lease_id).Sublist ids) h
        (fetchLeases ids)
  | [], _, hp => ⟨hp, List.Sublist.refl _⟩
  | id :: ids, h, hp => by
    refine Prog.Along.call trivial fun lease hlease => ?_
    refine (fetchLeases_passed ids (hp.cons rfl)).bind fun h₂ rest hD => ?_
    refine ⟨hD.1, ?_⟩
    cases lease with
    | none => exact hD.2.cons id
    | some lease =>
      have hid : lease.lease_id = id := hlease lease rfl
      rw [Option.toList_some, List.singleton_append, List.map_cons, hid]
      exact hD.2.cons_cons id

/-- Every completed lease is as it was read last. -/
theorem completeAll_passed :
    ∀ (leases : List LeaseInfo) {h : List (Event sig)}, Passed h →
      (leases.map fun r : LeaseInfo => r.lease_id).Nodup →
      Prog.Along (fun _ => Seen E) Charges
        (fun h' rs => Passed h' ∧
          (∀ lease, some lease ∈ rs → lastRead lease.lease_id h' = some lease) ∧
          ∀ l, (∀ r ∈ leases, r.lease_id ≠ l) → lastRead l h' = lastRead l h) h
        (completeAll leases)
  | [], _, hp, _ => ⟨hp, ⟨fun _ hr => absurd hr List.not_mem_nil, fun _ _ => rfl⟩⟩
  | lease :: leases, h, hp, hnodup => by
    rw [List.map_cons, List.nodup_cons] at hnodup
    refine (completeAndFree_passed hp).bind fun h₁ _ hD₁ => ?_
    refine Prog.Along.call trivial fun updated hup => ?_
    refine (completeAll_passed leases (hD₁.1.cons rfl) hnodup.2).bind fun h₃ rest hD₃ => ?_
    obtain ⟨hp₃, hread, hkeep⟩ := hD₃
    refine ⟨hp₃, fun info hinfo => ?_, fun l hl => ?_⟩
    · rcases List.mem_cons.mp hinfo with heq | hinfo
      · have hid : info.lease_id = lease.lease_id := hup info heq.symm
        have hother : ∀ r ∈ leases, r.lease_id ≠ lease.lease_id := by
          intro r hr heq
          exact hnodup.1 (List.mem_map.mpr ⟨r, hr, heq⟩)
        rw [hid, hkeep _ hother, lastRead_self, heq]
      · exact hread info hinfo
    · rw [hkeep l fun r hr => hl r (List.mem_cons_of_mem _ hr), ← hD₁.2 l]
      exact if_neg (hl lease List.mem_cons_self)

/-- The watchdog settles the leases that it has read, one after the other. -/
theorem settleAll_passed :
    ∀ (rs : List (Option LeaseInfo)) {h : List (Event sig)}, Passed h →
      (∀ lease, some lease ∈ rs → lastRead lease.lease_id h = some lease) →
      Prog.Along (fun _ => Seen E) Charges (fun h' _ => Passed h') h (settleAll rs)
  | [], _, hp, _ => hp
  | none :: _, _, hp, _ => hp
  | some lease :: rs, h, hp, hread => by
    refine (settle_passed hp (hread lease List.mem_cons_self)).bind fun h₁ r hD => ?_
    have hread₁ : ∀ lease, some lease ∈ rs → lastRead lease.lease_id h₁ = some lease := by
      intro lease' hmem
      rw [hD.2]
      exact hread lease' (List.mem_cons_of_mem _ hmem)
    cases r with
    | raised => exact hD.1
    | none | done | settled => exact settleAll_passed rs hD.1 hread₁

/-- A pass of the watchdog, from its reading of the overdue leases to the last settlement. -/
theorem watchdogPass_passed (hp : Passed h) :
    Prog.Along (fun _ => Seen E) Charges (fun h' _ => Passed h') h watchdogPass := by
  refine Prog.Along.call trivial fun ids hids => ?_
  refine (fetchLeases_passed ids (hp.cons rfl)).bind fun h₂ expired hD₂ => ?_
  refine (completeAll_passed expired hD₂.1 (hD₂.2.nodup hids)).bind
    fun h₃ completed hD₃ => ?_
  exact settleAll_passed completed hD₃.1 hD₃.2.1

/-- A repository's statements move no money of a settlement. -/
theorem repository_passed {p : Async Outcome} (hp : Passed h) (hrep : OfRepository h p) :
    Prog.Along (fun _ => Seen E) Charges (fun h' _ => Passed h') h p := by
  refine along_passed hp (hrep.mono (fun _ _ _ => trivial) (fun _ o ho => ?_) fun _ _ hD => hD)
  cases o with
  | charge | payout | rollback => cases ho
  | _ => rfl

/-- Every call passes on what it takes. -/
theorem body_passed {k : Call} (hk : k.isSettle = false) :
    Prog.Along (fun _ => Seen E) Charges (fun h' _ => Passed h') [] k.body := by
  have hnil : Passed [] := fun _ => rfl
  cases k with
  | deposit => exact repository_passed hnil repository_deposit
  | withdraw => exact repository_passed hnil repository_withdraw
  | transfer => exact repository_passed hnil repository_transfer
  | repo => exact repository_passed hnil repository_repoWrite
  | stop => exact stopEndpoint_passed hnil
  | watchdog => exact watchdogPass_passed hnil
  | settle => cases hk

end Paths

/-! ## The writes of a run with restarts -/

/-- What a step does to the log: a restart drops what is pending. -/
def Log.after (l : Log) : Label sig Nat Call → Log
  | .did i e => l.add i e
  | .restarted => ⟨l.committed, []⟩
  | _ => l

/-- The writes of a run. -/
def writesOf (tr : Trace) : Log := tr.foldl (fun l y => l.after y.2) ⟨[], []⟩

/-- The databases are the initial one with the writes of the log done again. -/
structure Ledgered (db : Db) (l : Log) (w : World) : Prop where
  known : ∀ b, w.conn.working.hasAccount b = db.hasAccount b
  known' : ∀ b, w.conn.committed.hasAccount b = db.hasAccount b
  rest : w.conn.in_transaction = false → l.pending = []
  committed : w.conn.committed.money = (redoAll db l.committed).money
  working : w.conn.working.money = (redoAll db (l.committed ++ l.pending)).money

section Statements

variable {db : Db} {l : Log} {w w' : World} {i : Nat} {o : Op} {x : ℚ} {a : o.Ans}

/-- After a restart the database is what was committed, and nothing is pending. -/
theorem Ledgered.restarted (hl : Ledgered db l w) :
    Ledgered db ⟨l.committed, []⟩ w.restarted where
  known := hl.known'
  known' := hl.known'
  rest _ := rfl
  committed := hl.committed
  working := by
    rw [List.append_nil]
    exact hl.committed

/-- A rollback leaves the database at what was committed. -/
theorem Ledgered.exec_rollback {a : Bool} (hl : Ledgered db l w)
    (he : exec i .rollback w x = some (a, w')) : Ledgered db ⟨l.committed, []⟩ w' := by
  simp only [exec, World.rollback, Option.some.injEq] at he
  split at he
  next hin =>
    rw [← (Prod.mk.inj he).2]
    refine ⟨hl.known', hl.known', fun _ => rfl, hl.committed, ?_⟩
    rw [List.append_nil]
    exact hl.committed
  next hin =>
    -- with no transaction open there is nothing to take back
    have hnil := hl.rest (Bool.eq_false_iff.mpr hin)
    rw [← (Prod.mk.inj he).2]
    refine ⟨hl.known, hl.known', fun _ => rfl, hl.committed, ?_⟩
    rw [hl.working, hnil]

/-- A commit adds what was pending to what is committed. -/
theorem Ledgered.exec_commit (hl : Ledgered db l w) (he : exec i .commit w x = some ((), w')) :
    Ledgered db ⟨l.committed ++ l.pending, []⟩ w' := by
  simp only [exec, World.commit, Option.some.injEq, Prod.mk.injEq, true_and] at he
  split at he
  next hin =>
    rw [← he]
    refine ⟨hl.known, hl.known, fun _ => rfl, hl.working, ?_⟩
    rw [List.append_nil]
    exact hl.working
  next hin =>
    have hnil := hl.rest (Bool.eq_false_iff.mpr hin)
    rw [← he, hnil, List.append_nil]
    refine ⟨hl.known, hl.known', fun _ => rfl, hl.committed, ?_⟩
    rw [hl.working, hnil]

/-- Every statement leaves the database at the first one with the log redone. -/
theorem Ledgered.exec (hl : Ledgered db l w) (he : exec i o w x = some (a, w')) :
    Ledgered db (l.add i ⟨o, a⟩) w' := by
  by_cases hrb : o = .rollback
  · subst hrb
    exact hl.exec_rollback he
  by_cases hcm : o = .commit
  · subst hcm
    exact hl.exec_commit he
  obtain ⟨hcommitted, hin⟩ := exec_working he hrb hcm
  have hmoney : w'.conn.working.money =
    (redoAll db (l.committed ++ (l.pending ++ added i ⟨o, a⟩))).money := by
    rw [exec_money he hrb, ← List.append_assoc, redoAll_append, redoAll_added]
    exact money_redo hl.working _
  rw [add_eq_added hrb hcm]
  refine ⟨fun b => (exec_hasAccount he hrb b).trans (hl.known b), fun b => ?_, fun hf => ?_, ?_,
    hmoney⟩
  · rw [hcommitted]
    exact hl.known' b
  · obtain ⟨hf', hw⟩ := hin hf
    have hnone : added i ⟨o, a⟩ = [] := by
      unfold added
      rw [hw, if_neg (by decide)]
    rw [hl.rest hf', hnone, List.append_nil]
  · rw [hcommitted]
    exact hl.committed

/-- What a coroutine sees of the database. -/
theorem exec_seen (hl : Ledgered db l w) (he : exec i o w x = some (a, w')) :
    Seen db.hasAccount ⟨o, a⟩ := by
  have hrely := exec_rely hl.known he
  cases o with
  | getLease id =>
    cases he
    intro info hinfo
    obtain ⟨r, hg, rfl⟩ := Option.map_eq_some_iff.mp hinfo
    exact (Table.mem_of_get hg).2
  | selectExpired =>
    cases he
    exact (List.filter_sublist.map Lease.lease_id).nodup w.conn.working.leases.nodup
  | _ => exact hrely

end Statements

/-! ## The invariant -/

section Runs

variable {db : Db} {l : Log} {c c' : Configuration} {lab : Label sig Nat Call} {tr : Trace}

/-- What holds in every run. -/
structure Kept (db : Db) (l : Log) (c : Configuration) : Prop where
  ledger : Ledgered db l c.world
  paths : c.Along (fun _ => Seen db.hasAccount) (fun _ => Charges) (fun _ h _ => Passed h)

/-- One step of the market keeps the log, the threads and their programs in agreement. -/
theorem Kept.step (hc : Kept db l c) (hs : market.Step c lab c') : Kept db (l.after lab) c' := by
  have hpaths : c'.Along (fun _ => Seen db.hasAccount) (fun _ => Charges)
    (fun _ h _ => Passed h) := by
    refine hc.paths.step hs (fun i h p e hl hp => ?_) fun i k hm => ?_
    · subst hl
      obtain ⟨-, -, x, -, he, -⟩ := hs.did
      exact exec_seen hc.ledger he
    · have hk : (!k.isSettle) = true := hm
      exact body_passed (by simpa using hk)
  refine ⟨?_, hpaths⟩
  rcases market_step hs with ⟨i, k, rfl, -, -, rfl⟩ | ⟨i, h, o, k, x, a, rfl, -, he, -⟩ |
      ⟨rfl, rfl⟩
  · exact hc.ledger
  · exact hc.ledger.exec he
  · exact hc.ledger.restarted

/-- A server that has just been opened has written nothing and runs no call. -/
theorem opened_kept : Kept db ⟨[], []⟩ (opened db) where
  ledger := ⟨fun _ => rfl, fun _ => rfl, fun _ => rfl, rfl, rfl⟩
  paths := Conf.along_of_empty fun _ => rfl

/-- From one step to a whole run. -/
theorem run_kept (hr : Run market (opened db) tr c) : Kept db (writesOf tr) c := by
  refine hr.invariant (I := fun tr c => Kept db (writesOf tr) c) (G := fun _ _ => True)
    (fun tr₁ c₁ lab c₂ _ hI _ hs => ?_) opened_kept fun _ _ _ _ => trivial
  unfold writesOf
  rw [List.foldl_append]
  exact hI.step hs

/-- What the committed writes have taken they have passed on, and what the others have
not is in flight. -/
structure Conserving (l : Log) (c : Configuration) : Prop where
  settled : ∀ i id, taken i id l.committed = credited i id l.committed
  pending : ∀ i id, taken i id l.pending - credited i id l.pending = inFlight id (history c i)

/-- What a call has taken from an account adds up over the log. -/
theorem taken_append {i : Nat} {id : Str} {log log' : List (Nat × Event sig)} :
    taken i id (log ++ log') = taken i id log + taken i id log' := by
  unfold taken
  rw [List.map_append, List.sum_append]

/-- What a call has credited to an account adds up over the log. -/
theorem credited_append {i : Nat} {id : Str} {log log' : List (Nat × Event sig)} :
    credited i id (log ++ log') = credited i id log + credited i id log' := by
  unfold credited
  rw [List.map_append, List.sum_append]

/-- A statement that raises or only reads moves nothing. -/
theorem added_net {i j : Nat} {id : Str} {o : Op} {a : o.Ans} :
    taken j id (added i ⟨o, a⟩) - credited j id (added i ⟨o, a⟩) =
      if j = i then takes id ⟨o, a⟩ - credits id ⟨o, a⟩ else 0 := by
  unfold added
  by_cases hw : writes ⟨o, a⟩ = true
  · rw [if_pos hw]
    unfold taken credited
    by_cases hj : j = i
    · simp [hj]
    · simp [hj, Ne.symm hj]
  · have hzero : takes id ⟨o, a⟩ = 0 ∧ credits id ⟨o, a⟩ = 0 := by
      cases o with
      | charge | payout => exact absurd rfl hw
      | _ => exact ⟨rfl, rfl⟩
    rw [if_neg hw, hzero.1, hzero.2, sub_zero, ite_self]
    exact sub_self 0

/-- A statement changes what is in flight by what it takes and what it credits. -/
theorem inFlight_step {h : List (Event sig)} {o : Op} {a : o.Ans} {id : Str}
    (hrb : o ≠ .rollback) :
    inFlight id (⟨o, a⟩ :: h) =
      inFlight id h + (takes id ⟨o, a⟩ - credits id ⟨o, a⟩) := by
  cases o with
  | rollback => exact absurd rfl hrb
  | _ => exact add_sub_assoc _ _ _

section Did

variable {i : Nat} {h : List (Event sig)} {o : Op} {k : o.Ans → Async Outcome} {a : o.Ans}

/-- At a commit or ROLLBACK that divides no settlement, what is pending is balanced. -/
theorem Conserving.settle (hc : Conserving l c) (hnone : ∀ j id, inFlight id (history c j) = 0)
    (hsame : ∀ j id, inFlight id (history c' j) = inFlight id (history c j)) :
    Conserving ⟨l.committed ++ l.pending, []⟩ c' where
  settled j id := by
    have hbal : taken j id l.pending = credited j id l.pending := by
      rw [← sub_eq_zero, hc.pending, hnone]
    rw [taken_append, credited_append, hc.settled, hbal]
  pending j id := by
    rw [hsame, hnone]
    exact sub_self 0

/-- When nothing is in flight anywhere, dropping the pending statements keeps the sums. -/
theorem Conserving.discard (hc : Conserving l c)
    (hnone : ∀ j id, inFlight id (history c' j) = 0) :
    Conserving ⟨l.committed, []⟩ c' where
  settled := hc.settled
  pending j id := by
    rw [hnone]
    exact sub_self 0

/-- A statement that is logged keeps the sums: what it takes is in flight until it is credited. -/
theorem Conserving.write (hc : Conserving l c) (hrb : o ≠ .rollback)
    (hp : c.pool i = some ⟨h, .op o k⟩)
    (hp' : c'.pool = Function.update c.pool i (some ⟨⟨o, a⟩ :: h, k a⟩)) :
    Conserving ⟨l.committed, l.pending ++ added i ⟨o, a⟩⟩ c' where
  settled := hc.settled
  pending j id := by
    rw [taken_append, credited_append, add_sub_add_comm, hc.pending, added_net, history_update hp']
    by_cases hj : j = i
    · rw [hj, if_pos rfl, if_pos rfl, history_of_pool hp, inFlight_step hrb]
    · rw [if_neg hj, if_neg hj, add_zero]

end Did

/-- One step of the market keeps the sums, a restart included, if it divides no settlement. -/
theorem Conserving.step (hc : Conserving l c) (hk : Kept db l c) (hs : market.Step c lab c')
    (hund : Undivided c lab) : Conserving (l.after lab) c' := by
  rcases market_step hs with ⟨i, k, rfl, -, hdone, rfl⟩ |
      ⟨i, h, o, k, x, a, rfl, hp, he, hp'⟩ |
    ⟨rfl, rfl⟩
  · -- the coroutine before it has passed everything on
    refine ⟨hc.settled, fun j id => (hc.pending j id).trans ?_⟩
    by_cases hj : j = i
    · subst hj
      have hnew : history ⟨c.world, Function.update c.pool j (some ⟨[], k.body⟩)⟩ j =
        [] := by
        unfold history
        dsimp only
        rw [Function.update_self]
      rw [hnew]
      cases hp : c.pool j with
      | none =>
        unfold history
        rw [hp]
      | some t =>
        obtain ⟨h, p⟩ := t
        rw [hp] at hdone
        cases p with
        | op o k => cases hdone
        | ret r =>
          rw [history_of_pool hp]
          exact hk.paths j _ hp id
    · unfold history
      dsimp only
      rw [Function.update_of_ne hj]
  · show Conserving (l.add i ⟨o, a⟩) c'
    -- a rollback drops what is pending, and so there must be nothing in flight elsewhere
    by_cases hrb : o = .rollback
    · subst hrb
      refine hc.discard fun j id => ?_
      rw [history_update hp']
      split
      · rfl
      next hj => exact hund j hj id
    -- a commit settles what is pending; its own coroutine has passed everything on
    by_cases hcm : o = .commit
    · subst hcm
      have hown : Passed h := (hk.paths i _ hp).1
      refine hc.settle (fun j id => ?_) fun j id => ?_
      · by_cases hj : j = i
        · rw [hj, history_of_pool hp]
          exact hown id
        · exact hund j hj id
      · rw [history_update hp']
        split
        next hj =>
          rw [hj, history_of_pool hp]
          exact inFlight_cons rfl
        next => rfl
    rw [add_eq_added hrb hcm]
    exact hc.write hrb hp hp'
  · exact hc.discard fun _ _ => rfl

/-- Nothing has been taken yet. -/
theorem opened_conserving : Conserving ⟨[], []⟩ (opened db) :=
  ⟨fun _ _ => rfl, fun _ _ => sub_self 0⟩

/-- From one step to a whole run. -/
theorem run_conserving (hr : Run market (opened db) tr c)
    (hund : ∀ y ∈ tr, Undivided y.1 y.2) : Conserving (writesOf tr) c := by
  refine hr.invariant (I := fun tr c => Conserving (writesOf tr) c)
    (fun tr₁ c₁ lab c₂ hr₁ hI hG hs => ?_) opened_conserving (Each.of_forall hund)
  unfold writesOf
  rw [List.foldl_append]
  exact hI.step (run_kept hr₁) hs hG

/-- A lease that a coroutine remembers was read in a step of the run, as the row that stood
in the table then. -/
theorem run_readAs {i : Nat} {id : Str} {lease : LeaseInfo} {t : Thread sig Outcome}
    (hr : Run market (opened db) tr c) (ht : c.pool i = some t)
    (hlast : lastRead id t.hist = some lease) :
    ∃ r now, lease = r.info now ∧ ReadAs db tr t.hist i id r now := by
  obtain ⟨c₀, hmem⟩ := hr.hist_mem (fun _ => rfl) i t ht _ (mem_of_lastRead hlast)
  obtain ⟨tr₀, tr₂, htr⟩ := List.append_of_mem hmem
  obtain ⟨c₁, hr₀, hs, -⟩ := hr.split htr
  obtain ⟨-, -, now, -, he, -⟩ := hs.did
  simp only [market, exec, Option.some.injEq, Prod.mk.injEq] at he
  obtain ⟨r, hg, rfl⟩ := Option.map_eq_some_iff.mp he.1
  refine ⟨r, now, rfl, hlast, tr₀, c₀, ?_, hg, fun e hend => ?_⟩
  · refine ⟨tr₂, ?_⟩
    rw [htr, List.append_assoc]
    rfl
  · exact run_ends hr₀ (Or.inl ⟨r, hg, hend⟩)

/-- In every run of calls and restarts: every charge is for a lease that its coroutine has
read, with the end that a completing step gave it, and it stays within what was rented and
within the balance if and only if it is covered: the lease ended on time, or the consumer
had no more than the rent. And if no commit or ROLLBACK divides the settlement of another
coroutine, the committed database is the initial one with writes of which each
settlement's have passed on exactly what they took. -/
theorem charge_covered_iff (hr : Run market (opened db) tr c) :
    (∀ tr₁ c₁ i id account_id amount ok tr₂,
      tr = tr₁ ++ (c₁, Label.did i (⟨.charge id account_id amount, ok⟩ : Event sig)) ::
        tr₂ →
      ∃ r now asked, ReadAs db tr₁ (history c₁ i) i id r now ∧
        r.consumer_id = account_id ∧
        lastBalance account_id (history c₁ i) = some asked ∧
        (Charged r amount (c₁.world.conn.working.balance account_id) ↔
          Covered r (r.endedAt now) asked (c₁.world.conn.working.balance account_id))) ∧
    ((∀ y ∈ tr, Undivided y.1 y.2) →
      c.world.conn.committed.money = (redoAll db (writesOf tr).committed).money ∧
        ∀ i id, taken i id (writesOf tr).committed = credited i id (writesOf tr).committed) := by
  constructor
  · intro tr₁ c₁ i id account_id amount ok tr₂ htr
    obtain ⟨c₂, hr₁, hs, -⟩ := hr.split htr
    obtain ⟨h, k, x, hp, -, -⟩ := hs.did
    obtain ⟨lease, asked, hlease, hcons, hasked, rfl⟩ := ((run_kept hr₁).paths i _ hp).1
    obtain ⟨r, now, rfl, hread⟩ := run_readAs hr₁ hp hlease
    rw [history_of_pool hp]
    exact ⟨r, now, asked, hread, hcons, hasked, charged_iff⟩
  · intro hund
    exact ⟨(run_kept hr).ledger.committed, (run_conserving hr hund).settled⟩

end Runs

/-! ## Samples -/

/-- A charge: the amount, what was rented, and the balance. -/
def chargeOf (y : Configuration × Label sig Nat Call) : Option (ℚ × ℚ × ℚ) :=
  match y.2 with
  | .did i ⟨.charge id account_id amount, _⟩ => (lastRead id (history y.1 i)).map fun lease =>
    (amount, lease.rented, y.1.world.conn.working.balance account_id)
  | _ => none

/-- A step of coroutine 0, or a restart. -/
def isFirst : Label sig Nat Call → Bool
  | .started i _ | .did i _ => i = 0
  | .threw _ _ => false
  | .restarted => true

/-- A coroutine that is alone is not divided by another. -/
theorem undivided_alone {db : Db} {tr : Trace} {c : Configuration}
    (hr : Run market (opened db) tr c) (hfirst : ∀ y ∈ tr, isFirst y.2 = true) :
    ∀ y ∈ tr, Undivided y.1 y.2 := by
  -- there is one coroutine only, and no other has a history
  have halone : ∀ {tr c}, Run market (opened db) tr c → (∀ y ∈ tr, isFirst y.2 = true) →
      ∀ i, i ≠ 0 → c.pool i = none := by
    intro tr c hr hfirst
    refine hr.invariant (I := fun _ c => ∀ i, i ≠ 0 → c.pool i = none)
      (fun _ c₁ lab c₂ _ hI hG hs i hi => ?_) (fun _ _ => rfl) (Each.of_forall hfirst)
    rcases market_step hs with ⟨j, k, rfl, -, -, rfl⟩ | ⟨j, h, o, k, x, a, rfl, -, -, hp'⟩ |
        ⟨-, rfl⟩
    · have hj : j = 0 := by simpa [isFirst] using hG
      dsimp only
      rw [Function.update_of_ne (hj ▸ hi)]
      exact hI i hi
    · have hj : j = 0 := by simpa [isFirst] using hG
      rw [hp', Function.update_of_ne (hj ▸ hi)]
      exact hI i hi
    · rfl
  rintro ⟨c₁, lab⟩ hmem
  obtain ⟨tr₁, tr₂, rfl⟩ := List.append_of_mem hmem
  obtain ⟨c₂, hr₁, -, -⟩ := hr.split rfl
  have hnil : ∀ i, i ≠ 0 → ∀ l, inFlight l (history c₁ i) = 0 := by
    intro i hi l
    unfold history
    rw [halone hr₁ (fun y hy => hfirst y (List.mem_append_left _ hy)) i hi]
    rfl
  have hlab := hfirst _ hmem
  cases lab with
  | did j e =>
    have hj : j = 0 := by simpa [isFirst] using hlab
    subst hj
    obtain ⟨o, a⟩ := e
    cases o with
    | commit | rollback => exact hnil
    | _ => trivial
  | _ => trivial

/-- A restart, and then one call of coroutine 0, all at one time. -/
def callAt (now : ℚ) (k : Call) (n : Nat) : List (Choice Nat ℚ Call) :=
  .restart :: .start 0 k :: List.replicate n (.act 0 now)

/-- The market can take the steps in which the lease is stopped at 85 seconds. -/
private theorem stopped_runs :
    (market.replay (opened leaseDb) (callAt 85 (.stop ['l']) 20)).isSome = true := by
  decide

/-- The lease is stopped after five of its ten seconds. -/
theorem charge_covered_stopped :
    ∃ tr c, Run market (opened leaseDb) tr c ∧ tr.filterMap chargeOf = [(5, 10, 100)] ∧
      (∀ tr₁ c₁ i id account_id amount ok tr₂,
        tr = tr₁ ++ (c₁, Label.did i (⟨.charge id account_id amount, ok⟩ : Event sig)) ::
          tr₂ →
        ∃ r now asked, ReadAs leaseDb tr₁ (history c₁ i) i id r now ∧
          (Charged r amount (c₁.world.conn.working.balance account_id) ↔
            Covered r (r.endedAt now) asked (c₁.world.conn.working.balance account_id))) ∧
      taken 0 ['l'] (writesOf tr).committed = 5 ∧
      (∀ i id, taken i id (writesOf tr).committed = credited i id (writesOf tr).committed) := by
  have hr := Machine.replay_get stopped_runs
  have hfirst : ∀ y ∈ ((market.replay (opened leaseDb) (callAt 85 (.stop ['l']) 20)).get
      stopped_runs).1, isFirst y.2 = true := by
    refine List.all_eq_true.mp ?_
    decide
  have hcharge := charge_covered_iff hr
  refine ⟨_, _, hr, by decide +kernel, fun tr₁ c₁ i id account_id amount ok tr₂ htr => ?_,
    by decide +kernel, (hcharge.2 (undivided_alone hr hfirst)).2⟩
  obtain ⟨r, now, asked, hread, -, -, hiff⟩ :=
    hcharge.1 tr₁ c₁ i id account_id amount ok tr₂ htr
  exact ⟨r, now, asked, hread, hiff⟩

/-- The market can take the steps in which the watchdog finds the lease overdue. -/
private theorem overdue_runs :
    (market.replay (opened leaseDb) (callAt 100 .watchdog 18)).isSome = true := by
  decide +kernel

/-- The server restarts and finds the lease ten seconds overdue: twenty seconds are
charged for ten. -/
theorem charge_overdue :
    ∃ tr c, Run market (opened leaseDb) tr c ∧ tr.filterMap chargeOf = [(20, 10, 100)] ∧
      (leaseDb.leases.get ['l']).map (fun r => r.duration_sec * r.price_per_sec) = some 10 ∧
      taken 0 ['l'] (writesOf tr).committed = 20 ∧
      leaseDb.balance ['c'] = 100 ∧ c.world.conn.committed.balance ['c'] = 80 := by
  have hr := Machine.replay_get overdue_runs
  exact ⟨_, _, hr, by decide +kernel, by decide +kernel, by decide +kernel, by decide,
    by decide +kernel⟩

end TreeMiner.Server
