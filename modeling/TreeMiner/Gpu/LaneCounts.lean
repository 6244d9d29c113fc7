import TreeMiner.Gpu.LaneFinds
import TreeMiner.Lib.Rotation

/-!
# What a mining lane counts

The counter of `runMineLoop` goes round through 1000 places, and a new unit begins at the first
one; the counter of the CPU workers goes round with the shared number they take. The batches for
the developers are at the last places of a round, so that they are never more than the share
that is declared, however often the units are made anew (`dev_fee_share`). The attempts that are
handed over never exceed those that were made (`attempts_bounded`).

Both counts are over any sequence of events of a lane, the restarts of its unit included. Which
batch is for whom is decided by the salt and the prefix of its request, as the submission sees
it, and not by the counter that has led to it.
-/

namespace TreeMiner.Gpu

open Cxx Faults Rotation

/-- The salt of whom a lane works for: the miner, or the consumer of a lease. -/
def ownSalt (context : MiningContext) (identity : MiningIdentityConfig) : Bytes :=
  match context.mode with
  | .PLATFORM_MINING =>
    if context.address.take 2 = lit "0x" then context.address.drop 2 else context.address
  | .SELF_MINING => identity.userAddress.drop 2

/-- The permillage for the developers, and that of the ecosystem. -/
def Options.fee (o : Options) : Nat := o.globalDevfeePermillage.toInt.toNat

def Options.eco (o : Options) : Nat := o.fee / 2

/-- Work for another salt than one's own. -/
def forDevelopers (context : MiningContext) (identity : MiningIdentityConfig) (salt : Bytes) :
    Bool :=
  salt ≠ ownSalt context identity

/-- Such work with the prefix of the ecosystem. -/
def forEcosystem (context : MiningContext) (identity : MiningIdentityConfig)
    (salt keyPrefix : Bytes) :
    Bool :=
  forDevelopers context identity salt && keyPrefix.take 8 = ECODEVFEE_PREFIX

/-- The miner's own salt is not one of the developers'. -/
theorem not_forDevelopers {context : MiningContext} {identity : MiningIdentityConfig} {salt : Bytes}
    (h : salt = ownSalt context identity) : forDevelopers context identity salt = false := by
  unfold forDevelopers
  rw [h]
  exact decide_eq_false fun hne => hne rfl

/-- Nor is it the ecosystem's, once it is not the developers'. -/
theorem not_forEcosystem {context : MiningContext} {identity : MiningIdentityConfig}
    {salt keyPrefix : Bytes} (h : forDevelopers context identity salt = false) :
    forEcosystem context identity salt keyPrefix = false := by
  unfold forEcosystem
  rw [h, Bool.false_and]

theorem substr_eq_some {s t : Bytes} {pos : Nat} (h : substr s pos = some t) : t = s.drop pos := by
  unfold substr at h
  split at h
  · exact (Option.some.inj h).symm
  · cases h

/-- The two prefixes differ within their eight digits. -/
theorem devfee_not_eco (salt : Bytes) : (DEVFEE_PREFIX ++ salt).take 8 ≠ ECODEVFEE_PREFIX := by
  show DEVFEE_PREFIX ≠ ECODEVFEE_PREFIX
  decide

/-! ## Turns for the developers -/

section Work

variable {o : Options} {context : MiningContext} {identity : MiningIdentityConfig} {count : Nat}
  {work : Bytes × Bytes}

/-- Who does not work for himself is at a place of the developers. -/
theorem mineWork_share (hcount : count < 1000) (h : mineWork o context identity count = some work) :
    (forDevelopers context identity work.1 = true → inShare 1000 o.fee count = true) ∧
      (forEcosystem context identity work.1 work.2 = true → inShare 1000 o.eco count = true) := by
  have hself : work.1 = ownSalt context identity →
      (forDevelopers context identity work.1 = true → inShare 1000 o.fee count = true) ∧
        (forEcosystem context identity work.1 work.2 = true →
          inShare 1000 o.eco count = true) := by
    intro hown
    have hnot := not_forDevelopers hown
    rw [hnot, not_forEcosystem hnot]
    exact ⟨fun h => (nomatch h), fun h => (nomatch h)⟩
  unfold mineWork at h
  split at h
  -- on a rented machine nothing is mined for anybody else
  next hmode =>
    cases h
    apply hself
    unfold ownSalt
    rw [hmode]
  next hmode =>
    obtain ⟨salt, hsalt, h⟩ := Option.bind_eq_some_iff.mp h
    have hown : salt = ownSalt context identity := by
      unfold ownSalt
      rw [hmode]
      exact substr_eq_some hsalt
    split at h
    · cases h
      exact hself hown
    split at h
    -- a place of the share: the first ones of it are the ecosystem's
    next hfee =>
      unfold feeTurn at hfee
      simp only [Bool.and_eq_true, decide_eq_true_eq] at hfee
      have hplace : inShare 1000 o.fee count = true := by
        unfold inShare Options.fee
        rw [decide_eq_true_eq]
        omega
      refine ⟨fun _ => hplace, ?_⟩
      split at h
      next heco =>
        intro _
        simp only [Bool.and_eq_true, decide_eq_true_eq] at heco
        rw [Int.tdiv_eq_ediv_of_nonneg (by omega)] at heco
        unfold inShare Options.eco Options.fee
        rw [decide_eq_true_eq]
        omega
      next =>
        obtain ⟨feeSalt, -, h⟩ := Option.bind_eq_some_iff.mp h
        cases h
        intro heco
        unfold forEcosystem at heco
        simp only [Bool.and_eq_true, decide_eq_true_eq] at heco
        exact absurd heco.2 (devfee_not_eco salt)
    next =>
      cases h
      exact hself hown

end Work

/-! ## Places of a lane -/

/-- The batch is one for the work of its place. -/
structure Batch.Worked (o : Options) (b : Batch) : Prop where
  place : b.batchComputeCount < 1000
  work : mineWork o b.look.context b.look.identity b.batchComputeCount =
    some (b.request.salt_hex, b.request.key_prefix)

namespace Lane

variable {device : Device} {o : Options} {lane : Lane}

/-- The place of the next batch. -/
def place (lane : Lane) : Nat := (lane.unit.map MineUnit.batchComputeCount).getD 0

/-- The attempts that the unit carries over to its next batch. -/
def carried (lane : Lane) : Nat := (lane.unit.map fun u => u.attempts.toNat).getD 0

/-- What an event can do to a lane: nothing that a batch comes of, or a turn with a batch. -/
theorem step_cases (lane : Lane) (event : Event) :
    ((lane.step device o event).2 = none ∧ ((lane.step device o event).1.unit = lane.unit ∨
      (lane.step device o event).1.unit = none ∨
      ∃ u, (lane.step device o event).1.unit = some u ∧ u.batchComputeCount = 0 ∧
        u.attempts = 0)) ∨
    ∃ look u salt keyPrefix pattern result hashBackend_ answers,
      lane.unit = some u ∧
      mineWork o look.context look.identity u.batchComputeCount = some (salt, keyPrefix) ∧
      CudaHashBackend.runBatch device look.around (u.request o look.tm_min salt keyPrefix pattern)
        u.hashBackend_ look.answers = (some result, hashBackend_, answers) ∧ result.ok = true ∧
      lane.step device o event =
        ({ lane with unit := some { u with
            hashBackend_
            attempts := (submitMatches u.difficulty u.attempts salt result).2
            batchComputeCount := next 1000 u.batchComputeCount } },
          some ⟨look, u.batchComputeCount, u.request o look.tm_min salt keyPrefix pattern, result,
            (submitMatches u.difficulty u.attempts salt result).1⟩) := by
  unfold step
  split
  -- the set-up of a unit hands nothing on
  next look totalMemory freeMemory =>
    left
    split
    · exact ⟨rfl, .inl rfl⟩
    · refine ⟨rfl, ?_⟩
      unfold construct
      dsimp only
      split
      · exact .inl rfl
      split
      · exact .inl rfl
      split
      · exact .inl rfl
      · exact .inr (.inr ⟨_, rfl, rfl, rfl⟩)
  next look =>
    split
    next u _ hunit =>
      rcases turn_cases lane look u with ⟨hnone, hbatch⟩ |
        ⟨salt, keyPrefix, pattern, result, hashBackend_, answers, hwork, hrun, hok, hturn⟩
      · exact .inl ⟨hbatch, .inr (.inl hnone)⟩
      · exact .inr ⟨look, u, salt, keyPrefix, pattern, result, hashBackend_, answers, hunit,
          hwork, hrun, hok, hturn⟩
    next => exact .inl ⟨rfl, .inl rfl⟩

/-- A batch is one for the place that is due, and the next place follows. -/
theorem step_place (event : Event) (hplace : lane.place < 1000) :
    ((lane.step device o event).2 = none ∧
      ((lane.step device o event).1.place = lane.place ∨
        (lane.step device o event).1.place = 0)) ∨
    ∃ b, (lane.step device o event).2 = some b ∧ b.batchComputeCount = lane.place ∧
      (lane.step device o event).1.place = next 1000 lane.place ∧ b.Worked o := by
  -- only a batch moves the place; a unit that is given up starts again at zero
  rcases @step_cases device o lane event with
    ⟨hbatch, hsame | hnone | ⟨u, hnew, hzero, -⟩⟩ |
    ⟨look, u, salt, keyPrefix, pattern, result, hashBackend_, answers, hunit, hwork, -, -,
      hstep⟩
  · refine .inl ⟨hbatch, .inl ?_⟩
    unfold place
    rw [hsame]
  · refine .inl ⟨hbatch, .inr ?_⟩
    unfold place
    rw [hnone]
    rfl
  · refine .inl ⟨hbatch, .inr ?_⟩
    unfold place
    rw [hnew]
    exact hzero
  · have hu : lane.place = u.batchComputeCount := by
      unfold place
      rw [hunit]
      rfl
    rw [hu] at hplace ⊢
    rw [hstep]
    exact .inr ⟨_, rfl, rfl, rfl, hplace, hwork⟩

/-- The places of the batches of a run follow one another, and go back to the first one with each
new unit. -/
theorem run_places (events : List Event) (hplace : lane.place < 1000) :
    Follows 1000 lane.place ((run device o lane events).2.map Batch.batchComputeCount) ∧
      ∀ b ∈ (run device o lane events).2, b.Worked o := by
  induction events generalizing lane with
  | nil => exact ⟨trivial, fun _ h => nomatch h⟩
  | cons event events ih =>
    show Follows 1000 lane.place (((lane.step device o event).2.toList ++
      (run device o (lane.step device o event).1 events).2).map _) ∧
        ∀ b ∈ (lane.step device o event).2.toList ++
          (run device o (lane.step device o event).1 events).2,
          b.Worked o
    -- the places follow on each other, or the lane starts again from zero
    rcases @step_place device o lane event hplace with
      ⟨hnone, hsame | hzero⟩ | ⟨b, hb, hcount, hnext, hworked⟩
    · rw [hnone, ← hsame]
      exact ih (by rw [hsame]; exact hplace)
    · rw [hnone]
      obtain ⟨hfollows, hall⟩ := ih (by rw [hzero]; decide)
      rw [hzero] at hfollows
      exact ⟨hfollows.of_zero _, hall⟩
    · obtain ⟨hfollows, hall⟩ := ih (by rw [hnext]; exact next_lt (by decide))
      rw [hb]
      refine ⟨⟨Or.inl hcount, ?_⟩, fun b' hb' => ?_⟩
      · rw [hcount, ← hnext]
        exact hfollows
      · rcases List.mem_cons.mp hb' with rfl | hb'
        · exact hworked
        · exact hall b' hb'

end Lane

/-! ## Numbers of the CPU workers -/

section Cpu

variable {o : Options}

/-- The conversion of a signed number, where it is not negative. -/
theorem toNat_ofSigned {x : Int32} (h : 0 ≤ x.toInt) :
    x.toInt64.toUInt64.toNat = x.toInt.toNat := by
  have hle : (0 : Int64) ≤ x.toInt64 := by
    rw [Int64.le_iff_toInt_le, Int32.toInt_toInt64]
    exact h
  rw [Int64.toNat_toUInt64_of_le hle]
  show x.toInt64.toInt.toNat = _
  rw [Int32.toInt_toInt64]

/-- The slots from a start on, as far as it does not wrap around, are a share of the rotation. -/
theorem slot_inShare {slot : UInt64} {permillage : Int32} (hlow : 0 ≤ permillage.toInt)
    (hslot : slot.toNat < 1000) (h : slot ≥ 1000 - permillage.toInt64.toUInt64) :
    inShare 1000 permillage.toInt.toNat slot.toNat = true := by
  have hp := toNat_ofSigned hlow
  have hhigh := permillage.toInt_lt
  have hstart : (1000 - permillage.toInt64.toUInt64).toNat ≤ slot.toNat :=
    UInt64.le_iff_toNat_le.mp h
  rw [UInt64.toNat_sub, hp] at hstart
  have hthousand : (1000 : UInt64).toNat = 1000 := rfl
  unfold inShare
  rw [decide_eq_true_eq]
  omega

/-- A call that takes no number works for itself; one that takes a number works at its place. -/
theorem cpuMineWork_cases (o : Options) (c : WorkCall) (sequence : UInt64) :
    ((cpuMineWork o c sequence).2 = sequence ∧
      ∀ work, (cpuMineWork o c sequence).1 = some work →
        forDevelopers c.context c.identity work.1 = false) ∨
    ((cpuMineWork o c sequence).2 = sequence + 1 ∧
      ∀ work, (cpuMineWork o c sequence).1 = some work →
        (forDevelopers c.context c.identity work.1 = true →
          inShare 1000 o.fee (sequence.toNat % 1000) = true) ∧
        (forEcosystem c.context c.identity work.1 work.2 = true →
          inShare 1000 o.eco (sequence.toNat % 1000) = true)) := by
  unfold cpuMineWork
  split
  next hmode =>
    refine .inl ⟨rfl, ?_⟩
    intro work h
    cases h
    apply not_forDevelopers
    unfold ownSalt
    rw [hmode]
  next hmode =>
    split
    next => exact .inl ⟨rfl, fun _ h => nomatch h⟩
    next userSalt hsalt =>
      have hown : userSalt = ownSalt c.context c.identity := by
        unfold ownSalt
        rw [hmode]
        exact substr_eq_some hsalt
      split
      -- the shared number says whose turn it is, whichever thread takes it
      next hturn =>
        simp only [Bool.and_eq_true, decide_eq_true_eq] at hturn
        have hpositive : 0 < o.globalDevfeePermillage.toInt := Int32.lt_iff_toInt_lt.mp hturn.2
        have hslot : (sequence % 1000).toNat = sequence.toNat % 1000 :=
          UInt64.toNat_mod sequence 1000
        have hbound : (sequence % 1000).toNat < 1000 := by
          rw [hslot]
          exact Nat.mod_lt _ (by decide)
        rw [← hslot]
        refine .inr ?_
        dsimp only
        split
        next hfee =>
          refine ⟨rfl, ?_⟩
          intro work h
          obtain ⟨salt, -, rfl⟩ := Option.map_eq_some_iff.mp h
          refine ⟨fun _ => slot_inShare (Int.le_of_lt hpositive) hbound hfee, ?_⟩
          intro heco
          unfold forEcosystem at heco
          simp only [Bool.and_eq_true, decide_eq_true_eq] at heco
          split at heco
          next huse =>
            have hhalf : (o.globalDevfeePermillage / 2).toInt =
              o.globalDevfeePermillage.toInt / 2 := by
              have hmin : o.globalDevfeePermillage ≠ Int32.minValue := by
                intro hmin
                rw [hmin] at hpositive
                exact absurd hpositive (by decide)
              rw [Int32.toInt_div_of_ne_left _ _ hmin, Int.tdiv_eq_ediv_of_nonneg (by omega)]
              rfl
            have hshare := @slot_inShare _ (o.globalDevfeePermillage / 2) (by omega) hbound
              huse.2
            rw [hhalf] at hshare
            unfold Options.eco Options.fee
            rw [show o.globalDevfeePermillage.toInt.toNat / 2 =
              (o.globalDevfeePermillage.toInt / 2).toNat by omega]
            exact hshare
          next => exact absurd heco.2 (devfee_not_eco userSalt)
        next =>
          refine ⟨rfl, ?_⟩
          intro work h
          cases h
          have hnot := not_forDevelopers hown
          rw [hnot, not_forEcosystem hnot]
          exact ⟨fun h => (nomatch h), fun h => (nomatch h)⟩
      next =>
        refine .inl ⟨rfl, ?_⟩
        intro work h
        cases h
        exact not_forDevelopers hown

/-- The number after one is at the next place, or at the first one where the counter wraps. -/
theorem follows_number {sequence : UInt64} {places : List Nat}
    (h : Follows 1000 ((sequence + 1).toNat % 1000) places) :
    Follows 1000 (next 1000 (sequence.toNat % 1000)) places := by
  have hsucc : (sequence + 1).toNat = (sequence.toNat + 1) % 2 ^ 64 := UInt64.toNat_add sequence 1
  have hlt := sequence.toNat_lt
  by_cases hwrap : sequence.toNat + 1 = 2 ^ 64
  · rw [hsucc, hwrap] at h
    exact h.of_zero _
  · have hsmall : (sequence + 1).toNat = sequence.toNat + 1 := by
      rw [hsucc]
      exact Nat.mod_eq_of_lt (by omega)
    have hplace : (sequence + 1).toNat % 1000 = next 1000 (sequence.toNat % 1000) := by
      rw [hsmall]
      unfold next
      split
      · omega
      · omega
    rw [hplace] at h
    exact h

/-- Work of a call for the developers, and for the ecosystem. -/
def WorkCall.fee (r : WorkCall × Option Work) : Bool :=
  r.2.any fun work => forDevelopers r.1.context r.1.identity work.salt_hex

def WorkCall.eco (r : WorkCall × Option Work) : Bool :=
  r.2.any fun work => forEcosystem r.1.context r.1.identity work.salt_hex work.key_prefix

theorem count_le {f g : Bool} (h : f = true → g = true) :
    (if f then 1 else 0) ≤ if g then 1 else 0 := by
  cases f with
  | false => exact Nat.zero_le _
  | true => rw [h rfl]

/-- The work of a call, as it is handed to a worker. -/
def WorkCall.workOf (c : WorkCall) (mined : Bytes × Bytes) : Work where
  salt_hex := mined.1
  key_prefix := mined.2
  target_pattern := if c.identity.testBlockPattern.isEmpty then
    lit "XEN11" else c.identity.testBlockPattern
  allow_xuni := isWithinXuniWindow c.tm_min

/-- The works of a list of calls are handed out one after the other. -/
theorem cpuWorks_cons (c : WorkCall) (calls : List WorkCall) (sequence : UInt64) :
    cpuWorks o sequence (c :: calls) =
      (c, (cpuMineWork o c sequence).1.map c.workOf) :: cpuWorks o
        (cpuMineWork o c sequence).2 calls :=
  rfl

/-- The numbers that the calls take follow one another, and go back to the first one where the
counter wraps around. -/
theorem cpuWorks_places (o : Options) (calls : List WorkCall) (sequence : UInt64) :
    ∃ places, Follows 1000 (sequence.toNat % 1000) places ∧ places.length ≤ calls.length ∧
      (cpuWorks o sequence calls).countP WorkCall.fee ≤ places.countP (inShare 1000 o.fee) ∧
      (cpuWorks o sequence calls).countP WorkCall.eco ≤ places.countP (inShare 1000 o.eco) := by
  induction calls generalizing sequence with
  | nil => exact ⟨[], trivial, Nat.le_refl _, Nat.le_refl _, Nat.le_refl _⟩
  | cons c calls ih =>
    obtain ⟨places, hfollows, hlen, hfee, heco⟩ := ih (cpuMineWork o c sequence).2
    rw [cpuWorks_cons, List.countP_cons, List.countP_cons, List.length_cons]
    rcases cpuMineWork_cases o c sequence with ⟨hsame, hown⟩ | ⟨hnext, hshare⟩
    · -- no number is taken
      have hhead : WorkCall.fee (c, (cpuMineWork o c sequence).1.map c.workOf) = false ∧
          WorkCall.eco (c, (cpuMineWork o c sequence).1.map c.workOf) = false := by
        cases hmined : (cpuMineWork o c sequence).1 with
        | none => exact ⟨rfl, rfl⟩
        | some work => exact ⟨hown work hmined, not_forEcosystem (hown work hmined)⟩
      rw [hsame] at hfollows
      rw [hhead.1, hhead.2]
      exact ⟨places, hfollows, Nat.le_succ_of_le hlen, hfee, heco⟩
    · have hhead : (WorkCall.fee (c, (cpuMineWork o c sequence).1.map c.workOf) = true →
            inShare 1000 o.fee (sequence.toNat % 1000) = true) ∧
          (WorkCall.eco (c, (cpuMineWork o c sequence).1.map c.workOf) = true →
            inShare 1000 o.eco (sequence.toNat % 1000) = true) := by
        cases hmined : (cpuMineWork o c sequence).1 with
        | none => exact ⟨fun h => (nomatch h), fun h => (nomatch h)⟩
        | some work => exact hshare work hmined
      rw [hnext] at hfollows
      refine ⟨sequence.toNat % 1000 :: places, ⟨.inl rfl, follows_number hfollows⟩,
        Nat.succ_le_succ hlen, ?_, ?_⟩
      · rw [List.countP_cons]
        exact Nat.add_le_add hfee (count_le hhead.1)
      · rw [List.countP_cons]
        exact Nat.add_le_add heco (count_le hhead.2)

end Cpu

/-! ## The share of the developers -/

theorem countP_map_le {α : Type} {p : α → Bool} {f : α → Nat} {q : Nat → Bool}
    {l : List α}
    (h : ∀ a ∈ l, p a = true → q (f a) = true) : l.countP p ≤ (l.map f).countP q := by
  rw [List.countP_map]
  exact List.countP_mono_left h

/-- However often the units of a lane are made anew, and whatever the settings change to: of the
batches of a lane, and of the batches that the CPU workers are given work for, no more than the
permillage of the command line are for the developers, and no more than half of it for the
ecosystem. -/
theorem dev_fee_share (device : Device) (o : Options) (deviceIndex : Int) (streamIndex : Int32)
    (events : List Event) (calls : List WorkCall) :
    let batches := (Lane.run device o (Lane.new deviceIndex streamIndex) events).2
    let works := cpuWorks o 0 calls
    (1000 * batches.countP (fun b =>
        forDevelopers b.look.context b.look.identity b.request.salt_hex) ≤
          o.fee * batches.length ∧
      1000 * batches.countP (fun b =>
        forEcosystem b.look.context b.look.identity b.request.salt_hex b.request.key_prefix) ≤
          o.eco * batches.length) ∧
    1000 * works.countP WorkCall.fee ≤ o.fee * calls.length ∧
      1000 * works.countP WorkCall.eco ≤ o.eco * calls.length := by
  intro batches works
  have hnew : (Lane.new deviceIndex streamIndex).place = 0 := rfl
  obtain ⟨hbatches, hworked⟩ := @Lane.run_places device o
    (Lane.new deviceIndex streamIndex) events (by rw [hnew]; decide)
  rw [hnew] at hbatches
  -- each batch asks for the work of its own place in the cycle
  have hlane : ∀ b ∈ batches, _ :=
    fun b hb => mineWork_share (hworked b hb).place (hworked b hb).work
  obtain ⟨places, hplaces, hlen, hfee, heco⟩ := cpuWorks_places o calls 0
  refine ⟨⟨?_, ?_⟩, ?_, ?_⟩
  · have hle := share_le (q := o.fee) (by decide) hbatches
    rw [List.length_map] at hle
    exact (Nat.mul_le_mul_left _ (countP_map_le fun b hb => (hlane b hb).1)).trans hle
  · have hle := share_le (q := o.eco) (by decide) hbatches
    rw [List.length_map] at hle
    exact (Nat.mul_le_mul_left _ (countP_map_le fun b hb => (hlane b hb).2)).trans hle
  · calc 1000 * works.countP WorkCall.fee
        ≤ 1000 * places.countP (inShare 1000 o.fee) := Nat.mul_le_mul_left _ hfee
      _ ≤ o.fee * places.length := share_le (by decide) hplaces
      _ ≤ o.fee * calls.length := Nat.mul_le_mul_left _ hlen
  · calc 1000 * works.countP WorkCall.eco
        ≤ 1000 * places.countP (inShare 1000 o.eco) := Nat.mul_le_mul_left _ heco
      _ ≤ o.eco * places.length := share_le (by decide) hplaces
      _ ≤ o.eco * calls.length := Nat.mul_le_mul_left _ hlen

/-! ## Attempts -/

/-- All matches of one hash belong to the attempt that was hashed. -/
theorem mem_appendMatches_index {request : HashApiRequest} {key hash : Bytes}
    {attempt_index : Nat} :
    ∀ m ∈ appendMatches request key hash attempt_index, m.attempt_index = attempt_index := by
  intro m hm
  unfold appendMatches at hm
  rcases List.mem_append.mp hm with hm | hm
  · split at hm
    · rw [List.mem_singleton.mp hm]
    · cases hm
  · split at hm
    · rw [List.mem_singleton.mp hm]
    · cases hm

/-- Whatever the device answers, the matches of a batch lie in it. -/
theorem CudaHashBackend.runBatch_inside (device : Device) (around : Surroundings)
    (request : HashApiRequest) (s : CudaHashBackend) :
    (runBatch device around request).Ensures True s (fun result _ => result.ok = true →
      Inside result)
      fun _ => True := by
  refine runBatch_ensures fun _ result hnone => ?_
  -- what the calls before the matches do is of no matter
  have hany : ∀ {α : Type} {m : Faulty Ptr CudaHashBackend α} {s : CudaHashBackend},
      m.Ensures True s (fun _ _ => True) fun _ => True := by
    intro α m s
    have htrue : m.Preserves fun _ => True := fun _ _ h => h
    exact htrue.ensures trivial
  refine Faulty.Ensures.bind (hany.mono (fun _ s₁ _ => ?_) fun _ h => h)
  refine Faulty.Ensures.bind (hany.mono (fun _ s₂ _ => ?_) fun _ h => h)
  refine Faulty.Ensures.bind (hany.mono (fun _ s₃ _ => ?_) fun _ h => h)
  refine Faulty.Ensures.bind (Faulty.ensures_get (Faulty.ensures_pure ?_))
  intro m hm
  rw [show _ = (finalizeFrom request s₃.password_storage_ _ 0 result).«matches» from rfl,
    finalizeFrom_matches, hnone] at hm
  unfold matchesFrom at hm
  obtain ⟨job, hjob, hmem⟩ := List.mem_flatMap.mp hm
  rw [mem_appendMatches_index m hmem]
  obtain ⟨-, hlt⟩ := List.mem_range'_1.mp hjob
  show job < request.attempts.toNat
  omega

/-- A sum of numbers cut to 64 bits is no more than the sum of the numbers. -/
theorem sum_toNat_le (ns : List Nat) : ((ns.map UInt64.ofNat).map UInt64.toNat).sum ≤ ns.sum := by
  induction ns with
  | nil => exact Nat.le_refl _
  | cons n ns ih =>
    rw [List.map_cons, List.map_cons, List.sum_cons, List.sum_cons]
    exact Nat.add_le_add (Nat.mod_le n (2 ^ 64)) ih

/-- A batch hands over and carries on no more than it was given and has made. -/
theorem submitMatches_attempts_le (difficulty attempts : UInt64) (salt : Bytes)
    {result : HashApiResult} (hinside : Inside result) :
    ((submitMatches difficulty attempts salt result).1.map fun c => c.attempts.toNat).sum +
        (submitMatches difficulty attempts salt result).2.toNat ≤
      attempts.toNat + result.attempts.toNat := by
  have htotal := @ticks_total (fun _ => true) _ _ _ (Nat.zero_le result.attempts.toNat) hinside
  let ts := ticks (fun _ => true) result.attempts.toNat 0 result.«matches»
  have hmeter : Meter.run UInt64.ofNat attempts ts =
      ((submitMatches difficulty attempts salt result).1.map (·.attempts),
        (submitMatches difficulty attempts salt result).2) :=
    submitMatchesLoop_meter attempts (Nat.zero_le _) hinside
  have hmap : Meter.run UInt64.ofNat (UInt64.ofNat attempts.toNat) ts = _ :=
    Meter.run_map rfl (fun a b => UInt64.ofNat_add a b) attempts.toNat
  rw [UInt64.ofNat_toNat] at hmap
  obtain ⟨hpassed, hrest⟩ := Prod.mk.inj (hmeter.symm.trans hmap)
  have hsum := @Meter.run_sum ts attempts.toNat
  have hhanded := sum_toNat_le (Meter.run id attempts.toNat ts).1
  have hcarried : (submitMatches difficulty attempts salt result).2.toNat ≤
      (Meter.run id attempts.toNat ts).2 := by
    rw [hrest]
    exact Nat.mod_le _ (2 ^ 64)
  rw [← hpassed, List.map_map] at hhanded
  calc _ ≤ (Meter.run id attempts.toNat ts).1.sum + (Meter.run id attempts.toNat ts).2 :=
        Nat.add_le_add hhanded hcarried
    _ = attempts.toNat + Meter.total ts := hsum
    _ = attempts.toNat + result.attempts.toNat := congrArg _ htotal

/-- The attempts that are handed over with the submitted keys of some batches. -/
def handed (batches : List Batch) : Nat :=
  (batches.map fun b => (b.calls.map fun c => c.attempts.toNat).sum).sum

/-- The attempts that some batches have made. -/
def made (batches : List Batch) : Nat := (batches.map fun b => b.result.attempts.toNat).sum

/-- One step of a lane hands on no more attempts than it has carried and made. -/
theorem Lane.step_attempts {device : Device} {o : Options} (lane : Lane) (event : Event) :
    handed (lane.step device o event).2.toList + (lane.step device o event).1.carried ≤
      lane.carried + made (lane.step device o event).2.toList := by
  rcases @step_cases device o lane event with
    ⟨hbatch, hsame | hnone | ⟨u, hnew, -, hzero⟩⟩ |
    ⟨look, u, salt, keyPrefix, pattern, result, hashBackend_, answers, hunit, -, hrun, hok,
      hstep⟩
  · unfold carried
    rw [hbatch, hsame]
    exact Nat.le_of_eq (Nat.add_comm _ _)
  · unfold carried
    rw [hbatch, hnone]
    exact Nat.zero_le _
  · unfold carried
    rw [hbatch, hnew, Option.map_some, Option.getD_some, hzero]
    exact Nat.zero_le _
  · have hinside : Inside result :=
      (CudaHashBackend.runBatch_inside device look.around _ u.hashBackend_).returned hrun hok
    have hle := submitMatches_attempts_le u.difficulty u.attempts salt hinside
    unfold carried
    rw [hstep, hunit]
    exact hle

/-- From one step to a whole run. -/
theorem Lane.run_attempts {device : Device} {o : Options} (events : List Event) (lane : Lane) :
    handed (run device o lane events).2 + (run device o lane events).1.carried ≤
      lane.carried + made (run device o lane events).2 := by
  induction events generalizing lane with
  | nil => exact Nat.le_of_eq (Nat.add_comm _ _)
  | cons event events ih =>
    have hstep := @step_attempts device o lane event
    have hrest := ih (lane.step device o event).1
    have happend : ∀ (first rest : List Batch), handed (first ++ rest) =
      handed first + handed rest ∧
        made (first ++ rest) = made first + made rest := by
      intro first rest
      unfold handed made
      rw [List.map_append, List.sum_append, List.map_append, List.sum_append]
      exact ⟨rfl, rfl⟩
    show handed ((lane.step device o event).2.toList ++
        (run device o (lane.step device o event).1 events).2) +
        (run device o (lane.step device o event).1 events).1.carried ≤
      lane.carried + made ((lane.step device o event).2.toList ++
        (run device o (lane.step device o event).1 events).2)
    rw [(happend _ _).1, (happend _ _).2]
    omega

/-- Whatever the device answers and however often the units of a lane are made anew: the attempts
that are handed over with the submitted keys, and those that wait for the next key, never exceed
the attempts that the batches have made. -/
theorem attempts_bounded (device : Device) (o : Options) (deviceIndex : Int) (streamIndex : Int32)
    (events : List Event) :
    let r := Lane.run device o (Lane.new deviceIndex streamIndex) events
    handed r.2 + r.1.carried ≤ made r.2 := by
  intro r
  have hrun := @Lane.run_attempts device o events (Lane.new deviceIndex streamIndex)
  rw [show (Lane.new deviceIndex streamIndex).carried = 0 from rfl, Nat.zero_add] at hrun
  exact hrun

end TreeMiner.Gpu
