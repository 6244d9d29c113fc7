import Mathlib.Data.List.Dedup
import Mathlib.Data.List.Induction
import TreeMiner.Server.Accounts

/-!
# Which blocks a lease is credited with (`watcher.py`, `chain_simulator.py`)

A worker reports a block it has found for a lease; the watcher looks the key up on the
chain, stores a row, and counts the block for the lease. A report may be delivered more
than once, and the chain grows between the reports.

Two things keep the count from being the number of distinct keys: nothing remembers that
a key was counted before, and the lookup sees the hundred newest blocks of a prefix only.
`credit_exact_iff` says that these are all.

Lowercasing is character by character, each character becoming `fold c`; the theorems
hold for every `fold`.
-/

namespace TreeMiner.Watcher

open Server

/-! ## The chain simulator -/

def PLATFORM_PREFIX_LENGTH : Nat := 16

/-- `str.lower`. -/
def lower (fold : Char → List Char) (s : Str) : Str := s.flatMap fold

/-- A `ChainBlock`. -/
structure ChainBlock where
  block_id : Nat
  account : Str
  key : Str
  deriving DecidableEq

/-- `ChainSimulator`: the blocks in the order they were accepted. -/
structure ChainSimulator where
  blocks : List ChainBlock := []
  next_block_id : Nat := 1
  known_keys : List Str := []
  deriving DecidableEq

/-- `submit_block`, given what `validate_key` and `classify_block` say. -/
def ChainSimulator.submitBlock (chain : ChainSimulator) (key_valid classified : Bool)
    (key account : Str) : ChainSimulator :=
  if !key_valid then chain
  else if chain.known_keys.any fun k => k = key then chain
  else if !classified then chain
  else
    { blocks := chain.blocks ++ [⟨chain.next_block_id, account, key⟩]
      next_block_id := chain.next_block_id + 1
      known_keys := key :: chain.known_keys }

/-- `get_blocks_by_key_prefix`: newest first. -/
def ChainSimulator.getBlocksByKeyPrefix (fold : Char → List Char) (chain : ChainSimulator)
    (start : Str) (limit : Nat) : List ChainBlock :=
  (chain.blocks.reverse.filter fun b => (lower fold start).isPrefixOf (lower fold b.key)).take limit

/-- The key is on the chain. -/
def ChainSimulator.has (chain : ChainSimulator) (key : Str) : Bool :=
  chain.blocks.any fun b => b.key = key

/-! ## The repositories -/

/-- A row of `leases`. -/
structure LeaseRow where
  lease_id : Str
  prefix_ : Str
  blocks_found : Nat := 0
  deriving DecidableEq

/-- A row of `blocks`. -/
structure BlockRow where
  lease_id : Str
  worker_id : Str
  block_hash : Str
  key : Str
  account : Str
  attempts : Int
  hashrate : Str
  prefix_valid : Bool
  chain_verified : Bool
  chain_block_id : Option Nat
  deriving DecidableEq

/-- A row of `workers`. -/
structure WorkerRow where
  worker_id : Str
  self_blocks_found : Nat
  deriving DecidableEq

/-- What the watcher works on; it may have no chain and no workers. -/
structure State where
  leases : Table LeaseRow.lease_id := Table.empty
  blocks : List BlockRow := []
  workers : Option (Table WorkerRow.worker_id) := none
  chain : Option ChainSimulator := none

def LeaseRow.counted (r : LeaseRow) : LeaseRow := { r with blocks_found := r.blocks_found + 1 }

def WorkerRow.counted (r : WorkerRow) : WorkerRow :=
  { r with self_blocks_found := r.self_blocks_found + 1 }

/-- Counting a block leaves the lease its name. -/
theorem LeaseRow.counted_lease_id (r : LeaseRow) : r.counted.lease_id = r.lease_id := rfl

/-- Counting a block leaves the worker its name. -/
theorem WorkerRow.counted_worker_id (r : WorkerRow) : r.counted.worker_id = r.worker_id := rfl

/-- `LeaseRepo.increment_blocks`. -/
def State.incrementBlocks (st : State) (lease_id : Str) : State :=
  { st with leases := st.leases.modify lease_id LeaseRow.counted LeaseRow.counted_lease_id }

/-- `WorkerRepo.increment_self_blocks`. -/
def State.incrementSelfBlocks (st : State) (worker_id : Str) : State :=
  { st with workers := st.workers.map fun t =>
      t.modify worker_id WorkerRow.counted WorkerRow.counted_worker_id }

/-- `BlockRepo.create`. -/
def State.create (st : State) (row : BlockRow) : State := { st with blocks := st.blocks ++ [row] }

/-! ## `BlockWatcher` -/

/-- A `block_found` message: what it does not have takes its default. -/
structure BlockFound where
  worker_id : Option Str := none
  lease_id : Str := []
  key : Str := []
  hash : Str := []
  account : Str := []
  attempts : Int := 0
  hashrate : Str := "0.0".toList
  deriving DecidableEq

section Watcher

variable (fold : Char → List Char)

/-- The lease's prefix, if it has one, starts the key. -/
def prefixValid (lease : LeaseRow) (key : Str) : Bool :=
  lease.prefix_ = [] || lower fold (key.take PLATFORM_PREFIX_LENGTH) = lower fold lease.prefix_

/-- Whether the block is found on the chain, and its id there. -/
def chainVerified (chain : Option ChainSimulator) (key : Str) : Bool × Option Nat :=
  match chain with
  | none => (true, none)
  | some chain =>
    -- the default limit
    match (chain.getBlocksByKeyPrefix fold (key.take PLATFORM_PREFIX_LENGTH) 100).find?
        fun cb => cb.key = key with
    | some cb => (true, some cb.block_id)
    | none => (false, none)

/-- `_handle_self_mined_block`. -/
def handleSelfMinedBlock (st : State) (worker_id : Str) (msg : BlockFound) : State :=
  (st.create
    { lease_id := [], worker_id, block_hash := msg.hash, key := msg.key, account := msg.account
      attempts := msg.attempts, hashrate := msg.hashrate, prefix_valid := true
      chain_verified := true, chain_block_id := none }).incrementSelfBlocks worker_id

/-- The row of a leased block. -/
def leasedRow (st : State) (lease : LeaseRow) (worker_id : Str) (msg : BlockFound) : BlockRow where
  lease_id := msg.lease_id
  worker_id := worker_id
  block_hash := msg.hash
  key := msg.key
  account := msg.account
  attempts := msg.attempts
  hashrate := msg.hashrate
  prefix_valid := prefixValid fold lease msg.key
  chain_verified := (chainVerified fold st.chain msg.key).1
  chain_block_id := (chainVerified fold st.chain msg.key).2

/-- `handle_block_found`. -/
def handleBlockFound (st : State) (msg : BlockFound) (worker_id_from_topic : Str) : State :=
  let worker_id := msg.worker_id.getD worker_id_from_topic
  if msg.lease_id = [] then handleSelfMinedBlock st worker_id msg
  else
    match st.leases.get msg.lease_id with
    | none => st
    | some lease =>
      let row := leasedRow fold st lease worker_id msg
      if row.chain_verified && row.prefix_valid then
        (st.create row).incrementBlocks msg.lease_id
      else st.create row

/-! ## Runs -/

/-- What happens to the server: a message, a block submitted to the chain, a new lease. -/
inductive Event where
  | block_found (msg : BlockFound) (worker_id_from_topic : Str)
  | submitted (key_valid classified : Bool) (key account : Str)
  | rented (lease_id prefix_ : Str)
  deriving DecidableEq

def step (st : State) : Event → State
  | .block_found msg worker_id => handleBlockFound fold st msg worker_id
  | .submitted key_valid classified key account =>
    { st with chain := st.chain.map fun c => c.submitBlock key_valid classified key account }
  | .rented lease_id prefix_ =>
    { st with leases := (st.leases.insert? { lease_id, prefix_ }).getD st.leases }

/-- The server with a chain simulator, before anything happened. -/
def opened : State := { chain := some {} }

/-- Where a run leads. -/
def after (run : List Event) : State := run.foldl (step fold) opened

/-! ## Credit -/

/-- The key is on the chain of the state. -/
def State.onChain (st : State) (key : Str) : Bool := st.chain.any fun c => c.has key

/-- The key a message earns the lease: the message names the lease, and the key is on the
chain and starts with the lease's prefix. -/
def earns (lease_id : Str) (st : State) : Event → Option Str
  | .block_found msg _ =>
    match st.leases.get lease_id with
    | some lease =>
      if lease_id ≠ [] ∧ msg.lease_id = lease_id ∧ st.onChain msg.key = true ∧
          prefixValid fold lease msg.key = true then some msg.key else none
    | none => none
  | _ => none

/-- The keys the messages of a run earn the lease, with repetitions. -/
def earned (lease_id : Str) (st : State) : List Event → List Str
  | [] => []
  | e :: run => (earns fold lease_id st e).toList ++ earned lease_id (step fold st e) run

/-- Every lease has been credited with the distinct keys it has earned. -/
def Credited (run : List Event) : Prop :=
  ∀ lease_id lease, (after fold run).leases.get lease_id = some lease →
    lease.blocks_found = (earned fold lease_id opened run).dedup.length

/-- The message stores a row, verified if and only if its key is on the chain, unless it
names no lease or an unknown one. -/
def Verified (st : State) (msg : BlockFound) (worker_id : Str) : Prop :=
  ∀ lease, msg.lease_id ≠ [] → st.leases.get msg.lease_id = some lease →
    ∃ row, (handleBlockFound fold st msg worker_id).blocks = st.blocks ++ [row] ∧
      row.lease_id = msg.lease_id ∧ row.key = msg.key ∧ row.chain_verified = st.onChain msg.key

/-- The blocks that came after that of the key and start with the same characters. -/
def ChainSimulator.newer (chain : ChainSimulator) (key : Str) : List ChainBlock :=
  (chain.blocks.reverse.takeWhile fun b => decide (b.key ≠ key)).filter fun b =>
    (lower fold (key.take PLATFORM_PREFIX_LENGTH)).isPrefixOf (lower fold b.key)

/-- The condition on a message: if it names a lease and its key is on the chain, fewer than
a hundred newer blocks share its first characters, and it earns the lease no key that was
earned before. -/
structure Fresh (earlier : List Event) (msg : BlockFound) (worker_id : Str) : Prop where
  recent : ∀ lease chain, msg.lease_id ≠ [] →
    (after fold earlier).leases.get msg.lease_id = some lease →
    (after fold earlier).chain = some chain → chain.has msg.key = true →
    (chain.newer fold msg.key).length < 100
  unseen : ∀ key, earns fold msg.lease_id (after fold earlier) (.block_found msg worker_id) =
    some key →
    key ∉ earned fold msg.lease_id opened earlier

end Watcher

/-! ## The lookup -/

section Lookup

variable {fold : Char → List Char} {chain : ChainSimulator} {key : Str}

/-- An element is among the first `n` that pass a filter if fewer than `n` before it pass. -/
theorem find_take_filter {α : Type} {m p : α → Bool} :
    ∀ (xs : List α) (n : Nat), (∀ x ∈ xs, p x = true → m x = true) →
      ((((xs.filter m).take n).find? p).isSome = true ↔
        xs.any p = true ∧ ((xs.takeWhile fun x => !p x).filter m).length < n)
  | [], n, _ => by simp
  | x :: xs, n, hpm => by
    have hrec := fun n => find_take_filter xs n fun y hy => hpm y (List.mem_cons_of_mem _ hy)
    by_cases hp : p x = true
    · have hm := hpm x List.mem_cons_self hp
      rw [List.filter_cons_of_pos hm, List.takeWhile_cons_of_neg (by rw [hp]; decide)]
      cases n with
      | zero => simp
      | succ n => simp [hp]
    · have hp' : p x = false := Bool.eq_false_iff.mpr hp
      rw [List.takeWhile_cons_of_pos (by rw [hp']; rfl), List.any_cons, hp', Bool.false_or]
      by_cases hm : m x = true
      · rw [List.filter_cons_of_pos hm, List.filter_cons_of_pos hm, List.length_cons]
        cases n with
        | zero => simp
        | succ n =>
          rw [List.take_succ_cons, List.find?_cons_of_neg hp, hrec n, Nat.succ_lt_succ_iff]
      · rw [List.filter_cons_of_neg hm, List.filter_cons_of_neg hm]
        exact hrec n

/-- The lower case of a text is that of its pieces. -/
theorem lower_append {a b : Str} : lower fold (a ++ b) = lower fold a ++ lower fold b :=
  List.flatMap_append

/-- A key starts with its own first characters, in lower case too. -/
theorem lower_take (key : Str) (n : Nat) :
    (lower fold (key.take n)).isPrefixOf (lower fold key) = true := by
  rw [List.isPrefixOf_iff_prefix]
  refine ⟨lower fold (key.drop n), ?_⟩
  rw [← lower_append, List.take_append_drop]

/-- A block is verified when the chain has its key among the hundred newest rows that are asked for.
-/
theorem chainVerified_iff : (chainVerified fold (some chain) key).1 = true ↔
    chain.has key = true ∧ (chain.newer fold key).length < 100 := by
  have hfind := find_take_filter (p := fun b : ChainBlock => decide (b.key = key))
    (m := fun b : ChainBlock =>
      (lower fold (key.take PLATFORM_PREFIX_LENGTH)).isPrefixOf (lower fold b.key))
    chain.blocks.reverse 100 (by
      intro b _ hb
      rw [of_decide_eq_true hb]
      exact lower_take key _)
  have hsome : (chainVerified fold (some chain) key).1 =
      ((chain.getBlocksByKeyPrefix fold (key.take PLATFORM_PREFIX_LENGTH) 100).find?
        fun cb => cb.key = key).isSome := by
    unfold chainVerified
    dsimp only
    split
    next h => rw [h]; rfl
    next h => rw [h]; rfl
  rw [hsome]
  unfold ChainSimulator.getBlocksByKeyPrefix ChainSimulator.has ChainSimulator.newer
  rw [hfind, List.any_reverse]
  simp only [decide_not]

end Lookup

/-! ## What a step does -/

section Steps

variable {fold : Char → List Char} {st : State} {lease lease' : LeaseRow} {l : Str} {e : Event}
  {msg : BlockFound} {worker_id : Str}

/-- Only the lease named gets its block counted. -/
theorem increment_blocks_get {lease_id : Str} : (st.incrementBlocks lease_id).leases.get l =
    (st.leases.get l).map fun r => if r.lease_id = lease_id then r.counted else r := by
  exact @Table.get_modify _ _ _ _ st.leases l LeaseRow.counted LeaseRow.counted_lease_id lease_id

/-- The message is counted for the lease. -/
def counts (fold : Char → List Char) (l : Str) (st : State) (lease : LeaseRow) : Event → Bool
  | .block_found msg _ => l ≠ [] && msg.lease_id = l && (chainVerified fold st.chain msg.key).1 &&
    prefixValid fold lease msg.key
  | _ => false

/-- What the handler does for a message of a known lease: it stores the block, and counts it when it
is verified. -/
theorem handle_leased (hid : msg.lease_id ≠ []) (hg : st.leases.get msg.lease_id = some lease) :
    handleBlockFound fold st msg worker_id =
      if counts fold msg.lease_id st lease (.block_found msg worker_id) = true then
        (st.create (leasedRow fold st lease (msg.worker_id.getD worker_id) msg)).incrementBlocks
          msg.lease_id
      else st.create (leasedRow fold st lease (msg.worker_id.getD worker_id) msg) := by
  unfold handleBlockFound
  dsimp only
  rw [if_neg hid, hg]
  simp [counts, leasedRow, hid]

/-- Such a block is stored in either case. -/
theorem handle_blocks (hid : msg.lease_id ≠ []) (hg : st.leases.get msg.lease_id = some lease) :
    (handleBlockFound fold st msg worker_id).blocks =
      st.blocks ++ [leasedRow fold st lease (msg.worker_id.getD worker_id) msg] := by
  rw [handle_leased hid hg]
  split <;> rfl

/-- A lease that was there is there, and one more is counted if the message counts. -/
theorem step_lease (fold : Char → List Char) (e : Event) (hg : st.leases.get l = some lease) :
    ∃ lease', (step fold st e).leases.get l = some lease' ∧ lease'.prefix_ = lease.prefix_ ∧
      lease'.blocks_found = lease.blocks_found + if counts fold l st lease e then 1 else 0 := by
  cases e with
  | submitted => exact ⟨lease, hg, rfl, rfl⟩
  -- another lease is rented, or the same id, which the table refuses
  | rented lease_id prefix_ =>
    refine ⟨lease, ?_, rfl, rfl⟩
    show (((st.leases.insert? { lease_id, prefix_ }).getD st.leases).get l) = some lease
    cases hins : st.leases.insert? { lease_id, prefix_ } with
    | none => exact hg
    | some t =>
      rw [Option.getD_some, Table.get_insert? hins, if_neg, hg]
      rintro rfl
      rw [Table.insert?_isSome.mp (by rw [hins]; rfl)] at hg
      cases hg
  | block_found msg worker_id =>
    have hother : (msg.lease_id = l → l = [] ∨ st.leases.get l = none) →
        counts fold l st lease (.block_found msg worker_id) = false := by
      intro hne
      unfold counts
      by_cases hl : msg.lease_id = l
      · rcases hne hl with rfl | hnone
        · rfl
        · rw [hnone] at hg
          cases hg
      · simp [hl]
    show ∃ lease', (handleBlockFound fold st msg worker_id).leases.get l = some lease' ∧ _
    -- a block without a lease, of a lease that is not known, or of a known one
    by_cases hid : msg.lease_id = []
    · rw [hother fun hl => Or.inl (hl ▸ hid)]
      unfold handleBlockFound
      rw [if_pos hid]
      exact ⟨lease, hg, rfl, rfl⟩
    cases hm : st.leases.get msg.lease_id with
    | none =>
      rw [hother fun hl => Or.inr (hl ▸ hm)]
      unfold handleBlockFound
      rw [if_neg hid, hm]
      exact ⟨lease, hg, rfl, rfl⟩
    | some named =>
      rw [handle_leased hid hm]
      by_cases hl : msg.lease_id = l
      · subst hl
        rw [hg] at hm
        cases hm
        split
        next hc =>
          refine ⟨lease.counted, ?_, rfl, rfl⟩
          rw [increment_blocks_get]
          show (st.leases.get msg.lease_id).map _ = _
          rw [hg, Option.map_some, if_pos (Table.mem_of_get hg).2]
        next hc => exact ⟨lease, hg, rfl, rfl⟩
      · rw [hother fun h => absurd h hl]
        split
        next =>
          refine ⟨lease, ?_, rfl, rfl⟩
          rw [increment_blocks_get]
          show (st.leases.get l).map _ = _
          rw [hg, Option.map_some, if_neg]
          intro h
          exact hl (h.symm.trans (Table.mem_of_get hg).2)
        next => exact ⟨lease, hg, rfl, rfl⟩

/-- A lease that was not there before is new, and the step earned it nothing. -/
theorem step_new (hg : st.leases.get l = none) (hg' : (step fold st e).leases.get l = some lease') :
    lease'.blocks_found = 0 := by
  -- a lease that was not there begins with no block, whatever brought it
  cases e with
  | submitted =>
    have hsame : (st.leases.get l) = some lease' := hg'
    rw [hg] at hsame
    cases hsame
  | rented lease_id prefix_ =>
    have hget : (((st.leases.insert? { lease_id, prefix_ }).getD st.leases).get l) = some lease' :=
      hg'
    cases hins : st.leases.insert? { lease_id, prefix_ } with
    | none =>
      rw [hins, Option.getD_none, hg] at hget
      cases hget
    | some t =>
      rw [hins, Option.getD_some, Table.get_insert? hins] at hget
      split at hget
      · cases hget
        rfl
      · rw [hg] at hget
        cases hget
  | block_found msg worker_id =>
    have hget : (handleBlockFound fold st msg worker_id).leases.get l = some lease' := hg'
    unfold handleBlockFound at hget
    dsimp only at hget
    split at hget
    · have hsame : st.leases.get l = some lease' := hget
      rw [hg] at hsame
      cases hsame
    · split at hget
      · rw [hg] at hget
        cases hget
      · split at hget
        · rw [increment_blocks_get] at hget
          have hmod : (st.leases.get l).map _ = some lease' := hget
          rw [hg] at hmod
          cases hmod
        · have hsame : st.leases.get l = some lease' := hget
          rw [hg] at hsame
          cases hsame

/-- A lease that is not in the table earns nothing. -/
theorem earns_of_none (hg : st.leases.get l = none) : earns fold l st e = none := by
  cases e with
  | block_found => simp only [earns, hg]
  | submitted | rented => rfl

/-- What is counted has been earned. -/
theorem earns_iff {key : Str} (hg : st.leases.get l = some lease) : earns fold l st e = some key ↔
    ∃ msg worker_id, e = .block_found msg worker_id ∧ l ≠ [] ∧ msg.lease_id = l ∧
      msg.key = key ∧
      st.onChain key = true ∧ prefixValid fold lease key = true := by
  cases e with
  | block_found msg worker_id =>
    simp only [earns, hg, Option.ite_none_right_eq_some, Option.some.injEq]
    constructor
    · rintro ⟨⟨hl, hid, hon, hpre⟩, rfl⟩
      exact ⟨msg, worker_id, rfl, hl, hid, rfl, hon, hpre⟩
    · rintro ⟨msg', w', heq, hl, hid, rfl, hon, hpre⟩
      cases heq
      exact ⟨⟨hl, hid, hon, hpre⟩, rfl⟩
  | submitted | rented =>
    constructor
    · intro h
      cases h
    · rintro ⟨_, _, heq, -⟩
      cases heq

/-- The chain stays. -/
theorem step_chain {chain : ChainSimulator} (hc : st.chain = some chain) :
    ∃ chain', (step fold st e).chain = some chain' := by
  cases e with
  | submitted key_valid classified key account =>
    exact ⟨chain.submitBlock key_valid classified key account, by simp [step, hc]⟩
  | rented => exact ⟨chain, hc⟩
  | block_found msg worker_id =>
    refine ⟨chain, ?_⟩
    show (handleBlockFound fold st msg worker_id).chain = _
    unfold handleBlockFound
    dsimp only
    split
    · exact hc
    · split
      · exact hc
      · split
        · exact hc
        · exact hc

end Steps

/-! ## What a run does -/

section Runs

variable {fold : Char → List Char} {run : List Event} {l : Str} {lease : LeaseRow}

/-- The state after a run and one event more is one step further. -/
theorem after_concat (run : List Event) (e : Event) :
    after fold (run ++ [e]) = step fold (after fold run) e := by
  unfold after
  rw [List.foldl_append]
  rfl

theorem earned_append (st : State) (r₁ r₂ : List Event) : earned fold l st (r₁ ++ r₂) =
    earned fold l st r₁ ++ earned fold l (r₁.foldl (step fold) st) r₂ := by
  induction r₁ generalizing st with
  | nil => rfl
  | cons e r₁ ih => simp only [List.cons_append, earned, ih, List.append_assoc, List.foldl_cons]

theorem earned_concat (run : List Event) (e : Event) : earned fold l opened (run ++ [e]) =
    earned fold l opened run ++ (earns fold l (after fold run) e).toList := by
  rw [earned_append]
  simp only [earned, List.append_nil]
  rfl

theorem after_chain (fold : Char → List Char) (run : List Event) :
    ∃ chain, (after fold run).chain = some chain := by
  induction run using List.reverseRec with
  | nil => exact ⟨{}, rfl⟩
  | append_singleton run e ih =>
    obtain ⟨chain, hc⟩ := ih
    rw [after_concat]
    exact step_chain hc

/-- A lease that is not there has earned nothing. -/
theorem earned_of_none (run : List Event) (hg : (after fold run).leases.get l = none) :
    earned fold l opened run = [] := by
  induction run using List.reverseRec with
  | nil => rfl
  | append_singleton run e ih =>
    rw [after_concat] at hg
    have hbefore : (after fold run).leases.get l = none := by
      cases hb : (after fold run).leases.get l with
      | none => rfl
      | some lease =>
        obtain ⟨lease', hg', -⟩ := step_lease fold e hb
        rw [hg] at hg'
        cases hg'
    rw [earned_concat, ih hbefore, earns_of_none hbefore]
    rfl

theorem length_dedup_concat (keys : List Str) (key : Str) : (keys ++ [key]).dedup.length =
    keys.dedup.length + if key ∈ keys then 0 else 1 := by
  have hperm : (keys ++ [key]).Perm (key :: keys) := List.perm_append_singleton key keys
  rw [hperm.dedup.length_eq]
  split
  next h => rw [List.dedup_cons_of_mem h, Nat.add_zero]
  next h => rw [List.dedup_cons_of_notMem h, List.length_cons]

/-- The message finds its key on the chain if it is there. -/
theorem Fresh.verified {earlier : List Event} {msg : BlockFound} {worker_id : Str}
    (hf : Fresh fold earlier msg worker_id) (hid : msg.lease_id ≠ [])
    (hg : (after fold earlier).leases.get msg.lease_id = some lease) :
    (chainVerified fold (after fold earlier).chain msg.key).1 =
      (after fold earlier).onChain msg.key := by
  obtain ⟨chain, hc⟩ := after_chain fold earlier
  unfold State.onChain
  rw [Bool.eq_iff_iff, hc, chainVerified_iff]
  exact ⟨fun h => h.1, fun h => ⟨h, hf.recent lease chain hid hg hc h⟩⟩

/-- One more event: what it counts for a lease is what it earns the lease anew. -/
theorem Credited.concat {e : Event} (hc : Credited fold run)
    (hcount : ∀ l lease, (after fold run).leases.get l = some lease →
      (counts fold l (after fold run) lease e = true ↔
        ∃ key, earns fold l (after fold run) e = some key ∧ key ∉ earned fold l opened run)) :
    Credited fold (run ++ [e]) := by
  intro l lease' hg'
  rw [after_concat] at hg'
  rw [earned_concat]
  cases hg : (after fold run).leases.get l with
  | none =>
    rw [step_new hg hg', earned_of_none run hg, earns_of_none hg]
    rfl
  | some lease =>
    obtain ⟨lease₁, hg₁, -, hfound⟩ := step_lease fold e hg
    rw [hg'] at hg₁
    cases hg₁
    rw [hfound, hc l lease hg]
    have hiff := hcount l lease hg
    cases he : earns fold l (after fold run) e with
    | none =>
      rw [if_neg, Option.toList_none, List.append_nil, Nat.add_zero]
      intro h
      obtain ⟨key, hkey, -⟩ := hiff.mp h
      rw [he] at hkey
      cases hkey
    | some key =>
      rw [Option.toList_some, length_dedup_concat]
      congr 1
      -- a key is counted once: what was earned before is not counted again
      by_cases hmem : key ∈ earned fold l opened run
      · rw [if_pos hmem, if_neg]
        intro h
        obtain ⟨key', hkey', hnew⟩ := hiff.mp h
        rw [he] at hkey'
        cases hkey'
        exact hnew hmem
      · rw [if_neg hmem, if_pos (hiff.mpr ⟨key, he, hmem⟩)]

/-- A message that is fresh counts exactly if it earns. -/
theorem Fresh.counts_iff {earlier : List Event} {msg : BlockFound} {worker_id : Str}
    (hf : Fresh fold earlier msg worker_id)
    (hg : (after fold earlier).leases.get l = some lease) :
    counts fold l (after fold earlier) lease (.block_found msg worker_id) = true ↔
      ∃ key, earns fold l (after fold earlier) (.block_found msg worker_id) = some key ∧
        key ∉ earned fold l opened earlier := by
  simp only [counts, Bool.and_eq_true, decide_eq_true_eq]
  constructor
  · rintro ⟨⟨⟨hl, rfl⟩, hver⟩, hpre⟩
    rw [hf.verified hl hg] at hver
    have he := (earns_iff hg).mpr ⟨msg, worker_id, rfl, hl, rfl, rfl, hver, hpre⟩
    exact ⟨msg.key, he, hf.unseen _ he⟩
  · rintro ⟨key, he, -⟩
    obtain ⟨msg', worker_id', heq, hl, hid, rfl, hon, hpre⟩ := (earns_iff hg).mp he
    cases heq
    subst hid
    refine ⟨⟨⟨hl, rfl⟩, ?_⟩, hpre⟩
    rw [hf.verified hl hg]
    exact hon

theorem credited_of_fresh (run : List Event)
    (hf : ∀ r₁ msg worker_id r₂, run = r₁ ++ .block_found msg worker_id :: r₂ →
      Fresh fold r₁ msg worker_id) : Credited fold run := by
  induction run using List.reverseRec with
  | nil =>
    intro l lease hg
    cases hg
  | append_singleton run e ih =>
    have hprev : Credited fold run := by
      refine ih fun r₁ msg worker_id r₂ hr => hf r₁ msg worker_id (r₂ ++ [e]) ?_
      rw [hr, List.append_assoc, List.cons_append]
    refine hprev.concat fun l lease hg => ?_
    cases e with
    | block_found msg worker_id => exact (hf run msg worker_id [] rfl).counts_iff hg
    | submitted | rented => simp [counts, earns]

/-- A run in which every lease is credited exactly after every event, and every stored row
is verified exactly if its key is on the chain, is one whose messages are all fresh. -/
theorem credit_exact_iff (fold : Char → List Char) (run : List Event) :
    ((∀ r₁ r₂, run = r₁ ++ r₂ → Credited fold r₁) ∧
      ∀ r₁ msg worker_id r₂, run = r₁ ++ .block_found msg worker_id :: r₂ →
        Verified fold (after fold r₁) msg worker_id) ↔
    ∀ r₁ msg worker_id r₂, run = r₁ ++ .block_found msg worker_id :: r₂ →
      Fresh fold r₁ msg worker_id := by
  constructor
  · rintro ⟨hcredit, hverified⟩ r₁ msg worker_id r₂ hrun
    have hver : ∀ {lease}, msg.lease_id ≠ [] →
        (after fold r₁).leases.get msg.lease_id = some lease →
        (chainVerified fold (after fold r₁).chain msg.key).1 =
          (after fold r₁).onChain msg.key := by
      intro lease hid hg
      obtain ⟨row, hrow, -, -, hon⟩ := hverified r₁ msg worker_id r₂ hrun lease hid hg
      rw [handle_blocks hid hg] at hrow
      have hlast := List.append_cancel_left hrow
      rw [← hon, ← (List.cons.inj hlast).1]
      rfl
    refine ⟨fun lease chain hid hg hc hhas => ?_, fun key he hmem => ?_⟩
    · have hv := hver hid hg
      unfold State.onChain at hv
      rw [hc, Option.any_some, hhas, chainVerified_iff] at hv
      exact hv.2
    · cases hg : (after fold r₁).leases.get msg.lease_id with
      | none =>
        rw [earns_of_none hg] at he
        cases he
      | some lease =>
        -- the message is counted, but the key is an old one
        obtain ⟨msg', worker_id', heq, hid, -, rfl, hon, hpre⟩ := (earns_iff hg).mp he
        cases heq
        have hcounts : counts fold msg.lease_id (after fold r₁) lease
          (.block_found msg worker_id) =
            true := by
          simp [counts, hid, hver hid hg, hon, hpre]
        obtain ⟨lease', hg', -, hfound⟩ :=
          step_lease fold (.block_found msg worker_id) hg
        rw [← after_concat] at hg'
        have hafter := hcredit (r₁ ++ [.block_found msg worker_id]) r₂
          (by rw [hrun, List.append_assoc]; rfl) _ _ hg'
        rw [earned_concat, he, Option.toList_some, length_dedup_concat, if_pos hmem, hfound,
          hcredit r₁ _ hrun _ _ hg, hcounts] at hafter
        exact absurd hafter (by simp)
  · intro hf
    refine ⟨fun r₁ r₂ hrun => credited_of_fresh r₁ fun r msg worker_id r' hr => ?_, ?_⟩
    · refine hf r msg worker_id (r' ++ r₂) ?_
      rw [hrun, hr, List.append_assoc, List.cons_append]
    · intro r₁ msg worker_id r₂ hrun lease hid hg
      exact ⟨_, handle_blocks hid hg, rfl, rfl,
        (hf r₁ msg worker_id r₂ hrun).verified hid hg⟩

end Runs

/-! ## A second delivery -/

/-- Lowercase ASCII. -/
def asciiFold (c : Char) : List Char := [c.toLower]

/-- The key of a block. -/
def sampleKey : Str := List.replicate 64 'A'

/-- The worker's report of it. -/
def sampleReport : BlockFound := { lease_id := ['l'], key := sampleKey }

/-- A lease, a block of it on the chain, and the report delivered twice. -/
def deliveredTwice : List Event :=
  [.rented ['l'] (List.replicate 16 'a'), .submitted true true sampleKey ['x'],
    .block_found sampleReport ['w'], .block_found sampleReport ['w']]

/-- Two blocks are credited for one key. -/
theorem credit_twice :
    ((after asciiFold deliveredTwice).leases.get ['l']).map LeaseRow.blocks_found = some 2 ∧
      (earned asciiFold ['l'] opened deliveredTwice).dedup = [sampleKey] := by
  decide

end TreeMiner.Watcher
