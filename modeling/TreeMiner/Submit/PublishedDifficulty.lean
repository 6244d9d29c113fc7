import TreeMiner.Lib.Steps
import TreeMiner.Platform.Manager
import TreeMiner.Submit.Manager

/-!
# The published difficulty (`DifficultyManager.cpp`, `main.cpp`)

Four writers store into `globalDifficulty`. The cache loader and `set_config` check the range
of what they read. `updateDifficulty` stores what `std::stoi` returns, and the hint callback
casts 32 unsigned bits to an `int`: a pool that answers with zero, a negative number or a hint
from 2³¹ on has it published. `published_valid_iff` says that nothing else can go wrong.

The published value is followed over a whole run of the four writers. Each of them is
transcribed with its own conversion, `std::stoi` with its exceptions among them, and the
condition is on what they read and not on what they store.
-/

namespace TreeMiner

open Cxx

/-! ## The writers -/

/-- `std::stoi(s)`: blanks, a sign and digits, whatever follows them; `none` where it throws. -/
def stoi (s : Bytes) : Option Int32 :=
  let s := s.dropWhile isSpace
  let neg := s.head? = some (ch '-')
  let s := if neg ∨ s.head? = some (ch '+') then s.tail else s
  let digits := s.takeWhile isDigit
  if digits.isEmpty then none
  else
    let value : Int := if neg then -digitsVal 0 digits else digitsVal 0 digits
    if value < -2 ^ 31 ∨ 2 ^ 31 ≤ value then none else some (Int32.ofInt value)

/-- `in >> value`: formatted input takes an `int` in the same form; `none` where it fails. -/
def extractInt (file : Bytes) : Option Int32 := stoi file

/-- `loadCachedDifficulty`; the file may be missing. -/
def loadCachedDifficulty (file : Option Bytes) : Int32 :=
  match file.bind extractInt with
  | none => 0
  | some value => if value < 1 || value > 100000000 then 0 else value

/-- `getDifficulty`, from the parsed body of an answer with status 200; `none` where it throws. -/
def getDifficulty (response : Option JsonValue) : Option Bytes :=
  (response.bind fun json => json.find (lit "difficulty")).bind JsonValue.toBytes

/-- The hint that `handleDifficultyBody_` passes to the callback. -/
def probeHint (body : Bytes) : Option UInt32 :=
  (extractJsonField body (lit "difficulty")).bind fun f => parseDifficultyHint (lit "m=" ++ f)

/-- `globalDifficulty` stands with the rest of what `set_config` writes. Beside it, for each
call of the observer by the poller, the difficulty stored just before and the value handed
over. -/
structure Published where
  platform : Platform
  observed : List (Int32 × UInt32)

namespace Published

/-- `globalDifficulty = value`. -/
def store (s : Published) (value : Int32) : Published :=
  { s with platform := { s.platform with globalDifficulty := value } }

/-- `globalDifficultyObserver(value)`. -/
def observe (s : Published) (value : UInt32) : Published :=
  { s with observed := s.observed ++ [(s.platform.globalDifficulty, value)] }

/-- `updateDifficulty`. What it writes to the cache file is one content that a load may find. -/
def updateDifficulty (s : Published) (response : Option JsonValue) : Published :=
  match (getDifficulty response).bind stoi with
  | none => s
  | some newDifficulty =>
    let s :=
      if s.platform.globalDifficulty ≠ newDifficulty then s.store newDifficulty else s
    s.observe newDifficulty.toUInt32

/-- The difficulty hint callback. -/
def difficultyHint (s : Published) (d : UInt32) : Published :=
  if s.platform.globalDifficulty ≠ d.toInt32 then s.store d.toInt32 else s

/-- Seeding from the local cache. -/
def seed (s : Published) (file : Option Bytes) : Published :=
  let cachedDifficulty := loadCachedDifficulty file
  if cachedDifficulty > 0 then s.store cachedDifficulty else s.store 42069

/-- At the start of the process. -/
def new (platform : Platform) : Published := ⟨{ platform with globalDifficulty := 1727 }, []⟩

end Published

/-- What reaches a writer: an answer to the poller, an answer to a submission, the body of a
probe, a signed command, and a content of the cache file. -/
inductive DifficultySource where
  | poll (response : Option JsonValue)
  | submission (http_status : Int) (body : Bytes) (kind : FindKind) (retry_after : Option Bytes)
  | probe (body : Bytes)
  | setConfig (msg : JsonValue)
  | cacheFile (file : Option Bytes)

/-- The hint that reaches the callback. -/
def DifficultySource.hint : DifficultySource → Option UInt32
  | .submission http_status body kind retry_after =>
    (classify http_status body kind retry_after).server_difficulty_hint
  | .probe body => probeHint body
  | _ => none

/-- One write. -/
def Published.step (keccak : Bytes → Bytes) (s : Published) (x : DifficultySource) : Published :=
  match x with
  | .poll response => s.updateDifficulty response
  | .submission .. | .probe _ => (x.hint.map s.difficultyHint).getD s
  | .setConfig msg => { s with platform := s.platform.handleSetConfig keccak msg }
  | .cacheFile file => s.seed file

/-- Any sequence of writes. -/
def Published.run (keccak : Bytes → Bytes) (s : Published) (xs : List DifficultySource) :
    Published := xs.foldl (Published.step keccak) s

/-- The probe of the submission manager works from the same hint. -/
theorem handleDifficultyBody_hint (body : Bytes) :
    handleDifficultyBody body =
      (match probeHint body with
      | none => pure ()
      | some d => do
        observeDifficulty d
        let w ← call .wall
        call (.recordDifficulty d (isoUtc w))) := rfl

/-! ## What a valid difficulty is -/

/-- A difficulty of at least 1, and an observer that was told what was stored. -/
structure Published.Valid (s : Published) : Prop where
  positive : 1 ≤ s.platform.globalDifficulty.toInt
  observed : ∀ p ∈ s.observed, (p.2.toNat : Int) = p.1.toInt

/-- A polled text that `std::stoi` accepts holds a number from 1 on; a hint is a positive
`int`. -/
def DifficultySource.Positive : DifficultySource → Prop
  | .poll response =>
    ∀ text, getDifficulty response = some text → ∀ v, stoi text = some v → 1 ≤ v.toInt
  | x => ∀ d, x.hint = some d → 1 ≤ d.toNat ∧ d.toNat < 2 ^ 31

/-! ## One write -/

section Writes

variable {keccak : Bytes → Bytes} {s : Published}

/-- A cast to `int` keeps what fits. -/
theorem toInt_toInt32 (d : UInt32) :
    d.toInt32.toInt = if d.toNat < 2 ^ 31 then (d.toNat : Int) else (d.toNat : Int) - 2 ^ 32 := by
  have h : d.toInt32.toInt = d.toBitVec.toInt := rfl
  have hbits : d.toBitVec.toNat = d.toNat := rfl
  rw [h, BitVec.toInt_eq_toNat_cond, hbits]
  by_cases hd : d.toNat < 2 ^ 31
  · rw [if_pos hd, if_pos (by omega)]
  · rw [if_neg hd, if_neg (by omega)]
    rfl

/-- A cast from `int` keeps what is not negative. -/
theorem toNat_toUInt32 (v : Int32) : (v.toUInt32.toNat : Int) = v.toInt ↔ 0 ≤ v.toInt := by
  have h : v.toInt = v.toUInt32.toInt32.toInt := rfl
  have hlt : v.toUInt32.toNat < 2 ^ 32 := v.toUInt32.toNat_lt
  rw [h, toInt_toInt32]
  by_cases hv : v.toUInt32.toNat < 2 ^ 31
  · rw [if_pos hv]
    omega
  · rw [if_neg hv]
    omega

/-- The hint callback leaves its argument, as an `int`. -/
theorem difficultyHint_stored (s : Published) (d : UInt32) :
    (s.difficultyHint d).platform.globalDifficulty = d.toInt32 ∧
      (s.difficultyHint d).observed = s.observed := by
  unfold Published.difficultyHint
  by_cases h : s.platform.globalDifficulty ≠ d.toInt32
  · rw [if_pos h]
    exact ⟨rfl, rfl⟩
  · rw [if_neg h]
    exact ⟨not_not.mp h, rfl⟩

/-- The poller leaves the number it has read, and hands it on. -/
theorem updateDifficulty_stored {response : Option JsonValue} {v : Int32}
    (h : (getDifficulty response).bind stoi = some v) :
    (s.updateDifficulty response).platform.globalDifficulty = v ∧
      (s.updateDifficulty response).observed = s.observed ++ [(v, v.toUInt32)] := by
  unfold Published.updateDifficulty
  rw [h]
  dsimp only
  by_cases hv : s.platform.globalDifficulty ≠ v
  · rw [if_pos hv]
    exact ⟨rfl, rfl⟩
  · rw [if_neg hv]
    have heq : s.platform.globalDifficulty = v := not_not.mp hv
    refine ⟨heq, ?_⟩
    show s.observed ++ [(s.platform.globalDifficulty, v.toUInt32)] = _
    rw [heq]

/-- What the cache loader returns is in its range, or zero. -/
theorem loadCachedDifficulty_range (file : Option Bytes) :
    loadCachedDifficulty file = 0 ∨
      1 ≤ (loadCachedDifficulty file).toInt ∧
        (loadCachedDifficulty file).toInt ≤ 100000000 := by
  unfold loadCachedDifficulty
  cases file.bind extractInt with
  | none => exact Or.inl rfl
  | some value =>
    dsimp only
    by_cases hbad : (value < 1 || value > 100000000) = true
    · rw [if_pos hbad]
      exact Or.inl rfl
    · rw [if_neg hbad]
      rw [Bool.or_eq_true, decide_eq_true_eq, decide_eq_true_eq, not_or, Int32.lt_iff_toInt_lt,
        gt_iff_lt, Int32.lt_iff_toInt_lt] at hbad
      exact Or.inr ⟨Int.not_lt.mp hbad.1, Int.not_lt.mp hbad.2⟩

/-- Seeding leaves a positive difficulty, whatever the file holds. -/
theorem seed_positive (s : Published) (file : Option Bytes) :
    1 ≤ (s.seed file).platform.globalDifficulty.toInt ∧
      (s.seed file).observed = s.observed := by
  unfold Published.seed
  dsimp only
  by_cases hpos : loadCachedDifficulty file > 0
  · rw [if_pos hpos]
    refine ⟨?_, rfl⟩
    cases loadCachedDifficulty_range file with
    | inl h0 =>
      rw [h0] at hpos
      exact absurd hpos (by decide)
    | inr hrange => exact hrange.1
  · rw [if_neg hpos]
    have hfallback : 1 ≤ (42069 : Int32).toInt := by decide
    exact ⟨hfallback, rfl⟩

/-- `set_config` keeps a positive difficulty: what it stores has passed the check. -/
theorem handleSetConfig_positive (p : Platform) (msg : JsonValue)
    (hp : 1 ≤ p.globalDifficulty.toInt) :
    1 ≤ (p.handleSetConfig keccak msg).globalDifficulty.toInt := by
  have hconfig : ∀ config, 1 ≤ (p.configDifficulty config).globalDifficulty.toInt := by
    intro config
    unfold Platform.configDifficulty
    split
    · exact hp
    · next d _ =>
      by_cases hrange : (d.toInt32 ≥ 1 && d.toInt32 ≤ 10000000) = true
      · rw [if_pos hrange]
        rw [Bool.and_eq_true, decide_eq_true_eq, ge_iff_le, Int32.le_iff_toInt_le] at hrange
        exact hrange.1
      · rw [if_neg hrange]
        exact hp
  -- the other parts write the identity only
  have haddress : ∀ (q : Platform) config,
      (q.configAddress keccak config).globalDifficulty = q.globalDifficulty := by
    intro q config
    unfold Platform.configAddress
    split
    · rfl
    · dsimp only
      split <;> rfl
  have hprefix : ∀ (q : Platform) config,
      (q.configPrefix config).globalDifficulty = q.globalDifficulty := by
    intro q config
    unfold Platform.configPrefix
    split
    · rfl
    · dsimp only
      split <;> rfl
  have hpattern : ∀ (q : Platform) config,
      (q.configPattern config).globalDifficulty = q.globalDifficulty := by
    intro q config
    unfold Platform.configPattern
    split
    · rfl
    · dsimp only
      split <;> rfl
  unfold Platform.handleSetConfig
  dsimp only
  split
  · exact hp
  · rw [hpattern, hprefix, haddress]
    exact hconfig _

/-- A difficulty that is handed on is valid exactly if the `int` it was read as is at least 1. -/
theorem Published.Valid.observe_iff (hs : s.Valid) {t : Published} {v : Int32}
    (hdiff : t.platform.globalDifficulty = v)
    (hobs : t.observed = s.observed ++ [(v, v.toUInt32)]) : t.Valid ↔ 1 ≤ v.toInt := by
  constructor
  · intro ht
    rw [← hdiff]
    exact ht.positive
  · intro hv
    refine ⟨by rw [hdiff]; exact hv, ?_⟩
    intro p hp
    rw [hobs, List.mem_append, List.mem_singleton] at hp
    cases hp with
    | inl hp => exact hs.observed p hp
    | inr hp =>
      rw [hp]
      exact (toNat_toUInt32 v).mpr (by omega)

/-- A hint keeps the difficulty valid exactly when it is a positive `int`. -/
theorem Published.Valid.hint_iff (hs : s.Valid) (hint : Option UInt32) :
    ((hint.map s.difficultyHint).getD s).Valid ↔
      ∀ d, hint = some d → 1 ≤ d.toNat ∧ d.toNat < 2 ^ 31 := by
  cases hint with
  | none =>
    refine ⟨fun _ _ h => ?_, fun _ => hs⟩
    cases h
  | some d =>
    obtain ⟨hdiff, hobs⟩ := difficultyHint_stored s d
    have hlt : d.toNat < 2 ^ 32 := d.toNat_lt
    -- the cast to a signed word is where a hint from 2^31 on becomes negative
    have hcast := toInt_toInt32 d
    constructor
    · intro ht d' hd'
      cases hd'
      have hpos : 1 ≤ d.toInt32.toInt := by
        rw [← hdiff]
        exact ht.positive
      rw [hcast] at hpos
      by_cases hd : d.toNat < 2 ^ 31
      · rw [if_pos hd] at hpos
        omega
      · rw [if_neg hd] at hpos
        omega
    · intro h
      obtain ⟨hlo, hhi⟩ := h d rfl
      rw [if_pos hhi] at hcast
      refine ⟨?_, ?_⟩
      · show 1 ≤ (s.difficultyHint d).platform.globalDifficulty.toInt
        rw [hdiff, hcast]
        omega
      · intro p hp
        have hmem : p ∈ (s.difficultyHint d).observed := hp
        rw [hobs] at hmem
        exact hs.observed p hmem

/-- One write keeps the difficulty valid exactly when what reaches it is positive. -/
theorem step_valid_iff (s : Published) (x : DifficultySource) (hs : s.Valid) :
    (s.step keccak x).Valid ↔ x.Positive := by
  cases x with
  | poll response =>
    show (s.updateDifficulty response).Valid ↔ _
    cases hread : (getDifficulty response).bind stoi with
    | none =>
      have hskip : s.updateDifficulty response = s := by
        unfold Published.updateDifficulty
        rw [hread]
      rw [hskip]
      refine ⟨fun _ text htext v hv => ?_, fun _ => hs⟩
      rw [htext, Option.bind_some, hv] at hread
      cases hread
    | some v =>
      obtain ⟨hdiff, hobs⟩ := updateDifficulty_stored (s := s) hread
      rw [hs.observe_iff hdiff hobs]
      obtain ⟨text, htext, hv⟩ := Option.bind_eq_some_iff.mp hread
      constructor
      · intro hpos text' htext' v' hv'
        cases htext.symm.trans htext'
        cases hv.symm.trans hv'
        exact hpos
      · intro h
        exact h text htext v hv
  | submission http_status body kind retry_after => exact hs.hint_iff _
  | probe body => exact hs.hint_iff _
  | setConfig msg =>
    refine ⟨fun _ d hd => ?_,
      fun _ => ⟨handleSetConfig_positive _ msg hs.positive, hs.observed⟩⟩
    cases hd
  | cacheFile file =>
    obtain ⟨hpos, hobs⟩ := seed_positive s file
    refine ⟨fun _ d hd => ?_, fun _ => ⟨hpos, fun p hp => hs.observed p ?_⟩⟩
    · cases hd
    · rwa [← hobs]

end Writes

/-! ## Any sequence of writes -/

/-- Before the first message nothing has been handed on. -/
theorem new_valid (platform : Platform) : (Published.new platform).Valid := by
  have hstart : 1 ≤ (1727 : Int32).toInt := by decide
  refine ⟨hstart, ?_⟩
  intro p hp
  cases hp

/-- From the start of the process, the difficulty is valid after every write exactly when every
polled number and every hint is a positive `int`. -/
theorem published_valid_iff (keccak : Bytes → Bytes) (platform : Platform)
    (xs : List DifficultySource) :
    (∀ pre post, xs = pre ++ post → ((Published.new platform).run keccak pre).Valid) ↔
      ∀ x ∈ xs, x.Positive :=
  Steps.foldl_invariant_iff step_valid_iff (new_valid platform)

/-- A pool that answers with -5: the miners are to hash with a memory cost of -5, and the
submission manager is told 4294967291. -/
theorem published_negative :
    ∃ (keccak : Bytes → Bytes) (platform : Platform) (answer : JsonValue),
      getDifficulty (some answer) = some (lit "-5") ∧
      let s := (Published.new platform).run keccak [.poll (some answer)]
      s.platform.globalDifficulty = -5 ∧ s.observed = [(-5, 4294967291)] ∧ ¬ s.Valid := by
  obtain ⟨answer, hget⟩ : ∃ answer, getDifficulty (some answer) = some (lit "-5") :=
    ⟨.object [(lit "difficulty", .string (lit "-5"))], by decide⟩
  have hread : (getDifficulty (some answer)).bind stoi = some (-5) := by
    rw [hget]
    decide
  obtain ⟨hdiff, hobs⟩ := updateDifficulty_stored
    (s := Published.new ⟨true, .IDLE, none, ⟨.SELF_MINING, [], [], [], []⟩, ⟨[], [], []⟩,
      0⟩) hread
  refine ⟨fun address => address, _, answer, hget, hdiff, hobs, ?_⟩
  intro hvalid
  have hpos := hvalid.positive
  unfold Published.run Published.step at hpos
  rw [List.foldl_cons, List.foldl_nil, hdiff] at hpos
  exact absurd hpos (by decide)

end TreeMiner
