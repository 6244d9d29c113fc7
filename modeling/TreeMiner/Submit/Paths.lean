import TreeMiner.Submit.System

/-!
# What every path through a scheduling step does

`Path cfg h o` says when operation `o` may be asked for after history `h`, and
`runOnce_along` proves that `runOnce` never asks otherwise. Four facts about the
text of the step, each read off the history of the current call alone:

* an outcome is recorded only for a record fetched earlier in the call and not
  recorded since (`live`), and an `Acked` or `PermanentlyInvalid` outcome only
  after the server answer that warrants it (`Recordable`);
* an observation that answered "release" is followed at once by the release
  (`owes`);
* the window flag is stored right after it was read, with the release of parked
  XUNI in between exactly at the closed-to-open edge (`NoteOk`);
* eligible rows are fetched after the window was judged (`judged`).

The only thing a path relies on is that a fetch hands out no row twice.
-/

namespace TreeMiner

open Cxx Interleave

abbrev History := List (Event sig)

/-- The records an event handed out. -/
def fetchedBy : Event sig → List FindRecord
  | ⟨.fetchEligibleOfKind .., recs⟩ => recs
  | ⟨.fetchAwaitingConfirmation .., recs⟩ => recs
  | _ => []

/-- The ids fetched and not yet recorded. -/
def live : History → List Int
  | [] => []
  | e :: h =>
    match e.op with
    | .recordAttempt id .. => (live h).filter (· ≠ id)
    | _ => (fetchedBy e).map (·.id) ++ live h

/-- The difficulty an observation has still to release finds for. -/
def owes : History → Option UInt32
  | ⟨.observe d, true⟩ :: _ => some d
  | _ => none

/-- The server time at which the call judged the window last. -/
def judged : History → Option Int
  | [] => none
  | e :: h =>
    match e.op with
    | .noteWindow t => some t
    | _ => judged h

/-- A `/verify` answer that says the hash itself is wrong. -/
def Rejects (res : TransportResult) : Prop :=
  res.transport_ok = true ∧ res.http_status = 401 ∧
    contains (lit "Hash verification failed") (messageOf res.body) = true

/-- The outcome `c` may be recorded for `rec`. -/
structure Recordable (h : History) (rec : FindRecord) (c : Classification) : Prop where
  fetched : ∃ e ∈ h, rec ∈ fetchedBy e
  live : rec.id ∈ live h
  dead : c.next_status ≠ .Dead
  acked : c.next_status = .Acked → ∃ conf, ⟨.confirm rec.payload.key, conf⟩ ∈ h ∧
    Proves rec conf
  invalid : c.next_status = .PermanentlyInvalid →
    ∃ res, ⟨.submit rec.payload, res⟩ ∈ h ∧ Rejects res

/-- The flag is stored right after it was read; between the two stands at most
the release of parked XUNI, and it stands there whenever the window opened. -/
def NoteOk (cfg : Config) (h : History) (t : Int) : Prop :=
  (∃ b h', h = ⟨.lastWindowOpen, b⟩ :: h' ∧
    ((xuniWindowAt t).isOpen = true → b = true)) ∨
  (∃ h', h = ⟨.unparkXuniForWindow cfg.xuni_max_windows, ()⟩ :: h')

/-- When an operation may be asked for. -/
def Path (cfg : Config) (h : History) (o : Op) : Prop :=
  (∀ d, owes h = some d → o = .unparkForDifficulty d) ∧
  match o with
  | .recordAttempt id c _ _ _ _ => ∃ rec, rec.id = id ∧ Recordable h rec c
  | .unparkXuniForWindow n => n = cfg.xuni_max_windows
  | .noteWindow t => NoteOk cfg h t
  | .fetchEligibleOfKind .. => (judged h).isSome = true
  | _ => True

/-- What a path relies on. -/
def Rely (e : Event sig) : Prop := ((fetchedBy e).map (·.id)).Nodup

/-- Nothing was recorded from `h` to `h'` and no release is owed. -/
structure Quiet (h h' : History) : Prop where
  sub : h ⊆ h'
  kept : live h ⊆ live h'
  clear : owes h' = none

variable {cfg : Config} {h : History}

/-- Where no release is owed, an operation is on the path if it meets its own condition. -/
theorem path_of_owes (ho : owes h = none) {o : Op}
    (hm : match o with
      | .recordAttempt id c _ _ _ _ => ∃ rec, rec.id = id ∧ Recordable h rec c
      | .unparkXuniForWindow n => n = cfg.xuni_max_windows
      | .noteWindow t => NoteOk cfg h t
      | .fetchEligibleOfKind .. => (judged h).isSome = true
      | _ => True) : Path cfg h o := by
  refine ⟨?_, hm⟩
  intro d hd
  rw [ho] at hd
  cases hd

/-- A part that does nothing is quiet. -/
theorem Quiet.refl (ho : owes h = none) : Quiet h h :=
  ⟨List.Subset.refl _, List.Subset.refl _, ho⟩

/-- Two quiet parts, one after the other. -/
theorem Quiet.trans {h' h'' : History} (h₁ : Quiet h h') (h₂ : Quiet h' h'') : Quiet h h'' :=
  ⟨List.Subset.trans h₁.sub h₂.sub, List.Subset.trans h₁.kept h₂.kept, h₂.clear⟩

/-- One operation that records nothing and owes nothing. -/
theorem Quiet.cons {h' : History} (hq : Quiet h h') {e : Event sig}
    (hl : live h' ⊆ live (e :: h')) (ho : owes (e :: h') = none) :
    Quiet h (e :: h') :=
  hq.trans ⟨List.subset_cons_self _ _, hl, ho⟩

/-- A reading of the wall clock is quiet. -/
theorem Quiet.wall {h' : History} (hq : Quiet h h') {t : Int} : Quiet h (⟨.wall, t⟩ :: h') :=
  hq.cons (List.Subset.refl _) rfl

/-- So is one of the monotonic clock. -/
theorem Quiet.mono {h' : History} (hq : Quiet h h') {t : Int} : Quiet h (⟨.mono, t⟩ :: h') :=
  hq.cons (List.Subset.refl _) rfl

/-- And one of the counts of the journal. -/
theorem Quiet.counts {h' : History} (hq : Quiet h h') {a : Journal.Counts} :
    Quiet h (⟨.counts, a⟩ :: h') :=
  hq.cons (List.Subset.refl _) rfl

/-! ## The helpers -/

/-- The parts below are quiet: none records an attempt, fetches a record or judges the window. -/
theorem observeDifficulty_along (ho : owes h = none) {d : UInt32} :
    Prog.Along (fun _ => Rely) (Path cfg) (fun h' _ => Quiet h h') h (observeDifficulty d) := by
  refine Prog.Along.call (path_of_owes ho trivial) fun release _ => ?_
  cases release with
  | false => exact (Quiet.refl ho).cons (List.Subset.refl _) rfl
  | true =>
    refine ⟨⟨fun d' hd => ?_, trivial⟩, fun _ _ => ?_⟩
    · cases hd
      rfl
    · exact ⟨fun e he => List.mem_cons_of_mem _ (List.mem_cons_of_mem _ he),
        List.Subset.refl _, rfl⟩

theorem trackServerDate_along (ho : owes h = none) {m : Members} {r : TransportResult} :
    Prog.Along (fun _ => Rely) (Path cfg) (fun h' _ => Quiet h h') h (trackServerDate m r) := by
  unfold trackServerDate
  split
  · exact Quiet.refl ho
  · exact ⟨path_of_owes ho trivial, fun _ _ => (Quiet.refl ho).wall⟩

/-- Observe a difficulty, then log it in the journal. -/
private theorem observeAndLog_along (ho : owes h = none) {d : UInt32} :
    Prog.Along (fun _ => Rely) (Path cfg) (fun h' _ => Quiet h h') h
      (do
        observeDifficulty d
        let w ← call .wall
        call (.recordDifficulty d (isoUtc w)) : Step Unit) := by
  refine (observeDifficulty_along ho).bind fun h' _ hq => ?_
  refine Prog.Along.call (path_of_owes hq.clear trivial) fun w _ => ?_
  refine Prog.Along.call (path_of_owes rfl trivial) fun _ _ => ?_
  exact hq.wall.cons (List.Subset.refl _) rfl

theorem handleDifficultyBody_along (ho : owes h = none) {body : Bytes} :
    Prog.Along (fun _ => Rely) (Path cfg) (fun h' _ => Quiet h h') h
      (handleDifficultyBody body) := by
  unfold handleDifficultyBody
  split
  · exact Quiet.refl ho
  · exact observeAndLog_along ho

theorem takeHint_along (ho : owes h = none) {c : Classification} :
    Prog.Along (fun _ => Rely) (Path cfg) (fun h' _ => Quiet h h') h (takeHint c) := by
  unfold takeHint
  split
  · exact Quiet.refl ho
  · exact observeAndLog_along ho

theorem backoffTimeIso_along (ho : owes h = none) {n : Nat} {s : Option Nat} :
    Prog.Along (fun _ => Rely) (Path cfg) (fun h' _ => Quiet h h') h (backoffTimeIso cfg n s) :=
  ⟨path_of_owes ho trivial, fun _ _ => (Quiet.refl ho).wall⟩

/-- The evaluation of the margin reads the clock and the counts. -/
theorem updateMargin_along (ho : owes h = none) {m : Members} :
    Prog.Along (fun _ => Rely) (Path cfg) (fun h' _ => Quiet h h') h (updateMargin cfg m) := by
  refine Prog.Along.call (path_of_owes ho trivial) fun now _ => ?_
  have hq : Quiet h (⟨.mono, now⟩ :: h) := (Quiet.refl ho).mono
  dsimp only
  split
  · exact hq
  split
  · exact hq
  split
  · exact ⟨path_of_owes hq.clear trivial, fun _ _ => hq.counts⟩
  · exact hq

theorem logBreakerTransition_along (ho : owes h = none) {before after : BreakerState} :
    Prog.Along (fun _ => Rely) (Path cfg) (fun h' _ => Quiet h h') h
      (logBreakerTransition before after) := by
  unfold logBreakerTransition
  split
  · exact Quiet.refl ho
  · exact ⟨path_of_owes ho trivial, fun _ _ => (Quiet.refl ho).counts⟩

theorem retryTime_along (ho : owes h = none) {rec : FindRecord} {st : Int} {res : TransportResult}
    {c : Classification} {next : Option Bytes} :
    Prog.Along (fun _ => Rely) (Path cfg) (fun h' _ => Quiet h h') h
      (retryTime cfg rec st res c next) := by
  unfold retryTime
  split
  · exact (backoffTimeIso_along ho).bind fun _ _ hq => hq
  · exact Quiet.refl ho

theorem lookupRetryTime_along (ho : owes h = none) {rec : FindRecord} {retry : Bool} :
    Prog.Along (fun _ => Rely) (Path cfg) (fun h' _ => Quiet h h') h
      (lookupRetryTime cfg rec retry) := by
  unfold lookupRetryTime
  split
  · exact (backoffTimeIso_along ho).bind fun _ _ hq => hq
  · exact Quiet.refl ho

theorem probeStep_along (ho : owes h = none) {m : Members} :
    Prog.Along (fun _ => Rely) (Path cfg) (fun h' _ => Quiet h h') h (probeStep cfg m) := by
  refine Prog.Along.call (path_of_owes ho trivial) fun now _ => ?_
  have hq : Quiet h (⟨.mono, now⟩ :: h) := (Quiet.refl ho).mono
  split
  · exact hq
  refine Prog.Along.call (path_of_owes hq.clear trivial) fun r _ => ?_
  replace hq : Quiet h (⟨.difficulty, r⟩ :: ⟨.mono, now⟩ :: h) :=
    hq.cons (List.Subset.refl _) rfl
  refine (trackServerDate_along hq.clear).bind fun h₁ m₁ hq₁ => ?_
  replace hq₁ := hq.trans hq₁
  split
  · refine (handleDifficultyBody_along hq₁.clear).bind fun h₂ _ hq₂ => ?_
    replace hq₂ := hq₁.trans hq₂
    exact (logBreakerTransition_along hq₂.clear).bind fun h₃ _ hq₃ => hq₂.trans hq₃
  · exact ⟨path_of_owes hq₁.clear trivial, fun _ _ => hq₁.mono⟩

/-! ## Window and fetch -/

/-- The window is judged, and what an edge owes is released at once. -/
theorem enterWindow_along (ho : owes h = none) {m : Members} :
    Prog.Along (fun _ => Rely) (Path cfg) (fun h' _ => owes h' = none ∧
      (judged h').isSome = true) h
      (enterWindow cfg m) := by
  refine Prog.Along.call (path_of_owes ho trivial) fun w _ => ?_
  refine Prog.Along.call (path_of_owes rfl trivial) fun b _ => ?_
  split
  · refine Prog.Along.call (path_of_owes rfl rfl) fun _ _ => ?_
    refine Prog.Along.call (path_of_owes rfl (Or.inr ⟨_, rfl⟩)) fun _ _ => ?_
    exact ⟨rfl, rfl⟩
  next hedge =>
    refine Prog.Along.call (path_of_owes rfl (Or.inl ⟨b, _, rfl, fun hopen => ?_⟩))
      fun _ _ => ?_
    · rw [hopen] at hedge
      simpa using hedge
    · exact ⟨rfl, rfl⟩

/-- The fetched records are there to be recorded. -/
def Offers (h : History) (recs : List FindRecord) : Prop :=
  ∀ rec ∈ recs, (∃ e ∈ h, rec ∈ fetchedBy e) ∧ rec.id ∈ live h

/-- What was fetched is still on offer after a quiet part. -/
theorem Offers.quiet {h' : History} {recs : List FindRecord} (ho : Offers h recs)
    (hq : Quiet h h') : Offers h' recs := by
  intro rec hrec
  obtain ⟨⟨e, he, hm⟩, hl⟩ := ho rec hrec
  exact ⟨⟨e, hq.sub he, hm⟩, hq.kept hl⟩

/-- The records that are fetched after the window was judged are on offer. -/
theorem fetchEligible_along (ho : owes h = none) (hj : (judged h).isSome = true)
    {window : XuniWindowState} :
    Prog.Along (fun _ => Rely) (Path cfg) (fun h' r => owes h' = none ∧ Offers h' r.1) h
      (fetchEligible cfg window) := by
  refine Prog.Along.call (path_of_owes ho trivial) fun w _ => ?_
  refine Prog.Along.call (path_of_owes rfl hj) fun xen11 _ => ?_
  have hx : ∀ rec ∈ xen11, rec.id ∈
    live (⟨.fetchEligibleOfKind .XEN11 (isoUtc w) cfg.fetch_limit,
      xen11⟩ :: ⟨.wall, w⟩ :: h) := by
    intro rec hrec
    exact List.mem_append_left _ (List.mem_map_of_mem hrec)
  split
  · refine Prog.Along.call (path_of_owes rfl hj) fun xuni _ => ⟨rfl, ?_⟩
    intro rec hrec
    rcases List.mem_append.mp hrec with hrec | hrec
    · exact ⟨⟨_, List.mem_cons_of_mem _ List.mem_cons_self, hrec⟩,
        List.mem_append_right _ (hx rec hrec)⟩
    · exact ⟨⟨_, List.mem_cons_self, hrec⟩,
        List.mem_append_left _ (List.mem_map_of_mem hrec)⟩
  · exact ⟨rfl, fun rec hrec => ⟨⟨_, List.mem_cons_self, hrec⟩, hx rec hrec⟩⟩

/-! ## Outcomes -/

/-- A find is given up as invalid only after an answer that rejects it. -/
theorem classifyResult_invalid {rec : FindRecord} {res : TransportResult}
    (hc : (classifyResult rec res).next_status = .PermanentlyInvalid) : Rejects res := by
  obtain ⟨h401, hm⟩ := classify_permanentlyInvalid hc
  split at h401
  next hok => exact ⟨hok, h401, hm⟩
  · exact absurd h401 (by decide)

/-- The confirmation of a fresh acceptance keeps the status, puts the find back into the queue, or
acknowledges it with a proof. -/
theorem freshConfirmation_status (rec : FindRecord) (c : Classification) (conf : TransportResult) :
    (freshConfirmation rec c conf).1.next_status = c.next_status ∨
    (freshConfirmation rec c conf).1.next_status = .Pending ∨
    ((freshConfirmation rec c conf).1.next_status = .Acked ∧ Proves rec conf) := by
  unfold freshConfirmation
  split
  next hp => exact Or.inr (Or.inr ⟨rfl, hp⟩)
  split
  · exact Or.inl rfl
  split
  · exact Or.inr (Or.inl rfl)
  · exact Or.inl rfl

/-- A later lookup leaves the find unconfirmed, puts it back into the queue, or acknowledges it with
a proof. -/
theorem retryConfirmation_status (rec : FindRecord) (conf : TransportResult) :
    (retryConfirmation rec conf).1.next_status = .AcceptedUnconfirmed ∨
    (retryConfirmation rec conf).1.next_status = .Pending ∨
    ((retryConfirmation rec conf).1.next_status = .Acked ∧ Proves rec conf) := by
  unfold retryConfirmation
  split
  next hp => exact Or.inr (Or.inr ⟨rfl, hp⟩)
  split
  · exact Or.inl rfl
  split
  · exact Or.inr (Or.inl rfl)
  · exact Or.inl rfl

/-- So does the part of the step that makes the first lookup, which is quiet. -/
theorem confirmFresh_along (ho : owes h = none) {m : Members} {rec : FindRecord}
    {c : Classification} :
    Prog.Along (fun _ => Rely) (Path cfg)
      (fun h' r => Quiet h h' ∧
        (r.2.1.next_status = c.next_status ∨ r.2.1.next_status = .Pending ∨
        (r.2.1.next_status = .Acked ∧
          ∃ conf, ⟨.confirm rec.payload.key, conf⟩ ∈ h' ∧ Proves rec conf))) h
      (confirmFresh cfg m rec c) := by
  unfold confirmFresh
  split
  swap
  · exact ⟨Quiet.refl ho, Or.inl rfl⟩
  refine Prog.Along.call (path_of_owes ho trivial) fun conf _ => ?_
  have hq : Quiet h (⟨.confirm rec.payload.key, conf⟩ :: h) :=
    (Quiet.refl ho).cons (List.Subset.refl _) rfl
  refine (trackServerDate_along hq.clear).bind fun h₁ m₁ hq₁ => ?_
  have hconf : ⟨.confirm rec.payload.key, conf⟩ ∈ h₁ := hq₁.sub List.mem_cons_self
  replace hq₁ := hq.trans hq₁
  refine (lookupRetryTime_along hq₁.clear).bind fun h₂ next hq₂ => ?_
  refine ⟨hq₁.trans hq₂, ?_⟩
  -- unchanged, back to Pending, or acknowledged with the answer that proves it
  rcases freshConfirmation_status rec c conf with hs | hs | ⟨hs, hp⟩
  · exact Or.inl hs
  · exact Or.inr (Or.inl hs)
  · exact Or.inr (Or.inr ⟨hs, conf, hq₂.sub hconf, hp⟩)

/-- The attempt records the record it was given, with a status that its answers allow. -/
theorem attempt_along (ho : owes h = none) {m : Members} {now_mono : Int} {rec : FindRecord}
    (hrec : Offers h [rec]) :
    Prog.Along (fun _ => Rely) (Path cfg) (fun h' _ => owes h' = none) h
      (attempt cfg m now_mono rec) := by
  refine Prog.Along.call (path_of_owes ho trivial) fun res _ => ?_
  have hq : Quiet h (⟨.submit rec.payload, res⟩ :: h) :=
    (Quiet.refl ho).cons (List.Subset.refl _) rfl
  -- nothing is owed while the outcome is being worked out
  refine (trackServerDate_along hq.clear).bind fun h₁ m₁ hq₁ => ?_
  have hsub : ⟨.submit rec.payload, res⟩ ∈ h₁ := hq₁.sub List.mem_cons_self
  replace hq₁ := hq.trans hq₁
  refine (takeHint_along hq₁.clear).bind fun h₂ _ hq₂ => ?_
  refine (confirmFresh_along hq₂.clear).bind fun h₃ r hr => ?_
  obtain ⟨m₃, c, next⟩ := r
  obtain ⟨hq₃, hst⟩ := hr
  replace hq₃ := hq₂.trans hq₃
  refine (retryTime_along hq₃.clear).bind fun h₄ next hq₄ => ?_
  refine Prog.Along.call (path_of_owes hq₄.clear trivial) fun w _ => ?_
  have hq₅ : Quiet h₃ (⟨.wall, w⟩ :: h₄) := hq₄.wall
  refine Prog.Along.call (path_of_owes rfl ⟨rec, rfl, ?_⟩) fun _ _ => ?_
  · obtain ⟨hf, hl⟩ :=
      (hrec.quiet (hq₁.trans (hq₃.trans hq₅))) rec (List.mem_singleton.mpr rfl)
    obtain ⟨hnack, hndead, -⟩ := classify_next_status
      (if res.transport_ok then res.http_status else kTransportError) res.body rec.payload.kind
      res.retry_after
    refine ⟨hf, hl, ?_, ?_, ?_⟩
    · -- `Dead` is the journal's own verdict, never an outcome
      rcases hst with hs | hs | ⟨hs, -⟩
      · rw [hs]; exact hndead
      · rw [hs]; decide
      · rw [hs]; decide
    -- an acknowledgement comes from the confirmation alone
    · intro hack
      rcases hst with hs | hs | ⟨-, conf, hm, hp⟩
      · exact absurd (hs.symm.trans hack) hnack
      · exact absurd (hs.symm.trans hack) (by decide)
      · exact ⟨conf, hq₅.sub hm, hp⟩
    -- and a permanent rejection from the classification of the answer
    · intro hinv
      rcases hst with hs | hs | ⟨hs, -⟩
      · exact ⟨res, hq₅.sub (hq₃.sub hsub), classifyResult_invalid (hs.symm.trans hinv)⟩
      · exact absurd (hs.symm.trans hinv) (by decide)
      · exact absurd (hs.symm.trans hinv) (by decide)
  · refine Prog.Along.call (path_of_owes rfl trivial) fun _ _ => ?_
    exact (logBreakerTransition_along rfl).bind fun _ _ hq => hq.clear

/-- A record that is not admitted is not recorded. -/
theorem admit_along (ho : owes h = none) {m : Members} {now_mono : Int} {rec : FindRecord}
    (hrec : Offers h [rec]) :
    Prog.Along (fun _ => Rely) (Path cfg) (fun h' _ => owes h' = none) h
      (admitRecord cfg m now_mono rec) := by
  unfold admitRecord
  dsimp only
  split
  · exact attempt_along ho hrec
  · exact ho

/-- A record that is parked unsent is recorded as parked. -/
theorem submitRecord_along (ho : owes h = none) {m : Members} {now_mono : Int} {rec : FindRecord}
    (hrec : Offers h [rec]) :
    Prog.Along (fun _ => Rely) (Path cfg) (fun h' _ => owes h' = none) h
      (submitRecord cfg m now_mono rec) := by
  unfold submitRecord
  split
  swap
  · exact admit_along ho hrec
  refine Prog.Along.call (path_of_owes ho trivial) fun known _ => ?_
  have hq : Quiet h (⟨.lastDifficulty, known⟩ :: h) :=
    (Quiet.refl ho).cons (List.Subset.refl _) rfl
  split
  next d =>
    split
    · refine Prog.Along.call (path_of_owes hq.clear trivial) fun w _ => ?_
      refine Prog.Along.call (path_of_owes rfl ⟨rec, rfl, ?_⟩) fun _ _ => rfl
      obtain ⟨hf, hl⟩ := (hrec.quiet hq.wall) rec (List.mem_singleton.mpr rfl)
      exact ⟨hf, hl, by simp [prePark], by simp [prePark], by simp [prePark]⟩
    · exact admit_along hq.clear (hrec.quiet hq)
  · exact admit_along hq.clear (hrec.quiet hq)

/-- The scheduling step from the pacing to the record of the attempt. -/
theorem submitStep_along (ho : owes h = none) {m : Members} :
    Prog.Along (fun _ => Rely) (Path cfg) (fun h' _ => owes h' = none) h (submitStep cfg m) := by
  refine Prog.Along.call (path_of_owes ho trivial) fun now_mono _ => ?_
  split
  · exact rfl
  refine (enterWindow_along rfl).bind fun h₁ window hw => ?_
  refine (fetchEligible_along hw.1 hw.2).bind fun h₂ r hr => ?_
  obtain ⟨eligible, pressure⟩ := r
  obtain ⟨ho₂, hoff⟩ := hr
  refine Prog.Along.call (path_of_owes ho₂ trivial) fun now _ => ?_
  have hq₃ : Quiet h₂ (⟨.mono, now⟩ :: h₂) := (Quiet.refl ho₂).mono
  dsimp only
  split
  · exact rfl
  refine Prog.Along.call (path_of_owes rfl trivial) fun trend _ => ?_
  have hq₄ : Quiet h₂ (⟨.trend, trend⟩ :: ⟨.mono, now⟩ :: h₂) :=
    hq₃.cons (List.Subset.refl _) rfl
  split
  · exact rfl
  next rec hsel =>
    refine submitRecord_along rfl ?_
    intro rec' hrec'
    rw [List.mem_singleton.mp hrec']
    exact (hoff.quiet hq₄) rec (selectNext_mem hsel)

/-! ## Confirmation retries -/

/-- The confirmation records its own record and leaves the others in hand. -/
theorem confirmOne_along (ho : owes h = none) {m : Members} {rec : FindRecord}
    (hrec : Offers h [rec]) :
    Prog.Along (fun _ => Rely) (Path cfg)
      (fun h' _ => h ⊆ h' ∧ (∀ id ∈ live h, id ≠ rec.id → id ∈ live h') ∧
        owes h' = none) h
      (confirmOne cfg m rec) := by
  refine Prog.Along.call (path_of_owes ho trivial) fun conf _ => ?_
  have hq : Quiet h (⟨.confirm rec.payload.key, conf⟩ :: h) :=
    (Quiet.refl ho).cons (List.Subset.refl _) rfl
  refine (trackServerDate_along hq.clear).bind fun h₁ m₁ hq₁ => ?_
  have hconf : ⟨.confirm rec.payload.key, conf⟩ ∈ h₁ := hq₁.sub List.mem_cons_self
  replace hq₁ := hq.trans hq₁
  refine (lookupRetryTime_along hq₁.clear).bind fun h₂ next hq₂ => ?_
  refine Prog.Along.call (path_of_owes hq₂.clear trivial) fun w _ => ?_
  have hq₃ : Quiet h₁ (⟨.wall, w⟩ :: h₂) := hq₂.wall
  refine Prog.Along.call (path_of_owes rfl ⟨rec, rfl, ?_⟩) fun _ _ => ?_
  · obtain ⟨hf, hl⟩ := (hrec.quiet (hq₁.trans hq₃)) rec (List.mem_singleton.mpr rfl)
    -- the retry acks, stays unconfirmed or goes back to Pending; only an ack needs the answer as
    -- its evidence
    rcases retryConfirmation_status rec conf with hs | hs | ⟨hs, hp⟩
    · exact ⟨hf, hl, by simp [hs], by simp [hs], by simp [hs]⟩
    · exact ⟨hf, hl, by simp [hs], by simp [hs], by simp [hs]⟩
    · exact ⟨hf, hl, by simp [hs], fun _ => ⟨conf, hq₃.sub hconf, hp⟩, by simp [hs]⟩
  · have hq₄ := hq₁.trans hq₃
    refine ⟨fun e he => List.mem_cons_of_mem _ (hq₄.sub he), fun id hid hne => ?_, rfl⟩
    exact List.mem_filter.mpr ⟨hq₄.kept hid, by simpa using hne⟩

/-- The loop over different records: each is still on offer when its turn comes. -/
theorem confirmLoop_along : ∀ {recs : List FindRecord} {h : History} {m : Members},
    owes h = none → (recs.map (·.id)).Nodup → Offers h recs →
    Prog.Along (fun _ => Rely) (Path cfg) (fun h' _ => owes h' = none) h (confirmLoop cfg recs m)
  | [], _, _, ho, _, _ => ho
  | rec :: recs, h, m, ho, hnd, hoff => by
    rw [List.map_cons, List.nodup_cons] at hnd
    refine (confirmOne_along ho fun r hr => hoff r ?_).bind fun h₁ r hr => ?_
    · rw [List.mem_singleton.mp hr]
      exact List.mem_cons_self
    obtain ⟨m₁, goOn⟩ := r
    obtain ⟨hsub, hkept, ho₁⟩ := hr
    dsimp only
    split
    · refine confirmLoop_along ho₁ hnd.2 fun r hr => ?_
      obtain ⟨⟨e, he, hm⟩, hl⟩ := hoff r (List.mem_cons_of_mem _ hr)
      refine ⟨⟨e, hsub he, hm⟩, hkept _ hl ?_⟩
      intro heq
      exact hnd.1 (heq ▸ List.mem_map_of_mem hr)
    · exact ho₁

/-- The confirmation step with its fetch. -/
theorem confirmStep_along (ho : owes h = none) {m : Members} :
    Prog.Along (fun _ => Rely) (Path cfg) (fun h' _ => owes h' = none) h (confirmStep cfg m) := by
  unfold confirmStep
  split
  · exact ho
  refine Prog.Along.call (path_of_owes ho trivial) fun w _ => ?_
  refine Prog.Along.call (path_of_owes rfl trivial) fun batch hnd => ?_
  split
  · exact rfl
  refine (confirmLoop_along rfl hnd fun rec hrec => ?_).bind fun _ _ ho => ho
  exact ⟨⟨_, List.mem_cons_self, hrec⟩, List.mem_append_left _ (List.mem_map_of_mem hrec)⟩

/-! ## The whole step -/

/-- A step, on each of its paths. -/
theorem runStep_along (ho : owes h = none) {m : Members} :
    Prog.Along (fun _ => Rely) (Path cfg) (fun h' _ => owes h' = none) h (runStep cfg m) := by
  refine (updateMargin_along ho).bind fun h₁ m₁ hq => ?_
  split
  · exact (probeStep_along hq.clear).mono (fun _ _ h => h) (fun _ _ h => h) fun _ _ hq => hq.clear
  refine (submitStep_along hq.clear).bind fun h₂ r ho₂ => ?_
  obtain ⟨r₂, m₂⟩ := r
  refine (confirmStep_along ho₂).bind fun h₃ r ho₃ => ?_
  obtain ⟨r₃, m₃⟩ := r
  dsimp only
  split
  · exact ho₃
  · exact ho₃

/-- A call of `runOnce` from its beginning, where nothing has happened. -/
theorem runOnce_along :
    Prog.Along (fun _ => Rely) (Path cfg) (fun h' _ => owes h' = none) [] (runOnce cfg) := by
  refine Prog.Along.call (path_of_owes rfl trivial) fun fatal _ => ?_
  split
  · exact rfl
  refine Prog.Along.call (path_of_owes rfl trivial) fun m _ => ?_
  refine (runStep_along rfl).bind fun h₁ r ho₁ => ?_
  obtain ⟨r₁, m₁⟩ := r
  exact Prog.Along.call (path_of_owes ho₁ trivial) fun _ _ => rfl

/-- Which operations a party performs. -/
def Op.isBy : Party → Op → Bool
  | .submission, _ => true
  | .poller, .observe _ | .poller, .unparkForDifficulty _ => true
  | .miner _, .append _ => true
  | _, _ => false

/-- `Path`, and who may be on it. -/
def PathOf (cfg : Config) (i : Party) (h : History) (o : Op) : Prop :=
  Path cfg h o ∧ o.isBy i = true

/-- Only the submission thread does what neither the poller nor a miner does. -/
theorem isBy_submission {i : Party} {o : Op} (h : o.isBy i = true) (ho : o.isBy .poller = false)
    (hm : ∀ n, o.isBy (.miner n) = false) : i = .submission := by
  cases i with
  | submission => rfl
  | poller => rw [ho] at h; cases h
  | miner n => rw [hm n] at h; cases h

/-- Every call of every party keeps to the paths. -/
theorem body_along (i : Party) (k : Call) (hm : (core cfg).may i k = true) :
    Prog.Along (fun _ => Rely) (PathOf cfg i) (fun h' _ => owes h' = none) []
      ((core cfg).body k) := by
  cases k with
  | runOnce =>
    have hi : i = .submission := by
      cases i
      case submission => rfl
      all_goals cases hm
    subst hi
    exact Prog.Along.mono (fun _ _ ha => ha) (fun h o hp => ⟨hp, rfl⟩) (fun _ _ h => h)
      (runOnce_along.bind fun _ _ ho => ho)
  | observeDifficulty d =>
    have hi : i = .poller := by
      cases i
      case poller => rfl
      all_goals cases hm
    subst hi
    refine Prog.Along.call ⟨path_of_owes rfl trivial, rfl⟩ fun release _ => ?_
    cases release with
    | false => exact rfl
    | true =>
      refine ⟨⟨⟨fun d' hd => ?_, trivial⟩, rfl⟩, fun _ _ => rfl⟩
      cases hd
      rfl
  | append p =>
    refine Prog.Along.call ⟨path_of_owes rfl trivial, ?_⟩ fun _ _ => rfl
    cases i
    case miner => rfl
    all_goals cases hm

/-- The journal hands out no row twice. -/
theorem exec_rely {o : Op} {w w' : World} {x : Input} {a : o.Ans}
    (h : exec o w x = some (a, w')) : Rely ⟨o, a⟩ := by
  cases o
  case fetchEligibleOfKind => cases h; exact Journal.fetchByStatus_nodup
  case fetchAwaitingConfirmation => cases h; exact Journal.fetchByStatus_nodup
  all_goals exact List.nodup_nil

/-- Every thread of every reachable configuration is on a path. -/
theorem run_paths {tr : Trace} {c : Configuration} (hr : Run (core cfg) (start cfg) tr c) :
    c.Along (fun _ => Rely) (PathOf cfg) (fun _ h' _ => owes h' = none) :=
  hr.along (fun _ _ _ _ _ _ _ he => exec_rely he) body_along (Conf.along_of_empty fun _ => rfl)

/-- A performed operation was on a path. -/
theorem did_path {c c' : Configuration} {i : Party} {e : Event sig}
    (hc : c.Along (fun _ => Rely) (PathOf cfg) (fun _ h' _ => owes h' = none))
    (hs : (core cfg).Step c (.did i e) c') :
    ∃ h k, c.pool i = some ⟨h, .op e.op k⟩ ∧ PathOf cfg i h e.op := by
  obtain ⟨h, k, x, hp, -, -⟩ := hs.did
  exact ⟨h, k, hp, (hc i _ hp).1⟩

end TreeMiner
