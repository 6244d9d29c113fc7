import Mathlib.Logic.Relation
import TreeMiner.Lib.Solo
import TreeMiner.Submit.HalfOpen
import TreeMiner.Submit.NoLoss
import TreeMiner.Submit.Selection

/-!
# No head-of-line starvation (`SubmissionManager::submitStep_`)

A step sees two slices of the queue, `fetch_limit` rows of each kind, and of XUNI only
while the window is open. Each slice is a prefix of the eligible rows of its kind in id
order, so it is empty only where there is no such row, and begins with the smallest id
(`fetch_head`). What selection is given therefore holds something to select whenever the
journal does.

The step runs amid the other threads: between any two of its operations the poller and
the miners may change the journal. They add rows and release parked ones; a row that is
Pending stays (`meanwhile_pending`).
-/

namespace TreeMiner

open Cxx Interleave Choice

/-! ## The slices -/

/-- A row a fetch of this kind may hand out at this time. -/
structure Eligible (kind : FindKind) (now_utc : Bytes) (r : FindRecord) : Prop where
  pending : r.status = .Pending
  kind : r.payload.kind = kind
  due : ∀ t, r.next_attempt_at = some t → textLe t now_utc = true

/-- The eligible row with the smallest id in the whole journal, as it is read. -/
def OldestRow (kind : FindKind) (now_utc : Bytes) (j : Journal) (rec : FindRecord) : Prop :=
  ∃ r ∈ j.rows, Eligible kind now_utc r ∧ rec = Journal.rowToRecord r ∧
    ∀ r' ∈ j.rows, Eligible kind now_utc r' → r.id ≤ r'.id

section Slices

variable {j : Journal} {kind : FindKind} {now_utc : Bytes} {limit : Nat} {r rec : FindRecord}

/-- The conditions of the query, as the `WHERE` clause writes them. -/
theorem eligible_iff : Eligible kind now_utc r ↔
    (r.status == .Pending && (some kind).all (r.payload.kind == ·) &&
      r.next_attempt_at.all (textLe · now_utc)) = true := by
  simp only [Option.all_some, Bool.and_eq_true, beq_iff_eq]
  constructor
  · rintro ⟨hs, hk, hd⟩
    refine ⟨⟨hs, hk⟩, ?_⟩
    cases hn : r.next_attempt_at with
    | none => rfl
    | some t => exact hd t hn
  · rintro ⟨⟨hs, hk⟩, hd⟩
    refine ⟨hs, hk, fun t ht => ?_⟩
    rw [ht] at hd
    exact hd

/-- A record that is fetched is the reading of an eligible row. -/
theorem mem_fetch (h : rec ∈ j.fetchEligibleOfKind kind now_utc limit) :
    ∃ r ∈ j.rows, Eligible kind now_utc r ∧ rec = Journal.rowToRecord r := by
  obtain ⟨r, hr, rfl⟩ := List.mem_map.mp h
  obtain ⟨hm, he⟩ := List.mem_filter.mp (List.mem_of_mem_take hr)
  exact ⟨r, hm, eligible_iff.mpr he, rfl⟩

/-- A slice is empty only where nothing is eligible, and begins with the smallest id. -/
theorem fetch_head (j : Journal) (kind : FindKind) (now_utc : Bytes) (hlim : 0 < limit) :
    (j.fetchEligibleOfKind kind now_utc limit = [] ∧
      ∀ r ∈ j.rows, ¬ Eligible kind now_utc r) ∨
    ∃ x xs, j.fetchEligibleOfKind kind now_utc limit = x :: xs ∧
      OldestRow kind now_utc j x := by
  -- the rows stand in the order of their ids, so the first of the filtered list is the oldest
  have hsorted : (j.rows.filter fun r => r.status == .Pending &&
      (some kind).all (r.payload.kind == ·) && r.next_attempt_at.all (textLe · now_utc)).Pairwise
      fun a b => a.id < b.id :=
    (List.pairwise_map.mp j.ids_sorted).sublist List.filter_sublist
  unfold Journal.fetchEligibleOfKind Journal.fetchByStatus
  cases hl : j.rows.filter fun r => r.status == .Pending &&
      (some kind).all (r.payload.kind == ·) && r.next_attempt_at.all (textLe · now_utc) with
  | nil =>
    refine Or.inl ⟨by simp, fun r hr he => ?_⟩
    exact List.filter_eq_nil_iff.mp hl r hr (eligible_iff.mp he)
  | cons r rs =>
    obtain ⟨n, rfl⟩ : ∃ n, limit = n + 1 := ⟨limit - 1, by omega⟩
    obtain ⟨hr, he⟩ := List.mem_filter.mp (hl ▸ List.mem_cons_self : r ∈ j.rows.filter _)
    refine Or.inr ⟨_,
      _, by rw [List.take_succ_cons, List.map_cons], r, hr, eligible_iff.mpr he, rfl,
      fun r' hr' he' => ?_⟩
    have hm : r' ∈ r :: rs := hl ▸ List.mem_filter.mpr ⟨hr', eligible_iff.mp he'⟩
    rw [hl] at hsorted
    rcases List.mem_cons.mp hm with rfl | hm
    · exact le_refl _
    · exact le_of_lt ((List.pairwise_cons.mp hsorted).1 r' hm)

end Slices

/-! ## A step amid the other threads -/

/-- An operation of the poller or of a miner. -/
def Meanwhile (w w' : World) : Prop :=
  ∃ i o x a, i ≠ Party.submission ∧ o.isBy i = true ∧ exec o w x = some (a, w')

/-- What an operation of a step does, after whatever the others did. -/
def amid : Effects sig World where
  does o w a w' := ∃ w₁ x, Relation.ReflTransGen Meanwhile w w₁ ∧
    exec o w₁ x = some (a, w')
  throws o w w' := o.mayThrow = true ∧ Relation.ReflTransGen Meanwhile w w'

/-- Every Pending row is still there. -/
def KeepsPending (j j' : Journal) : Prop := ∀ r ∈ j.rows, r.status = .Pending → r ∈ j'.rows

/-- Pending rows that stay through two stretches stay through both. -/
theorem KeepsPending.trans {j₁ j₂ j₃ : Journal} (h : KeepsPending j₁ j₂)
    (h' : KeepsPending j₂ j₃) :
    KeepsPending j₁ j₃ :=
  fun r hr hp => h' r (h r hr hp) hp

/-- Only an outcome that is recorded takes a row out of Pending. -/
theorem Touches.keepsPending {o : Op} {j j' : Journal} (h : Touches o j j')
    (ho : ∀ id c st body next now, o ≠ .recordAttempt id c st body next now) :
    KeepsPending j j' := by
  intro r hr hp
  refine h.keeps hr ?_ ?_ fun c st body next now => ho r.id c st body next now
  · rw [hp]
    simp
  · rw [hp]
    simp

/-- Whatever the other threads do between two operations, a pending row stays pending. -/
theorem meanwhile_pending {w w' : World} (h : Relation.ReflTransGen Meanwhile w w') :
    KeepsPending w.journal w'.journal := by
  induction h with
  | refl => exact fun _ hr _ => hr
  | tail _ hstep ih =>
    obtain ⟨i, o, x, a, hi, hby, he⟩ := hstep
    refine ih.trans ((exec_touches he).keepsPending ?_)
    rintro id c st body next now rfl
    exact hi (isBy_submission hby rfl fun _ => rfl)

/-- Nor does an operation of the step that records nothing. -/
theorem amid_pending {o : Op} {w w' : World} {a : o.Ans} (h : amid.does o w a w')
    (ho : ∀ id c st body next now, o ≠ .recordAttempt id c st body next now) :
    KeepsPending w.journal w'.journal := by
  obtain ⟨w₁, x, hm, he⟩ := h
  exact (meanwhile_pending hm).trans ((exec_touches he).keepsPending ho)

/-! ## What the step does to a record -/

/-- It touches no record but this one. -/
def About (rec : FindRecord) : Op → Prop
  | .submit p => p = rec.payload
  | .recordAttempt id _ _ _ _ _ => id = rec.id
  | _ => True

/-- The step submitted `rec`, or parked it unsent, and no other record. -/
structure ActsOn (h : List (Event sig)) (rec : FindRecord) : Prop where
  acted : (∃ res, (⟨.submit rec.payload, res⟩ : Event sig) ∈ h) ∨
    ∃ d t, (⟨.recordAttempt rec.id (prePark rec d) none [] none t, ()⟩ : Event sig) ∈ h
  only : ∀ e ∈ h, About rec e.op

section Acting

variable {cfg : Config} {m : Members} {rec : FindRecord} {g : Events} {now_mono : Int}

/-- An operation that is not counted is about no record in particular. -/
theorem about_of_not_counted {o : Op} (ho : o.counted = false) : About rec o := by
  cases o with
  | submit | recordAttempt => cases ho
  | _ => trivial

/-- So is a whole part without counted operations. -/
theorem Silent.about {α : Type} {P : α → Prop} {p : Step α} (hp : Silent Op.counted P g p) :
    Prog.Along (fun _ _ => True) (fun _ => About rec) (fun _ _ => True) g p :=
  Prog.Along.mono (fun _ _ ha => ha) (fun _ _ ho => about_of_not_counted ho) (fun _ _ _ => trivial)
    hp

/-- The lookup asks for the record's own key. -/
theorem confirmFresh_about {c : Classification} :
    Prog.Along (fun _ _ => True) (fun _ => About rec) (fun _ _ => True) g
      (confirmFresh cfg m rec c) := by
  unfold confirmFresh
  split
  · refine Prog.Along.call trivial fun conf _ => ?_
    refine trackServerDate_silent.counted.about.bind fun g₁ m₁ _ => ?_
    exact lookupRetryTime_silent.counted.about.bind fun _ _ _ => trivial
  · exact trivial

/-- What a finished step returned, and that it acted on `rec`. -/
def Done (rec : FindRecord) (g : Events) (r : StepResult × Members) : Prop :=
  r.1 = .Submitted ∧ ((∃ res, (⟨.submit rec.payload, res⟩ : Event sig) ∈ g) ∨
    ∃ d t, (⟨.recordAttempt rec.id (prePark rec d) none [] none t, ()⟩ : Event sig) ∈ g)

/-- The attempt submits the record it was given and records that attempt. -/
theorem attempt_acts :
    Prog.Along (fun _ _ => True) (fun _ => About rec) (Done rec) g
      (attempt cfg m now_mono rec) := by
  refine Prog.Along.call rfl fun res _ => ?_
  -- the request stays in the history of all that follows
  refine Prog.Along.mono (fun _ _ ha => ha) (fun _ _ ho => ho)
    (fun g' r hr => (⟨hr.1, Or.inl ⟨res, hr.2.subset List.mem_cons_self⟩⟩ : Done rec g' r))
    (Prog.Along.suffix (D := fun _ (r : StepResult × Members) => r.1 = .Submitted) ?_)
  refine trackServerDate_silent.counted.about.bind fun g₁ m₁ _ => ?_
  refine takeHint_silent.counted.about.bind fun g₂ _ _ => ?_
  refine confirmFresh_about.bind fun g₃ r _ => ?_
  refine retryTime_silent.counted.about.bind fun g₄ next _ => ?_
  refine Prog.Along.call trivial fun w _ => ?_
  refine Prog.Along.call rfl fun _ _ => ?_
  refine Prog.Along.call trivial fun now _ => ?_
  exact logBreakerTransition_silent.counted.about.bind fun g₅ _ _ => rfl

/-- A breaker that admits lets the selected record be acted on. -/
theorem submitRecord_acts (hb : m.breaker.Sane) (ho : m.breaker.state ≠ .Open) :
    Prog.Along (fun _ _ => True) (fun _ => About rec) (Done rec) g
      (submitRecord cfg m now_mono rec) := by
  have hadmit : ∀ g, Prog.Along (fun _ _ => True) (fun _ => About rec) (Done rec) g
      (admitRecord cfg m now_mono rec) := by
    intro g
    unfold admitRecord
    dsimp only
    rw [if_pos (tryAdmit_ok hb ho).1]
    exact attempt_acts
  unfold submitRecord
  split
  swap
  · exact hadmit g
  refine Prog.Along.call trivial fun known _ => ?_
  split
  next d =>
    split
    · refine Prog.Along.call trivial fun w _ => ?_
      refine Prog.Along.call rfl fun _ _ => ?_
      exact ⟨rfl, Or.inr ⟨d, _, List.mem_cons_self⟩⟩
    · exact hadmit _
  · exact hadmit _

/-- A step that comes to its record acts on it, when the breaker is not open and its admission is in
order. -/
theorem ActsOn.of_runs {w w' : World} {h : List (Event sig)} {r : StepResult × Members}
    (hb : m.breaker.Sane) (ho : m.breaker.state ≠ .Open)
    (hr : (submitRecord cfg m now_mono rec).Runs amid w h (some r) w') :
    r.1 = .Submitted ∧ ActsOn h rec := by
  obtain ⟨hops, hret⟩ :=
    hr.along (g := []) (fun _ _ _ _ _ _ => trivial) (submitRecord_acts hb ho)
  obtain ⟨hdone, hacted⟩ := hret r rfl
  simp only [List.append_nil, List.mem_reverse] at hacted
  exact ⟨hdone, hacted, fun e he => (hops e he).elim fun _ ha => ha⟩

end Acting

/-! ## What the step sees -/

/-- The readings of the wall clock, oldest first. -/
def walls (h : List (Event sig)) : List Int :=
  h.filterMap fun
    | ⟨.wall, t⟩ => some t
    | _ => none

/-- The readings of the monotonic clock. -/
def monos (h : List (Event sig)) : List Int :=
  h.filterMap fun
    | ⟨.mono, t⟩ => some t
    | _ => none

/-- What the step saw: the window, the time its fetches compare with, and the journal at
each fetch. -/
structure View where
  window : XuniWindowState
  now_utc : Bytes
  xen11 : Journal
  xuni : Journal

/-- The slices, joined. -/
def View.eligible (cfg : Config) (v : View) : List FindRecord :=
  v.xen11.fetchEligibleOfKind .XEN11 v.now_utc cfg.fetch_limit ++
    if v.window.isOpen then v.xuni.fetchEligibleOfKind .XUNI v.now_utc cfg.fetch_limit else []

/-- A step that started in `w` and did `h` had this view: the first reading of the wall clock
judges the window, the second is the time of the fetches, and every row that was Pending at
the start is in the journals it fetched from. -/
structure Saw (cfg : Config) (m : Members) (w : World) (h : List (Event sig)) (v : View) :
    Prop where
  clocks : ∃ t₁ t₂ ts, walls h = t₁ :: t₂ :: ts ∧
    v.window = xuniWindowAt (t₁ + m.server_offset_ms.getD 0) ∧ v.now_utc = isoUtc t₂
  fetched_xen11 : (⟨.fetchEligibleOfKind .XEN11 v.now_utc cfg.fetch_limit,
    v.xen11.fetchEligibleOfKind .XEN11 v.now_utc cfg.fetch_limit⟩ : Event sig) ∈ h
  fetched_xuni : v.window.isOpen = true →
    (⟨.fetchEligibleOfKind .XUNI v.now_utc cfg.fetch_limit,
    v.xuni.fetchEligibleOfKind .XUNI v.now_utc cfg.fetch_limit⟩ : Event sig) ∈ h
  kept_xen11 : KeepsPending w.journal v.xen11
  kept_xuni : KeepsPending w.journal v.xuni

/-- Something the step could submit: a XEN11, or a XUNI while the window is open. -/
def Waiting (j : Journal) (v : View) : Prop :=
  (∃ r ∈ j.rows, Eligible .XEN11 v.now_utc r) ∨
    (v.window.isOpen = true ∧ ∃ r ∈ j.rows, Eligible .XUNI v.now_utc r)

/-- A XUNI goes first: one is eligible, and its window is about to close. -/
def PreemptedBy (cfg : Config) (v : View) : Prop :=
  v.window.isOpen = true ∧ v.window.ms_until_close ≤ cfg.drain.xuni_preempt_window_ms ∧
    ∃ r ∈ v.xuni.rows, Eligible .XUNI v.now_utc r

/-- The step takes its record from the rows that were eligible. -/
def Offered (v : View) (rec : FindRecord) : Prop :=
  (∃ r ∈ v.xen11.rows, Eligible .XEN11 v.now_utc r ∧ rec = Journal.rowToRecord r) ∨
    (v.window.isOpen = true ∧
      ∃ r ∈ v.xuni.rows, Eligible .XUNI v.now_utc r ∧ rec = Journal.rowToRecord r)

section Viewing

variable {cfg : Config} {m : Members} {w w' : World} {h : List (Event sig)} {v : View}

/-- A run that begins with a call, split behind it. -/
theorem amid_call {α : Type} {o : Op} {f : o.Ans → Step α} {r : α}
    (hx : ((call o).bind f).Runs amid w h (some r) w') :
    ∃ a w₁ h₁, h = ⟨o, a⟩ :: h₁ ∧ amid.does o w a w₁ ∧
      (f a).Runs amid w₁ h₁ (some r) w' := by
  rcases runs_op.mp hx with ⟨a, w₁, h₁, rfl, hdo, hrest⟩ | ⟨-, hr, -⟩
  · exact ⟨a, w₁, h₁, rfl, hdo, hrest⟩
  · cases hr

/-- The head of the step reads the wall clock once and acts on no record. -/
theorem enterWindow_runs {window : XuniWindowState}
    (hx : (enterWindow cfg m).Runs amid w h (some window) w') :
    (∃ t, walls h = [t] ∧ window = xuniWindowAt (t + m.server_offset_ms.getD 0)) ∧
      (∀ rec, ∀ e ∈ h, About rec e.op) ∧ KeepsPending w.journal w'.journal := by
  obtain ⟨t, w₁, h₁, rfl, hd₁, hx⟩ := amid_call hx
  obtain ⟨last, w₂, h₂, rfl, hd₂, hx⟩ := amid_call hx
  have hk₂ : KeepsPending w.journal w₂.journal :=
    (amid_pending hd₁ (by simp)).trans (amid_pending hd₂ (by simp))
  split at hx
  · obtain ⟨_, w₃, h₃, rfl, hd₃, hx⟩ := amid_call hx
    obtain ⟨_, w₄, h₄, rfl, hd₄, hx⟩ := amid_call hx
    obtain ⟨rfl, hr, rfl⟩ := runs_ret.mp hx
    cases hr
    refine ⟨⟨t, rfl, rfl⟩, by simp [About], ?_⟩
    exact hk₂.trans ((amid_pending hd₃ (by simp)).trans (amid_pending hd₄ (by simp)))
  · obtain ⟨_, w₃, h₃, rfl, hd₃, hx⟩ := amid_call hx
    obtain ⟨rfl, hr, rfl⟩ := runs_ret.mp hx
    cases hr
    exact ⟨⟨t, rfl, rfl⟩, by simp [About], hk₂.trans (amid_pending hd₃ (by simp))⟩

/-- A fetch answers from the journal it finds. -/
theorem amid_fetch {kind : FindKind} {now_utc : Bytes} {limit : Nat} {recs : List FindRecord}
    (hd : amid.does (.fetchEligibleOfKind kind now_utc limit) w recs w') :
    recs = w'.journal.fetchEligibleOfKind kind now_utc limit := by
  obtain ⟨w₁, x, -, he⟩ := hd
  cases he
  rfl

/-- The fetches read the wall clock once. -/
theorem fetchEligible_runs {window : XuniWindowState} {r : List FindRecord × Bool}
    (hx : (fetchEligible cfg window).Runs amid w h (some r) w') :
    ∃ v : View, v.window = window ∧ r.1 = v.eligible cfg ∧
      (∃ t, walls h = [t] ∧ v.now_utc = isoUtc t) ∧
      (⟨.fetchEligibleOfKind .XEN11 v.now_utc cfg.fetch_limit,
        v.xen11.fetchEligibleOfKind .XEN11 v.now_utc cfg.fetch_limit⟩ : Event sig) ∈ h ∧
      (v.window.isOpen = true → (⟨.fetchEligibleOfKind .XUNI v.now_utc cfg.fetch_limit,
        v.xuni.fetchEligibleOfKind .XUNI v.now_utc cfg.fetch_limit⟩ : Event sig) ∈ h) ∧
      KeepsPending w.journal v.xen11 ∧ KeepsPending w.journal v.xuni ∧
      ∀ rec, ∀ e ∈ h, About rec e.op := by
  obtain ⟨t, w₁, h₁, rfl, hd₁, hx⟩ := amid_call hx
  obtain ⟨xen11, w₂, h₂, rfl, hd₂, hx⟩ := amid_call hx
  have hk₂ : KeepsPending w.journal w₂.journal :=
    (amid_pending hd₁ (by simp)).trans (amid_pending hd₂ (by simp))
  have hxen := amid_fetch hd₂
  subst hxen
  split at hx
  next hopen =>
    obtain ⟨xuni, w₃, h₃, rfl, hd₃, hx⟩ := amid_call hx
    have hxuni := amid_fetch hd₃
    subst hxuni
    obtain ⟨rfl, hr, rfl⟩ := runs_ret.mp hx
    cases hr
    refine ⟨⟨window, isoUtc t, w₂.journal, w'.journal⟩, rfl, ?_,
      ⟨t, rfl, rfl⟩, by simp, by simp, hk₂, hk₂.trans (amid_pending hd₃ (by simp)),
      by simp [About]⟩
    show _ = _ ++ if window.isOpen = true then _ else _
    rw [if_pos hopen]
  next hclosed =>
    obtain ⟨rfl, hr, rfl⟩ := runs_ret.mp hx
    cases hr
    refine ⟨⟨window, isoUtc t, w'.journal, w'.journal⟩, rfl, ?_, ⟨t, rfl, rfl⟩, by simp,
      fun hopen => absurd hopen hclosed, hk₂, hk₂, by simp [About]⟩
    show _ = _ ++ if window.isOpen = true then _ else _
    rw [if_neg hclosed, List.append_nil]

/-- The readings of the wall clock, stretch by stretch. -/
theorem walls_append {h₁ h₂ : List (Event sig)} :
    walls (h₁ ++ h₂) = walls h₁ ++ walls h₂ :=
  List.filterMap_append

/-- What the two slices hold. -/
theorem mem_eligible {rec : FindRecord} (hrec : rec ∈ v.eligible cfg) : Offered v rec := by
  rcases List.mem_append.mp hrec with hrec | hrec
  · exact Or.inl (mem_fetch hrec)
  · split at hrec
    next hopen => exact Or.inr ⟨hopen, mem_fetch hrec⟩
    next => exact absurd hrec List.not_mem_nil

/-- A reading keeps the kind. -/
theorem rowToRecord_kind {r : FindRecord} : (Journal.rowToRecord r).payload.kind = r.payload.kind :=
  rfl

/-- With something to submit in the journal there is something to select. -/
theorem selected_some (hlim : 0 < cfg.fetch_limit) {trend : DifficultyTrend} {j : Journal}
    (hk : KeepsPending j v.xen11) (hk' : KeepsPending j v.xuni) (hw : Waiting j v)
    (hs : Selected cfg.drain (v.eligible cfg) trend v.window none) : False := by
  cases hs with
  | nothing hx hnx =>
    rcases hw with ⟨r, hr, he⟩ | ⟨hopen, r, hr, he⟩
    · rcases fetch_head v.xen11 .XEN11 v.now_utc hlim with
        ⟨-, hno⟩ | ⟨x, xs, hl, y, -, hy, rfl, -⟩
      · exact hno r (hk r hr he.pending) he
      · refine hx (Journal.rowToRecord y) (List.mem_append_left _ ?_) hy.kind
        rw [hl]
        exact List.mem_cons_self
    · rcases fetch_head v.xuni .XUNI v.now_utc hlim with
        ⟨-, hno⟩ | ⟨x, xs, hl, y, -, hy, rfl, -⟩
      · exact hno r (hk' r hr he.pending) he
      · refine hnx hopen (Journal.rowToRecord y) (List.mem_append_right _ ?_) hy.kind
        rw [if_pos hopen, hl]
        exact List.mem_cons_self

/-- Without pre-emption and rising difficulty the oldest XEN11 of the journal is selected. -/
theorem selected_oldest (hlim : 0 < cfg.fetch_limit) {trend : DifficultyTrend} {rec : FindRecord}
    (hs : Selected cfg.drain (v.eligible cfg) trend v.window (some rec)) (ht : trend ≠ .Rising)
    (hno : ¬ PreemptedBy cfg v) (hx : ∃ r ∈ v.xen11.rows, Eligible .XEN11 v.now_utc r) :
    OldestRow .XEN11 v.now_utc v.xen11 rec := by
  obtain ⟨r, hr, he⟩ := hx
  rcases fetch_head v.xen11 .XEN11 v.now_utc hlim with
    ⟨-, hnone⟩ | ⟨x, xs, hl, hold⟩
  · exact absurd he (hnone r hr)
  have hkind : x.payload.kind = .XEN11 := by
    obtain ⟨y, -, hy, rfl, -⟩ := hold
    exact hy.kind
  have hfirst : Oldest .XEN11 (v.eligible cfg) x := by
    unfold View.eligible
    rw [hl]
    exact first_cons hkind
  cases hs with
  | preempt hp =>
    refine absurd ⟨hp.isOpen, hp.closing, ?_⟩ hno
    rcases mem_eligible hp.oldest.mem with ⟨y, -, hy, rfl⟩ | ⟨-, y, hm, hy, -⟩
    · -- a XEN11 is no XUNI
      have hxuni : (Journal.rowToRecord y).payload.kind = .XUNI := hp.oldest.holds
      rw [rowToRecord_kind, hy.kind] at hxuni
      cases hxuni
    · exact ⟨y, hm, hy⟩
  | cheapest _ hr => exact absurd hr ht
  | oldest _ _ ho =>
    rw [ho.unique hfirst]
    exact hold
  | xuni _ hnx => exact absurd hkind (hnx x hfirst.mem)

end Viewing

/-! ## Reachable managers -/

/-- However a run got there, a half-open breaker has its admission to give. -/
theorem run_sane {cfg : Config} {j : Journal} {tr : List (WatchedConf × Label sig Party Call)}
    {c : WatchedConf} (hr : Run (watched cfg) (openOn cfg j) tr c) :
    c.world.members.breaker.Sane := by
  have hgoing : Going c := by
    refine hr.invariant_conf (I := Going) (fun c₁ l c₂ hc hs => ?_)
      ⟨fun h => (by cases h), Conf.along_of_empty fun _ => rfl⟩
    by_cases hthrew : ∃ o, l = .threw .submission o
    · obtain ⟨o, rfl⟩ := hthrew
      refine ⟨?_,
        hc.paths.step hs (fun _ _ _ _ hl _ => by cases hl) fun i k hm => body_watched hm⟩
      -- the exception leaves the members as they were stored
      rcases Machine.step_cases hs with ⟨i, k, hl, -⟩ | ⟨i, h, o, k, x, a, w, hl, -⟩ |
        ⟨i, h, o, k, w, hl, -, ha, rfl⟩ | ⟨w, hl, -⟩
      · cases hl
      · cases hl
      · simp only [watched, core] at ha
        split at ha
        · cases ha
          dsimp only
          split <;> exact hc.sane
        · cases ha
      · cases hl
    · exact hc.step hs fun o ho => hthrew ⟨o, ho⟩
  exact hgoing.sane

/-- The members a step of a process in this state works on: it loads the stored ones, and
only the outage clock and the margin are brought up to date before `submitStep_`. -/
def Enters (w : World) (m : Members) : Prop := m.breaker = w.members.breaker

/-- The step gets past the pacing gate, which its first reading decides. -/
def PassesGate (m : Members) (h : List (Event sig)) : Prop :=
  ∃ t, (monos h).head? = some t ∧ m.next_submit_allowed_ms ≤ t

/-- No head-of-line starvation. A step of any reachable manager, with the breaker not open
and past the pacing gate, begun on any journal: if a XEN11 is eligible there, or a XUNI while
the window is open, it acts on a record it was offered; without rising difficulty and
pre-emption that is the eligible XEN11 with the smallest id, if there is one. -/
theorem submitStep_never_starves (cfg : Config) (hlim : 0 < cfg.fetch_limit) (j : Journal)
    (tr : List (WatchedConf × Label sig Party Call)) (c : WatchedConf)
    (hr : Run (watched cfg) (openOn cfg j) tr c) (m : Members) (hm : Enters c.world m)
    (ho : m.breaker.state ≠ .Open) (w w' : World) (h : List (Event sig)) (res : StepResult)
    (m' : Members) (hx : (submitStep cfg m).Runs amid w h (some (res, m')) w')
    (hgate : PassesGate m h) :
    ∃ v, Saw cfg m w h v ∧ (Waiting w.journal v → res = .Submitted ∧
      ∃ rec trend, ActsOn h rec ∧ Offered v rec ∧ (⟨.trend, trend⟩ : Event sig) ∈ h ∧
        (trend ≠ .Rising → ¬ PreemptedBy cfg v →
          (∃ r ∈ v.xen11.rows, Eligible .XEN11 v.now_utc r) →
          OldestRow .XEN11 v.now_utc v.xen11 rec)) := by
  have hsane : m.breaker.Sane := by
    rw [hm]
    exact run_sane hr
  obtain ⟨now_mono, w₁, h₁, rfl, hd₁, hx⟩ := amid_call hx
  obtain ⟨t, heq, hpass⟩ := hgate
  cases heq
  rw [if_neg (Int.not_lt.mpr hpass)] at hx
  rcases hx.bind_cases with ⟨h₂, window, w₂, h₃, rfl, hwin, hx⟩ | ⟨hn, -⟩
  swap
  · cases hn
  obtain ⟨⟨t₁, hwalls₁, rfl⟩, habout₁, hkept₁⟩ := enterWindow_runs hwin
  rcases hx.bind_cases with ⟨h₄, ⟨eligible, pressure⟩, w₃, h₅, rfl, hfetch, hx⟩ |
      ⟨hn, -⟩
  swap
  · cases hn
  obtain ⟨v, hv, hel, ⟨t₂, hwalls₂, hnow⟩, hf₁, hf₂, hk₁, hk₂, habout₂⟩ :=
    fetchEligible_runs hfetch
  dsimp only at hel
  have hkept₀ : KeepsPending w.journal w₂.journal :=
    (amid_pending hd₁ (by simp)).trans hkept₁
  have hsaw : Saw cfg m w (⟨.mono, now_mono⟩ :: (h₂ ++ (h₄ ++ h₅))) v := by
    refine ⟨⟨t₁, t₂, walls h₅, ?_, hv, hnow⟩, ?_, fun hopen => ?_, hkept₀.trans hk₁,
      hkept₀.trans hk₂⟩
    · show walls (h₂ ++ (h₄ ++ h₅)) = _
      rw [walls_append, walls_append, hwalls₁, hwalls₂]
      rfl
    · exact List.mem_cons_of_mem _ (List.mem_append_right _ (List.mem_append_left _ hf₁))
    · exact List.mem_cons_of_mem _ (List.mem_append_right _ (List.mem_append_left _ (hf₂ hopen)))
  refine ⟨v, hsaw, fun hwaiting => ?_⟩
  have hsome : ∀ trend, Selected cfg.drain (v.eligible cfg) trend v.window none → False :=
    fun _ => selected_some hlim hsaw.kept_xen11 hsaw.kept_xuni hwaiting
  -- the two ways to be idle past the fetches are the two ways to have nothing selected
  obtain ⟨now, w₄, h₆, rfl, hd₄, hx⟩ := amid_call hx
  rw [if_neg ?_] at hx
  swap
  · intro hempty
    rw [hel, List.isEmpty_iff] at hempty
    refine hsome .Flat (.nothing ?_ fun _ => ?_) <;> simp [hempty]
  obtain ⟨trend, w₅, h₇, rfl, hd₅, hx⟩ := amid_call hx
  have hsel := ((selection_spec cfg.drain eligible trend
    (xuniWindowAt (t₁ + m.server_offset_ms.getD 0)) _).1.mp rfl)
  rw [hel, ← hv] at hsel
  split at hx
  next hnone =>
    rw [hel, ← hv] at hnone
    rw [hnone] at hsel
    exact absurd hsel (hsome trend)
  next rec hrec =>
    rw [hel, ← hv] at hrec
    rw [hrec] at hsel
    obtain ⟨hres, hacted, honly⟩ := ActsOn.of_runs (by
        intro hh
        rw [setXuniPressure_admission]
        rw [setXuniPressure_state] at hh
        exact hsane hh)
      (by
        rw [setXuniPressure_state]
        exact ho) hx
    have hin : ∀ e ∈ h₇, e ∈
      (⟨.mono, now_mono⟩ : Event sig) :: (h₂ ++ (h₄ ++ ⟨.mono, now⟩ ::
        ⟨.trend, trend⟩ :: h₇)) := by
      intro e he
      simp [he]
    refine ⟨hres, rec, trend, ⟨?_, ?_⟩,
      mem_eligible (selectNext_mem hrec), by simp, fun ht hno hxen =>
      selected_oldest hlim hsel ht hno hxen⟩
    · rcases hacted with ⟨res, hm⟩ | ⟨d, t, hm⟩
      · exact Or.inl ⟨res, hin _ hm⟩
      · exact Or.inr ⟨d, t, hin _ hm⟩
    · intro e he
      simp only [List.mem_cons, List.mem_append] at he
      rcases he with rfl | he | he | rfl | rfl | he
      · trivial
      · exact habout₁ rec e he
      · exact habout₂ rec e he
      · trivial
      · trivial
      · exact honly e he

/-! ## A slice of one row -/

/-- Each fetch hands out one row. -/
def narrow : Config := { fetch_limit := 1 }

/-- A XUNI at the head of the queue, a XEN11 behind it. -/
def behindXuni : Journal :=
  ((Journal.empty.append { sampleFind with key := lit "k0", kind := .XUNI }).2.append sampleFind).2

/-- Half past the hour no window is open; nothing answers the request. -/
def halfPast (o : Op) (w : World) : Option (o.Ans × World) :=
  match exec o w (.time 1800000) with
  | some r => some r
  | none => exec o w (.answer noAnswer)

/-- The sample's answers are ones that the world may give. -/
theorem halfPast_amid {o : Op} {w w' : World} {a : o.Ans} (h : halfPast o w = some (a, w')) :
    amid.does o w a w' := by
  unfold halfPast at h
  split at h
  next r he =>
    cases h
    exact ⟨w, _, .refl, he⟩
  · exact ⟨w, _, .refl, h⟩

/-- The sample journal has a XEN11 that waits behind XUNI finds. -/
private theorem queued_xen11 :
    ∃ r ∈ behindXuni.rows, r.status = .Pending ∧ r.payload.kind = .XEN11 ∧
    r.next_attempt_at = none := by
  decide

/-- The sample step runs to its end and passes the gate of the pacing. -/
private theorem queued_runs : ∃ h res m' w',
    (submitStep narrow (boot narrow behindXuni).members).Runs amid (boot narrow behindXuni) h
      (some (res, m')) w' ∧ PassesGate (boot narrow behindXuni).members h := by
  have hends : (((submitStep narrow (boot narrow behindXuni).members).follow halfPast
      (boot narrow behindXuni)).map fun e => (monos e.1).head?) = some (some 1800000) := by
    decide
  obtain ⟨⟨h, ⟨res, m'⟩, w'⟩, hf, hmono⟩ := Option.map_eq_some_iff.mp hends
  exact ⟨h, res, m', w', Prog.follow_runs (E := amid) id (fun _ _ _ _ ha => halfPast_amid ha) hf,
    1800000, hmono, by decide⟩

theorem submitStep_never_starves_queued : ∃ h m' w' rec,
    (submitStep narrow (boot narrow behindXuni).members).Runs amid (boot narrow behindXuni) h
      (some (.Submitted, m')) w' ∧ ActsOn h rec := by
  obtain ⟨h, res, m', w', hx, hgate⟩ := queued_runs
  obtain ⟨v, -, hacts⟩ := submitStep_never_starves narrow (by decide) behindXuni []
    (openOn narrow behindXuni) (.nil _) (boot narrow behindXuni).members rfl (by decide)
      (boot narrow behindXuni)
    w' h res m' hx hgate
  obtain ⟨r, hr, hpending, hkind, hnone⟩ := queued_xen11
  have hwaiting : Waiting (boot narrow behindXuni).journal v := by
    refine Or.inl ⟨r, hr, hpending, hkind, fun t ht => ?_⟩
    rw [hnone] at ht
    cases ht
  obtain ⟨rfl, rec, -, hrec, -⟩ := hacts hwaiting
  exact ⟨h, m', w', rec, hx, hrec⟩

end TreeMiner
