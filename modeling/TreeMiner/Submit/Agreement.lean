import TreeMiner.Lib.Lockstep
import TreeMiner.Submit.Port

/-!
# Two managers, one behaviour

The C++ manager is a program of operations on the `World`, the Rust manager a computation
on its own state. `manager` puts the one state in terms of the other; `Agree` runs both from
states that correspond, on the same answers, and says that they end in states that
correspond again. The step functions are compared one by one (`…_agree`), in the order of
the source, and a run is a step after a step.

Answers are restricted to those that both can read (`Polite`), and the margin is off. A call
that only one side makes, or one made in another order, would show in the list of calls that
both carry along.
-/

namespace TreeMiner.RustManager

open Cxx RustClassifier RustTransport Faults Interleave

/-! ## Corresponding states -/

/-- The configuration of the C++ manager, with the same values and no pre-parking. -/
def SubmissionConfig.cpp (cfg : SubmissionConfig) : Config where
  fetch_limit := cfg.fetch_limit
  confirm_fetch_limit := cfg.confirm_fetch_limit
  backoff_base_ms := cfg.backoff_base_ms
  backoff_cap_ms := cfg.backoff_cap_ms
  xuni_max_windows := cfg.xuni_max_windows
  breaker := cfg.breaker
  drain := cfg.drain
  margin := cfg.margin
  margin_eval_interval_ms := cfg.margin_eval_interval_ms
  pre_park_below_difficulty := false

/-- The Rust manager with the values of the C++ one, whose own members are `m`. -/
def manager (w : World) (m : Members) : SubmissionManager where
  journal := w.journal
  breaker := m.breaker
  scheduler := m.scheduler
  last_difficulty := w.last_difficulty
  trend := w.trend
  server_offset_ms := m.server_offset_ms
  fatal := w.fatal
  next_submit_allowed_ms := m.next_submit_allowed_ms
  last_window_open := w.last_window_open
  margin_kib := m.margin_kib
  outage_started_ms := m.outage_started_ms
  last_outage_span_ms := m.last_outage_span_ms
  last_margin_eval_ms := m.last_margin_eval_ms
  margin_eval_started := m.margin_eval_started

/-- The C++ core, the transport calls it has made and the answers to come. -/
structure Twin where
  world : World
  calls : List TransportCall
  answers : List RustTransport.TransportResult

namespace Twin

/-- The Rust manager, with its calls. -/
def session (t : Twin) (m : Members) : Session := ⟨manager t.world m, t.calls⟩

/-- The answers as the Rust manager gets them. -/
def given (t : Twin) : Answers RustTransport.TransportResult := t.answers.map some

/-- The next answer. -/
def next (t : Twin) : RustTransport.TransportResult := t.answers.headD {}

/-- A call has been made and answered. -/
def ask (t : Twin) (c : TransportCall) : Twin :=
  { t with calls := t.calls ++ [c], answers := t.answers.tail }

/-- Nothing throws, the clocks stand still, and the transport answers in turn. -/
def answer (mono wall : Int) : (o : Op) → Twin → Option (o.Ans × Twin)
  | .submit p, t => (exec (.submit p) t.world (.answer (cpp t.next))).map fun r =>
      (r.1, { t.ask (.submit p) with world := r.2 })
  | .confirm key, t => (exec (.confirm key) t.world (.answer (cpp t.next))).map fun r =>
      (r.1, { t.ask (.confirm key) with world := r.2 })
  | .difficulty, t => (exec .difficulty t.world (.answer (cpp t.next))).map fun r =>
      (r.1, { t.ask .difficulty with world := r.2 })
  | .mono, t => (exec .mono t.world (.time mono)).map fun r => (r.1, { t with world := r.2 })
  | .wall, t => (exec .wall t.world (.time wall)).map fun r => (r.1, { t with world := r.2 })
  | o, t => (exec o t.world .nothing).map fun r => (r.1, { t with world := r.2 })

end Twin

/-- The journal can be read on both sides, and the answers are polite. -/
structure Sound (t : Twin) : Prop where
  readable : Readable t.world.journal
  polite : ∀ r ∈ t.answers, Polite r

/-- What a part of a step may change: no row is lost, and all stays sound. -/
structure After (t t' : Twin) : Prop where
  ext : Journal.Ext t.world.journal t'.world.journal
  sound : Sound t'

section Sound

variable {t t' t'' : Twin} {c : TransportCall}

/-- A part that changes nothing keeps what the later parts rely on. -/
theorem Sound.after (h : Sound t) : After t t := ⟨.refl, h⟩

/-- What two parts may change one after the other is what one part may change. -/
theorem After.trans (h : After t t') (h' : After t' t'') : After t t'' :=
  ⟨h.ext.trans h'.ext, h'.sound⟩

/-- An answer with no body and no header is polite, since there is nothing to read in it. -/
theorem polite_default : Polite {} where
  body := fun _ hc => absurd hc List.not_mem_nil
  retry_after := fun _ hh => by cases hh
  date_header := fun _ hh => by cases hh
  http_status := by decide

/-- The next answer is polite, also when the list has run out and it is the empty answer. -/
theorem Sound.next (h : Sound t) : Polite t.next := by
  unfold Twin.next
  cases ha : t.answers with
  | nil => exact polite_default
  | cons r rs => exact h.polite r (by rw [ha]; exact List.mem_cons_self)

/-- A call takes an answer off the list and leaves the journal as it is. -/
theorem Sound.ask (h : Sound t) : After t (t.ask c) :=
  ⟨.refl, h.readable, fun r hr => h.polite r (List.mem_of_mem_tail hr)⟩

end Sound

/-! ## Parts in lockstep -/

section Agree

-- The two clocks.
variable {mono wall : Int}

/-- Both parts return, from states that correspond to states that do. -/
def Agree (mono wall : Int) {α β : Type} (p : TreeMiner.Step α) (t : Twin) (m : Members)
    (R : Step β) (Q : α → Twin → Members → β → Prop) : Prop :=
  Lockstep (Twin.answer mono wall) p t R (t.session m) t.given fun a t' b s' as' =>
    ∃ m', s' = t'.session m' ∧ as' = t'.given ∧ Q a t' m' b

variable {α α' β β' : Type} {p : TreeMiner.Step α} {f : α → TreeMiner.Step α'}
  {R : Step β}
  {g : β → Step β'} {t u : Twin} {m n : Members} {Q : α → Twin → Members → β → Prop}
  {Q' : α' → Twin → Members → β' → Prop}

/-- The C++ side has nothing to do. -/
theorem agree_ret {a : α} {b : β} (hr : R (t.session m) t.given = (some b, t.session n, t.given))
    (hQ : Q a t n b) : Agree mono wall (.ret a) t m R Q :=
  ⟨[], a, t, b, _, _, rfl, hr, n, rfl, rfl, hQ⟩

/-- The relation at the end may be weakened. -/
theorem Agree.weaken {Q₁ : α → Twin → Members → β → Prop}
    (h : Agree mono wall p t m R Q)
    (hQ : ∀ a t m b, Q a t m b → Q₁ a t m b) : Agree mono wall p t m R Q₁ := by
  refine Lockstep.mono h ?_
  rintro a t' b s' as' ⟨m', hs, has, hq⟩
  exact ⟨m', hs, has, hQ _ _ _ _ hq⟩

/-- One part after another. -/
theorem Agree.bind (h : Agree mono wall p t m R Q)
    (hf : ∀ a t' m' b, Q a t' m' b → Agree mono wall (f a) t' m' (g b) Q') :
    Agree mono wall (p.bind f) t m (R >>= g) Q' := by
  refine Lockstep.bind (Lockstep.mono h ?_)
  rintro a t' b s' as' ⟨m', rfl, rfl, hq⟩
  exact hf a t' m' b hq

/-- The C++ side goes on alone. -/
theorem Agree.alone {Q' : α' → Twin → Members → β → Prop} (h : Agree mono wall p t m R Q)
    (hf : ∀ a t' m' b, Q a t' m' b → Agree mono wall (f a) t' m' (pure b) Q') :
    Agree mono wall (p.bind f) t m R Q' := by
  refine Lockstep.alone (Lockstep.mono h ?_)
  rintro a t' b s' as' ⟨m', rfl, rfl, hq⟩
  exact hf a t' m' b hq

/-- A handler that is not needed. -/
theorem Agree.orElse {h : Step β} (hp : Agree mono wall p t m R Q) :
    Agree mono wall p t m (R.orElse h) Q :=
  Lockstep.orElse hp

/-- An operation of the C++ side alone that changes nothing. -/
theorem agree_op {o : Op} {k : o.Ans → TreeMiner.Step α} {a : o.Ans}
    (ha : Twin.answer mono wall o t = some (a, t)) (hk : Agree mono wall (k a) t m R Q) :
    Agree mono wall ((TreeMiner.call o).bind k) t m R Q :=
  lockstep_op ha hk

/-- A part of the Rust side alone, which sets members. -/
theorem agree_run {Q : α → Twin → Members → β' → Prop} {b : β}
    (hr : R (t.session m) t.given = (some b, t.session n, t.given))
    (hk : Agree mono wall p t n (g b) Q) : Agree mono wall p t m (R >>= g) Q :=
  lockstep_run hr hk

/-- An operation that both perform. -/
theorem agree_both {o : Op} {k : o.Ans → TreeMiner.Step α'} {a : o.Ans} {b : β}
    (ha : Twin.answer mono wall o t = some (a, u))
    (hr : R (t.session m) t.given = (some b, u.session n, u.given))
    (hk : Agree mono wall (k a) u n (g b) Q') :
    Agree mono wall ((TreeMiner.call o).bind k) t m (R >>= g) Q' :=
  lockstep_op ha (lockstep_run hr hk)

/-- The last one. -/
theorem agree_last {o : Op} {a : o.Ans} {b : β} {Q : o.Ans → Twin → Members → β → Prop}
    (ha : Twin.answer mono wall o t = some (a, u))
    (hr : R (t.session m) t.given = (some b, u.session n, u.given)) (hQ : Q a u n b) :
    Agree mono wall (TreeMiner.call o) t m R Q := by
  have hret : Lockstep (S := sig) (Twin.answer mono wall) (.ret a) u R (t.session m) t.given
      fun a t' b s' as' => ∃ m', s' = t'.session m' ∧ as' = t'.given ∧ Q a t' m' b :=
    ⟨[], a, u, b, _, _, rfl, hr, n, rfl, rfl, hQ⟩
  exact lockstep_op ha hret

/-- A call of the Rust manager is recorded and takes the next answer, as the C++ call does. -/
theorem transport_run {c : TransportCall} : transport c (t.session m) t.given =
    (some t.next, (t.ask c).session m, (t.ask c).given) := by
  unfold Twin.given Twin.next Twin.ask
  cases t.answers with
  | nil => rfl
  | cons r rs => rfl

/-- A round trip. -/
theorem agree_transport {o : Op} {k : o.Ans → TreeMiner.Step α'} {a : o.Ans} {c : TransportCall}
    {g : RustTransport.TransportResult → Step β'}
    (ha : Twin.answer mono wall o t = some (a, t.ask c))
    (hk : Agree mono wall (k a) (t.ask c) m (g t.next) Q') :
    Agree mono wall ((TreeMiner.call o).bind k) t m (transport c >>= g) Q' :=
  agree_both ha transport_run hk

end Agree

/-! ## What the steps share -/

section Shared

variable {mono wall : Int} {t : Twin} {m : Members} {r : RustTransport.TransportResult}

/-- What is observed is the same, and so is whether finds are released. -/
theorem observed_manager {w : World} {d : UInt32} : ∃ decreased first,
    observed (manager w m) d = (manager (w.observe d).2 m, decreased, first) ∧
      (decreased || first) = (w.observe d).1 := by
  unfold observed World.observe manager
  dsimp only
  cases w.last_difficulty with
  | none => exact ⟨_, _, rfl, rfl⟩
  | some last =>
    dsimp only
    split
    · exact ⟨_, _, rfl, rfl⟩
    split
    · exact ⟨_, _, rfl, rfl⟩
    · exact ⟨_, _, rfl, rfl⟩

/-- Both managers keep the difficulty, its trend and the table of difficulties in the same way, and
release the same parked rows. -/
theorem observe_agree {d : UInt32} (ht : Sound t) :
    Agree mono wall (TreeMiner.observeDifficulty d) t m (observeDifficulty d) fun _ t' m' _ =>
      m' = m ∧ After t t' := by
  obtain ⟨decreased, first, hobs, hflag⟩ := observed_manager (m := m) (w := t.world) (d := d)
  have hjournal : (t.world.observe d).2.journal = t.world.journal := World.observe_journal
  have hafter : After t { t with world := (t.world.observe d).2 } := by
    refine ⟨?_, ⟨?_, ht.polite⟩⟩
    · show Journal.Ext _ (t.world.observe d).2.journal
      rw [hjournal]
      exact .refl
    · show Readable (t.world.observe d).2.journal
      rw [hjournal]
      exact ht.readable
  unfold TreeMiner.observeDifficulty observeDifficulty
  refine agree_run (n := m) (b := (t.session m).manager) rfl ?_
  have hobs' : observed (t.session m).manager d = _ := hobs
  rw [hobs']
  dsimp only
  refine agree_both (u := { t with world := (t.world.observe d).2 }) (n := m) rfl rfl ?_
  rw [hflag]
  -- both release the parked rows on a first or a lower observation only
  split
  · refine agree_last rfl rfl ⟨rfl, hafter.trans ⟨ext_unpark, ?_, ht.polite⟩⟩
    exact readable_unpark hafter.sound.readable
  · exact agree_ret rfl ⟨rfl, hafter⟩

/-- The offset that the answer's date gives. -/
theorem date_agree (hr : Polite r) :
    Agree mono wall (TreeMiner.trackServerDate m (cpp r)) t m (trackServerDate wall r)
      fun a t' m' _ =>
      a = m' ∧ t' = t ∧ m'.breaker = m.breaker := by
  have hdate : (if (cpp r).transport_ok then
    (cpp r).date_header.bind TreeMiner.parseHttpDateMs else none) =
      if r.transport_ok then r.date_header.bind fun h => parseHttpDateMs h.toList else none := by
    rw [hr.date]
    rfl
  have hrun : trackServerDate wall r (t.session m) t.given = _ := track_server_date_run
  unfold TreeMiner.trackServerDate
  rw [hdate]
  unfold dated at hrun
  cases hv : (if r.transport_ok then r.date_header.bind fun h => parseHttpDateMs h.toList
    else none) with
  | none =>
    rw [hv] at hrun
    exact agree_ret hrun ⟨rfl, rfl, rfl⟩
  | some server_ms =>
    rw [hv] at hrun
    refine agree_op (a := wall) rfl ?_
    exact agree_ret (n := { m with server_offset_ms := some (server_ms - wall) }) hrun
      ⟨rfl, rfl, rfl⟩

/-- A new difficulty, observed and logged. -/
theorem record_agree {d : UInt32} (ht : Sound t) :
    Agree mono wall (do
        TreeMiner.observeDifficulty d
        let w ← TreeMiner.call .wall
        TreeMiner.call (.recordDifficulty d (TreeMiner.isoUtc w))) t m
      (do
        observeDifficulty d
        assign fun m => { m with journal := recordDifficulty m.journal d (isoUtc wall) })
      fun _ t' m' _ => m' = m ∧ After t t' := by
  refine Agree.bind (observe_agree ht) ?_
  rintro a t' m' b ⟨rfl, hafter⟩
  refine agree_op (a := wall) rfl ?_
  refine agree_last rfl rfl ⟨rfl, hafter.trans ⟨?_, ?_⟩⟩
  · exact fun r hr => ⟨r, hr, rfl, rfl⟩
  · exact ⟨hafter.sound.readable, hafter.sound.polite⟩

/-- A body of the difficulty endpoint that both can read is observed by both, and one that neither
can read by none. -/
theorem difficulty_agree (ht : Sound t) (hr : Polite r) :
    Agree mono wall (TreeMiner.handleDifficultyBody (cpp r).body) t m
      (handleDifficultyBody wall r.body)
      fun _ t' m' _ => m' = m ∧ After t t' := by
  unfold TreeMiner.handleDifficultyBody handleDifficultyBody
  rw [hr.field]
  cases extractJsonField (cpp r).body (lit "difficulty") with
  | none => exact agree_ret rfl ⟨rfl, ht.after⟩
  | some field =>
    dsimp only [Option.bind_some]
    have hhint : RustClassifier.parseDifficultyHint (lit "m=" ++ field) =
      parseDifficultyHint (lit "m=" ++ field) := by
      rw [RustClassifier.parseDifficultyHint, hint_loop_drop, List.drop_zero]
    rw [hhint]
    cases parseDifficultyHint (lit "m=" ++ field) with
    | none => exact agree_ret rfl ⟨rfl, ht.after⟩
    | some d => exact record_agree ht

end Shared

/-! ## The steps -/

section Steps

variable {cfg : SubmissionConfig} {mono wall : Int} {t : Twin} {m : Members}

/-- The count that goes with a log line changes nothing. -/
theorem agree_log {α β : Type} {k : Unit → TreeMiner.Step α} {R : Step β}
    {Q : α → Twin → Members → β → Prop} {before after : BreakerState}
    (hk : Agree mono wall (k ()) t m R Q) :
    Agree mono wall ((logBreakerTransition before after).bind k) t m R Q := by
  unfold logBreakerTransition
  split
  · exact hk
  · exact agree_op (a := t.world.journal.counts) rfl hk

/-- The clock of the outage is kept in the same members on both sides. -/
theorem outage_clock_manager {w : World} :
    outageClock mono (manager w m) = manager w (TreeMiner.outageClock m mono) := by
  have hmax : ∀ span : Int, (if span > 0 then span else 0) = max span 0 := by
    intro span
    split <;> omega
  unfold outageClock TreeMiner.outageClock manager
  by_cases hopen : m.breaker.state = .Open
  · by_cases hstart : m.outage_started_ms = 0
    · simp only [hopen, hstart, if_true]
    · simp only [hopen, hstart, if_true, if_false]
  · by_cases hstart : m.outage_started_ms = 0
    · simp only [hopen, hstart, ne_eq, not_true_eq_false, if_false]
    · simp only [hopen, hstart, ne_eq, not_false_eq_true, if_true, if_false, hmax]

/-- With the margin off, its evaluation only notes when it was made. -/
theorem margin_agree (hcfg : cfg.margin.mode = .Off) :
    Agree mono wall (TreeMiner.updateMargin cfg.cpp m) t m (updateMargin cfg mono) fun a t' m' _ =>
      a = m' ∧ t' = t := by
  unfold TreeMiner.updateMargin updateMargin
  refine agree_op (a := mono) rfl ?_
  have hclock : outageClock mono (t.session m).manager =
    manager t.world (TreeMiner.outageClock m mono) :=
    outage_clock_manager
  refine agree_run (n := TreeMiner.outageClock m mono) (b := ()) ?_ ?_
  · show (some (),
      ({ t.session m with manager := outageClock mono (t.session m).manager } : Session),
      t.given) = _
    rw [hclock]
    rfl
  · refine agree_run (n := TreeMiner.outageClock m mono) rfl ?_
    have hcpp : cfg.cpp.margin.mode = .Off := hcfg
    rw [if_pos hcfg, if_pos hcpp]
    exact agree_ret rfl ⟨rfl, rfl⟩

/-- A probe that is due asks for the difficulty and moves the breaker alike. -/
theorem probe_agree (ht : Sound t) :
    Agree mono wall (TreeMiner.probeStep cfg.cpp m) t m (probeStep cfg mono wall) fun a t' m' b =>
      a = (b, m') ∧ After t t' := by
  unfold TreeMiner.probeStep probeStep
  refine agree_op (a := mono) rfl ?_
  refine agree_run (n := m) rfl ?_
  show Agree mono wall (if !m.breaker.probeDue mono then _ else _) t m
    (if !m.breaker.probeDue mono then _ else _) _
  -- a breaker that is not open, or a probe that is not due
  split
  · exact agree_ret rfl ⟨rfl, ht.after⟩
  · have hnext := ht.next
    have hask : After t (t.ask .difficulty) := ht.ask
    refine agree_transport rfl ?_
    refine Agree.bind (date_agree hnext) ?_
    rintro a t' m' b ⟨rfl, rfl, hbreaker⟩
    have hcond : (t.next.transport_ok && t.next.http_status == 200 && !isBlankBody t.next.body) =
        ((cpp t.next).transport_ok && (cpp t.next).http_status == 200 && !isBlank
          (cpp t.next).body) := by
      rw [hnext.blank]
      rfl
    rw [hcond]
    split
    · refine Agree.bind (difficulty_agree hask.sound hnext) ?_
      rintro a t₁ m₁ b ⟨rfl, hafter⟩
      refine agree_log ?_
      exact agree_ret rfl ⟨rfl, hask.trans hafter⟩
    · refine agree_op (a := mono) rfl ?_
      exact agree_ret rfl ⟨rfl, hask⟩

/-- The window, and the release at its opening. -/
theorem window_agree (ht : Sound t) :
    Agree mono wall (TreeMiner.enterWindow cfg.cpp m) t m (enterWindow cfg wall) fun a t' m' b =>
      a = b ∧ m' = m ∧ After t t' := by
  unfold TreeMiner.enterWindow enterWindow
  refine agree_op (a := wall) rfl ?_
  refine agree_op (a := t.world.last_window_open) rfl ?_
  refine agree_run (n := m) rfl ?_
  have hwindow : xuniWindowAt (wall + (t.session m).manager.server_offset_ms.getD 0) =
      TreeMiner.xuniWindowAt (wall + m.server_offset_ms.getD 0) := rfl
  rw [hwindow]
  have hlast : (t.session m).manager.last_window_open = t.world.last_window_open := rfl
  rw [hlast]
  dsimp only
  split
  · refine agree_both rfl rfl ?_
    refine agree_both rfl rfl ?_
    refine agree_ret rfl ⟨rfl, rfl, ext_window, ?_, ht.polite⟩
    exact readable_window ht.readable
  · refine agree_both rfl rfl ?_
    exact agree_ret rfl ⟨rfl, rfl, .refl, ht.readable, ht.polite⟩

/-- What is fetched, up to the C strings. -/
theorem fetch_agree {window : XuniWindowState} (ht : Sound t) :
    Agree mono wall (TreeMiner.fetchEligible cfg.cpp window) t m (fetchEligible cfg wall window)
      fun a t' m' b => a = (b.1.map Journal.rowToRecord, b.2) ∧ t' = t ∧ m' = m ∧
        ∀ r ∈ b.1, r ∈ t.world.journal.rows := by
  obtain ⟨xen11, hxen, hxen', hxenMem⟩ := fetch_by_status_eq ht.readable .Pending
    (some .XEN11) (TreeMiner.isoUtc wall) cfg.fetch_limit
  obtain ⟨xuni, hxuni, hxuni', hxuniMem⟩ := fetch_by_status_eq ht.readable .Pending
    (some .XUNI) (TreeMiner.isoUtc wall) cfg.fetch_limit
  unfold TreeMiner.fetchEligible fetchEligible
  -- C++ asks for the clock, then for the rows; Rust has the clock at hand
  refine agree_op (a := wall) rfl ?_
  refine agree_op (a := xen11.map Journal.rowToRecord) ?_ ?_
  · show some (t.world.journal.fetchByStatus .Pending (some .XEN11)
      (TreeMiner.isoUtc wall) cfg.fetch_limit, t) = _
    rw [hxen']
  refine agree_run (n := m) rfl ?_
  refine agree_run (n := m) (b := xen11) ?_ ?_
  · show trySome (fetchByStatus t.world.journal .Pending (some .XEN11) (TreeMiner.isoUtc wall)
      cfg.fetch_limit) _ _ = _
    rw [hxen]
    rfl
  -- both fetch XUNI only while the window is open
  split
  · refine agree_op (a := xuni.map Journal.rowToRecord) ?_ ?_
    · show some (t.world.journal.fetchByStatus .Pending (some .XUNI)
        (TreeMiner.isoUtc wall) cfg.fetch_limit, t) = _
      rw [hxuni']
    refine agree_run (n := m) (b := xuni) ?_ ?_
    · show trySome (fetchByStatus t.world.journal .Pending (some .XUNI) (TreeMiner.isoUtc wall)
        cfg.fetch_limit) _ _ = _
      rw [hxuni]
      rfl
    refine agree_ret rfl ⟨?_, rfl, rfl, ?_⟩
    · rw [List.map_append, List.isEmpty_map]
    · intro r hr
      rcases List.mem_append.mp hr with hr | hr
      · exact hxenMem r hr
      · exact hxuniMem r hr
  · exact agree_ret rfl ⟨rfl, rfl, rfl, hxenMem⟩

/-! ## The attempt -/

/-- A classification and a retry time that can be recorded and read again. -/
structure Fit (c : Classification) (next : Option Bytes) : Prop where
  reason : isString c.reason = true
  next_status : c.next_status ≠ .Submitting
  next : isString (next.getD []) = true

section Attempt

variable {α β : Type} {rec : FindRecord} {c : Classification}
  {conf : RustTransport.TransportResult}
  {next : Option Bytes}

/-- A difficulty that the message of a rejection names is observed by both. -/
theorem hint_agree (ht : Sound t) :
    Agree mono wall (TreeMiner.takeHint c) t m (takeHint wall c) fun _ t' m' _ => m' = m ∧
      After t t' := by
  unfold TreeMiner.takeHint takeHint
  cases c.server_difficulty_hint with
  | none => exact agree_ret rfl ⟨rfl, ht.after⟩
  | some d => exact record_agree ht

/-- Both back off by the same time. -/
theorem agree_backoff {k : Bytes → TreeMiner.Step α} {R : Step β}
    {Q : α → Twin → Members → β → Prop} {count : Nat} {retry_after : Option Nat}
    (hk : Agree mono wall (k (backoffTimeIso cfg wall count retry_after)) t m R Q) :
    Agree mono wall ((TreeMiner.backoffTimeIso cfg.cpp count retry_after).bind k) t m R Q := by
  unfold backoffTimeIso at hk
  unfold TreeMiner.backoffTimeIso
  refine agree_op (a := wall) rfl ?_
  cases retry_after with
  | some secs => exact hk
  | none =>
    simp only [backoff_loop_eq] at hk
    exact hk

/-- The retry time of a lookup. -/
theorem agree_retry {k : Option Bytes → TreeMiner.Step α} {R : Step β}
    {Q : α → Twin → Members → β → Prop} {retry : Bool}
    (hk : Agree mono wall (k (if retry then some (backoffTimeIso cfg wall rec.attempt_count none)
      else none)) t m R Q) :
    Agree mono wall ((lookupRetryTime cfg.cpp rec retry).bind k) t m R Q := by
  unfold lookupRetryTime
  cases retry with
  | true =>
    show Agree mono wall (((TreeMiner.backoffTimeIso cfg.cpp rec.attempt_count none).bind fun t =>
      .ret (some t)).bind k) t m R Q
    rw [Prog.bind_assoc]
    exact agree_backoff hk
  | false => exact hk

/-- A retry time is digits and punctuation, and so a Rust string. -/
theorem is_string_backoff {count : Nat} {retry_after : Option Nat} :
    isString (backoffTimeIso cfg wall count retry_after) = true :=
  is_string_isoUtc _

/-- For a body of ASCII characters the two comparisons of a record with `/block` agree. -/
theorem body_check_eq (hr : Polite conf) (h : conf.transport_ok = true ∧ conf.http_status = 200) :
    bodyCheck rec conf = TreeMiner.confirmationMatches rec (cpp conf).body := by
  unfold bodyCheck
  rw [h.1, h.2, ← hr.matches_eq]
  rfl

/-- The branches on a lookup's answer are the same four. -/
theorem lookup_cases {γ : Type} (hr : Polite conf) (a b c d : γ) :
    (if conf.transport_ok && conf.http_status == 200 && bodyCheck rec conf == .Confirmed then a
      else if conf.transport_ok && conf.http_status == 200 then b
      else if conf.transport_ok && conf.http_status == 404 then c
      else d) =
      if Proves rec (cpp conf) then a
      else if (cpp conf).transport_ok = true ∧ (cpp conf).http_status = 200 then b
      else if (cpp conf).transport_ok = true ∧ (cpp conf).http_status = 404 then c
      else d := by
  have hproves : Proves rec (cpp conf) ↔ (conf.transport_ok && conf.http_status == 200 &&
      bodyCheck rec conf == .Confirmed) = true := by
    unfold Proves
    simp only [Bool.and_eq_true, beq_iff_eq]
    constructor
    · rintro ⟨hok, hstatus, hmatch⟩
      exact ⟨⟨hok, hstatus⟩, (body_check_eq hr ⟨hok, hstatus⟩).trans hmatch⟩
    · rintro ⟨⟨hok, hstatus⟩, hmatch⟩
      exact ⟨hok, hstatus, (body_check_eq hr ⟨hok, hstatus⟩).symm.trans hmatch⟩
  have hcode : ∀ code : Int,
    ((cpp conf).transport_ok = true ∧ (cpp conf).http_status = code) ↔
      (conf.transport_ok && conf.http_status == code) = true := by
    intro code
    simp only [Bool.and_eq_true, beq_iff_eq]
    exact Iff.rfl
  simp only [hproves, hcode]

/-- What the lookup says, on the C++ side: `freshConfirmation` with the retry time. -/
def freshVerdict (cfg : SubmissionConfig) (wall : Int) (rec : FindRecord) (c : Classification)
    (conf : RustTransport.TransportResult) : Classification × Option Bytes :=
  ((freshConfirmation rec c (cpp conf)).1,
    if (freshConfirmation rec c (cpp conf)).2 then
      some (backoffTimeIso cfg wall rec.attempt_count none)
    else none)

/-- What the confirmation makes of an accepted submission can be written to a row that Rust reads
again. -/
theorem freshVerdict_fit (hc : isString c.reason = true) (hs : c.next_status ≠ .Submitting) :
    Fit (freshVerdict cfg wall rec c conf).1 (freshVerdict cfg wall rec c conf).2 := by
  have hretry : isString ((some (backoffTimeIso cfg wall rec.attempt_count none)).getD []) =
    true := by
    rw [Option.getD_some]
    exact is_string_backoff
  have hreject : ∀ check, isString (TreeMiner.confirmRejectReason check) = true := by
    intro check
    cases check <;> exact is_string_lit _
  have hnone : isString ((none : Option Bytes).getD []) = true := is_string_lit ""
  unfold freshVerdict freshConfirmation
  split
  · exact ⟨is_string_append hc (is_string_lit _), FindStatus.noConfusion, hnone⟩
  split
  · exact ⟨is_string_append (is_string_append hc (is_string_lit _)) (hreject _), hs, hretry⟩
  split
  · exact ⟨is_string_append hc (is_string_lit _), FindStatus.noConfusion, hretry⟩
  · exact ⟨is_string_append hc (is_string_lit _), hs, hretry⟩

/-- The lookup after a 200 or a duplicate. -/
theorem fresh_agree (ht : Sound t) (hc : isString c.reason = true)
    (hs : c.next_status ≠ .Submitting) :
    Agree mono wall (TreeMiner.confirmFresh cfg.cpp m rec c) t m (confirmFresh cfg wall rec c)
      fun a t' m' b => a = (m', b.1, b.2) ∧ m'.breaker = m.breaker ∧ After t t' ∧
        Fit b.1 b.2 := by
  unfold TreeMiner.confirmFresh confirmFresh
  -- only an accepted submission is looked up
  split
  · refine agree_transport rfl ?_
    have hnext := ht.next
    refine Agree.bind (date_agree hnext) ?_
    rintro a t' m' b ⟨rfl, rfl, hbreaker⟩
    refine agree_retry ?_
    have hfit : Fit (freshVerdict cfg wall rec c t.next).1 (freshVerdict cfg wall rec c t.next).2 :=
      freshVerdict_fit hc hs
    refine agree_ret (b := freshVerdict cfg wall rec c t.next) ?_ ⟨rfl, hbreaker, ht.ask, hfit⟩
    rw [lookup_cases hnext]
    unfold freshVerdict freshConfirmation
    split
    · rfl
    split
    next h200 =>
      rw [body_check_eq hnext h200]
      rfl
    split
    · rfl
    · rfl
  · exact agree_ret rfl ⟨rfl, rfl, ht.after, hc, hs, is_string_lit ""⟩

/-- The retry time of a record that goes back to the queue. -/
theorem agree_retryTime {k : Option Bytes → TreeMiner.Step α} {R : Step β}
    {Q : α → Twin → Members → β → Prop} (hr : Polite conf)
    (hk : Agree mono wall (k (retryTime cfg wall rec c conf next)) t m R Q) :
    Agree mono wall ((TreeMiner.retryTime cfg.cpp rec
      (if (cpp conf).transport_ok then (cpp conf).http_status else kTransportError) (cpp conf) c
        next).bind k) t m R Q := by
  have hstatus : (if (cpp conf).transport_ok then (cpp conf).http_status else kTransportError) =
      statusOf conf := rfl
  unfold retryTime at hk
  rw [hr.retry] at hk
  unfold TreeMiner.retryTime
  rw [hstatus]
  cases next with
  | some time =>
    simp only [Option.isNone_some, Bool.false_eq_true, reduceCtorEq, and_false, if_false] at hk ⊢
    exact hk
  | none =>
    simp only [Option.isNone_none, and_true] at hk ⊢
    split
    next hpending =>
      rw [if_pos hpending] at hk
      show Agree mono wall (((TreeMiner.backoffTimeIso cfg.cpp rec.attempt_count _).bind fun t =>
        .ret (some t)).bind k) t m R Q
      rw [Prog.bind_assoc]
      exact agree_backoff hk
    next hpending =>
      rw [if_neg hpending] at hk
      exact hk

/-- The retry time that is stored is a Rust string, whichever branch made it. -/
theorem retry_time_string (hnext : isString (next.getD []) = true) :
    isString ((retryTime cfg wall rec c conf next).getD []) = true := by
  unfold retryTime
  split
  · rw [Option.getD_some]
    exact is_string_backoff
  · exact hnext

/-- Breaker and scheduler after an outcome. -/
theorem report_manager {w : World} {was_closed : Bool} (hr : Polite conf) :
    report cfg mono was_closed (manager w m) (outcome c conf) =
      manager w (afterOutcome cfg.cpp m was_closed c (cpp conf) mono) := by
  have hfail : transportFailure (cpp conf) = (!conf.transport_ok || conf.http_status ≥ 500 ||
      conf.http_status == 408 || conf.http_status == 425 || isBlankBody conf.body) := by
    rw [hr.blank]
    rfl
  have h429 : (cpp conf).http_status = conf.http_status := rfl
  unfold outcome afterOutcome
  rw [hfail, h429]
  dsimp only
  -- accepted, failed on the way, throttled, or anything else
  split
  · unfold report
    cases was_closed <;> rfl
  split
  · unfold report
    rw [on_verify_transport_failure_eq]
    rfl
  split
  · unfold report
    rw [on_verify_inconclusive_eq]
    rfl
  · unfold report
    rw [on_verify_inconclusive_eq]
    rfl

/-- An outcome is recorded; the row is still there. -/
theorem agree_record {k : Unit → TreeMiner.Step α} {R : Step β}
    {Q : α → Twin → Members → β → Prop} {st : Option Int} {body : Bytes} (ht : Sound t)
    (hrow : ∃ r ∈ t.world.journal.rows, r.id = rec.id) (hfit : Fit c next)
    (hbody : isString body = true) (hst : -2147483648 ≤ st.getD 0 ∧ st.getD 0 ≤ 2147483647)
    (hk : ∀ t', After t t' → Agree mono wall (k ()) t' m R Q) :
    Agree mono wall
      ((TreeMiner.call (.recordAttempt rec.id c st body next (TreeMiner.isoUtc wall))).bind k) t m
      (do
        let m ← current
        let journal ← trySome (recordAttempt m.journal rec.id c st body next (isoUtc wall))
        assign fun m => { m with journal := journal }
        R) Q := by
  obtain ⟨r, hr, hid⟩ := hrow
  obtain ⟨j, hj⟩ :=
    recordAttempt_isSome hr hid hfit.next_status st body next (TreeMiner.isoUtc wall)
  have hreadable :=
    readable_record ht.readable hfit.reason hbody hfit.next (is_string_isoUtc wall) hst hj
  refine agree_run (n := m) rfl ?_
  refine agree_run (n := m) (b := j) ?_ ?_
  · show trySome
      (t.world.journal.recordAttempt rec.id c st body next (TreeMiner.isoUtc wall)) _ _ = _
    rw [hj]
    rfl
  · refine agree_both (a := ()) (u := { t with world := { t.world with journal := j } }) ?_ rfl ?_
    · simp only [Twin.answer, exec, hj, Option.map_some]
    · exact hk _ ⟨Journal.ext_recordAttempt hj, hreadable, ht.polite⟩

/-- The status of an answer fits the 32 bits of the column. -/
theorem Sound.received {t : Twin} (ht : Sound t) :
    -2147483648 ≤ (httpStatus (cpp t.next)).getD 0 ∧
      (httpStatus (cpp t.next)).getD 0 ≤ 2147483647 := by
  unfold httpStatus
  split
  · exact ht.next.http_status
  · exact ⟨by decide, by decide⟩

/-- The attempt, from the submission to the pacing: one call, the classification, perhaps a
confirmation, and the row that is written. -/
theorem attempt_agree (ht : Sound t) (hrow : ∃ r ∈ t.world.journal.rows, r.id = rec.id) :
    Agree mono wall (TreeMiner.attempt cfg.cpp m mono rec) t m (attempt cfg mono wall rec)
      fun a t' m' b => a = (b, m') ∧ After t t' := by
  have hnext := ht.next
  unfold TreeMiner.attempt attempt
  refine agree_run (n := m) rfl ?_
  refine agree_transport rfl ?_
  have hask : After t (t.ask (.submit rec.payload)) := ht.ask
  -- in the order of the source: date, hint, confirmation, retry time, record, report
  refine Agree.bind (date_agree hnext) ?_
  rintro a t₁ m₁ b ⟨rfl, rfl, hbreaker⟩
  rw [hnext.classified_eq]
  refine Agree.bind (hint_agree hask.sound) ?_
  rintro a t₂ m₂ b ⟨rfl, hhint⟩
  have hsubmitting : (classifyResult rec (cpp t.next)).next_status ≠ .Submitting :=
    (classify_next_status _ _ _ _).2.2
  refine Agree.bind (fresh_agree hhint.sound hnext.reason hsubmitting) ?_
  rintro a t₃ m₃ ⟨c, next⟩ ⟨rfl, hbreaker', hfresh, hfit⟩
  refine agree_retryTime hnext ?_
  refine agree_op (a := wall) rfl ?_
  -- the row that was picked is still there, since nothing in between deletes rows
  have hrow' : ∃ r ∈ t₃.world.journal.rows, r.id = rec.id := by
    obtain ⟨r, hr, hid⟩ := hrow
    obtain ⟨r', hr', hid', -⟩ := ((hask.trans hhint).trans hfresh).ext r hr
    exact ⟨r', hr', hid'.trans hid⟩
  have hfit' : Fit c (retryTime cfg wall rec c t.next next) :=
    ⟨hfit.reason, hfit.next_status, retry_time_string hfit.next⟩
  refine agree_record hfresh.sound hrow' hfit' (is_string_ascii hnext.ascii) ht.received ?_
  intro t₄ hrecord
  refine agree_op (a := mono) rfl ?_
  have hreport : ∀ was_closed,
    report cfg mono was_closed (t₄.session m₃).manager (outcome c t.next) =
      manager t₄.world (afterOutcome cfg.cpp m₃ was_closed c (cpp t.next) mono) :=
    fun _ => report_manager hnext
  refine agree_log ?_
  refine agree_run (b := ())
    (n := afterOutcome cfg.cpp m₃ (m.breaker.state = .Closed) c (cpp t.next) mono) ?_ ?_
  · show (some (),
      (⟨report cfg mono _ (t₄.session m₃).manager (outcome c t.next),
        t₄.calls⟩ : Session),
      t₄.given) = _
    rw [hreport]
    rfl
  · exact agree_ret rfl ⟨rfl, ((hask.trans hhint).trans hfresh).trans hrecord⟩

end Attempt

/-! ## A step -/

/-- Of the record, an attempt looks at the id, the payload and the count only. -/
theorem attempt_congr {config : Config} {now : Int} {rec rec' : FindRecord} (hid : rec.id = rec'.id)
    (hp : rec.payload = rec'.payload) (hcount : rec.attempt_count = rec'.attempt_count) :
    TreeMiner.attempt config m now rec = TreeMiner.attempt config m now rec' := by
  cases rec
  cases rec'
  cases hid
  cases hp
  cases hcount
  rfl

/-- The confirmation of a record reads its id, its payload and its attempts, and nothing else of it.
-/
theorem confirmOne_congr {config : Config} {rec rec' : FindRecord} (hid : rec.id = rec'.id)
    (hp : rec.payload = rec'.payload) (hcount : rec.attempt_count = rec'.attempt_count) :
    TreeMiner.confirmOne config m rec = TreeMiner.confirmOne config m rec' := by
  cases rec
  cases rec'
  cases hid
  cases hp
  cases hcount
  rfl

/-- Both breakers admit alike, and what is not admitted is reported as blocked. -/
theorem admit_agree {rec : FindRecord} (ht : Sound t)
    (hrow : ∃ r ∈ t.world.journal.rows, r.id = rec.id) :
    Agree mono wall (admitRecord cfg.cpp m mono rec) t m
      (do
        let r := tryAdmit m.breaker
        assign fun m => { m with breaker := r.2 }
        if !r.1 then pure .BreakerBlocked else attempt cfg mono wall rec)
      fun a t' m' b => a = (b, m') ∧ After t t' := by
  unfold admitRecord
  rw [try_admit_eq]
  refine agree_run (b := ()) (n := { m with breaker := m.breaker.tryAdmit.2 }) rfl ?_
  cases m.breaker.tryAdmit with
  | mk ok b =>
    cases ok with
    | true => exact attempt_agree ht hrow
    | false => exact agree_ret rfl ⟨rfl, ht.after⟩

/-- Without pre-parking the record goes on to admission. -/
theorem submitRecord_row {r : FindRecord} {now : Int} (h : Portable r) :
    submitRecord cfg.cpp m now (Journal.rowToRecord r) = admitRecord cfg.cpp m now r := by
  have hattempt : ∀ m, TreeMiner.attempt cfg.cpp m now (Journal.rowToRecord r) =
      TreeMiner.attempt cfg.cpp m now r := fun _ => attempt_congr rfl h.payload rfl
  show admitRecord cfg.cpp m now (Journal.rowToRecord r) = _
  unfold admitRecord
  simp only [hattempt]

/-- What is selected is the same row on both sides. -/
theorem pick_agree {r : FindRecord} (ht : Sound t) (hrow : r ∈ t.world.journal.rows) :
    Agree mono wall (submitRecord cfg.cpp m mono (Journal.rowToRecord r)) t m
      (do
        let r' := tryAdmit m.breaker
        assign fun m => { m with breaker := r'.2 }
        if !r'.1 then pure .BreakerBlocked else attempt cfg mono wall r)
      fun a t' m' b => a = (b, m') ∧ After t t' := by
  rw [submitRecord_row (ht.readable r hrow)]
  exact admit_agree ht ⟨r, hrow, rfl⟩

/-- The scheduling step: the pacing, the window, the rows that are eligible, the choice among them
and the attempt. -/
theorem submit_agree (ht : Sound t) :
    Agree mono wall (TreeMiner.submitStep cfg.cpp m) t m (submitStep cfg mono wall) fun a t' m' b =>
      a = (b, m') ∧ After t t' := by
  unfold TreeMiner.submitStep submitStep
  refine agree_op (a := mono) rfl ?_
  refine agree_run (n := m) rfl ?_
  show Agree mono wall (if mono < m.next_submit_allowed_ms then _ else _) t m
    (if mono < m.next_submit_allowed_ms then _ else _) _
  -- a breaker that is not closed ends the step on both sides
  split
  · exact agree_ret rfl ⟨rfl, ht.after⟩
  · refine Agree.bind (window_agree ht) ?_
    rintro window t₁ m₁ b ⟨rfl, rfl, hwindow⟩
    refine Agree.bind (fetch_agree hwindow.sound) ?_
    rintro a t₂ m₂ ⟨eligible, pressure⟩ ⟨rfl, rfl, rfl, hrows⟩
    refine agree_op (a := mono) rfl ?_
    refine agree_run (b := ())
      (n := { m₂ with breaker := m₂.breaker.setXuniPressure cfg.breaker pressure mono }) rfl ?_
    dsimp only
    rw [List.isEmpty_map]
    split
    · exact agree_ret rfl ⟨rfl, hwindow⟩
    · refine agree_op (a := t₂.world.trend) rfl ?_
      refine agree_run rfl ?_
      have hselect : TreeMiner.selectNext cfg.cpp.drain
        (eligible.map Journal.rowToRecord) t₂.world.trend window =
          (selectNext cfg.drain eligible t₂.world.trend window).map Journal.rowToRecord := by
        rw [select_next_eq]
        exact selectNext_rows
      have htrend : (t₂.session { m₂ with
          breaker := m₂.breaker.setXuniPressure cfg.breaker pressure mono }).manager.trend =
            t₂.world.trend := rfl
      rw [hselect, htrend]
      -- the selection is one function of the slice, so both pick the same row or none
      cases hrec : selectNext cfg.drain eligible t₂.world.trend window with
      | none => exact agree_ret rfl ⟨rfl, hwindow⟩
      | some r =>
        rw [select_next_eq] at hrec
        have hrow : r ∈ t₂.world.journal.rows := hrows r (selectNext_mem hrec)
        refine Agree.weaken (pick_agree hwindow.sound hrow) ?_
        rintro a t' m' b ⟨ha, hafter⟩
        exact ⟨ha, hwindow.trans hafter⟩

/-- What the lookup says of a record that awaits it: `retryConfirmation` with the retry time. -/
def retryVerdict (cfg : SubmissionConfig) (wall : Int) (rec : FindRecord)
    (conf : RustTransport.TransportResult) : Classification × Option Bytes :=
  ((retryConfirmation rec (cpp conf)).1,
    if (retryConfirmation rec (cpp conf)).2 then
      some (backoffTimeIso cfg wall rec.attempt_count none)
    else none)

/-- What a lookup that failed writes to the row can be read again by Rust. -/
theorem retryVerdict_fit {rec : FindRecord} {conf : RustTransport.TransportResult} :
    Fit (retryVerdict cfg wall rec conf).1 (retryVerdict cfg wall rec conf).2 := by
  have hretry : isString ((some (backoffTimeIso cfg wall rec.attempt_count none)).getD []) =
    true := by
    rw [Option.getD_some]
    exact is_string_backoff
  have hreject : ∀ check, isString (TreeMiner.confirmRejectReason check) = true := by
    intro check
    cases check <;> exact is_string_lit _
  have hnone : isString ((none : Option Bytes).getD []) = true := is_string_lit ""
  unfold retryVerdict retryConfirmation
  split
  · exact ⟨is_string_lit _, FindStatus.noConfusion, hnone⟩
  split
  · exact ⟨hreject _, FindStatus.noConfusion, hretry⟩
  split
  · exact ⟨is_string_lit _, FindStatus.noConfusion, hretry⟩
  · exact ⟨is_string_lit _, FindStatus.noConfusion, hretry⟩

/-- One turn of the loop of `confirm_step`. -/
theorem confirm_one_agree {rec : FindRecord} (ht : Sound t)
    (hrow : ∃ r ∈ t.world.journal.rows, r.id = rec.id) :
    Agree mono wall
      (TreeMiner.confirmOne cfg.cpp m rec) t m (confirmOne cfg wall rec) fun a t' m' b =>
      a = (m', b) ∧ m'.breaker = m.breaker ∧ After t t' := by
  have hnext := ht.next
  unfold TreeMiner.confirmOne confirmOne
  refine agree_transport rfl ?_
  have hask : After t (t.ask (.confirm rec.payload.key)) := ht.ask
  refine Agree.bind (date_agree hnext) ?_
  rintro a t₁ m₁ b ⟨rfl, rfl, hbreaker⟩
  refine agree_retry ?_
  refine agree_op (a := wall) rfl ?_
  -- the branches, with what is recorded in each
  dsimp only
  rw [lookup_cases hnext]
  have hverdict : (if Proves rec (cpp t.next) then
      (({ next_status := .Acked
          reason := lit "confirmed via /get_block (retry, body matches key)" } : Classification),
        (none : Option Bytes))
    else if (cpp t.next).transport_ok = true ∧ (cpp t.next).http_status = 200 then
      ({ next_status := .AcceptedUnconfirmed, reason := confirmRejectReason (bodyCheck rec t.next)
        },
        some (backoffTimeIso cfg wall rec.attempt_count none))
    else if (cpp t.next).transport_ok = true ∧ (cpp t.next).http_status = 404 then
      ({ next_status := .Pending
         reason := lit "/get_block says ABSENT — server 200 was not durable, resubmitting" },
        some (backoffTimeIso cfg wall rec.attempt_count none))
    else
      ({ next_status := .AcceptedUnconfirmed
         reason := lit "/get_block unavailable, remaining unconfirmed (retry backoff)" },
        some (backoffTimeIso cfg wall rec.attempt_count none))) =
          retryVerdict cfg wall rec t.next := by
    unfold retryVerdict retryConfirmation
    split
    · rfl
    split
    next h200 =>
      rw [body_check_eq hnext h200]
      rfl
    split
    · rfl
    · rfl
  rw [hverdict]
  refine agree_record hask.sound hrow retryVerdict_fit (is_string_ascii hnext.ascii) ht.received ?_
  intro t₂ hrecord
  exact agree_ret rfl ⟨rfl, hbreaker, hask.trans hrecord⟩

/-- The loop, on rows that were there when it began. -/
theorem confirm_loop_agree {rows : List FindRecord} (ht : Sound t)
    (hrows : ∀ r ∈ rows, Portable r ∧ ∃ r' ∈ t.world.journal.rows, r'.id = r.id) :
    Agree mono wall (TreeMiner.confirmLoop cfg.cpp (rows.map Journal.rowToRecord) m) t m
      (confirmLoop cfg wall rows) fun a t' m' _ => a = m' ∧ m'.breaker = m.breaker ∧
        After t t' := by
  induction rows generalizing t m with
  | nil => exact agree_ret rfl ⟨rfl, rfl, ht.after⟩
  | cons r rows ih =>
    obtain ⟨hportable, hrow⟩ := hrows r List.mem_cons_self
    have hone : TreeMiner.confirmOne cfg.cpp m (Journal.rowToRecord r) =
      TreeMiner.confirmOne cfg.cpp m r :=
      confirmOne_congr rfl hportable.payload rfl
    rw [List.map_cons, TreeMiner.confirmLoop, confirmLoop, hone]
    refine Agree.bind (confirm_one_agree ht hrow) ?_
    rintro a t₁ m₁ up ⟨rfl, hbreaker, hafter⟩
    dsimp only
    -- a lookup that did not come through ends the loop on both sides
    cases up with
    | false => exact agree_ret rfl ⟨rfl, hbreaker, hafter⟩
    | true =>
      have hrows' : ∀ r ∈ rows, Portable r ∧
        ∃ r' ∈ t₁.world.journal.rows, r'.id = r.id := by
        intro r hr
        obtain ⟨hp, r', hr', hid⟩ := hrows r (List.mem_cons_of_mem _ hr)
        obtain ⟨r'', hr'', hid', -⟩ := hafter.ext r' hr'
        exact ⟨hp, r'', hr'', hid'.trans hid⟩
      refine Agree.weaken (ih hafter.sound hrows') ?_
      rintro a t' m' b ⟨rfl, hbreaker', hafter'⟩
      exact ⟨rfl, hbreaker'.trans hbreaker, hafter.trans hafter'⟩

/-- The confirmation step looks the accepted records up in the same order and with the same results.
-/
theorem confirm_agree (ht : Sound t) :
    Agree mono wall (TreeMiner.confirmStep cfg.cpp m) t m (confirmStep cfg wall) fun a t' m' b =>
      a = (b, m') ∧ After t t' := by
  unfold TreeMiner.confirmStep confirmStep
  refine agree_run (n := m) rfl ?_
  show Agree mono wall (if m.breaker.state = .Open then _ else _) t m
    (if m.breaker.state = .Open then _ else _) _
  split
  · exact agree_ret rfl ⟨rfl, ht.after⟩
  · obtain ⟨rows, hrust, hcpp, hmem⟩ :=
      fetch_by_status_eq ht.readable .AcceptedUnconfirmed none
      (TreeMiner.isoUtc wall) cfg.confirm_fetch_limit
    refine agree_op (a := wall) rfl ?_
    refine agree_op (a := rows.map Journal.rowToRecord) ?_ ?_
    · show some (t.world.journal.fetchByStatus .AcceptedUnconfirmed none (TreeMiner.isoUtc wall)
        cfg.confirm_fetch_limit, t) = _
      rw [hcpp]
    refine agree_run (n := m) (b := rows) ?_ ?_
    · show trySome (fetchByStatus t.world.journal .AcceptedUnconfirmed none (TreeMiner.isoUtc wall)
        cfg.confirm_fetch_limit) _ _ = _
      rw [hrust]
      rfl
    rw [List.isEmpty_map]
    split
    · exact agree_ret rfl ⟨rfl, ht.after⟩
    · have hrows : ∀ r ∈ rows, Portable r ∧ ∃ r' ∈ t.world.journal.rows, r'.id = r.id :=
        fun r hr => ⟨ht.readable r (hmem r hr), r, hmem r hr, rfl⟩
      refine Agree.bind (confirm_loop_agree ht hrows) ?_
      rintro a t₁ m₁ b ⟨rfl, -, hafter⟩
      exact agree_ret rfl ⟨rfl, hafter⟩

/-- The step: probe, or submit and confirm. -/
theorem run_step_agree (hcfg : cfg.margin.mode = .Off) (ht : Sound t) :
    Agree mono wall (TreeMiner.runStep cfg.cpp m) t m (runStep cfg mono wall) fun a t' m' b =>
      a = (b, m') ∧ After t t' := by
  unfold TreeMiner.runStep runStep
  refine Agree.bind (margin_agree hcfg) ?_
  rintro a t' m' b ⟨rfl, rfl⟩
  refine agree_run (n := a) rfl ?_
  show Agree mono wall (if a.breaker.state = .Open then _ else _) t' a
    (if a.breaker.state = .Open then _ else _) _
  split
  · exact probe_agree ht
  · refine Agree.bind (submit_agree ht) ?_
    rintro a₁ t₁ m₁ submit_result ⟨rfl, hsubmit⟩
    refine Agree.bind (confirm_agree hsubmit.sound) ?_
    rintro a₂ t₂ m₂ confirm_result ⟨rfl, hconfirm⟩
    dsimp only
    split
    · exact agree_ret rfl ⟨rfl, hsubmit.trans hconfirm⟩
    · exact agree_ret rfl ⟨rfl, hsubmit.trans hconfirm⟩

/-- A whole `runOnce`, the members loaded and stored. -/
theorem run_once_agree (mono wall : Int) (hcfg : cfg.margin.mode = .Off) (ht : Sound t) :
    Agree mono wall (TreeMiner.runOnce cfg.cpp) t t.world.members (runOnce cfg mono wall)
      fun a t' m' b =>
      a = b ∧ m' = t'.world.members ∧ After t t' := by
  unfold TreeMiner.runOnce runOnce
  refine agree_op (a := t.world.fatal) rfl ?_
  refine agree_run (n := t.world.members) rfl ?_
  show Agree mono wall (if t.world.fatal then _ else _) t _ (if t.world.fatal then _ else _) _
  split
  · exact agree_ret rfl ⟨rfl, rfl, ht.after⟩
  · refine agree_op (a := t.world.members) rfl ?_
    refine Agree.alone (Agree.orElse (run_step_agree hcfg ht)) ?_
    rintro a t₁ m₁ result ⟨rfl, hafter⟩
    have hstored : Agree mono wall (.ret result : TreeMiner.Step StepResult)
        { t₁ with world := { t₁.world with members := m₁ } } m₁ (pure result)
          fun a t' m' b =>
          a = b ∧ m' = t'.world.members ∧ After t t' :=
      agree_ret rfl ⟨rfl, rfl, hafter.ext, hafter.sound.readable, hafter.sound.polite⟩
    exact lockstep_op rfl hstored

end Steps

/-! ## Runs -/

/-- The C++ manager, a `runOnce` at each reading of the clocks (monotonic, wall). -/
def cppRun (cfg : Config) : List (Int × Int) → Twin → Option (List StepResult × Twin)
  | [], t => some ([], t)
  | (mono, wall) :: clocks, t =>
    match (TreeMiner.runOnce cfg).follow (Twin.answer mono wall) t with
    | some (_, result, t) => (cppRun cfg clocks t).map fun r => (result :: r.1, r.2)
    | none => none

/-- The Rust manager, a `run_once` at each reading. -/
def rustRun (cfg : SubmissionConfig) : List (Int × Int) → Session →
    Answers RustTransport.TransportResult → List (Option StepResult) × Session
  | [], s, _ => ([], s)
  | (mono, wall) :: clocks, s, as =>
    let (result, s, as) := runOnce cfg mono wall s as
    let r := rustRun cfg clocks s as
    (result :: r.1, r.2)

/-- From corresponding states the two managers give the same results, make the same calls
and end in corresponding states. -/
def Equivalent (cfg : SubmissionConfig) (clocks : List (Int × Int)) (t : Twin) : Prop :=
  ∃ results t', cppRun cfg.cpp clocks t = some (results, t') ∧
    rustRun cfg clocks (t.session t.world.members) t.given =
      (results.map some, t'.session t'.world.members)

/-- Step by step, for any readings of the clocks, on a journal that both can read. -/
theorem managers_agree (cfg : SubmissionConfig) (clocks : List (Int × Int)) (t : Twin)
    (hcfg : cfg.margin.mode = .Off) (ht : Sound t) : Equivalent cfg clocks t := by
  induction clocks generalizing t with
  | nil => exact ⟨[], t, rfl, rfl⟩
  | cons clock clocks ih =>
    obtain ⟨mono, wall⟩ := clock
    obtain ⟨h, result, t₁, b, s₁, as₁, hcpp, hrust, m₁, rfl, rfl, rfl, rfl, hafter⟩ :=
      run_once_agree mono wall hcfg ht
    obtain ⟨results, t', hcpp', hrust'⟩ := ih t₁ hafter.sound
    refine ⟨result :: results, t', ?_, ?_⟩
    · simp only [cppRun, hcpp, hcpp', Option.map_some]
    · simp only [rustRun, hrust, hrust', List.map_cons]

/-- A process that has just opened the journal with this find, and the answers to come. -/
def opening (p : FoundPayload) (answers : List RustTransport.TransportResult) : Twin where
  world := boot {} (Journal.empty.append p).2
  calls := []
  answers := answers

/-- A journal with one plain find is readable by both sides. -/
theorem opening_sound {answers : List RustTransport.TransportResult}
    (hanswers : ∀ r ∈ answers, Polite r) : Sound (opening sampleFind answers) := by
  refine ⟨?_, hanswers⟩
  intro r hr
  rcases Journal.mem_append.mp hr with hr | ⟨-, rfl⟩
  · cases hr
  have hreads : Reads (Journal.newRow (Journal.nextId Journal.empty.rows) sampleFind) := by
    refine ⟨?_, is_string_lit "", is_string_lit "", is_string_lit "", is_string_lit "",
      is_string_lit "", by decide⟩
    show ∀ column ∈ [lit "k1", lit "h1", lit "0xa", lit "w", lit "1970-01-01T00:30:00Z"],
      isString column = true
    simp only [List.forall_mem_cons, is_string_lit, true_and]
    exact fun _ h => absurd h List.not_mem_nil
  exact ⟨row_to_record_iff.mpr hreads, by decide⟩

/-- A `200` with a plain body. -/
theorem polite_ok {body : String}
    (hbody : body.toList.all (fun c => decide (c.toNat < 128 ∧ c.toNat ≠ 0x0B)) = true) :
    Polite (.ok 200 body) where
  body := fun c hc => of_decide_eq_true (List.all_eq_true.mp hbody c hc)
  retry_after := fun _ hh => by cases hh
  date_header := fun _ hh => by cases hh
  http_status := by
    show (-2147483648 : Int) ≤ 200 ∧ (200 : Int) ≤ 2147483647
    decide

/-- A find that is taken, looked up and found. -/
theorem managers_agree_confirmed : Equivalent {} [(0, 0), (5000, 5000)]
    (opening sampleFind [.ok 200 "ok", .ok 200 "\x7b\"key\":\"k1\"\x7d"]) := by
  refine managers_agree {} [(0, 0), (5000, 5000)] _ rfl (opening_sound ?_)
  simp only [List.forall_mem_cons]
  exact ⟨polite_ok (by decide), polite_ok (by decide),
    fun _ h => absurd h List.not_mem_nil⟩

/-- Different calls tell the managers apart. -/
theorem not_equivalent {cfg : SubmissionConfig} {clocks : List (Int × Int)} {t : Twin}
    {cpp_calls : List TransportCall}
    (hcpp : (cppRun cfg.cpp clocks t).map (fun r => r.2.calls) = some cpp_calls)
    (hrust : (rustRun cfg clocks (t.session t.world.members) t.given).2.calls ≠ cpp_calls) :
    ¬ Equivalent cfg clocks t := by
  rintro ⟨results, t', hrun, hrun'⟩
  rw [hrun] at hcpp
  rw [hrun'] at hrust
  exact hrust (Option.some.inj hcpp)

/-- Two journals on which they part. An account that is not UTF-8: the C++ manager submits the
find, the Rust manager cannot read the row and halts. A key with a NUL byte: the C++ manager
submits what stands before it, the Rust manager all of it. -/
theorem managers_part :
    ({} : SubmissionConfig).margin.mode = .Off ∧ Polite {} ∧
    ¬ Equivalent {} [(0, 0)] (opening { sampleFind with account := [0xFF] } [{}]) ∧
    ¬ Equivalent {} [(0, 0)] (opening { sampleFind with key := [107, 0, 49] } [{}]) := by
  refine ⟨rfl, polite_default, ?_, ?_⟩
  · have hcalls : (cppRun ({} : SubmissionConfig).cpp [(0, 0)]
        (opening { sampleFind with account := [0xFF] } [{}])).map (fun r => r.2.calls) =
          some [.submit { sampleFind with account := [0xFF] }] := by
      decide
    exact not_equivalent hcalls (by decide)
  · have hcalls : (cppRun ({} : SubmissionConfig).cpp [(0, 0)]
        (opening { sampleFind with key := [107, 0, 49] } [{}])).map (fun r => r.2.calls) =
          some [.submit { sampleFind with key := [107] }] := by
      decide
    exact not_equivalent hcalls (by decide)

end TreeMiner.RustManager
