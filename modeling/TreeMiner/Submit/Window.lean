import TreeMiner.Submit.NoLoss

/-!
# The XUNI window edge

`submitStep_` releases the finds parked for a window when it sees the window
open and `last_window_open_` says that it was closed at the last look. The flag
is only updated by steps that get past the pacing gate, so what it remembers is
the last such reading (`lastReading`), however long ago that was.

`parked_released`: as long as two successive readings that both find a window
open find the same window open, every find that was parked before the window of
the current step opened has been released, or marked dead, by the time the step
fetches its eligible rows. `parked_released_missed`: two readings an hour apart,
in two different windows, and the second one releases nothing.
-/

namespace TreeMiner

open Cxx Interleave

variable {cfg : Config} {tr : Trace} {c c' : Configuration} {l : Label sig Party Call}

/-- What a step does to the memory of the last window reading. -/
def noted (last : Option Int) : Label sig Party Call → Option Int
  | .did _ ⟨.noteWindow t, _⟩ => some t
  | .restarted => none
  | _ => last

/-- The server time at which this process judged the window last. -/
def lastReading (tr : Trace) : Option Int := tr.foldl (fun last x => noted last x.2) none

/-- One more label is one more chance of a reading. -/
@[simp] theorem lastReading_snoc {x : Configuration × Label sig Party Call} :
    lastReading (tr ++ [x]) = noted (lastReading tr) x.2 := by
  simp [lastReading]

/-- The reading finds the window open that is open at `t`. -/
def InWindowOf (t : Int) (last : Option Int) : Prop :=
  ∃ t₀, last = some t₀ ∧ (xuniWindowAt t₀).isOpen = true ∧
    windowIndex t₀ = windowIndex t

/-- The condition on a step: a reading that finds a window open, after one that
found a window open, finds the same window. -/
def SameWindow (tr : Trace) (x : Configuration × Label sig Party Call) : Prop :=
  ∀ t₀ t, lastReading tr = some t₀ → noted none x.2 = some t →
    (xuniWindowAt t₀).isOpen = true →
    (xuniWindowAt t).isOpen = true → windowIndex t₀ = windowIndex t

/-! ## The flag and the readings -/

/-- Only the judging of the window moves the flag, and it sets it to what the reading says. -/
theorem exec_flag {o : Op} {w w' : World} {x : Input} {a : o.Ans}
    (h : exec o w x = some (a, w')) :
    w'.last_window_open = w.last_window_open ∨
      ∃ t, o = .noteWindow t ∧ w'.last_window_open = (xuniWindowAt t).isOpen := by
  -- only `noteWindow` writes the flag; every other operation is looked at once to see that it does
  -- not
  cases o
  case noteWindow t => cases h; exact Or.inr ⟨t, rfl, rfl⟩
  case observe d =>
    simp only [exec, Option.some.injEq] at h
    have hw : w' = (w.observe d).2 := by rw [h]
    refine Or.inl ?_
    rw [hw]
    unfold World.observe
    split
    · rfl
    · split
      · rfl
      · split <;> rfl
  case recordAttempt id c st body next now =>
    simp only [exec] at h
    split at h
    · cases h
      exact Or.inl rfl
    · cases h
  all_goals
    first
    | (cases h; exact Or.inl rfl)
    | (cases x <;> first | (cases h; exact Or.inl rfl) | cases h)

/-- No other operation is noted. -/
theorem noted_of_ne {last : Option Int} {i : Party} {e : Event sig}
    (h : ∀ t, e.op ≠ .noteWindow t) : noted last (.did i e) = last := by
  obtain ⟨o, a⟩ := e
  cases o
  case noteWindow t => exact absurd rfl (h t)
  all_goals rfl

/-- What ties the submission thread to the readings: the flag is the last
reading; what the call judged is the last reading; a flag just read is still the
flag; and right after a release nothing is parked for a window. -/
structure Edge (tr : Trace) (c : Configuration) : Prop where
  flag : c.world.last_window_open = (lastReading tr).any fun t => (xuniWindowAt t).isOpen
  judged : ∀ t, c.pool .submission = some t → ∀ τ, judged t.hist = some τ →
    lastReading tr = some τ
  read : ∀ h p b, c.pool .submission = some ⟨⟨.lastWindowOpen, b⟩ :: h, p⟩ →
    b = c.world.last_window_open
  released : ∀ h p n u, c.pool .submission =
    some ⟨⟨.unparkXuniForWindow n, u⟩ :: h, p⟩ →
    ∀ r ∈ c.world.journal.rows, r.status ≠ .ParkedXuniWindow

/-- Nobody else touches the flag. -/
private theorem other_step
    (hpath : c.Along (fun _ => Rely) (PathOf cfg) (fun _ h' _ => owes h' = none))
    (hs : (core cfg).Step c l c') (hnr : l ≠ .restarted) (hnd : ∀ e, l ≠ .did .submission e)
    (last : Option Int) :
    noted last l = last ∧ c'.world.last_window_open = c.world.last_window_open := by
  rcases Machine.step_cases hs with ⟨i, k, rfl, -, -, rfl⟩ |
      ⟨i, h, o, k, x, a, w, rfl, hp, hx, rfl⟩ |
    ⟨i, h, o, k, w, rfl, -, ha, rfl⟩ | ⟨w, rfl, -⟩
  · exact ⟨rfl, rfl⟩
  · have hne : ∀ t, o ≠ .noteWindow t := by
      rintro t rfl
      have hi := isBy_submission (hpath i _ hp).1.2 rfl fun _ => rfl
      exact hnd _ (by rw [hi])
    refine ⟨noted_of_ne hne, ?_⟩
    rcases exec_flag hx with h | ⟨t, ht, -⟩
    · exact h
    · exact absurd ht (hne t)
  · refine ⟨rfl, ?_⟩
    simp only [core] at ha
    split at ha
    · cases ha
      dsimp only
      split <;> rfl
    · cases ha
  · exact absurd rfl hnr

/-- An edge leaves no row parked for the window: it is released or given up. -/
private theorem windowOpened_status {n : Int} {r : FindRecord} :
    (Journal.windowOpened n r).status ≠ .ParkedXuniWindow := by
  unfold Journal.windowOpened
  split
  · split <;> simp
  next h => exact h

/-- A step keeps the invariant: the flag in memory is what the last reading said, and an edge that
was seen is followed by its release. -/
theorem Edge.step (hr : Run (core cfg) (start cfg) tr c) (he : Edge tr c)
    (hs : (core cfg).Step c l c') : Edge (tr ++ [(c, l)]) c' := by
  have hpath := run_paths hr
  refine ⟨?_, ?_, ?_, ?_⟩
  · rw [lastReading_snoc]
    -- only the submission thread reads the window and notes it
    by_cases hsub : ∃ e, l = .did .submission e
    · obtain ⟨⟨o, a⟩, rfl⟩ := hsub
      obtain ⟨h, k, x, -, hx, -⟩ := hs.did
      by_cases hnote : ∃ t, o = .noteWindow t
      · obtain ⟨t, rfl⟩ := hnote
        simp only [core, exec, Option.some.injEq, Prod.mk.injEq] at hx
        rw [← hx.2]
        rfl
      · have hne : ∀ t, o ≠ .noteWindow t := fun t ht => hnote ⟨t, ht⟩
        rcases exec_flag hx with h | ⟨t, ht, -⟩
        · rw [noted_of_ne hne, h, he.flag]
        · exact absurd ht (hne t)
    · by_cases hnr : l = .restarted
      · subst hnr
        rw [restarted_world hs]
        rfl
      · obtain ⟨hn, hf⟩ :=
          other_step hpath hs hnr (fun e h => hsub ⟨e, h⟩) (lastReading tr)
        rw [hn, hf, he.flag]
  -- a reading that is still to be noted is the last one
  · intro t ht τ hτ
    rw [lastReading_snoc]
    rcases hs.thread ht with ⟨k, -, -, rfl⟩ | ⟨h, o, k, a, x, rfl, hp, hx, rfl⟩ |
        ⟨hp, hnr, hnd⟩
    · cases hτ
    · by_cases hnote : ∃ t, o = .noteWindow t
      · obtain ⟨t, rfl⟩ := hnote
        exact hτ
      · have hne : ∀ t, o ≠ .noteWindow t := fun t ht => hnote ⟨t, ht⟩
        rw [noted_of_ne hne]
        refine he.judged _ hp τ ?_
        cases o
        case noteWindow t => exact absurd rfl (hne t)
        all_goals exact hτ
    · rw [(other_step hpath hs hnr hnd _).1]
      exact he.judged t hp τ hτ
  · intro h p b ht
    rcases hs.thread ht with ⟨k, -, -, ht'⟩ | ⟨h', o, k, a, x, rfl, hp, hx, ht'⟩ |
        ⟨hp, hnr, hnd⟩
    · cases ht'
    · cases ht'
      simp only [core, exec, Option.some.injEq, Prod.mk.injEq] at hx
      rw [← hx.1, ← hx.2]
    · rw [(other_step hpath hs hnr hnd none).2]
      exact he.read h p b hp
  -- behind a release no row is parked, and no other step parks one
  · intro h p n u ht r' hr' hst
    rcases hs.thread ht with ⟨k, -, -, ht'⟩ | ⟨h', o, k, a, x, rfl, hp, hx, ht'⟩ |
        ⟨hp, hnr, hnd⟩
    · cases ht'
    · cases ht'
      simp only [core, exec, Option.some.injEq, Prod.mk.injEq] at hx
      rw [← hx.2] at hr'
      obtain ⟨r, -, rfl⟩ := Journal.mem_unparkXuniForWindow.mp hr'
      exact windowOpened_status hst
    · rcases step_row hr hs hr' with ⟨r, hrow, -, -, h' | h' | h' | h'⟩ |
          ⟨i, p, a, id, -, rfl⟩
      · exact he.released h p n u hp r hrow (h'.symm.trans hst)
      · exact absurd (h'.symm.trans hst) (by decide)
      · obtain ⟨cl, st, body, next, now, a, hl, -⟩ := h'
        exact hnd _ hl
      · exact absurd (h'.2.2.symm.trans hst) (by decide)
      · rcases newRow_status id p with h' | ⟨h', -⟩
        · exact absurd (h'.symm.trans hst) (by decide)
        · exact absurd (h'.symm.trans hst) (by decide)

/-- It holds in every run. -/
theorem run_edge (hr : Run (core cfg) (start cfg) tr c) : Edge tr c := by
  refine hr.invariant (I := Edge) (G := fun _ _ => True)
    (fun _ _ _ _ run hI _ hs => hI.step run hs) ⟨rfl, ?_, ?_, ?_⟩ (fun _ _ _ _ => trivial)
  · intro t ht
    cases ht
  · intro h p b ht
    cases ht
  · intro h p n u ht
    cases ht

/-! ## A find parked before the window -/

/-- A step of the trace released the row: pending again while it has windows
left, dead otherwise. -/
def Released (cfg : Config) (r : FindRecord) (tr : Trace) : Prop :=
  ∃ tr₁ c₂ tr₂ c₃, tr = tr₁ ++ (c₂, performed .submission
      (.unparkXuniForWindow cfg.xuni_max_windows) ()) :: tr₂ ∧
    (core cfg).Step c₂
      (performed .submission (.unparkXuniForWindow cfg.xuni_max_windows) ()) c₃ ∧
    r ∈ c₂.world.journal.rows ∧
    ∃ r' ∈ c₃.world.journal.rows, r'.id = r.id ∧
      r'.status = if (r.xuni_windows_tried : Int) ≥ cfg.xuni_max_windows then .Dead else .Pending

/-- A release that has been made stays made. -/
theorem Released.append {r : FindRecord} {tr' : Trace} (h : Released cfg r tr) :
    Released cfg r (tr ++ tr') := by
  obtain ⟨tr₁, c₂, tr₂, c₃, rfl, hs, hr, hr'⟩ := h
  exact ⟨tr₁, c₂, tr₂ ++ tr', c₃, by simp, hs, hr, hr'⟩

/-- A find parked for a window stays as it is until it is released. -/
theorem parked_kept (hr : Run (core cfg) (start cfg) tr c) (hs : (core cfg).Step c l c')
    {r : FindRecord} (hrow : r ∈ c.world.journal.rows) (hst : r.status = .ParkedXuniWindow)
    (hne : ∀ n a, l ≠ performed .submission (.unparkXuniForWindow n) a) :
    r ∈ c'.world.journal.rows := by
  rcases step_journal hs with hj | ⟨i, ⟨o, a⟩, rfl, htch⟩ | ⟨rfl, hj⟩
  · rw [hj]
    exact hrow
  · refine htch.keeps hrow (by rw [hst]; decide) ?_ ?_
    · rintro - n rfl
      obtain ⟨h, k, -, -, hby⟩ := did_path (run_paths hr) hs
      have hi := isBy_submission hby rfl fun _ => rfl
      exact hne n a (by rw [hi])
    · rintro cl st body next now rfl
      have hq := (recorded hr hs hrow rfl).2.1
      rw [hst] at hq
      cases hq
  · rw [hj]
    exact Journal.mem_update.mpr ⟨r, hrow, if_neg (by rw [hst]; decide)⟩

/-- A reading made while a find is parked since before the window of `t` is not
in that window. -/
private theorem noted_outside (hr : Run (core cfg) (start cfg) tr c) {r : FindRecord} {t t' : Int}
    {a : Unit} (hrow : r ∈ c.world.journal.rows) (hst : r.status = .ParkedXuniWindow)
    (hw : ¬ InWindowOf t (lastReading tr))
    (hG : SameWindow tr (c, performed .submission (.noteWindow t') a))
    (hs : (core cfg).Step c (performed .submission (.noteWindow t') a) c') :
    ¬ InWindowOf t (some t') := by
  have hedge := run_edge hr
  rintro ⟨t₀, ht₀, hopen, hidx⟩
  cases ht₀
  obtain ⟨h, k, hp, ⟨-, hnote⟩, -⟩ := did_path (run_paths hr) hs
  rcases hnote with ⟨b, h', rfl, hb⟩ | ⟨h', rfl⟩
  · -- the flag said open, so the last reading was in an open window: the same one
    have hflag := hedge.read _ _ _ hp
    rw [hb hopen, hedge.flag] at hflag
    obtain ⟨t₁, ht₁, hopen₁⟩ := (Option.any_eq_true _ _).mp hflag.symm
    exact hw ⟨t₁, ht₁, hopen₁, (hG t₁ t' ht₁ rfl hopen₁ hopen).trans hidx⟩
  · exact hedge.released _ _ _ _ hp r hrow hst

/-- One step of a process that has a find parked since before the window of `t`:
the find is released, or stays parked and the window is not noticed. -/
theorem waits_step (hr : Run (core cfg) (start cfg) tr c) {r : FindRecord} {t : Int}
    (hrow : r ∈ c.world.journal.rows) (hst : r.status = .ParkedXuniWindow)
    (hw : ¬ InWindowOf t (lastReading tr)) (hG : SameWindow tr (c, l))
    (hs : (core cfg).Step c l c') :
    Released cfg r [(c, l)] ∨
    (r ∈ c'.world.journal.rows ∧ ¬ InWindowOf t (lastReading (tr ++ [(c, l)]))) := by
  rw [lastReading_snoc]
  -- the release itself comes, or the row stays parked through the step
  by_cases hrel : ∃ n a, l = performed .submission (.unparkXuniForWindow n) a
  · obtain ⟨n, a, rfl⟩ := hrel
    obtain ⟨h, k, -, ⟨-, hpath⟩, -⟩ := did_path (run_paths hr) hs
    have hn : n = cfg.xuni_max_windows := hpath
    subst hn
    obtain ⟨h, k, x, -, hx, -⟩ := hs.did
    simp only [core, exec, Option.some.injEq, Prod.mk.injEq] at hx
    refine Or.inl ⟨[], c, [], c', rfl, hs, hrow, Journal.windowOpened cfg.xuni_max_windows r, ?_,
      ?_⟩
    · rw [← hx.2]
      exact Journal.mem_unparkXuniForWindow.mpr ⟨r, hrow, rfl⟩
    · unfold Journal.windowOpened
      rw [if_pos hst]
      split
      · exact ⟨rfl, rfl⟩
      · exact ⟨rfl, rfl⟩
  · refine Or.inr ⟨parked_kept hr hs hrow hst fun n a h => hrel ⟨n, a, h⟩, ?_⟩
    -- a new process starts with no reading at all
    by_cases hnr : l = .restarted
    · subst hnr
      rintro ⟨t₀, ht₀, -⟩
      cases ht₀
    by_cases hsub : ∃ e, l = .did .submission e
    · obtain ⟨⟨o, a⟩, rfl⟩ := hsub
      by_cases hnote : ∃ t', o = .noteWindow t'
      · obtain ⟨t', rfl⟩ := hnote
        exact noted_outside hr hrow hst hw hG hs
      · rw [noted_of_ne fun t' ht' => hnote ⟨t', ht'⟩]
        exact hw
    · rw [(other_step (run_paths hr) hs hnr (fun e h => hsub ⟨e, h⟩) _).1]
      exact hw

/-- The server time at which a step that is about to fetch its eligible rows has
judged the window. -/
def fetchingAt (c : Configuration) : Option Int :=
  match c.pool .submission with
  | some ⟨h, .op (.fetchEligibleOfKind ..) _⟩ => judged h
  | _ => none

/-- The fetch of a step is made at the last reading of the window. -/
theorem Edge.fetchingAt (he : Edge tr c) {t : Int} (h : fetchingAt c = some t) :
    lastReading tr = some t := by
  unfold TreeMiner.fetchingAt at h
  split at h
  next h' kind now limit k hp => exact he.judged _ hp t h
  · cases h

/-- **The window edge is seen.** Take any run in which successive open readings
are of the same window, cut at any point where a find is parked for a window and
the last reading is not of the window open at `t`. When a scheduling step that
has judged the window at `t` is about to fetch its eligible rows, the find has
been released in between: pending again with windows left, dead otherwise. -/
theorem parked_released (cfg : Config) (tr₁ tr₂ : Trace) (c₁ c : Configuration)
    (hr₁ : Run (core cfg) (start cfg) tr₁ c₁) (hr₂ : Run (core cfg) c₁ tr₂ c)
    (hG : Each SameWindow (tr₁ ++ tr₂))
    (t : Int) (hfetch : fetchingAt c = some t) (hopen : (xuniWindowAt t).isOpen = true)
    (hbefore : ¬ InWindowOf t (lastReading tr₁))
    (r : FindRecord) (hrow : r ∈ c₁.world.journal.rows) (hst : r.status = .ParkedXuniWindow) :
    Released cfg r tr₂ := by
  -- along the run after the parking the row is either released already or still parked with the
  -- flag down
  have hmain : Run (core cfg) (start cfg) (tr₁ ++ tr₂) c ∧
      (Released cfg r tr₂ ∨
        (r ∈ c.world.journal.rows ∧ ¬ InWindowOf t (lastReading (tr₁ ++ tr₂)))) := by
    clear hfetch
    induction hr₂ with
    | nil =>
      rw [List.append_nil]
      exact ⟨hr₁, Or.inr ⟨hrow, hbefore⟩⟩
    | @snoc c₂ c₃ tr₂ l run step ih =>
      rw [← List.append_assoc] at hG ⊢
      obtain ⟨hrun, hrel | ⟨hrow₂, hw₂⟩⟩ := ih hG.of_append
      · exact ⟨.snoc hrun step, Or.inl hrel.append⟩
      · refine ⟨.snoc hrun step, ?_⟩
        rcases waits_step hrun hrow₂ hst hw₂ (hG _ _ [] rfl) step with hrel | hstay
        · obtain ⟨q₁, c₄, q₂, c₅, hq, hrest⟩ := hrel
          refine Or.inl ⟨tr₂ ++ q₁, c₄, q₂, c₅, ?_, hrest⟩
          rw [hq, List.append_assoc]
        · exact Or.inr hstay
  obtain ⟨hrun, hrel | ⟨-, hw⟩⟩ := hmain
  · exact hrel
  · exact absurd ⟨t, (run_edge hrun).fetchingAt hfetch, hopen, rfl⟩ hw

/-! ## Two schedules -/

/-- A XUNI find. -/
def sampleXuni : FoundPayload := { sampleFind with kind := .XUNI }

/-- The find is appended and submitted in the window at 00:00; the server's clock
disagrees and the find is parked. -/
def parkedInFirst : List (Choice Party Input Call) :=
  [.start (.miner 0) (.append sampleXuni), .act (.miner 0) .nothing] ++
  .start .submission .runOnce :: acts .submission
    [.nothing, .nothing, .time 0, .time 0, .time 0, .nothing, .nothing, .nothing, .time 0,
     .nothing, .nothing, .time 0, .nothing,
     .answer (reply 401 (lit "XUNI submitted outside of time window")), .time 0, .nothing, .time 0,
     .time 0, .nothing, .nothing]

/-- A scheduling step at wall time `t`, up to the first fetch; `edge` says whether
it releases. -/
def looksAt (t : Int) (edge : Bool) : List (Choice Party Input Call) :=
  .start .submission .runOnce :: acts .submission
    ([.nothing, .nothing, .time t, .time t, .time t, .nothing] ++
      (if edge then [.nothing] else []) ++ [.nothing, .time t])

/-- A step at 00:30 with nothing to do. -/
def looksClosed : List (Choice Party Input Call) :=
  looksAt 1800000 false ++ acts .submission
    [.nothing, .time 1800000, .time 1800000, .nothing, .nothing]

private theorem parkedInFirst_possible :
    ((core {}).replay (start {}) parkedInFirst).isSome = true := by decide

/-- The process after the find was parked, with its trace. -/
def afterParking : Trace × Configuration :=
  ((core {}).replay (start {}) parkedInFirst).get parkedInFirst_possible

private theorem afterParking_run : Run (core {}) (start {}) afterParking.1 afterParking.2 :=
  Machine.replay_get parkedInFirst_possible

private theorem afterParking_reading : lastReading afterParking.1 = some 0 := by decide

private theorem missed_edge_possible :
    ((core {}).replay afterParking.2 (looksAt 3600000 false)).isSome = true := by decide +kernel

private theorem seen_edge_possible :
    ((core {}).replay afterParking.2 (looksClosed ++ looksAt 3600000 true)).isSome = true := by
  decide +kernel

/-- `SameWindow` along a trace, evaluated. -/
def steadyFrom (last : Option Int) : Trace → Bool
  | [] => true
  | x :: tr =>
    last.all (fun t₀ => (noted none x.2).all fun t =>
      !(xuniWindowAt t₀).isOpen || !(xuniWindowAt t).isOpen || windowIndex t₀ == windowIndex t)
        &&
    steadyFrom (noted last x.2) tr

/-- The test says of each reading what the theorem asks: it and the one before are not of two
windows. -/
private theorem steadyFrom_each :
    ∀ {tr : Trace} (tr₀ : Trace), steadyFrom (lastReading tr₀) tr = true →
    ∀ tr₁ x tr₂, tr = tr₁ ++ x :: tr₂ → SameWindow (tr₀ ++ tr₁) x := by
  intro tr
  induction tr with
  | nil => intro tr₀ _ tr₁ x tr₂ h; simp at h
  | cons y tr ih =>
    intro tr₀ hst tr₁ x tr₂ heq
    simp only [steadyFrom, Bool.and_eq_true] at hst
    cases tr₁ with
    | nil =>
      cases heq
      intro t₀ t hlast hnew hopen₀ hopen
      rw [List.append_nil] at hlast
      have h := hst.1
      simpa [hlast, hnew, hopen₀, hopen] using h
    | cons z tr₁ =>
      cases heq
      have h := ih (tr₀ ++ [y]) (by rw [lastReading_snoc]; exact hst.2) tr₁ x tr₂ rfl
      rwa [List.append_assoc] at h

/-- With a look at 00:30 in between, the step in the second window releases the
find before it fetches. -/
theorem parked_released_seen :
    ∃ tr₂ c, Run (core {}) afterParking.2 tr₂ c ∧ fetchingAt c = some 3600000 ∧
      ∃ r ∈ afterParking.2.world.journal.rows, r.status = .ParkedXuniWindow ∧
        Released {} r tr₂ := by
  have hr₂ := Machine.replay_get seen_edge_possible
  have hrow : ∃ r ∈ afterParking.2.world.journal.rows, r.status = .ParkedXuniWindow := by
    decide
  obtain ⟨r, hrow, hst⟩ := hrow
  refine ⟨_, _, hr₂, by decide +kernel, r, hrow, hst, ?_⟩
  refine parked_released _ _ _ _ _ afterParking_run hr₂ ?_ 3600000 (by decide +kernel)
    (by decide) ?_ r hrow hst
  · exact steadyFrom_each [] (by decide +kernel)
  · rw [afterParking_reading]
    rintro ⟨t₀, ht₀, -, hidx⟩
    cases ht₀
    exact absurd hidx (by decide)

/-- No look between 00:00 and 01:00: the flag still says open, and the step in the
second window fetches with the find still parked and its budget untouched. -/
theorem parked_released_missed :
    ∃ tr₂ c, Run (core {}) (start {}) afterParking.1 afterParking.2 ∧
      Run (core {}) afterParking.2 tr₂ c ∧
      fetchingAt c = some 3600000 ∧ (xuniWindowAt 3600000).isOpen = true ∧
      ¬ InWindowOf 3600000 (lastReading afterParking.1) ∧
      ∃ r ∈ afterParking.2.world.journal.rows, r.status = .ParkedXuniWindow ∧
        (r.xuni_windows_tried : Int) < Config.xuni_max_windows {} ∧
        (∀ x ∈ tr₂, r ∈ x.1.world.journal.rows) ∧ r ∈ c.world.journal.rows := by
  refine ⟨_, _, afterParking_run, Machine.replay_get missed_edge_possible, by decide +kernel,
    by decide, ?_, by decide +kernel⟩
  rw [afterParking_reading]
  rintro ⟨t₀, ht₀, -, hidx⟩
  cases ht₀
  exact absurd hidx (by decide)

end TreeMiner
