import TreeMiner.Submit.Window

/-!
# The XUNI window budget (`FindJournal::unparkXuniForWindow`)

The transaction first marks the parked rows dead that are out of windows, then releases
every row that is still parked, whatever its count. The release counts up, and nothing else
writes the count (`step_window`), so a row's count is the number of its releases
(`tried_tally`) and the first UPDATE keeps it within the budget.

A tally counts the releases of each row along the run, outside the model of the system.
`tried_tally` ties it to the column of the row, and the budget is then a statement about
the two UPDATEs alone.
-/

namespace TreeMiner

open Cxx Interleave

/-! ## The two UPDATEs -/

namespace Journal

variable {j : Journal} {n : Int}

/-- What `exhaust` does to a row: out of windows. -/
def exhausted (max_windows : Int) (r : FindRecord) : FindRecord :=
  if r.status = .ParkedXuniWindow ∧ (r.xuni_windows_tried : Int) ≥ max_windows then
    { r with
      status := .Dead
      status_reason := lit "xuni window budget exhausted"
      next_attempt_at := none }
  else r

/-- What `unpark` does to a row, whatever its count. -/
def released (r : FindRecord) : FindRecord :=
  if r.status = .ParkedXuniWindow then
    { r with
      status := .Pending
      xuni_windows_tried := r.xuni_windows_tried + 1
      next_attempt_at := none }
  else r

/-- The UPDATE `exhaust`. -/
def exhaust (j : Journal) (max_windows : Int) : Journal :=
  j.update (exhausted max_windows)
    (fun r => by unfold exhausted; split <;> rfl) (fun r => by unfold exhausted; split <;> rfl)

/-- The UPDATE `unpark`. -/
def unpark (j : Journal) : Journal :=
  j.update released
    (fun r => by unfold released; split <;> rfl) (fun r => by unfold released; split <;> rfl)

/-- What the first UPDATE leaves parked has a window left. -/
theorem released_exhausted (n : Int) (r : FindRecord) :
    released (exhausted n r) = windowOpened n r := by
  unfold exhausted windowOpened
  by_cases hp : r.status = .ParkedXuniWindow
  · by_cases hb : (r.xuni_windows_tried : Int) ≥ n
    · rw [if_pos ⟨hp, hb⟩, if_pos hp, if_pos hb]
      rfl
    · rw [if_neg fun h => hb h.2, if_pos hp, if_neg hb]
      exact if_pos hp
  · rw [if_neg fun h => hp h.1, if_neg hp]
    exact if_neg hp

/-- Giving up the rows that are out of windows and releasing the others is what the one statement of
the source does. -/
theorem unpark_exhaust : (j.exhaust n).unpark = j.unparkXuniForWindow n := by
  have hrows : ((j.rows.map (exhausted n)).map released) = j.rows.map (windowOpened n) := by
    rw [List.map_map]
    exact List.map_congr_left fun r _ => released_exhausted n r
  unfold unpark exhaust unparkXuniForWindow update
  congr 1

end Journal

/-! ## What a step does to the count -/

section Counting

variable {cfg : Config} {tr : Trace} {c c' : Configuration} {l : Label sig Party Call}
  {r r' : FindRecord}

/-- A row goes through a window opening, or keeps its count and, if it was parked, everything. -/
theorem step_window (hr : Run (core cfg) (start cfg) tr c) (hs : (core cfg).Step c l c')
    (hrow : r ∈ c.world.journal.rows) : ∃ r' ∈ c'.world.journal.rows, r'.id = r.id ∧
      ((r.status = .ParkedXuniWindow ∧ r' = Journal.windowOpened cfg.xuni_max_windows r) ∨
        (r'.xuni_windows_tried = r.xuni_windows_tried ∧
          (r.status = .ParkedXuniWindow → r' = r))) := by
  obtain ⟨r', hr', hid, -⟩ := step_ext hs r hrow
  refine ⟨r', hr', hid, ?_⟩
  -- no other operation touches a row that waits for its window
  rcases step_journal hs with hj | ⟨i, ⟨o, a⟩, rfl, htch⟩ | ⟨rfl, hj⟩
  · rw [hj] at hr'
    exact Or.inr ⟨by rw [Journal.eq_of_id hr' hrow hid], fun _ => Journal.eq_of_id hr' hrow hid⟩
  · rcases htch.origin hr' with ⟨r₀, hrow₀, hid₀, -, hch⟩ | ⟨p, -, -, rfl⟩
    · have heq : r₀ = r := Journal.eq_of_id hrow₀ hrow (hid₀.symm.trans hid)
      subst heq
      rcases hch with rfl | ⟨cl, st, body, next, now, rfl, -, rfl⟩ | ⟨d, -, hst, -, rfl⟩ |
        ⟨n, rfl, hst, rfl⟩
      · exact Or.inr ⟨rfl, fun _ => rfl⟩
      · -- an outcome is recorded of a queued row only
        refine Or.inr ⟨rfl, fun hst => ?_⟩
        have hq := (recorded hr hs hrow rfl).2.1
        rw [hst] at hq
        cases hq
      · refine Or.inr ⟨rfl, fun hx => ?_⟩
        rw [hst] at hx
        cases hx
      · obtain ⟨h, k, -, ⟨-, hpath⟩, -⟩ := did_path (run_paths hr) hs
        have hn : n = cfg.xuni_max_windows := hpath
        rw [hn]
        exact Or.inl ⟨hst, rfl⟩
    · -- a new row has a new id
      have hlt := Journal.lt_nextId hrow
      have hnew : Journal.nextId c.world.journal.rows = r.id := hid
      omega
  · rw [hj] at hr'
    obtain ⟨r₀, hrow₀, rfl⟩ := Journal.mem_update.mp hr'
    have heq : r₀ = r := by
      refine Journal.eq_of_id hrow₀ hrow ?_
      rw [← hid]
      split <;> rfl
    subst heq
    refine Or.inr ?_
    split
    next hsub =>
      refine ⟨rfl, fun hx => ?_⟩
      rw [hsub] at hx
      cases hx
    next => exact ⟨rfl, fun _ => rfl⟩

/-- The row `id` was released from `ParkedXuniWindow` between `c` and `c'`. -/
def releasedBetween (id : Int) (c c' : Configuration) : Bool :=
  match c.world.journal.byId id, c'.world.journal.byId id with
  | some r, some r' => r.status == .ParkedXuniWindow && r'.status == .Pending
  | _, _ => false

/-- The windows that the row `id` has been given. -/
def triedOf (id : Int) (c : Configuration) : Nat :=
  match c.world.journal.byId id with
  | some r => r.xuni_windows_tried
  | none => 0

/-- The number of windows of a row, found by its id. -/
theorem triedOf_row (hrow : r ∈ c.world.journal.rows) :
    triedOf r.id c = r.xuni_windows_tried := by
  unfold triedOf
  rw [Journal.byId_of_mem hrow]

/-- A parked row that a window opening leaves pending has got one window more. -/
theorem windowOpened_tried {n : Int} (hst : r.status = .ParkedXuniWindow) :
    (Journal.windowOpened n r).xuni_windows_tried = r.xuni_windows_tried +
      if (Journal.windowOpened n r).status = .Pending then 1 else 0 := by
  unfold Journal.windowOpened
  rw [if_pos hst]
  split
  · rfl
  · rfl

/-- The count goes up by one with a release, and with nothing else. -/
theorem step_tried (hr : Run (core cfg) (start cfg) tr c) (hs : (core cfg).Step c l c')
    (hrow : r ∈ c.world.journal.rows) (hrow' : r' ∈ c'.world.journal.rows)
    (hid : r'.id = r.id) :
    r'.xuni_windows_tried = r.xuni_windows_tried +
      if r.status = .ParkedXuniWindow ∧ r'.status = .Pending then 1 else 0 := by
  obtain ⟨r₁, hrow₁, hid₁, h⟩ := step_window hr hs hrow
  have heq : r₁ = r' := Journal.eq_of_id hrow₁ hrow' (hid₁.trans hid.symm)
  subst heq
  rcases h with ⟨hst, rfl⟩ | ⟨hkept, hsame⟩
  · rw [windowOpened_tried hst]
    simp [hst]
  · have hno : ¬(r.status = .ParkedXuniWindow ∧ r₁.status = .Pending) := by
      rintro ⟨hst, hpending⟩
      rw [hsame hst, hst] at hpending
      cases hpending
    rw [hkept, if_neg hno, Nat.add_zero]

/-- A row of the next configuration was there before, or has not been given a window. -/
theorem step_row_tried (hr : Run (core cfg) (start cfg) tr c) (hs : (core cfg).Step c l c')
    (hrow' : r' ∈ c'.world.journal.rows) :
    (∃ r ∈ c.world.journal.rows, r'.id = r.id) ∨ r'.xuni_windows_tried = 0 := by
  rcases step_row hr hs hrow' with ⟨r, hrow, hid, -⟩ | ⟨i, p, a, id, -, rfl⟩
  · exact Or.inl ⟨r, hrow, hid⟩
  · exact Or.inr rfl

/-- A row's count is the number of its releases. -/
theorem tried_tally (hr : Run (core cfg) (start cfg) tr c) (id : Int) :
    triedOf id c = (transitions tr c).countP fun x => releasedBetween id x.1 x.2 := by
  have h := hr.tally (f := triedOf id) (P := releasedBetween id) fun tr c₁ l c₂ run hs => by
    cases hb₂ : c₂.world.journal.byId id with
    | none =>
      cases hb₁ : c₁.world.journal.byId id with
      | none => simp [triedOf, releasedBetween, hb₁, hb₂]
      | some r =>
        -- no row is ever lost
        obtain ⟨hrow, rfl⟩ := Journal.byId_mem hb₁
        obtain ⟨r', hrow', hid, -⟩ := step_ext hs r hrow
        rw [← hid, Journal.byId_of_mem hrow'] at hb₂
        cases hb₂
    | some r' =>
      obtain ⟨hrow', rfl⟩ := Journal.byId_mem hb₂
      cases hb₁ : c₁.world.journal.byId r'.id with
      | none =>
        have hzero : r'.xuni_windows_tried = 0 := by
          rcases step_row_tried run hs hrow' with ⟨r, hrow, hid⟩ | h
          · rw [hid, Journal.byId_of_mem hrow] at hb₁
            cases hb₁
          · exact h
        simp [triedOf, releasedBetween, hb₁, hb₂, hzero]
      | some r =>
        obtain ⟨hrow, hid⟩ := Journal.byId_mem hb₁
        have h := step_tried run hs hrow hrow' hid.symm
        simp [triedOf, releasedBetween, hb₁, hb₂, h]
  rw [h]
  exact Nat.zero_add _

end Counting

/-! ## The budget -/

/-- No row has been given more windows than the budget. -/
theorem run_tried_le {cfg : Config} (hW : 0 ≤ cfg.xuni_max_windows) {tr : Trace}
    {c : Configuration} (hr : Run (core cfg) (start cfg) tr c) :
    ∀ r ∈ c.world.journal.rows, (r.xuni_windows_tried : Int) ≤ cfg.xuni_max_windows := by
  refine hr.invariant (G := fun _ _ => True) (I := fun _ c => ∀ r ∈ c.world.journal.rows,
    (r.xuni_windows_tried : Int) ≤ cfg.xuni_max_windows) ?_ ?_ (fun _ _ _ _ => trivial)
  · intro tr c₁ l c₂ run ih _ hs r' hrow'
    rcases step_row_tried run hs hrow' with ⟨r, hrow, hid⟩ | hzero
    · have hle := ih r hrow
      obtain ⟨r₁, hrow₁, hid₁, h⟩ := step_window run hs hrow
      have heq : r₁ = r' := Journal.eq_of_id hrow₁ hrow' (hid₁.trans hid.symm)
      subst heq
      rcases h with ⟨hst, rfl⟩ | ⟨hkept, -⟩
      · -- a row that is released was below the budget
        unfold Journal.windowOpened
        rw [if_pos hst]
        split
        next => exact hle
        next hb =>
          show ((r.xuni_windows_tried + 1 : Nat) : Int) ≤ _
          omega
      · rw [hkept]
        exact hle
    · rw [hzero]
      exact hW
  · intro r hrow
    cases hrow

/-- Within the budget, the first UPDATE marks the rows that have used all of it. -/
theorem exhausted_eq {n : Int} {r : FindRecord} (hle : (r.xuni_windows_tried : Int) ≤ n) :
    Journal.exhausted n r =
      if r.status = .ParkedXuniWindow ∧ (r.xuni_windows_tried : Int) = n then
        { r with
          status := .Dead
          status_reason := lit "xuni window budget exhausted"
          next_attempt_at := none }
      else r := by
  have hiff : (r.xuni_windows_tried : Int) ≥ n ↔ (r.xuni_windows_tried : Int) = n := by omega
  unfold Journal.exhausted
  by_cases hb : r.status = .ParkedXuniWindow ∧ (r.xuni_windows_tried : Int) = n
  · rw [if_pos hb, if_pos ⟨hb.1, hiff.mpr hb.2⟩]
  · rw [if_neg hb, if_neg fun h => hb ⟨h.1, hiff.mp h.2⟩]

/-- A window opening marks exactly these rows dead that were not. -/
theorem windowOpened_dead_iff {n : Int} {r : FindRecord}
    (hle : (r.xuni_windows_tried : Int) ≤ n) :
    r.status ≠ .Dead ∧ (Journal.windowOpened n r).status = .Dead ↔
      r.status = .ParkedXuniWindow ∧ (r.xuni_windows_tried : Int) = n := by
  unfold Journal.windowOpened
  by_cases hp : r.status = .ParkedXuniWindow
  · rw [if_pos hp]
    split
    next hb => simp [hp, show (r.xuni_windows_tried : Int) = n by omega]
    next hb => simp [hp, show (r.xuni_windows_tried : Int) ≠ n by omega]
  · rw [if_neg hp]
    constructor
    · rintro ⟨hne, hdead⟩
      exact absurd hdead hne
    · rintro ⟨h, -⟩
      exact absurd h hp

/-- **The XUNI window budget.** In every run with a budget of `W ≥ 0` windows: no row has been
given more than `W`; a step counts a row up by one when it releases the row from
`ParkedXuniWindow`, and by nothing otherwise, and a parked row stays as it is, is released or
dies; so the count of a row is the number of its releases, and that is at most `W`. The
transaction is always asked for with `W`. Its first UPDATE marks the parked rows with the
count `W` dead and touches no other row or column, its second releases the rows still parked;
a row that was not parked is not touched at all. -/
theorem window_budget (cfg : Config) (hW : 0 ≤ cfg.xuni_max_windows) (tr : Trace)
    (c : Configuration) (hr : Run (core cfg) (start cfg) tr c) :
    (∀ r ∈ c.world.journal.rows, (r.xuni_windows_tried : Int) ≤ cfg.xuni_max_windows) ∧
    (∀ l c', (core cfg).Step c l c' → ∀ r ∈ c.world.journal.rows,
      ∃ r' ∈ c'.world.journal.rows, r'.id = r.id ∧
        r'.xuni_windows_tried = r.xuni_windows_tried +
          (if r.status = .ParkedXuniWindow ∧ r'.status = .Pending then 1 else 0) ∧
        (r.status = .ParkedXuniWindow → r' = r ∨ r'.status = .Pending ∨
          r'.status = .Dead)) ∧
    (∀ r ∈ c.world.journal.rows, r.xuni_windows_tried =
      (transitions tr c).countP fun x => releasedBetween r.id x.1 x.2) ∧
    (∀ id, ((transitions tr c).countP fun x => releasedBetween id x.1 x.2) ≤
      cfg.xuni_max_windows.toNat) ∧
    ∀ i n a c', (core cfg).Step c (performed i (.unparkXuniForWindow n) a) c' →
      n = cfg.xuni_max_windows ∧
      c'.world.journal = (c.world.journal.exhaust n).unpark ∧
      (c.world.journal.exhaust n).difficulty_seen = c.world.journal.difficulty_seen ∧
      (c.world.journal.exhaust n).rows = c.world.journal.rows.map (fun r =>
        if r.status = .ParkedXuniWindow ∧ (r.xuni_windows_tried : Int) = cfg.xuni_max_windows then
          { r with
            status := .Dead
            status_reason := lit "xuni window budget exhausted"
            next_attempt_at := none }
        else r) ∧
      (∀ r ∈ c.world.journal.rows, ∀ r' ∈ c'.world.journal.rows, r'.id = r.id →
        (r.status ≠ .Dead ∧ r'.status = .Dead ↔
          r.status = .ParkedXuniWindow ∧
            (r.xuni_windows_tried : Int) = cfg.xuni_max_windows) ∧
        (r.status ≠ .ParkedXuniWindow → r' = r)) := by
  have hle := run_tried_le hW hr
  refine ⟨hle, ?_, ?_, ?_, ?_⟩
  · intro l c' hs r hrow
    obtain ⟨r', hrow', hid, h⟩ := step_window hr hs hrow
    refine ⟨r', hrow', hid, step_tried hr hs hrow hrow' hid, fun hst => ?_⟩
    rcases h with ⟨-, rfl⟩ | ⟨-, hsame⟩
    · unfold Journal.windowOpened
      rw [if_pos hst]
      split
      · exact Or.inr (Or.inr rfl)
      · exact Or.inr (Or.inl rfl)
    · exact Or.inl (hsame hst)
  · intro r hrow
    rw [← tried_tally hr, triedOf_row hrow]
  · intro id
    rw [← tried_tally hr]
    unfold triedOf
    split
    next r hb =>
      have h := hle r (Journal.byId_mem hb).1
      omega
    next => exact Nat.zero_le _
  · intro i n a c' hs
    obtain ⟨h, k, -, ⟨-, hpath⟩, -⟩ := did_path (run_paths hr) hs
    have hn : n = cfg.xuni_max_windows := hpath
    subst hn
    obtain ⟨h, k, x, -, hx, -⟩ := hs.did
    simp only [core, exec, Option.some.injEq, Prod.mk.injEq] at hx
    have hj : c'.world.journal = c.world.journal.unparkXuniForWindow cfg.xuni_max_windows := by
      rw [← hx.2]
    refine ⟨rfl, hj.trans Journal.unpark_exhaust.symm, rfl, ?_, ?_⟩
    · exact List.map_congr_left fun r hrow => exhausted_eq (hle r hrow)
    · intro r hrow r' hrow' hid
      have hopened : Journal.windowOpened cfg.xuni_max_windows r ∈ c'.world.journal.rows := by
        rw [hj]
        exact Journal.mem_unparkXuniForWindow.mpr ⟨r, hrow, rfl⟩
      have heq : r' = Journal.windowOpened cfg.xuni_max_windows r := by
        refine Journal.eq_of_id hrow' hopened (hid.trans ?_)
        unfold Journal.windowOpened
        split <;> [split <;> rfl; rfl]
      rw [heq]
      refine ⟨windowOpened_dead_iff (hle r hrow), fun hp => ?_⟩
      unfold Journal.windowOpened
      rw [if_neg hp]

private theorem releasedOnce_possible : ((core {}).replay (start {})
    (parkedInFirst ++ (looksClosed ++ looksAt 3600000 true))).isSome = true := by decide +kernel

/-- Parked in the window at 00:00 and released in the one at 01:00. -/
theorem window_budget_released : ∃ tr c, Run (core {}) (start {}) tr c ∧
    ∃ r ∈ c.world.journal.rows, r.status = .Pending ∧
      ((transitions tr c).countP fun x => releasedBetween r.id x.1 x.2) = 1 := by
  have hr := Machine.replay_get releasedOnce_possible
  have hrow : ∃ r ∈ (((core {}).replay (start {})
      (parkedInFirst ++ (looksClosed ++ looksAt 3600000 true))).get
        releasedOnce_possible).2.world.journal.rows,
      r.status = .Pending ∧ r.xuni_windows_tried = 1 := by decide +kernel
  obtain ⟨r, hrow, hst, htried⟩ := hrow
  refine ⟨_, _, hr, r, hrow, hst, ?_⟩
  rw [← (window_budget {} (by decide) _ _ hr).2.2.1 r hrow, htried]

end TreeMiner
