import TreeMiner.Lib.Choice
import TreeMiner.Submit.Port

/-!
# What drain selection selects (`DrainScheduler::selectNext`, `select_next`)

One pass over the eligible slice keeps two candidates: the oldest XUNI of an open window,
and of the XEN11 the cheapest while difficulty rises, else the oldest. The slice is in
journal order, so the oldest of a kind is the first of it. `Selected` is the priority
order among the candidates, without the pass; both implementations compute it.

Both passes are shown to keep the two candidates of the part of the slice that they have
seen (`Choice.Chosen`), and at the end of the slice the priority order picks one of them.
That the slice is in order of ids is what the fetch guarantees.
-/

namespace TreeMiner

open Choice RustManager

/-! ## The specification -/

def FindRecord.IsKind (k : FindKind) (r : FindRecord) : Prop := r.payload.kind = k

/-- The oldest find of a kind. -/
abbrev Oldest (k : FindKind) (l : List FindRecord) (r : FindRecord) : Prop :=
  First (FindRecord.IsKind k) l r

/-- What XEN11 are compared by: their memory cost while difficulty rises, else nothing. -/
def xen11Key (trend : DifficultyTrend) (r : FindRecord) : Nat :=
  if trend = .Rising then r.payload.memory_cost.toNat else 0

/-- The window is open and about to close, and `r` is the oldest XUNI. -/
structure Preempts (cfg : DrainConfig) (eligible : List FindRecord) (window : XuniWindowState)
    (r : FindRecord) : Prop where
  isOpen : window.isOpen = true
  closing : window.ms_until_close ≤ cfg.xuni_preempt_window_ms
  oldest : Oldest .XUNI eligible r

/-- What is to be submitted next. -/
inductive Selected (cfg : DrainConfig) (eligible : List FindRecord) (trend : DifficultyTrend)
    (window : XuniWindowState) : Option FindRecord → Prop where
  | preempt {r : FindRecord} (h : Preempts cfg eligible window r) :
      Selected cfg eligible trend window (some r)
  | cheapest {r : FindRecord} (no_preempt : ∀ x, ¬ Preempts cfg eligible window x)
      (rising : trend = .Rising)
      (least : Earliest (FindRecord.IsKind .XEN11) (·.payload.memory_cost.toNat) eligible r) :
      Selected cfg eligible trend window (some r)
  | oldest {r : FindRecord} (no_preempt : ∀ x, ¬ Preempts cfg eligible window x)
      (steady : trend ≠ .Rising) (oldest : Oldest .XEN11 eligible r) :
      Selected cfg eligible trend window (some r)
  | xuni {r : FindRecord} (no_preempt : ∀ x, ¬ Preempts cfg eligible window x)
      (no_xen11 : ∀ x ∈ eligible, x.payload.kind ≠ .XEN11) (isOpen : window.isOpen = true)
      (oldest : Oldest .XUNI eligible r) : Selected cfg eligible trend window (some r)
  | nothing (no_xen11 : ∀ x ∈ eligible, x.payload.kind ≠ .XEN11)
      (no_xuni : window.isOpen = true → ∀ x ∈ eligible, x.payload.kind ≠ .XUNI) :
      Selected cfg eligible trend window none

/-! ## The pass -/

/-- What the pass has found in the part it has seen. -/
structure Found (trend : DifficultyTrend) (window : XuniWindowState) (seen : List FindRecord)
    (s : Option FindRecord × Option FindRecord) : Prop where
  oldest_xuni : if window.isOpen = true then Chosen (FindRecord.IsKind .XUNI) (fun _ => ()) seen s.1
    else s.1 = none
  best_xen11 : Chosen (FindRecord.IsKind .XEN11) (xen11Key trend) seen s.2

section Pass

variable {cfg : DrainConfig} {trend : DifficultyTrend} {window : XuniWindowState}
  {seen eligible : List FindRecord} {s : Option FindRecord × Option FindRecord} {r : FindRecord}

/-- A XUNI is taken if it is the first one of an open window. -/
theorem Found.xuni (h : Found trend window seen s) (hk : r.payload.kind = .XUNI) :
    Found trend window (seen ++ [r]) (selectStep trend window s r) := by
  have hnot : ¬ FindRecord.IsKind .XEN11 r := by
    intro hx
    rw [FindRecord.IsKind, hk] at hx
    cases hx
  obtain ⟨oldest, best⟩ := s
  obtain ⟨ho, hb⟩ := h
  unfold selectStep
  rw [if_pos hk]
  by_cases hopen : window.isOpen = true
  · simp only [hopen, if_true, Bool.true_and] at ho ⊢
    cases oldest with
    | none => exact ⟨by rw [if_pos hopen]; exact ho.start hk, hb.skip hnot⟩
    | some x => exact ⟨by rw [if_pos hopen]; exact ho.keep (le_refl _), hb.skip hnot⟩
  · simp only [hopen, Bool.false_and, Bool.false_eq_true, if_false] at ho ⊢
    exact ⟨by rw [if_neg hopen]; exact ho, hb.skip hnot⟩

/-- A XEN11 is taken if it is the first one, or cheaper while difficulty rises. -/
theorem Found.xen11 (h : Found trend window seen s) (hk : r.payload.kind = .XEN11) :
    Found trend window (seen ++ [r]) (selectStep trend window s r) := by
  have hnot : ¬ FindRecord.IsKind .XUNI r := by
    intro hx
    rw [FindRecord.IsKind, hk] at hx
    cases hx
  obtain ⟨oldest, best⟩ := s
  obtain ⟨ho, hb⟩ := h
  -- the candidate among the XUNI is not touched by a XEN11
  have ho' : if window.isOpen = true then
      Chosen (FindRecord.IsKind .XUNI) (fun _ => ()) (seen ++ [r]) oldest else oldest = none := by
    split at ho
    next hopen =>
      rw [if_pos hopen]
      exact ho.skip hnot
    next hopen =>
      rw [if_neg hopen]
      exact ho
  have hxuni : r.payload.kind ≠ .XUNI := hnot
  unfold selectStep
  rw [if_neg hxuni]
  cases best with
  | none => exact ⟨ho', hb.start hk⟩
  | some best =>
    simp only
    split
    -- cheaper while the trend is up: it takes the place of the best so far
    next hless =>
      refine ⟨ho', hb.better hk ?_⟩
      unfold xen11Key
      rw [if_pos hless.1, if_pos hless.1]
      exact hless.2
    next hless =>
      refine ⟨ho', hb.keep ?_⟩
      unfold xen11Key
      split
      next hr => exact Nat.le_of_not_lt fun hlt => hless ⟨hr, hlt⟩
      next => exact le_refl _

/-- One more record keeps the invariant of the loop: the oldest XUNI and the preferred XEN11 of
those seen. -/
theorem Found.step (h : Found trend window seen s) :
    Found trend window (seen ++ [r]) (selectStep trend window s r) := by
  cases hk : r.payload.kind with
  | XUNI => exact h.xuni hk
  | XEN11 => exact h.xen11 hk

/-- So do all the records that follow. -/
theorem Found.fold {rest : List FindRecord} (h : Found trend window seen s) :
    Found trend window (seen ++ rest) (rest.foldl (selectStep trend window) s) := by
  induction rest generalizing seen s with
  | nil =>
    rw [List.append_nil]
    exact h
  | cons r rest ih =>
    have happ : seen ++ r :: rest = (seen ++ [r]) ++ rest := by simp
    rw [happ, List.foldl_cons]
    exact ih h.step

/-- At the end the loop has seen them all. -/
theorem found_all :
    Found trend window eligible (eligible.foldl (selectStep trend window) (none, none)) := by
  have h0 : Found trend window [] (none, none) := by
    refine ⟨?_, chosen_nil⟩
    split
    · exact chosen_nil
    · rfl
  exact h0.fold

/-! ## The choice between the candidates -/

/-- The XEN11 candidate, by what `trend` compares. -/
theorem selected_xen11 (hno : ∀ x, ¬ Preempts cfg eligible window x)
    (hb : Earliest (FindRecord.IsKind .XEN11) (xen11Key trend) eligible r) :
    Selected cfg eligible trend window (some r) := by
  by_cases hr : trend = .Rising
  · refine .cheapest hno hr ?_
    have hkey : xen11Key trend = fun x => x.payload.memory_cost.toNat := by
      funext x
      exact if_pos hr
    rw [hkey] at hb
    exact hb
  · refine .oldest hno hr ?_
    have hkey : xen11Key trend = fun _ => 0 := by
      funext x
      exact if_neg hr
    rw [hkey] at hb
    obtain ⟨hx, l₁, l₂, hl, hbefore, -⟩ := hb
    exact ⟨hx, l₁, l₂, hl, fun x hm hP => absurd (hbefore x hm hP) (lt_irrefl 0),
      fun _ _ _ => le_refl _⟩

/-- The Rust function, which is a fold, meets the same specification. -/
theorem select_next_selected :
    Selected cfg eligible trend window (RustManager.selectNext cfg eligible trend window) := by
  have h : Found trend window eligible _ := found_all
  unfold RustManager.selectNext
  revert h
  generalize eligible.foldl (selectStep trend window) (none, none) = s
  intro h
  obtain ⟨oldest, best⟩ := s
  obtain ⟨ho, hb⟩ := h
  dsimp only at ho hb ⊢
  -- without a XUNI candidate there is nothing to pre-empt with
  have hnone : oldest = none → ∀ x, ¬ Preempts cfg eligible window x := by
    rintro rfl x hx
    rw [if_pos hx.isOpen] at ho
    exact ho x hx.oldest.mem hx.oldest.holds
  cases oldest with
  | none =>
    cases best with
    | none =>
      refine .nothing hb fun hopen => ?_
      rw [if_pos hopen] at ho
      exact ho
    | some xen => exact selected_xen11 (hnone rfl) hb
  | some xuni =>
    have hopen : window.isOpen = true := by
      by_contra hno
      rw [if_neg hno] at ho
      cases ho
    rw [if_pos hopen] at ho
    by_cases hclose : window.ms_until_close ≤ cfg.xuni_preempt_window_ms
    · simp only [if_pos hclose]
      exact .preempt ⟨hopen, hclose, ho⟩
    · have hno : ∀ x, ¬ Preempts cfg eligible window x := fun x hx => hclose hx.closing
      simp only [if_neg hclose]
      cases best with
      | none => exact .xuni hno hb hopen ho
      | some xen => exact selected_xen11 hno hb

/-- The specification leaves one choice. -/
theorem Selected.unique {o o' : Option FindRecord} (h : Selected cfg eligible trend window o)
    (h' : Selected cfg eligible trend window o') : o = o' := by
  -- each rule excludes the others by its side condition, so only the diagonal cases are left to
  -- argue
  cases h with
  | preempt hp =>
    cases h' with
    | preempt hp' => rw [hp.oldest.unique hp'.oldest]
    | cheapest hno | oldest hno | xuni hno => exact absurd hp (hno _)
    | nothing _ hno => exact absurd hp.oldest.holds (hno hp.isOpen _ hp.oldest.mem)
  | cheapest hno hr hb =>
    cases h' with
    | preempt hp => exact absurd hp (hno _)
    | cheapest _ _ hb' => rw [hb.unique hb']
    | oldest _ hs => exact absurd hr hs
    | xuni _ hx | nothing hx => exact absurd hb.holds (hx _ hb.mem)
  | oldest hno hs hb =>
    cases h' with
    | preempt hp => exact absurd hp (hno _)
    | cheapest _ hr => exact absurd hr hs
    | oldest _ _ hb' => rw [hb.unique hb']
    | xuni _ hx | nothing hx => exact absurd hb.holds (hx _ hb.mem)
  | xuni hno hx hopen ho =>
    cases h' with
    | preempt hp => exact absurd hp (hno _)
    | cheapest _ _ hb | oldest _ _ hb => exact absurd hb.holds (hx _ hb.mem)
    | xuni _ _ _ ho' => rw [ho.unique ho']
    | nothing _ hnx => exact absurd ho.holds (hnx hopen _ ho.mem)
  | nothing hx hnx =>
    cases h' with
    | preempt hp => exact absurd hp.oldest.holds (hnx hp.isOpen _ hp.oldest.mem)
    | cheapest _ _ hb | oldest _ _ hb => exact absurd hb.holds (hx _ hb.mem)
    | xuni _ _ hopen ho => exact absurd ho.holds (hnx hopen _ ho.mem)
    | nothing => rfl

end Pass

/-- `DrainScheduler::selectNext` and `select_next` return what the specification selects:
the oldest XUNI of a window about to close; else the cheapest XEN11 while difficulty
rises, the oldest otherwise; else the oldest XUNI of an open window; else nothing. -/
theorem selection_spec (cfg : DrainConfig) (eligible : List FindRecord) (trend : DifficultyTrend)
    (window : XuniWindowState) (o : Option FindRecord) :
    (selectNext cfg eligible trend window = o ↔ Selected cfg eligible trend window o) ∧
      (RustManager.selectNext cfg eligible trend window = o ↔
        Selected cfg eligible trend window o) := by
  have hspec : RustManager.selectNext cfg eligible trend window = o ↔
    Selected cfg eligible trend window o :=
    ⟨fun h => h ▸ select_next_selected, fun h => select_next_selected.unique h⟩
  refine ⟨?_, hspec⟩
  rw [← select_next_eq]
  exact hspec

/-- In a slice in order of ids the oldest find of a kind has the smallest id of its kind. -/
theorem oldest_least_id {k : FindKind} {l : List FindRecord} {r x : FindRecord}
    (h : Oldest k l r) (hs : l.Pairwise fun a b => a.id < b.id) (hx : x ∈ l)
    (hk : x.payload.kind = k) : r.id ≤ x.id :=
  First.least h hs hx hk

end TreeMiner
