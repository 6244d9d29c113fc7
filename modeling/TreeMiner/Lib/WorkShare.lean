import Mathlib.Algebra.BigOperators.Fin
import Mathlib.Algebra.BigOperators.Intervals
import Mathlib.Algebra.Order.BigOperators.Group.Finset
import TreeMiner.Lib.Steps

/-!
# Work handed out in pieces

Some workers each hold a list of jobs and do them one at a time. A worker that has nothing left
asks for a piece; the asks of all workers are numbered in the order they happen, as with one
`fetch_add` on a shared counter, and the `k`-th gets `source k`: more jobs, or nothing, and then
the worker is finished.

A supply of `K` pieces that stays dry for one ask of every worker is handed out once
(`Shared`): whatever the order of the workers, the jobs done, the jobs held and the pieces not
asked for yet are together what there was to do. A schedule takes exactly as many steps as there
is left to do (`run_length`), so that none goes on for ever.
-/

namespace WorkShare

open Finset

variable {ι α : Type}

/-- The number of asks so far, what each worker holds (`none` when it is finished), and the jobs
done. -/
structure State (ι α : Type) where
  asked : Nat
  held : ι → Option (List α)
  log : List α

/-- Every worker is finished. -/
def State.Finished (s : State ι α) : Prop := ∀ i, s.held i = none

section Step

variable [DecidableEq ι] (source : Nat → Option (List α))

/-- Worker `i` does its next job, or asks for a piece. -/
def step (s : State ι α) (i : ι) : Option (State ι α) :=
  match s.held i with
  | none => none
  | some [] =>
    some { s with asked := s.asked + 1, held := Function.update s.held i (source s.asked) }
  | some (a :: as) =>
    some { s with held := Function.update s.held i (some as), log := s.log ++ [a] }

variable {source} {s s' : State ι α} {i : ι}

/-- The two steps. -/
theorem step_cases (h : step source s i = some s') :
    (s.held i = some [] ∧
      s' = { s with asked := s.asked + 1, held := Function.update s.held i (source s.asked) }) ∨
    ∃ a as, s.held i = some (a :: as) ∧
      s' = { s with held := Function.update s.held i (some as), log := s.log ++ [a] } := by
  unfold step at h
  cases hheld : s.held i with
  | none =>
    rw [hheld] at h
    cases h
  | some jobs =>
    rw [hheld] at h
    cases jobs with
    | nil => exact Or.inl ⟨rfl, (Option.some.inj h).symm⟩
    | cons a as => exact Or.inr ⟨a, as, rfl, (Option.some.inj h).symm⟩

/-- A worker that is not finished can always go on. -/
theorem step_isSome (source : Nat → Option (List α)) (h : s.held i ≠ none) :
    ∃ s', step source s i = some s' := by
  unfold step
  cases hheld : s.held i with
  | none => exact absurd hheld h
  | some jobs =>
    cases jobs with
    | nil => exact ⟨_, rfl⟩
    | cons a as => exact ⟨_, rfl⟩

/-- A worker with nothing left asks for the next chunk. -/
theorem step_ask (h : s.held i = some []) : step source s i =
    some { s with asked := s.asked + 1, held := Function.update s.held i (source s.asked) } := by
  unfold step
  rw [h]

/-- A worker with a chunk does its next job. -/
theorem step_job (source : Nat → Option (List α)) {a : α} {as : List α}
    (h : s.held i = some (a :: as)) : step source s i =
    some { s with held := Function.update s.held i (some as), log := s.log ++ [a] } := by
  unfold step
  rw [h]

end Step

/-! ## What a step conserves -/

section Totals

variable [Fintype ι] [DecidableEq ι] {M : Type} [AddCommMonoid M]
  {source : Nat → Option (List α)} {K : Nat} {s s₀ s' : State ι α} {i : ι}

/-- One worker's holding is replaced. -/
theorem sum_update (F : Option (List α) → M) (held : ι → Option (List α)) (i : ι)
    (x : Option (List α)) :
    ∑ j, F (Function.update held i x j) + F (held i) = ∑ j, F (held j) + F x := by
  have hrest : ∑ j ∈ univ.erase i, F (Function.update held i x j) = ∑ j ∈ univ.erase i,
    F (held j) := by
    refine sum_congr rfl fun j hj => ?_
    rw [Function.update_of_ne (ne_of_mem_erase hj)]
  rw [← add_sum_erase univ _ (mem_univ i),
    ← add_sum_erase univ (fun j => F (held j)) (mem_univ i), hrest, Function.update_self]
  ac_rfl

/-- What is held, and what is still to be asked for. -/
def total (source : Nat → Option (List α)) (K : Nat) (F : Option (List α) → M)
    (s : State ι α) : M :=
  ∑ j, F (s.held j) + ∑ k ∈ Ico s.asked K, F (source k)

/-- The finished workers. -/
def finished (s : State ι α) : Nat := ∑ j, if (s.held j).isNone then 1 else 0

/-- `K` pieces, and none for the next `W` asks. -/
structure Supply (source : Nat → Option (List α)) (K W : Nat) : Prop where
  given : ∀ k < K, (source k).isSome = true
  dry : ∀ k, K ≤ k → k < K + W → source k = none

/-- An ask moves a piece from the supply to its worker. -/
theorem total_ask (F : Option (List α) → M) (hF : F none = 0)
    (hdry : K ≤ s.asked → source s.asked = none) (hheld : s.held i = some []) :
    total source K F ⟨s.asked + 1, Function.update s.held i (source s.asked), s.log⟩ + F
      (some []) =
      total source K F s := by
  have hsum := sum_update F s.held i (source s.asked)
  rw [hheld] at hsum
  unfold total
  by_cases hK : s.asked < K
  · rw [add_right_comm, hsum, sum_eq_sum_Ico_succ_bot hK, add_assoc]
  · rw [hdry (Nat.not_lt.mp hK), hF, add_zero] at hsum
    have hnone : Ico s.asked K = ∅ := Ico_eq_empty_of_le (Nat.not_lt.mp hK)
    have hnone' : Ico (s.asked + 1) K = ∅ :=
      Ico_eq_empty_of_le (Nat.le_succ_of_le (Nat.not_lt.mp hK))
    rw [hdry (Nat.not_lt.mp hK), add_right_comm, hsum, hnone, hnone']

/-- A job leaves its worker's list. -/
theorem total_job (source : Nat → Option (List α)) (K : Nat) (F : Option (List α) → M)
    {a : α} {as : List α} (log : List α) (hheld : s.held i = some (a :: as)) :
    total source K F ⟨s.asked, Function.update s.held i (some as), log⟩ + F (some (a :: as)) =
      total source K F s + F (some as) := by
  have hsum := sum_update F s.held i (some as)
  rw [hheld] at hsum
  unfold total
  rw [add_right_comm, hsum, add_right_comm]

/-- While a worker is not finished, not all of them are. -/
theorem finished_lt (h : s.held i ≠ none) : finished s < Fintype.card ι := by
  have hsum := sum_update (fun o : Option (List α) => if o.isNone then 1 else 0) s.held i none
  have hi : (s.held i).isNone = false := by
    cases hheld : s.held i with
    | none => exact absurd hheld h
    | some _ => rfl
  have hle : (∑ j, if (Function.update s.held i none j).isNone then 1 else 0) ≤
    Fintype.card ι := by
    have hone : ∀ j ∈ (univ : Finset ι),
        (if (Function.update s.held i none j).isNone then 1 else 0) ≤ 1 := by
      intro j _
      split
      · exact Nat.le_refl 1
      · exact Nat.zero_le 1
    have hbound := sum_le_card_nsmul univ _ 1 hone
    rwa [card_univ, smul_eq_mul, Nat.mul_one] at hbound
  rw [hi] at hsum
  unfold finished
  simp only [Option.isNone_none, if_true, Bool.false_eq_true, if_false] at hsum
  omega

/-- The jobs of a holding or a piece. -/
def jobsOf (o : Option (List α)) : Multiset α := ((o.getD [] : List α) : Multiset α)

/-- The steps it takes to use it up: one for each job, and the ask that follows. -/
def stepsOf (o : Option (List α)) : Nat := o.elim 0 fun as => as.length + 1

/-- No job is lost or made, and each dry ask finishes one worker. -/
structure Shared (source : Nat → Option (List α)) (K : Nat) (s₀ s : State ι α) : Prop where
  jobs : (s.log : Multiset α) + total source K jobsOf s = s₀.log + total source K jobsOf s₀
  finished : finished s = s.asked - K

/-- The asks of workers that are not finished stay within the supply. -/
theorem Shared.dry (hsup : Supply source K (Fintype.card ι)) (hs : Shared source K s₀ s)
    (h : s.held i ≠ none) (hK : K ≤ s.asked) : source s.asked = none := by
  have hlt := finished_lt h
  rw [hs.finished] at hlt
  exact hsup.dry _ hK (by omega)

/-- One step of one worker neither loses a job nor does one twice. -/
theorem Shared.step (hsup : Supply source K (Fintype.card ι)) (hs : Shared source K s₀ s)
    (h : step source s i = some s') : Shared source K s₀ s' := by
  obtain ⟨hheld, rfl⟩ | ⟨a, as, hheld, rfl⟩ := step_cases h
  · have hne : s.held i ≠ none := by
      rw [hheld]
      exact Option.some_ne_none _
    have hdry := hs.dry hsup hne
    refine ⟨?_, ?_⟩
    · have hask := total_ask (M := Multiset α) jobsOf rfl hdry hheld
      rw [← hs.jobs, ← hask]
      exact congrArg _ (add_zero _).symm
    · have hsum := sum_update (fun o : Option (List α) => if o.isNone then 1 else 0) s.held i
        (source s.asked)
      have hfin := hs.finished
      rw [hheld] at hsum
      unfold WorkShare.finished at hfin ⊢
      -- a chunk is handed out, or the source has run dry and the worker is finished
      by_cases hK : s.asked < K
      · have hgiven := hsup.given _ hK
        rw [Option.isSome_iff_exists] at hgiven
        obtain ⟨js, hjs⟩ := hgiven
        rw [hjs] at hsum
        simp only [Option.isNone_some, Bool.false_eq_true, if_false, add_zero] at hsum
        dsimp only
        rw [hjs, hsum, hfin]
        omega
      · rw [hdry (Nat.not_lt.mp hK)] at hsum
        simp only [Option.isNone_some, Option.isNone_none, Bool.false_eq_true, if_false, if_true,
          add_zero] at hsum
        dsimp only
        rw [hdry (Nat.not_lt.mp hK), hsum, hfin]
        omega
  · refine ⟨?_, ?_⟩
    · have hjob := total_job source K (M := Multiset α) jobsOf (s.log ++ [a]) hheld
      have hcons : jobsOf (some (a :: as)) = {a} + jobsOf (some as) := rfl
      rw [hcons, ← add_assoc] at hjob
      have hmove := add_right_cancel hjob
      rw [← hs.jobs, ← hmove, ← Multiset.coe_add, add_comm _ ({a} : Multiset α),
        ← add_assoc]
      rfl
    · have hsum := sum_update (fun o : Option (List α) => if o.isNone then 1 else 0) s.held i
        (some as)
      rw [hheld] at hsum
      have hfin := hs.finished
      unfold WorkShare.finished at hfin ⊢
      simp only [Option.isNone_some, Bool.false_eq_true, if_false, add_zero] at hsum
      exact hsum.trans hfin

/-- The steps that are left. -/
def left (source : Nat → Option (List α)) (K : Nat) (s : State ι α) : Nat :=
  total source K stepsOf s

/-- Every step is one less to take. -/
theorem Shared.left_step (hsup : Supply source K (Fintype.card ι)) (hs : Shared source K s₀ s)
    (h : WorkShare.step source s i = some s') : left source K s' + 1 = left source K s := by
  obtain ⟨hheld, rfl⟩ | ⟨a, as, hheld, rfl⟩ := step_cases h
  · have hne : s.held i ≠ none := by
      rw [hheld]
      exact Option.some_ne_none _
    exact total_ask stepsOf rfl (hs.dry hsup hne) hheld
  · have hjob := total_job source K (M := Nat) stepsOf (s.log ++ [a]) hheld
    have hsteps : stepsOf (some (a :: as)) = stepsOf (some as) + 1 := rfl
    unfold left
    rw [hsteps] at hjob
    omega

end Totals

/-! ## Runs -/

section Runs

variable [Fintype ι] {source : Nat → Option (List α)} {K : Nat} {held : ι → Option (List α)}

/-- Nothing has been asked for or done. -/
def start (held : ι → Option (List α)) : State ι α := ⟨0, held, []⟩

/-- At the start no worker has asked. -/
theorem shared_start (hheld : ∀ i, held i ≠ none) :
    Shared source K (start held) (start held) := by
  have hzero : finished (start held) = 0 := by
    unfold finished
    refine sum_eq_zero fun i _ => ?_
    have hi : (held i).isNone = false := by
      cases h : held i with
      | none => exact absurd h (hheld i)
      | some _ => rfl
    show (if (held i).isNone then 1 else 0) = 0
    rw [hi]
    rfl
  exact ⟨rfl, hzero.trans (Nat.zero_sub K).symm⟩

/-- All there is to do: what the workers hold at first, and the pieces of the supply. -/
def allJobs (source : Nat → Option (List α)) (K : Nat) (held : ι → Option (List α)) :
    Multiset α :=
  ∑ i, jobsOf (held i) + ∑ k ∈ range K, jobsOf (source k)

/-- And all jobs are still to be done or to be handed out. -/
theorem jobs_start (held : ι → Option (List α)) :
    ((start held).log : Multiset α) + total source K jobsOf (start held) =
      allJobs source K held := by
  unfold total allJobs
  rw [range_eq_Ico]
  exact zero_add _

variable [DecidableEq ι] {s : State ι α} {is : List ι}

/-- Along a schedule, and how many steps it has taken. -/
theorem run_shared (hsup : Supply source K (Fintype.card ι)) (hheld : ∀ i, held i ≠ none)
    (hr : Steps.run (step source) (start held) is = some s) :
    Shared source K (start held) s ∧
      is.length + left source K s = left source K (start held) := by
  refine Steps.run_invariant (I := fun is s => Shared source K (start held) s ∧
    is.length + left source K s = left source K (start held)) ⟨shared_start hheld,
      Nat.zero_add _⟩
    ?_ hr
  intro is s₁ i s₂ _ hs hstep
  refine ⟨hs.1.step hsup hstep, ?_⟩
  have hleft := hs.1.left_step hsup hstep
  rw [List.length_append, List.length_singleton]
  omega

/-- Some schedule finishes every worker: the induction is on the steps that are left. -/
theorem exists_completion (hsup : Supply source K (Fintype.card ι))
    (hheld : ∀ i, held i ≠ none)
    (hr : Steps.run (step source) (start held) is = some s) :
    ∃ more s', Steps.run (step source) (start held) (is ++ more) = some s' ∧ s'.Finished := by
  generalize hn : left source K s = n
  induction n generalizing is s with
  | zero =>
    refine ⟨[], s, by rwa [List.append_nil], ?_⟩
    intro i
    by_contra hne
    obtain ⟨s', hs'⟩ := step_isSome source hne
    have hleft := (run_shared hsup hheld hr).1.left_step hsup hs'
    omega
  | succ n ih =>
    by_cases hfin : s.Finished
    · exact ⟨[], s, by rwa [List.append_nil], hfin⟩
    · obtain ⟨i, hne⟩ := not_forall.mp hfin
      obtain ⟨s', hs'⟩ := step_isSome source hne
      have hleft := (run_shared hsup hheld hr).1.left_step hsup hs'
      have hnext := Steps.run_snoc.mpr ⟨s, hr, hs'⟩
      obtain ⟨more, t, ht, hdone⟩ := ih hnext (by omega)
      refine ⟨i :: more, t, ?_, hdone⟩
      rwa [List.append_assoc, List.singleton_append] at ht

/-- At any time, what is done is part of what there is to do. -/
theorem log_le (hsup : Supply source K (Fintype.card ι)) (hheld : ∀ i, held i ≠ none)
    (hr : Steps.run (step source) (start held) is = some s) :
    (s.log : Multiset α) ≤ allJobs source K held := by
  have hjobs := (run_shared hsup hheld hr).1.jobs
  rw [jobs_start] at hjobs
  rw [← hjobs]
  exact Multiset.le_add_right _ _

/-- When all workers are finished, it is all of it. -/
theorem log_finished [Nonempty ι] (hsup : Supply source K (Fintype.card ι))
    (hheld : ∀ i, held i ≠ none)
    (hr : Steps.run (step source) (start held) is = some s) (hfin : s.Finished) :
    (s.log : Multiset α) = allJobs source K held := by
  obtain ⟨hjobs, hcount⟩ := (run_shared hsup hheld hr).1
  have hall : finished s = Fintype.card ι := by
    unfold finished
    simp [hfin _]
  have hpos : 0 < Fintype.card ι := Fintype.card_pos
  have htotal : total source K (jobsOf (α := α)) s = 0 := by
    unfold total
    rw [Ico_eq_empty_of_le (by omega), sum_empty, add_zero]
    refine sum_eq_zero fun i _ => ?_
    rw [hfin i]
    rfl
  rw [htotal, add_zero, jobs_start] at hjobs
  exact hjobs

omit [Fintype ι] in
/-- Different workers that hold nothing ask in turn. -/
theorem run_asks (source : Nat → Option (List α)) (held : ι → Option (List α)) (is : List ι)
    (hnd : is.Nodup) (hheld : ∀ i ∈ is, held i = some []) :
    ∃ s, Steps.run (step source) (start held) is = some s ∧ s.asked = is.length ∧
      s.log = [] ∧
      (∀ i, i ∉ is → s.held i = held i) ∧
        ∀ k (hk : k < is.length), s.held is[k] = source k := by
  -- on the threads that asked, the last one first
  induction is using List.reverseRecOn with
  | nil =>
    refine ⟨start held, rfl, rfl, rfl, fun _ _ => rfl, ?_⟩
    intro k hk
    cases hk
  | append_singleton is i ih =>
    obtain ⟨hnd', -, hnew⟩ := List.nodup_append.mp hnd
    have hi : i ∉ is := fun hmem => hnew i hmem i (List.mem_singleton.mpr rfl) rfl
    obtain ⟨s, hr, hasked, hlog, hout, hin⟩ :=
      ih hnd' fun j hj => hheld j (List.mem_append_left _ hj)
    have hnone : s.held i = some [] := by
      rw [hout i hi]
      exact hheld i (List.mem_append_right _ (List.mem_singleton.mpr rfl))
    refine ⟨_, Steps.run_snoc.mpr ⟨s, hr, step_ask hnone⟩, ?_, hlog, ?_, ?_⟩
    · rw [List.length_append, List.length_singleton, ← hasked]
    · intro j hj
      have hji : j ≠ i := fun h => hj (by rw [h]; simp)
      rw [← hout j fun h => hj (List.mem_append_left _ h)]
      exact Function.update_of_ne hji _ _
    · intro k hk
      rw [List.length_append, List.length_singleton] at hk
      by_cases hlast : k < is.length
      · have hmem : is[k] ≠ i := fun h => hi (by rw [← h]; exact List.getElem_mem hlast)
        rw [List.getElem_append_left hlast, ← hin k hlast]
        exact Function.update_of_ne hmem _ _
      · have hkeq : k = is.length := by omega
        subst hkeq
        rw [List.getElem_concat_length rfl, ← hasked]
        exact Function.update_self _ _ _

end Runs

end WorkShare
