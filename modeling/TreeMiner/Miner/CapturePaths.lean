import TreeMiner.Journal.SinkLog
import TreeMiner.Miner.Host

/-!
# What the threads of the miner ask for

`Asks` says for each operation what the call knows when it asks for it, `Ends` what it knows
when it returns. Both are read off the history of the call.

A path lemma for each program of the miner says that every operation is asked for in the
situation `Asks` names and every return is one that `Ends` allows. The lemmas are about a
program alone, with every answer possible; the run of all threads gets them at once, since
each thread is on a path of its program.
-/

namespace TreeMiner.Miner

open Cxx Interleave FallbackSink

abbrev History := List (Event sig)

/-- The bytes an operation has written to the sink. -/
def writtenBy : Event sig → Bytes
  | ⟨.writeSink data, some n⟩ => data.take n
  | _ => []

/-- What a call has written to the sink. -/
def written : History → Bytes
  | [] => []
  | e :: h => written h ++ writtenBy e

/-- Only a write that succeeds writes. -/
theorem writtenBy_ne_nil {o : Op} {a : o.Ans} (h : writtenBy (⟨o, a⟩ : Event sig) ≠ []) :
    ∃ data n, o = .writeSink data ∧
      (⟨o, a⟩ : Event sig) = ⟨.writeSink data, some n⟩ := by
  cases o with
  | writeSink data =>
    cases a with
    | none => exact absurd rfl h
    | some n => exact ⟨data, n, rfl, rfl⟩
  | _ => exact absurd rfl h

/-- An event that writes nothing leaves what was written. -/
theorem written_skip {e : Event sig} {h : History} (he : writtenBy e = []) :
    written (e :: h) = written h := by
  rw [written, he, List.append_nil]

/-! ## What a thread asks for -/

/-- A find is in the journal, or its line is written, as far as this call knows. -/
def Captured (libc : Libc) (h : History) (p : FoundPayload) : Prop :=
  (∃ id, (⟨.append p, some id⟩ : Event sig) ∈ h) ∨
    ((⟨.append p, none⟩ : Event sig) ∈ h ∧ written h = serialize libc p)

/-- When party `i` asks for an operation. -/
def Asks (libc : Libc) (i : Party) (h : History) : Op → Prop
  | .append p => ((∃ n, i = .miner n) ∧ written h = []) ∨
      (i = .main ∧ (⟨.archiveSink, ()⟩ : Event sig) ∉ h ∧
        ∃ content, (⟨.readSink, .bytes content⟩ : Event sig) ∈ h ∧
          p ∈ records libc content)
  | .writeSink data => (∃ n, i = .miner n) ∧ data ≠ [] ∧
      ∃ p, (⟨.append p, none⟩ : Event sig) ∈ h ∧ written h ++ data = serialize libc p
  | .archiveSink => i = .main ∧ (⟨.archiveSink, ()⟩ : Event sig) ∉ h ∧
      ∃ content, (⟨.readSink, .bytes content⟩ : Event sig) ∈ h ∧
        ∀ p ∈ records libc content, ∃ id, (⟨.append p, some id⟩ : Event sig) ∈ h
  | .onBlockFound p => (∃ n, i = .miner n) ∧ Captured libc h p
  | .openSink => i ≠ .main
  | _ => True

/-- What a call knows when it ends. -/
def Ends (libc : Libc) (h : History) : Outcome → Prop
  | .journaled p id => (⟨.append p, some id⟩ : Event sig) ∈ h
  | .sunk p => (⟨.append p, none⟩ : Event sig) ∈ h ∧ written h = serialize libc p
  | .lost _ => (⟨.declareFatalDurabilityFailure, ()⟩ : Event sig) ∈ h
  | _ => True

section Paths

variable {libc : Libc} {i : Party} {h : History}

/-- The submission core asks for nothing of this. -/
theorem core_along {α : Type} (p : Prog TreeMiner.sig α) (h : History) :
    Prog.Along (fun _ _ => True) (Asks libc i) (fun _ _ => True) h (core p) := by
  induction p generalizing h with
  | ret a => exact trivial
  | op o k ih => exact ⟨trivial, fun a _ => ih a _⟩

/-- The loop of `writeAll`: after success all is written. -/
theorem writeLoop_along {n : Nat} {p : FoundPayload} :
    ∀ {h : History} (fuel : Nat) (data : Bytes),
    data.length ≤ fuel → (⟨.append p, none⟩ : Event sig) ∈ h →
      written h ++ data = serialize libc p →
      Prog.Along (fun _ _ => True) (Asks libc (.miner n))
        (fun h' ok => (⟨.append p, none⟩ : Event sig) ∈ h' ∧
          (ok = true → written h' = serialize libc p)) h (writeLoop fuel data)
  | h, fuel, [], _, hp, hline => by
    cases fuel <;> exact ⟨hp, fun _ => by rw [← hline, List.append_nil]⟩
  | h, 0, c :: data, hfuel, _, _ => by cases hfuel
  | h, fuel + 1, c :: data, hfuel, hp, hline => by
    refine ⟨⟨⟨n, rfl⟩, List.cons_ne_nil c data, p, hp, hline⟩, fun a _ => ?_⟩
    match a with
    | none => exact ⟨List.mem_cons_of_mem _ hp, fun hfalse => by cases hfalse⟩
    | some 0 => exact ⟨List.mem_cons_of_mem _ hp, fun hfalse => by cases hfalse⟩
    | some (k + 1) =>
      have hlen : (data.drop k).length ≤ fuel := by
        rw [List.length_drop]
        rw [List.length_cons] at hfuel
        omega
      refine writeLoop_along fuel (data.drop k) hlen (List.mem_cons_of_mem _ hp) ?_
      show (written h ++ (c :: data).take (k + 1)) ++ data.drop k = serialize libc p
      rw [← hline, List.take_succ_cons, List.append_assoc, List.cons_append,
        List.take_append_drop]

/-- When the loop of the write says that it is done, all of the line has been written. -/
theorem writeAll_along {n : Nat} {p : FoundPayload} (data : Bytes)
    (hp : (⟨.append p, none⟩ : Event sig) ∈ h)
      (hline : written h ++ data = serialize libc p) :
    Prog.Along (fun _ _ => True) (Asks libc (.miner n))
      (fun h' ok => (⟨.append p, none⟩ : Event sig) ∈ h' ∧
        (ok = true → written h' = serialize libc p)) h (writeAll data) := by
  unfold writeAll
  exact writeLoop_along data.length data (Nat.le_refl _) hp hline

/-- `FallbackSink::append`. -/
theorem appendSink_along {n : Nat} {p : FoundPayload}
    (hp : (⟨.append p, none⟩ : Event sig) ∈ h) (hw : written h = []) :
    Prog.Along (fun _ _ => True) (Asks libc (.miner n))
      (fun h' ok => (⟨.append p, none⟩ : Event sig) ∈ h' ∧
        (ok = true → written h' = serialize libc p)) h (appendSink libc p) := by
  refine Prog.Along.call (by simp [Asks]) fun opened _ => ?_
  split
  · have hline : written ((⟨.openSink, opened⟩ : Event sig) :: h) ++ serialize libc p =
        serialize libc p := by
      rw [written_skip rfl, hw, List.nil_append]
    refine (writeAll_along (serialize libc p) (List.mem_cons_of_mem _ hp) hline).bind
      fun h₁ ok hok => ?_
    obtain ⟨hp₁, hw₁⟩ := hok
    -- only a write of all its bytes makes the append true
    cases ok with
    | true =>
      refine Prog.Along.call trivial fun synced _ => ?_
      refine Prog.Along.call trivial fun closed _ => ?_
      refine ⟨List.mem_cons_of_mem _ (List.mem_cons_of_mem _ hp₁), fun _ => ?_⟩
      rw [written_skip rfl, written_skip rfl]
      exact hw₁ rfl
    | false =>
      refine Prog.Along.call trivial fun closed _ => ?_
      exact ⟨List.mem_cons_of_mem _ hp₁, fun hfalse => by cases hfalse⟩
  · exact ⟨List.mem_cons_of_mem _ hp, fun hfalse => by cases hfalse⟩

/-- A capture ends with the find in the journal, in the sink, or with the miner declared failed. -/
theorem capture_along {n : Nat} (p : FoundPayload) (hw : written h = []) :
    Prog.Along (fun _ _ => True) (Asks libc (.miner n)) (Ends libc) h (capture libc p) := by
  refine Prog.Along.call (Or.inl ⟨⟨n, rfl⟩, hw⟩) fun a _ => ?_
  cases a with
  | some id =>
    refine Prog.Along.call ⟨⟨n, rfl⟩, Or.inl ⟨id, List.mem_cons_self⟩⟩ fun _ _ => ?_
    exact List.mem_cons_of_mem _ List.mem_cons_self
  | none =>
    have hw' : written ((⟨.append p, none⟩ : Event sig) :: h) =
      [] := by rw [written_skip rfl, hw]
    refine (appendSink_along List.mem_cons_self hw').bind fun h₁ sunk hsunk => ?_
    obtain ⟨hp, hall⟩ := hsunk
    cases sunk with
    | true =>
      refine Prog.Along.call ⟨⟨n, rfl⟩, Or.inr ⟨hp, hall rfl⟩⟩ fun _ _ => ?_
      refine ⟨List.mem_cons_of_mem _ hp, ?_⟩
      rw [written_skip rfl]
      exact hall rfl
    | false => exact Prog.Along.call trivial fun _ _ => List.mem_cons_self

/-- So does the callback around it. -/
theorem submitCallback_along {n : Nat} (machineId : Bytes) (c : Gpu.SubmitCall)
    (hashrate : Double) : Prog.Along (fun _ _ => True) (Asks libc (.miner n)) (Ends libc) []
      (submitCallback libc machineId c hashrate) := by
  unfold submitCallback
  split
  · exact trivial
  · exact Prog.Along.call trivial fun now _ => capture_along _ rfl

/-- The loop of the import: after a clean pass each record is in the journal. -/
theorem importLines_along {content : Bytes} : ∀ {h : History} (ls : List Bytes),
    (⟨.readSink, .bytes content⟩ : Event sig) ∈ h →
      (⟨.archiveSink, ()⟩ : Event sig) ∉ h →
      (∀ p ∈ ls.filterMap (lineRecord libc), p ∈ records libc content) →
      Prog.Along (fun _ _ => True) (Asks libc .main)
        (fun h' clean => h ⊆ h' ∧ (⟨.archiveSink, ()⟩ : Event sig) ∉ h' ∧
          (clean = true →
          ∀ p ∈ ls.filterMap (lineRecord libc), ∃ id,
            (⟨.append p, some id⟩ : Event sig) ∈ h'))
        h (importLines libc ls)
  | h, [], _, hno, _ => ⟨List.Subset.refl h, hno, fun _ p hp => by cases hp⟩
  | h, line :: ls, hread, hno, hsub => by
    -- a line without a record is passed over
    have hpass : lineRecord libc line = none →
        Prog.Along (fun _ _ => True) (Asks libc .main)
          (fun h' clean => h ⊆ h' ∧ (⟨.archiveSink, ()⟩ : Event sig) ∉ h' ∧
            (clean = true →
            ∀ p ∈ (line :: ls).filterMap (lineRecord libc),
              ∃ id, (⟨.append p, some id⟩ : Event sig) ∈ h')) h (importLines libc ls) := by
      intro hnone
      rw [List.filterMap_cons_none hnone] at hsub ⊢
      exact importLines_along ls hread hno hsub
    unfold importLines
    split
    next hblank =>
      refine hpass ?_
      unfold lineRecord
      rw [if_pos hblank]
    next hblank =>
      have hrec : lineRecord libc line = parseLine libc (stripEnd line) := by
        unfold lineRecord
        rw [if_neg hblank]
      split
      next hnone => exact hpass (hrec.trans hnone)
      next p hp =>
        have hsome : lineRecord libc line = some p := hrec.trans hp
        rw [List.filterMap_cons_some hsome] at hsub ⊢
        refine Prog.Along.call
          (Or.inr ⟨rfl, hno, content, hread, hsub p List.mem_cons_self⟩) fun a _ => ?_
        have hno' : (⟨.archiveSink, ()⟩ : Event sig) ∉ (⟨.append p, a⟩ : Event sig) ::
          h := by
          intro hmem
          rcases List.mem_cons.mp hmem with heq | hmem
          · cases heq
          · exact hno hmem
        cases a with
        | none => exact ⟨List.subset_cons_self _ _, hno', fun hfalse => by cases hfalse⟩
        | some id =>
          refine (importLines_along ls (List.mem_cons_of_mem _ hread) hno'
            fun r hr => hsub r (List.mem_cons_of_mem p hr)).mono (fun _ _ h => h) (fun _ _ h => h)
            fun h' clean hdone => ?_
          obtain ⟨hh', hno'', hall⟩ := hdone
          refine ⟨List.Subset.trans (List.subset_cons_self _ _) hh', hno'',
            fun hclean r hr => ?_⟩
          rcases List.mem_cons.mp hr with rfl | hr
          · exact ⟨id, hh' List.mem_cons_self⟩
          · exact hall hclean r hr

/-- The startup appends the records of the sink before it archives it. -/
theorem startup_along :
    Prog.Along (fun _ _ => True) (Asks libc .main) (Ends libc) [] (startup libc) := by
  have himport : Prog.Along (fun _ _ => True) (Asks libc .main) (fun _ _ => True) []
      (importInto libc) := by
    refine Prog.Along.call trivial fun file _ => ?_
    cases file with
    | missing => exact trivial
    | unreadable | failing => exact trivial
    | bytes content =>
      refine (importLines_along (lines content) List.mem_cons_self (by simp)
        fun p hp => hp).bind fun h clean hdone => ?_
      obtain ⟨hsub, hno, hall⟩ := hdone
      cases clean with
      | true =>
        exact Prog.Along.call ⟨rfl, hno, content, hsub List.mem_cons_self, hall rfl⟩
          fun _ _ => trivial
      | false => exact trivial
  exact himport.bind fun h _ _ => Prog.Along.call trivial fun _ _ =>
    Prog.Along.call trivial fun _ _ => trivial

/-- Every call of every party. -/
theorem bodies_along {cfg : Config} {machineId : Bytes} (i : Party) (k : Call)
    (hm : (miner cfg libc machineId).may i k = true) :
    Prog.Along (fun _ _ => True) (Asks libc i) (Ends libc) []
      ((miner cfg libc machineId).body k) := by
  cases i with
  | main =>
    cases k with
    | startup => exact startup_along
    | _ => cases hm
  | submission =>
    cases k with
    | runOnce => exact (core_along _ _).bind fun _ _ _ => trivial
    | _ => cases hm
  | poller =>
    cases k with
    | observeDifficulty d => exact (core_along _ _).bind fun _ _ _ => trivial
    | _ => cases hm
  | miner n =>
    cases k with
    | submitCallback call hashrate => exact submitCallback_along machineId call hashrate
    | _ => cases hm

end Paths

end TreeMiner.Miner
