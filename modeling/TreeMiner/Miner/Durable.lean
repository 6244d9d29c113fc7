import TreeMiner.Miner.CapturePaths
import TreeMiner.Miner.Disk

/-!
# A captured find is not lost

What a find depends on once the callback has said that it is captured: a row of the
journal, or a whole line of the sink. Rows stay; a line stays until an import that got
through has journaled all lines, and only then the file is archived. So a captured find
survives every journal failure, every end of the process and every import that is cut
short, as long as no write lands behind a torn line (`Solid`).

The invariant (`Inv`) has one part for each of these, and one lemma for each part says
what a step does to it. A restart is a step like any other. `sample_sound` runs the
miner through a torn write, a restart and an import.
-/

namespace TreeMiner.Miner

open Cxx Interleave FallbackSink

/-! ## Safe finds -/

/-- The find has a row, or a whole line in the sink. -/
def Safe (libc : Libc) (w : World) (p : FoundPayload) : Prop :=
  (∃ r ∈ w.core.journal.rows, r.payload.key = p.key) ∨ p ∈ records libc (w.sink.getD [])

/-- A mining thread has tried to journal the payload. -/
def Tried (tr : Trace) (p : FoundPayload) : Prop :=
  ∃ c n a, (c, Label.did (.miner n) (⟨.append p, a⟩ : Event sig)) ∈ tr

/-- What was tried was tried in the longer run. -/
theorem Tried.append {tr tr' : Trace} {p : FoundPayload} (h : Tried tr p) :
    Tried (tr ++ tr') p := by
  obtain ⟨c, n, a, hmem⟩ := h
  exact ⟨c, n, a, List.mem_append_left _ hmem⟩

/-- A write goes on where the beginning of its line stands, on a whole line. -/
def Solid (x : Configuration × Label sig Party Call) : Prop :=
  ∀ i data a h k, x.2 = .did i ⟨.writeSink data, a⟩ → x.1.pool i = some ⟨h, k⟩ →
    ∃ pre, x.1.world.sink.getD [] = pre ++ written h ∧ EndsClean pre

/-- The rate of a find is a number. -/
def finiteRate : Label sig Party Call → Bool
  | .did (.miner _) ⟨.append p, _⟩ => p.hashes_per_second.isFinite
  | _ => true

/-- What holds between the steps. -/
structure Inv (libc : Libc) (tr : Trace) (c : Configuration) : Prop where
  paths : c.Along (fun _ _ => True) (Asks libc) fun _ => Ends libc
  finite : ∀ p, Tried tr p → p.hashes_per_second.isFinite = true
  laid : ∃ ps q, Laid libc (Tried tr) ps q (c.world.sink.getD [])
  journaled : ∀ i t, c.pool i = some t →
    ∀ p id, (⟨.append p, some id⟩ : Event sig) ∈ t.hist →
    ∃ r ∈ c.world.core.journal.rows, r.payload.key = p.key
  lines : ∀ n t, c.pool (.miner n) = some t →
    ∀ p, (⟨.append p, none⟩ : Event sig) ∈ t.hist →
    written t.hist = serialize libc p → Safe libc c.world p
  /-- Nobody writes while the startup reads. -/
  reading : c.world.ready = false → ∀ t, c.pool .main = some t → ∀ content,
    (⟨.readSink, .bytes content⟩ : Event sig) ∈ t.hist →
      (⟨.archiveSink, ()⟩ : Event sig) ∉ t.hist → c.world.sink = some content
  rows : ∀ r ∈ c.world.core.journal.rows, ∃ p, Tried tr p ∧ r.payload = Journal.stored p
  reported : ∀ p ∈ c.world.reported, Safe libc c.world p
  halted : ∀ i t, c.pool i = some t →
    (⟨.declareFatalDurabilityFailure, ()⟩ : Event sig) ∈ t.hist → c.world.fatal = true

/-- Only payloads with different lines differ. -/
theorem serialize_prefix {libc : Libc} (hlibc : libc.Standard) {p p' : FoundPayload}
    (hp : p.hashes_per_second.isFinite = true) (hp' : p'.hashes_per_second.isFinite = true)
    (h : serialize libc p <+: serialize libc p') : p = p' := by
  rw [serialize_eq, serialize_eq] at h
  have hnl : nl ∈ body libc p ++ [nl] := List.mem_append_right _ (List.mem_singleton.mpr rfl)
  have hsame : body libc p ++ [nl] = body libc p' ++ [nl] :=
    (prefix_line h).resolve_left fun hbody => nl_not_mem_piece hlibc hbody hnl
  have hrecord := lineRecord_body hlibc hp
  rw [List.append_cancel_right hsame, lineRecord_body hlibc hp'] at hrecord
  exact (Option.some.inj hrecord).symm

section Invariant

variable {cfg : Config} {libc : Libc} {machineId : Bytes} {tr : Trace} {c c' : Configuration}
  {l : Label sig Party Call}

/-- No step takes a row away. -/
theorem step_rows (hs : (miner cfg libc machineId).Step c l c') {k : Bytes}
    (hk : ∃ r ∈ c.world.core.journal.rows, r.payload.key = k) :
    ∃ r ∈ c'.world.core.journal.rows, r.payload.key = k := by
  obtain ⟨r, hr, hkey⟩ := hk
  rcases step_disk hs with ⟨i, e, x, -, he, -⟩ | ⟨-, hj, -⟩
  · obtain ⟨r', hr', -, hp⟩ := (execOp_journal he).1 r hr
    exact ⟨r', hr', by rw [hp, hkey]⟩
  · rw [hj]
    exact ⟨r, hr, hkey⟩

/-- What a mining thread remembers to have tried. -/
theorem tried_of_hist (hrun : Run (miner cfg libc machineId) (start cfg) tr c) {n : Nat}
    {t : Thread sig Outcome} (ht : c.pool (.miner n) = some t) {p : FoundPayload}
    {a : Option Int} (hp : (⟨.append p, a⟩ : Event sig) ∈ t.hist) : Tried tr p := by
  obtain ⟨c₁, hmem⟩ := hrun.hist_mem (fun _ => rfl) _ t ht _ hp
  exact ⟨c₁, n, a, hmem⟩

section

variable (hlibc : libc.Standard) (hI : Inv libc tr c)
  (hrun : Run (miner cfg libc machineId) (start cfg) tr c)

include hlibc hI hrun

/-- A write to the sink, by a call for `p`. -/
theorem Inv.write {i : Party} {data : Bytes} {a : Option Nat} {n : Nat} {h : History}
    {k : Option Nat → Prog sig Outcome} (hsolid : Solid (c, .did i ⟨.writeSink data, a⟩))
    (ht : c.pool i = some ⟨h, .op (.writeSink data) k⟩) :
    ∃ p, Tried tr p ∧ written h ++ data = serialize libc p ∧
      ∃ ps' q', Laid libc (Tried tr) ps' q' (c.world.sink.getD [] ++ data.take n) ∧
        (∀ r ∈ records libc (c.world.sink.getD []),
          r ∈ records libc (c.world.sink.getD [] ++ data.take n)) ∧
        (data.length ≤ n → p ∈ ps') := by
  obtain ⟨⟨m, rfl⟩, hne, p, hp, hline⟩ := (hI.paths i _ ht).1
  have htried := tried_of_hist hrun ht hp
  obtain ⟨pre, hstands, hclean⟩ := hsolid _ data a h _ rfl ht
  obtain ⟨ps, q, hlaid⟩ := hI.laid
  obtain ⟨ps', q', hlaid', hkept, hall⟩ :=
    hlaid.write hlibc hI.finite htried hline hne hstands hclean
  exact ⟨p, htried, hline, ps', q', hlaid', hkept, hall⟩

/-- A safe find stays safe. -/
theorem Inv.safe_step (hsolid : Solid (c, l)) (hs : (miner cfg libc machineId).Step c l c')
    {p : FoundPayload} (hp : Safe libc c.world p) : Safe libc c'.world p := by
  rcases hp with hrow | hline
  · exact Or.inl (step_rows hs hrow)
  rcases step_disk hs with ⟨i, ⟨o, a⟩, x, rfl, he, hmain⟩ | ⟨-, -, hsink, -⟩
  · obtain ⟨h, k, -, ht, -, -⟩ := hs.did
    rcases execOp_sink he with hsame | ⟨-, hopen⟩ | ⟨data, n, hev, hwrite⟩ | ⟨ho, hgone⟩
    · exact Or.inr (by rw [hsame]; exact hline)
    · exact Or.inr (by rw [hopen]; exact hline)
    · cases hev
      obtain ⟨-, -, -, -, -, -, hkept, -⟩ := hI.write hlibc hrun (n := n) hsolid ht
      exact Or.inr (by rw [hwrite]; exact hkept p hline)
    · -- the import has been through all records
      dsimp only at ho
      subst ho
      obtain ⟨rfl, hno, content, hread, hall⟩ := (hI.paths i _ ht).1
      have hcontent := hI.reading (hmain.mp rfl) _ ht content hread hno
      rw [hcontent] at hline
      obtain ⟨id, hid⟩ := hall p hline
      exact Or.inl (step_rows hs (hI.journaled _ _ ht p id hid))
  · exact Or.inr (by rw [hsink]; exact hline)

/-! ### The fields of the invariant, one by one -/

omit hlibc hrun in
/-- Every payload that was tried has a finite rate. -/
theorem Inv.finite_step (hfin : finiteRate l = true) (p : FoundPayload)
    (hp : Tried (tr ++ [(c, l)]) p) :
    p.hashes_per_second.isFinite = true := by
  obtain ⟨c₁, n, a, hmem⟩ := hp
  rcases List.mem_append.mp hmem with hmem | hmem
  · exact hI.finite p ⟨c₁, n, a, hmem⟩
  · cases List.mem_singleton.mp hmem
    exact hfin

/-- The sink is laid out in whole lines, with at most a piece of one at its end. -/
theorem Inv.laid_step (hsolid : Solid (c, l)) (hs : (miner cfg libc machineId).Step c l c') :
    ∃ ps q, Laid libc (Tried (tr ++ [(c, l)])) ps q (c'.world.sink.getD []) := by
  obtain ⟨ps, q, hlaid⟩ := hI.laid
  have hold : ∀ content, content = c.world.sink.getD [] →
      ∃ ps q, Laid libc (Tried (tr ++ [(c, l)])) ps q content := by
    intro content h
    rw [h]
    exact ⟨ps, q, hlaid.mono fun p => Tried.append⟩
  rcases step_disk hs with ⟨i, ⟨o, a⟩, x, rfl, he, -⟩ | ⟨-, -, hsink, -⟩
  · obtain ⟨h, k, -, ht, -, -⟩ := hs.did
    rcases execOp_sink he with hsame | ⟨-, hopen⟩ | ⟨data, n, hev, hwrite⟩ | ⟨-, hgone⟩
    · exact hold _ (by rw [hsame])
    · exact hold _ (by rw [hopen]; rfl)
    · cases hev
      obtain ⟨-, -, -, ps', q', hlaid', -, -⟩ := hI.write hlibc hrun (n := n) hsolid ht
      rw [hwrite]
      exact ⟨ps', q', hlaid'.mono fun p => Tried.append⟩
    · rw [hgone]
      exact ⟨[], [], rfl, by simp, Or.inl rfl⟩
  · exact hold _ (by rw [hsink])

omit hlibc hrun in
/-- A capture that got an id has its find in the journal. -/
theorem Inv.journaled_step (hs : (miner cfg libc machineId).Step c l c') (i : Party)
    (t : Thread sig Outcome) (ht : c'.pool i = some t) (p : FoundPayload) (id : Int)
    (hp : (⟨.append p, some id⟩ : Event sig) ∈ t.hist) :
    ∃ r ∈ c'.world.core.journal.rows, r.payload.key = p.key := by
  rcases hs.thread ht with ⟨k, -, -, rfl⟩ | ⟨h, o, k, a, x, rfl, ht₀, -, rfl⟩ |
      ⟨ht₀, -⟩
  · cases hp
  · rcases List.mem_cons.mp hp with heq | hp
    · cases heq
      obtain ⟨i', e, x', hl, he, -⟩ | ⟨hno, -⟩ := step_disk hs
      · cases hl
        exact execOp_append he
      · exact absurd rfl (hno _ _)
    · exact step_rows hs (hI.journaled _ _ ht₀ p id hp)
  · exact step_rows hs (hI.journaled _ _ ht₀ p id hp)

/-- A find whose line is written in full is safe, although the journal did not take it. -/
theorem Inv.lines_step (hsolid : Solid (c, l)) (hs : (miner cfg libc machineId).Step c l c')
    (n : Nat) (t : Thread sig Outcome) (ht : c'.pool (.miner n) = some t) (p : FoundPayload)
    (hp : (⟨.append p, none⟩ : Event sig) ∈ t.hist)
    (hw : written t.hist = serialize libc p) : Safe libc c'.world p := by
  rcases hs.thread ht with ⟨k, -, -, rfl⟩ | ⟨h, o, k, a, x, rfl, ht₀, -, rfl⟩ |
      ⟨ht₀, -⟩
  · cases hp
  · by_cases hby : writtenBy (⟨o, a⟩ : Event sig) = []
    · rw [written_skip hby] at hw
      rcases List.mem_cons.mp hp with heq | hp
      · -- nothing is written before the journal was tried
        cases heq
        rcases (hI.paths _ _ ht₀).1 with ⟨-, hnil⟩ | ⟨hmain, -⟩
        · rw [hnil, serialize_eq] at hw
          exact absurd hw.symm (List.append_ne_nil_of_right_ne_nil _ (List.cons_ne_nil _ _))
        · cases hmain
      · exact hI.safe_step hlibc hrun hsolid hs (hI.lines _ _ ht₀ p hp hw)
    · -- the write that ended the line
      obtain ⟨data, k', rfl, ha⟩ := writtenBy_ne_nil hby
      cases ha
      obtain ⟨p₀, hp₀, hline, ps', q', hlaid, -, hall⟩ :=
        hI.write hlibc hrun (n := k') hsolid ht₀
      have hold : Tried tr p := by
        rcases List.mem_cons.mp hp with heq | hp
        · cases heq
        · exact tried_of_hist hrun ht₀ hp
      have hw' : written h ++ data.take k' = serialize libc p := hw
      have hpre : serialize libc p <+: serialize libc p₀ := by
        rw [← hw', ← hline]
        exact (List.prefix_append_right_inj _).mpr (List.take_prefix _ _)
      -- one line is a beginning of the other, and both end with a break: they are the same
      have hsame := serialize_prefix hlibc (hI.finite p hold) (hI.finite p₀ hp₀) hpre
      subst hsame
      rw [← hline, List.append_cancel_left_eq] at hw'
      have hlen : data.length ≤ k' := by
        rw [← hw']
        exact List.length_take_le _ _
      have hmem := hlaid.mem_records hlibc hI.finite (hall hlen)
      obtain ⟨i', e, x', hl, he, -⟩ | ⟨hno, -⟩ := step_disk hs
      · cases hl
        exact Or.inr (by rw [execOp_write he]; exact hmem)
      · exact absurd rfl (hno _ _)
  · exact hI.safe_step hlibc hrun hsolid hs (hI.lines _ _ ht₀ p hp hw)

omit hlibc hrun in
/-- A capture that failed has stopped the miner. -/
theorem Inv.halted_step (hs : (miner cfg libc machineId).Step c l c') (i : Party)
    (t : Thread sig Outcome) (ht : c'.pool i = some t)
    (hp : (⟨.declareFatalDurabilityFailure, ()⟩ : Event sig) ∈ t.hist) :
    c'.world.fatal = true := by
  have hkeep : l ≠ .restarted → c.world.fatal = true → c'.world.fatal = true := by
    intro hl hfatal
    rcases step_disk hs with ⟨j, e, x, -, he, -⟩ | ⟨-, -, -, -, hboot⟩
    · exact (execOp_flags he).2 (Or.inl hfatal)
    · exact (hboot.resolve_left hl).2.trans hfatal
  rcases hs.thread ht with ⟨k, -, -, rfl⟩ | ⟨h, o, k, a, x, rfl, ht₀, -, rfl⟩ |
      ⟨ht₀, hnr, -⟩
  · cases hp
  · rcases List.mem_cons.mp hp with heq | hp
    · cases heq
      obtain ⟨i', e, x', hl, he, -⟩ | ⟨hno, -⟩ := step_disk hs
      · cases hl
        exact (execOp_flags he).2 (Or.inr rfl)
      · exact absurd rfl (hno _ _)
    · exact hkeep (by simp) (hI.halted _ _ ht₀ hp)
  · exact hkeep hnr (hI.halted _ _ ht₀ hp)

omit hlibc hrun in
/-- Nobody writes while the startup reads, so the sink still holds the content that was read. -/
theorem Inv.reading_step (hs : (miner cfg libc machineId).Step c l c')
    (hready : c'.world.ready = false) (t : Thread sig Outcome) (ht : c'.pool .main = some t)
    (content : Bytes) (hread : (⟨.readSink, .bytes content⟩ : Event sig) ∈ t.hist)
    (hno : (⟨.archiveSink, ()⟩ : Event sig) ∉ t.hist) : c'.world.sink = some content := by
  rcases hs.thread ht with ⟨k, -, -, rfl⟩ | ⟨h, o, k, a, x, rfl, ht₀, -, rfl⟩ |
    ⟨ht₀, hnr, hnd⟩
  · cases hread
  · obtain ⟨i', e, x', hl, he, hmain⟩ | ⟨hno', -⟩ := step_disk hs
    swap
    · exact absurd rfl (hno' _ _)
    cases hl
    have hno₀ : (⟨.archiveSink, ()⟩ : Event sig) ∉ h :=
      fun hmem => hno (List.mem_cons_of_mem _ hmem)
    -- the main thread does not write
    have hsame : c'.world.sink = c.world.sink := by
      rcases execOp_sink he with hsame | ⟨ho, -⟩ | ⟨data, n, hev, -⟩ | ⟨ho, -⟩
      · exact hsame
      · dsimp only at ho
        subst ho
        exact absurd rfl (hI.paths _ _ ht₀).1
      · cases hev
        obtain ⟨⟨m, hm⟩, -⟩ := (hI.paths _ _ ht₀).1
        cases hm
      · dsimp only at ho
        subst ho
        exact absurd List.mem_cons_self hno
    rw [hsame]
    rcases List.mem_cons.mp hread with heq | hread
    · cases heq
      exact execOp_readSink he
    · exact hI.reading (hmain.mp rfl) _ ht₀ content hread hno₀
  · rcases step_disk hs with ⟨i, e, x, rfl, he, hmain⟩ | ⟨-, -, hsink, -, hboot⟩
    · -- the others run after the startup
      have hi : i ≠ .main := by
        rintro rfl
        exact hnd e rfl
      have hready₀ : c.world.ready = true := by
        rw [← Bool.not_eq_false]
        exact fun hfalse => hi (hmain.mpr hfalse)
      rw [(execOp_flags he).1 hready₀] at hready
      cases hready
    · rw [hsink]
      rcases hboot with rfl | hsame
      · exact absurd rfl hnr
      · exact hI.reading (hsame.1 ▸ hready) _ ht₀ content hread hno

omit hrun in
/-- Every row of the journal was tried by a capture. -/
theorem Inv.rows_step (hs : (miner cfg libc machineId).Step c l c') :
    ∀ r ∈ c'.world.core.journal.rows,
      ∃ p, Tried (tr ++ [(c, l)]) p ∧ r.payload = Journal.stored p := by
  have hold : ∀ r' : FindRecord, (∃ r ∈ c.world.core.journal.rows, r'.payload = r.payload) →
      ∃ p, Tried (tr ++ [(c, l)]) p ∧ r'.payload = Journal.stored p := by
    intro r' hr
    obtain ⟨r, hmem, hp⟩ := hr
    obtain ⟨p, htried, hstored⟩ := hI.rows r hmem
    exact ⟨p, htried.append, hp.trans hstored⟩
  intro r' hr
  rcases step_disk hs with ⟨i, ⟨o, a⟩, x, rfl, he, hmain⟩ | ⟨-, hj, -⟩
  · obtain ⟨h, k, -, ht, -, -⟩ := hs.did
    rcases (execOp_journal he).2 r' hr with hr | ⟨p, ho, hstored⟩
    · exact hold r' hr
    · dsimp only at ho
      subst ho
      rcases (hI.paths _ _ ht).1 with ⟨⟨n, rfl⟩, -⟩ |
          ⟨rfl, hno, content, hread, hrecord⟩
      · exact ⟨p, ⟨c, n, a, List.mem_append_right _ (List.mem_singleton.mpr rfl)⟩, hstored⟩
      · -- a record of the sink came from a mining thread
        have hcontent := hI.reading (hmain.mp rfl) _ ht content hread hno
        obtain ⟨ps, q, hlaid⟩ := hI.laid
        rw [hcontent] at hlaid
        exact ⟨p, (hlaid.tried_of_mem hlibc hI.finite hrecord).append, hstored⟩
  · rw [hj] at hr
    exact hold r' ⟨r', hr, rfl⟩

/-- Every find that was reported kept is in the journal or in the sink. -/
theorem Inv.reported_step (hsolid : Solid (c, l)) (hs : (miner cfg libc machineId).Step c l c') :
    ∀ p ∈ c'.world.reported, Safe libc c'.world p := by
  intro p hp
  rcases step_disk hs with ⟨i, ⟨o, a⟩, x, rfl, he, -⟩ | ⟨-, -, -, hrep, -⟩
  · obtain ⟨h, k, -, ht, -, -⟩ := hs.did
    rcases execOp_reported he with hsame | ⟨p', ho, hmore⟩
    · exact hI.safe_step hlibc hrun hsolid hs (hI.reported p (hsame ▸ hp))
    · rw [hmore] at hp
      rcases List.mem_append.mp hp with hp | hp
      · exact hI.safe_step hlibc hrun hsolid hs (hI.reported p hp)
      · dsimp only at ho
        subst ho
        rw [List.mem_singleton.mp hp]
        obtain ⟨⟨n, rfl⟩, hcaptured⟩ := (hI.paths _ _ ht).1
        refine hI.safe_step hlibc hrun hsolid hs ?_
        rcases hcaptured with ⟨id, hid⟩ | ⟨hnone, hw⟩
        · exact Or.inl (hI.journaled _ _ ht p' id hid)
        · exact hI.lines _ _ ht p' hnone hw
  · exact hI.safe_step hlibc hrun hsolid hs (hI.reported p (hrep ▸ hp))

/-- The invariant survives every step. -/
theorem Inv.step (hsolid : Solid (c, l)) (hfin : finiteRate l = true)
    (hs : (miner cfg libc machineId).Step c l c') : Inv libc (tr ++ [(c, l)]) c' where
  paths := hI.paths.step hs (fun _ _ _ _ _ _ => trivial) bodies_along
  finite := hI.finite_step hfin
  laid := hI.laid_step hlibc hrun hsolid hs
  journaled := hI.journaled_step hs
  lines := hI.lines_step hlibc hrun hsolid hs
  reading := hI.reading_step hs
  rows := hI.rows_step hlibc hs
  reported := hI.reported_step hlibc hrun hsolid hs
  halted := hI.halted_step hs

end

/-! ## Runs -/

/-- Nothing has run yet. -/
theorem inv_start : Inv libc [] (start cfg) where
  paths := fun i t ht => by cases ht
  finite := fun p hp => by
    obtain ⟨c, n, a, hmem⟩ := hp
    cases hmem
  laid := ⟨[], [], rfl, by simp, Or.inl rfl⟩
  journaled := fun i t ht => by cases ht
  lines := fun n t ht => by cases ht
  reading := fun _ t ht => by cases ht
  rows := fun r hr => by cases hr
  reported := fun p hp => by cases hp
  halted := fun i t ht => by cases ht

/-- What the finds depend on: writes are solid and rates are numbers. -/
def Sound (x : Configuration × Label sig Party Call) : Prop := Solid x ∧ finiteRate x.2 = true

/-- From one step to a whole run, restarts included. -/
theorem inv_run (hlibc : libc.Standard) (hrun : Run (miner cfg libc machineId) (start cfg) tr c)
    (hsound : ∀ x ∈ tr, Sound x) : Inv libc tr c :=
  hrun.invariant (I := Inv libc) (G := fun _ x => Sound x)
    (fun _ _ _ _ hr hI hG hs => hI.step hlibc hr hG.1 hG.2 hs) inv_start (Each.of_forall hsound)

/-- A find that was kept stays kept as the run goes on. -/
theorem safe_run (hlibc : libc.Standard) {tr₁ tr₂ : Trace} {c₁ c₂ : Configuration}
    (h₁ : Run (miner cfg libc machineId) (start cfg) tr₁ c₁)
    (h₂ : Run (miner cfg libc machineId) c₁ tr₂ c₂)
    (hsound : ∀ x ∈ tr₁ ++ tr₂, Sound x)
    {p : FoundPayload} (hp : Safe libc c₁.world p) : Safe libc c₂.world p := by
  induction h₂ with
  | nil => exact hp
  | @snoc c c' tr₂ l hrun hstep ih =>
    have hold : ∀ x ∈ tr₁ ++ tr₂, Sound x := by
      intro x hx
      refine hsound x ?_
      rw [← List.append_assoc]
      exact List.mem_append_left _ hx
    have hlast : Sound (c, l) := hsound _ (by simp)
    have hall := h₁.append hrun
    exact (inv_run hlibc hall hold).safe_step hlibc hall hlast.1 hstep (ih hold)

/-- Whatever fails, and whenever the process ends and starts again: a find that the callback
journaled or wrote to the sink has from then on a row in the journal or a whole line in the
sink; so has every find the platform was told of; and a find that went nowhere halts the
process. -/
theorem captured_find_kept (hlibc : libc.Standard) {tr₁ tr₂ : Trace} {c₁ c₂ : Configuration}
    (h₁ : Run (miner cfg libc machineId) (start cfg) tr₁ c₁)
    (h₂ : Run (miner cfg libc machineId) c₁ tr₂ c₂)
    (hsound : ∀ x ∈ tr₁ ++ tr₂, Sound x) (n : Nat) :
    (∀ p id, outcome c₁ (.miner n) = some (.journaled p id) → Safe libc c₂.world p) ∧
    (∀ p, outcome c₁ (.miner n) = some (.sunk p) → Safe libc c₂.world p) ∧
    (∀ p, outcome c₁ (.miner n) = some (.lost p) → c₁.world.fatal = true) ∧
    (∀ p ∈ c₂.world.reported, Safe libc c₂.world p) := by
  have hI := inv_run hlibc h₁ fun x hx => hsound x (List.mem_append_left _ hx)
  -- what a thread has returned is what its history supports
  have hend : ∀ {o}, outcome c₁ (.miner n) = some o →
      ∃ t, c₁.pool (.miner n) = some t ∧ Ends libc t.hist o := by
    intro o ho
    unfold outcome at ho
    split at ho
    next h o' ht =>
      cases ho
      exact ⟨_, ht, hI.paths _ _ ht⟩
    · cases ho
  refine ⟨?_, ?_, ?_, (inv_run hlibc (h₁.append h₂) hsound).reported⟩
  · intro p id ho
    obtain ⟨t, ht, hid⟩ := hend ho
    exact safe_run hlibc h₁ h₂ hsound (Or.inl (hI.journaled _ _ ht p id hid))
  · intro p ho
    obtain ⟨t, ht, hnone, hw⟩ := hend ho
    exact safe_run hlibc h₁ h₂ hsound (hI.lines _ _ ht p hnone hw)
  · intro p ho
    obtain ⟨t, ht, hlost⟩ := hend ho
    exact hI.halted _ _ ht hlost

/-- The journal holds nothing that no mining thread has found. -/
theorem journaled_find_tried (hlibc : libc.Standard)
    (hrun : Run (miner cfg libc machineId) (start cfg) tr c) (hsound : ∀ x ∈ tr, Sound x) :
    ∀ r ∈ c.world.core.journal.rows, ∃ p, Tried tr p ∧ r.payload = Journal.stored p :=
  (inv_run hlibc hrun hsound).rows

/-! ## Writes of all or nothing -/

/-- A write to the sink that succeeds writes all it was given, or nothing. -/
def wholeWrite : Label sig Party Call → Bool
  | .did _ ⟨.writeSink data, some n⟩ => n == 0 || data.length ≤ n
  | _ => true

/-- The sink holds whole lines, and a call has written its line or nothing. -/
structure Whole (libc : Libc) (c : Configuration) : Prop where
  clean : EndsClean (c.world.sink.getD [])
  calls : ∀ i t, c.pool i = some t → written t.hist = [] ∨
    ∃ p, written t.hist = serialize libc p

/-- Along a run every thread is on its program. -/
theorem along_run (hrun : Run (miner cfg libc machineId) (start cfg) tr c) :
    c.Along (fun _ _ => True) (Asks libc) fun _ => Ends libc :=
  hrun.along (fun _ _ _ _ _ _ _ _ => trivial) bodies_along (Conf.along_of_empty fun _ => rfl)

/-- Then a call that asks for a write has written nothing. -/
theorem Whole.written_nil (hlibc : libc.Standard) (hW : Whole libc c)
    (hrun : Run (miner cfg libc machineId) (start cfg) tr c) {i : Party} {h : History}
    {data : Bytes} {k : Option Nat → Prog sig Outcome}
    (ht : c.pool i = some ⟨h, .op (.writeSink data) k⟩) :
    written h = [] ∧ ∃ p, data = serialize libc p := by
  obtain ⟨-, hne, p, -, hline⟩ := (along_run hrun i _ ht).1
  rcases hW.calls i _ ht with hnil | ⟨p', hall⟩
  · have hnil' : written h = [] := hnil
    rw [hnil', List.nil_append] at hline
    exact ⟨hnil', p, hline⟩
  · -- behind a whole line nothing of the line is left
    exfalso
    have hall' : written h = serialize libc p' := hall
    rw [hall', serialize_eq, serialize_eq] at hline
    have hnl : nl ∈ body libc p' ++ [nl] := List.mem_append_right _ (List.mem_singleton.mpr rfl)
    rcases prefix_line (⟨data, hline⟩ : body libc p' ++ [nl] <+: body libc p ++ [nl]) with
      hbody | hsame
    · exact nl_not_mem_piece hlibc hbody hnl
    · rw [hsame] at hline
      exact hne (List.append_right_eq_self.mp hline)

/-- While writes are whole the sink has no piece of a line at its end. -/
theorem Whole.step (hlibc : libc.Standard) (hW : Whole libc c)
    (hrun : Run (miner cfg libc machineId) (start cfg) tr c) (hwhole : wholeWrite l = true)
    (hs : (miner cfg libc machineId).Step c l c') : Whole libc c' := by
  -- a write writes nothing or a line
  have hwrite : ∀ {i : Party} {h : History} {data : Bytes} {n : Nat}
      {k : Option Nat → Prog sig Outcome}, l = .did i ⟨.writeSink data, some n⟩ →
      c.pool i = some ⟨h, .op (.writeSink data) k⟩ →
      written h = [] ∧ (data.take n = [] ∨ ∃ p, data.take n = serialize libc p) := by
    intro i h data n k hl ht
    obtain ⟨hnil, p, hp⟩ := hW.written_nil hlibc hrun ht
    refine ⟨hnil, ?_⟩
    rw [hl] at hwhole
    simp only [wholeWrite, Bool.or_eq_true, beq_iff_eq, decide_eq_true_eq] at hwhole
    rcases hwhole with rfl | hlen
    · exact Or.inl rfl
    · rw [List.take_of_length_le hlen]
      exact Or.inr ⟨p, hp⟩
  constructor
  · rcases step_disk hs with ⟨i, ⟨o, a⟩, x, rfl, he, -⟩ | ⟨-, -, hsink, -⟩
    · obtain ⟨h, k, -, ht, -, -⟩ := hs.did
      rcases execOp_sink he with hsame | ⟨-, hopen⟩ | ⟨data, n, hev, hw⟩ | ⟨-, hgone⟩
      · rw [hsame]
        exact hW.clean
      · rw [hopen]
        exact hW.clean
      · cases hev
        rw [hw]
        show EndsClean (c.world.sink.getD [] ++ data.take n)
        rcases (hwrite rfl ht).2 with hnil | ⟨p, hp⟩
        · rw [hnil, List.append_nil]
          exact hW.clean
        · refine Or.inr ?_
          rw [hp, serialize_eq, ← List.append_assoc,
            List.getLast?_append_of_ne_nil _ (List.cons_ne_nil _ _)]
          rfl
      · rw [hgone]
        exact Or.inl rfl
    · rw [hsink]
      exact hW.clean
  · intro i t ht
    rcases hs.thread ht with ⟨k, -, -, rfl⟩ | ⟨h, o, k, a, x, rfl, ht₀, -, rfl⟩ |
        ⟨ht₀, -⟩
    · exact Or.inl rfl
    · by_cases hby : writtenBy (⟨o, a⟩ : Event sig) = []
      · rw [written_skip hby]
        exact hW.calls i _ ht₀
      · obtain ⟨data, n, rfl, ha⟩ := writtenBy_ne_nil hby
        cases ha
        obtain ⟨hnil, hpiece⟩ := hwrite rfl ht₀
        have hw : written ((⟨.writeSink data, some n⟩ : Event sig) :: h) = data.take n := by
          show written h ++ data.take n = _
          rw [hnil, List.nil_append]
        dsimp only
        rw [hw]
        exact hpiece
    · exact hW.calls i _ ht₀

/-- Where every write to the sink writes all or nothing, every write is solid. -/
theorem solid_of_whole (hlibc : libc.Standard)
    (hrun : Run (miner cfg libc machineId) (start cfg) tr c)
    (hwhole : ∀ x ∈ tr, wholeWrite x.2 = true) : ∀ x ∈ tr, Solid x := by
  intro x hx i data a h k hl ht
  obtain ⟨tr₁, tr₂, rfl⟩ := List.append_of_mem hx
  obtain ⟨c₁, l₁⟩ := x
  obtain ⟨c₂, hr₁, hs, -⟩ := hrun.split rfl
  have hW : Whole libc c₁ := by
    refine hr₁.invariant (I := fun _ => Whole libc) (G := fun _ x => wholeWrite x.2 = true)
      (fun _ _ _ _ hr hW hG hs => hW.step hlibc hr hG hs)
      ⟨Or.inl rfl, fun i t ht => by cases ht⟩ (Each.of_forall fun y hy => ?_)
    exact hwhole y (List.mem_append_left _ hy)
  dsimp only at hl
  subst hl
  obtain ⟨h', k', -, ht', -, -⟩ := hs.did
  rw [ht] at ht'
  cases ht'
  obtain ⟨hnil, -⟩ := hW.written_nil hlibc hr₁ ht
  exact ⟨_, by rw [hnil, List.append_nil], hW.clean⟩

end Invariant

section Samples

def sampleCall : Gpu.SubmitCall := ⟨lit "ab", lit "k1", lit "XEN11", 8, 5, lit "GPU"⟩

/-- What the callback makes of it in the first millisecond of 1970. -/
def sampleCapture : FoundPayload :=
  foundPayload (lit "rig") sampleCall ⟨0x3FF0000000000000⟩ 0
    (lit "$argon2id$v=19$m=8,t=1,p=1$qw$XEN11")

/-- The journal throws and the line goes to the sink. -/
def sampleSunk : List (Choice Party Input Call) :=
  [.start .main .startup, .act .main .works, .act .main .works, .act .main .works,
    .start (.miner 0) (.submitCallback sampleCall ⟨0x3FF0000000000000⟩),
    .act (.miner 0) (.core (.time 0)), .act (.miner 0) .fails, .act (.miner 0) .works,
    .act (.miner 0) (.wrote (serialize sampleLibc sampleCapture).length), .act (.miner 0) .works,
    .act (.miner 0) .works, .act (.miner 0) .works]

/-- The next start imports it. -/
def sampleImport : List (Choice Party Input Call) :=
  [.restart, .start .main .startup, .act .main .works, .act .main .works,
    .act .main (.files true true), .act .main .works, .act .main .works]

abbrev sampleMiner : Machine sig World Party Input Call Outcome :=
  miner {} sampleLibc (lit "rig")

def sampleFirst : Option (Trace × Configuration) := sampleMiner.replay (start {}) sampleSunk

theorem sampleFirst_isSome : sampleFirst.isSome = true := by decide +kernel

def sampleSecond : Option (Trace × Configuration) :=
  sampleMiner.replay (sampleFirst.get sampleFirst_isSome).2 sampleImport

theorem sampleSecond_isSome : sampleSecond.isSome = true := by decide +kernel

/-- Every step of the sample run meets the condition. -/
theorem sample_sound (hrun : Run sampleMiner (start {}) ((sampleFirst.get sampleFirst_isSome).1 ++
    (sampleSecond.get sampleSecond_isSome).1) (sampleSecond.get sampleSecond_isSome).2) :
    ∀ x ∈ (sampleFirst.get sampleFirst_isSome).1 ++ (sampleSecond.get sampleSecond_isSome).1,
      Sound x := by
  have hwhole : ((sampleFirst.get sampleFirst_isSome).1 ++
      (sampleSecond.get sampleSecond_isSome).1).all
        (fun x => wholeWrite x.2 && finiteRate x.2) = true := by decide +kernel
  rw [List.all_eq_true] at hwhole
  simp only [Bool.and_eq_true] at hwhole
  have hsolid := solid_of_whole sampleLibc_standard hrun fun x hx => (hwhole x hx).1
  exact fun x hx => ⟨hsolid x hx, (hwhole x hx).2⟩

/-- A find goes to the sink, the process starts again, and the archived line is in the journal. -/
theorem captured_find_kept_imported :
    ∃ tr₁ tr₂ c₁ c₂, Run sampleMiner (start {}) tr₁ c₁ ∧
      Run sampleMiner c₁ tr₂ c₂ ∧
      outcome c₁ (.miner 0) = some (.sunk sampleCapture) ∧ c₂.world.sink = none ∧
      Safe sampleLibc c₂.world sampleCapture := by
  have h₁ := Machine.replay_get (M := sampleMiner) sampleFirst_isSome
  have h₂ := Machine.replay_get (M := sampleMiner) sampleSecond_isSome
  have hsunk : outcome (sampleFirst.get sampleFirst_isSome).2 (.miner 0) =
      some (.sunk sampleCapture) := by decide +kernel
  have hkept := captured_find_kept sampleLibc_standard h₁ h₂ (sample_sound (h₁.append h₂)) 0
  exact ⟨_, _, _, _, h₁, h₂, hsunk, by decide +kernel, hkept.2.1 _ hsunk⟩

/-- The row of that run was found by its mining thread. -/
theorem journaled_find_tried_imported :
    ∃ tr c, Run sampleMiner (start {}) tr c ∧ c.world.core.journal.rows.length = 1 ∧
      ∀ r ∈ c.world.core.journal.rows, ∃ p, Tried tr p ∧ r.payload = Journal.stored p := by
  have hrun := (Machine.replay_get (M := sampleMiner) sampleFirst_isSome).append
    (Machine.replay_get (M := sampleMiner) sampleSecond_isSome)
  exact ⟨_, _, hrun, by decide +kernel,
    journaled_find_tried sampleLibc_standard hrun (sample_sound hrun)⟩

end Samples

end TreeMiner.Miner
