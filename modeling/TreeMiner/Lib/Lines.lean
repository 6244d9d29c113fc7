import TreeMiner.Lib.Bytes

/-!
# Lines of a byte string

How a text file is read line by line: `std::getline` and Rust's `lines` cut at
every newline and hand out a last line without one unless it is empty.

A line is ended by its break and not by the end of the file, so that a whole line
behind a content is a line of its own only if the content ends with a break; otherwise
it is glued to the last piece. Both facts are what a log that is written in pieces
depends on.
-/

namespace Cxx

/-- The newline. -/
abbrev nl : UInt8 := 10

/-- The lines of a file, without their newlines. -/
def lines : Bytes → List Bytes
  | [] => []
  | c :: s =>
    if c = nl then [] :: lines s
    else match lines s with
      | [] => [[c]]
      | l :: ls => (c :: l) :: ls

variable {l s : Bytes}

/-- The lines that are read before a read fails behind these bytes: the line at which it fails is
dropped. -/
def linesBefore (read : Bytes) : List Bytes := lines (read.reverse.dropWhile (· ≠ nl)).reverse

/-- A line with its newline is cut off. -/
theorem lines_append_nl (h : nl ∉ l) : lines (l ++ nl :: s) = l :: lines s := by
  induction l with
  | nil =>
    show lines (nl :: s) = [] :: lines s
    rw [lines, if_pos rfl]
  | cons c l ih =>
    have hc : c ≠ nl := fun hc => h (hc ▸ List.mem_cons_self)
    have hl : nl ∉ l := fun hl => h (List.mem_cons_of_mem _ hl)
    rw [List.cons_append, lines, if_neg hc, ih hl]

/-- The first newline cuts a text in one way. -/
theorem cut_at_nl :
    ∀ {l l' s s' : Bytes}, nl ∉ l → nl ∉ l' → l ++ nl :: s = l' ++ nl :: s' →
    l = l' ∧ s = s'
  | [], [], _, _, _, _, h => ⟨rfl, (List.cons.inj h).2⟩
  | [], c :: _, _, _, _, hl', h => absurd ((List.cons.inj h).1 ▸ List.mem_cons_self) hl'
  | c :: _, [], _, _, hl, _, h => absurd ((List.cons.inj h).1 ▸ List.mem_cons_self) hl
  | c :: l, c' :: l', s, s', hl, hl', h => by
    obtain ⟨hc, ht⟩ := List.cons.inj h
    have htail := cut_at_nl (fun hm => hl (List.mem_cons_of_mem _ hm))
      (fun hm => hl' (List.mem_cons_of_mem _ hm)) ht
    exact ⟨by rw [hc, htail.1], htail.2⟩

/-- What follows the last newline is a line unless it is empty. -/
theorem lines_last (h : nl ∉ l) (hne : l ≠ []) : lines l = [l] := by
  induction l with
  | nil => exact absurd rfl hne
  | cons c l ih =>
    have hc : c ≠ nl := fun hc => h (hc ▸ List.mem_cons_self)
    have hl : nl ∉ l := fun hl => h (List.mem_cons_of_mem _ hl)
    rw [lines, if_neg hc]
    by_cases hn : l = []
    · rw [hn, lines]
    · rw [ih hl hn]

/-- A content that is not empty has a line. -/
theorem lines_ne_nil (hs : s ≠ []) : lines s ≠ [] := by
  cases s with
  | nil => exact absurd rfl hs
  | cons c s =>
    unfold lines
    split
    · exact List.cons_ne_nil _ _
    · split <;> exact List.cons_ne_nil _ _

/-- Behind a newline the lines begin anew. -/
theorem lines_append_after_nl (q s : Bytes) :
    lines (q ++ nl :: s) = lines (q ++ [nl]) ++ lines s := by
  induction q with
  | nil => rfl
  | cons c q ih =>
    obtain ⟨l, ls, hq⟩ := List.exists_cons_of_ne_nil (lines_ne_nil (s := q ++ [nl]) (by simp))
    rw [List.cons_append, List.cons_append, lines, lines, ih, hq]
    split
    · rfl
    · rfl

/-- What is read before a failure is a beginning of the file's lines. -/
theorem linesBefore_prefix (content : Bytes) (n : Nat) :
    linesBefore (content.take n) <+: lines content := by
  have hcut : (content.take n).reverse.takeWhile (· ≠ nl) ++
      (content.take n).reverse.dropWhile (· ≠ nl) = (content.take n).reverse :=
    List.takeWhile_append_dropWhile
  obtain ⟨rest, hrest⟩ : ∃ rest, content =
      ((content.take n).reverse.dropWhile (· ≠ nl)).reverse ++ rest := by
    refine ⟨((content.take n).reverse.takeWhile (· ≠ nl)).reverse ++ content.drop n, ?_⟩
    rw [← List.append_assoc, ← List.reverse_append, hcut, List.reverse_reverse,
      List.take_append_drop]
  unfold linesBefore
  cases hq : (content.take n).reverse.dropWhile (· ≠ nl) with
  | nil => exact List.nil_prefix
  | cons c q =>
    -- what is kept ends with a newline
    have hc : c = nl := by
      have hhead := List.head?_dropWhile_not (fun b : UInt8 => decide (b ≠ nl))
        (content.take n).reverse
      rw [hq] at hhead
      simpa using hhead
    rw [hq, List.reverse_cons, hc, List.append_assoc, List.singleton_append] at hrest
    rw [List.reverse_cons, hc, hrest]
    exact ⟨lines rest, (lines_append_after_nl _ _).symm⟩

/-- A file of whole lines and a rest without newline. -/
theorem lines_flatMap {α : Type} {f : α → Bytes} (hf : ∀ a, nl ∉ f a) (as : List α)
    (hs : nl ∉ s) :
    lines (as.flatMap (fun a => f a ++ [nl]) ++ s) = as.map f ++ if s = [] then [] else [s] := by
  induction as with
  | nil =>
    show lines s = _
    split
    next h => rw [h, lines]; rfl
    next h => exact lines_last hs h
  | cons a as ih =>
    rw [List.flatMap_cons, List.append_assoc, List.append_assoc, List.singleton_append,
      lines_append_nl (hf a), ih, List.map_cons, List.cons_append]

/-- What was written of `a ++ b` stops inside `a` or goes on into `b`. -/
theorem prefix_append_cases {q a b : Bytes} (h : q <+: a ++ b) :
    (∃ n < a.length, q = a.take n) ∨ ∃ q', q = a ++ q' ∧ q' <+: b := by
  by_cases hl : q.length < a.length
  · refine Or.inl ⟨q.length, hl, ?_⟩
    have hq : q <+: a := List.prefix_of_prefix_length_le h (List.prefix_append a b) (by omega)
    exact List.prefix_iff_eq_take.mp hq
  · have ha : a <+: q := List.prefix_of_prefix_length_le (List.prefix_append a b) h (by omega)
    obtain ⟨q', rfl⟩ := ha
    exact Or.inr ⟨q', rfl, (List.prefix_append_right_inj a).mp h⟩

/-- A prefix of one byte is nothing or that byte. -/
theorem prefix_singleton {q : Bytes} {c : UInt8} (h : q <+: [c]) : q = [] ∨ q = [c] := by
  rcases List.prefix_cons_iff.mp h with hnil | ⟨t, hq, ht⟩
  · exact Or.inl hnil
  · rw [List.prefix_nil.mp ht] at hq
    exact Or.inr hq

end Cxx
