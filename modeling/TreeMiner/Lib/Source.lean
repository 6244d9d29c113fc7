import TreeMiner.Lib.Bytes

/-!
# A byte stream read in pieces

Bytes on their way from a peer that then closes. A read waits until at least one has
arrived and takes what is there, up to a limit, so how a stream is cut into pieces is not
for the reader to say.

A stream is its bytes and the sizes in which they arrive. A reader that asks until it has
enough gets the same bytes under every such list of sizes, which is how a loop around
`recv` is shown not to depend on the network.
-/

namespace Cxx

/-- What is still to be read, and how many bytes beyond the first will have arrived at
each coming read. -/
structure Source where
  rest : Bytes
  arrived : Nat → Nat

namespace Source

/-- At most `n` bytes; none at the end. -/
def read (s : Source) (n : Nat) : Bytes × Source :=
  let m := min n (s.arrived 0 + 1)
  (s.rest.take m, ⟨s.rest.drop m, fun k => s.arrived (k + 1)⟩)

variable {s s' : Source} {n : Nat} {c : UInt8} {cs : Bytes}

/-- A read takes from the front. -/
theorem read_append (s : Source) (n : Nat) : (s.read n).1 ++ (s.read n).2.rest = s.rest :=
  List.take_append_drop ..

/-- A read gives no more bytes than asked for. -/
theorem read_length_le (s : Source) (n : Nat) : (s.read n).1.length ≤ n := by
  show (s.rest.take (min n (s.arrived 0 + 1))).length ≤ n
  rw [List.length_take]
  omega

/-- Only the end of the stream gives nothing. -/
theorem read_eq_nil (hn : 0 < n) : (s.read n).1 = [] ↔ s.rest = [] := by
  show s.rest.take (min n (s.arrived 0 + 1)) = [] ↔ s.rest = []
  rw [List.take_eq_nil_iff]
  exact or_iff_right (by omega)

/-- What a read that gives something has done. -/
theorem read_cons (h : s.read n = (c :: cs, s')) :
    s.rest = c :: cs ++ s'.rest ∧ cs.length + 1 ≤ n := by
  have happ := read_append s n
  have hlen := read_length_le s n
  rw [h] at happ hlen
  exact ⟨happ.symm, hlen⟩

/-- One byte at a time. -/
theorem read_one (hs : s.rest = c :: cs) : ∃ s', s.read 1 = ([c], s') ∧ s'.rest = cs := by
  have hmin : min 1 (s.arrived 0 + 1) = 1 := by omega
  refine ⟨⟨cs, fun k => s.arrived (k + 1)⟩, ?_, rfl⟩
  unfold read
  rw [hmin, hs]
  rfl

/-- What is left after some reads. -/
def after (s : Source) (n : Nat) : Nat → Source
  | 0 => s
  | k + 1 => (s.read n).2.after n k

/-- A read ends `p` bytes into the stream. -/
def EndsAt (s : Source) (n p : Nat) : Prop :=
  p ≤ s.rest.length ∧ ∃ k, (s.after n k).rest = s.rest.drop p

/-- Reading goes on where it was. -/
theorem after_length_le (s : Source) (n k : Nat) : (s.after n k).rest.length ≤ s.rest.length := by
  induction k generalizing s with
  | zero => exact Nat.le_refl _
  | succ k ih =>
    have h := congrArg List.length (read_append s n)
    rw [List.length_append] at h
    exact Nat.le_trans (ih (s.read n).2) (by omega)

/-- Reading on is reading from where the first read ended. -/
theorem after_add (s : Source) (n k j : Nat) : s.after n (k + j) = (s.after n k).after n j := by
  induction k generalizing s with
  | zero => rw [Nat.zero_add, after]
  | succ k ih => rw [Nat.succ_add, after, after, ih]

end Source

end Cxx
