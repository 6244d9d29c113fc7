import Mathlib.Algebra.Ring.Nat
import Mathlib.Logic.Function.Basic
import Mathlib.Data.Fintype.Basic
import Mathlib.Tactic.FinCases

/-!
# Argon2id, one pass and one lane (RFC 9106)

The memory of Argon2 after its first pass, for parallelism 1: the compression function
`G` (`compress`), the address blocks of data-independent addressing, the choice of the
reference block, and the filling of `4 * q` blocks from the first two.

A block is 1024 bytes, taken as 128 little-endian words. The permutation `P` works on 16
words that stand for eight 16-byte registers; it is stated over any mixing function, since
how it moves words does not depend on what is mixed.
-/

namespace Argon2

/-! ## The permutation -/

/-- Four words that are mixed together. -/
@[ext] structure Quad (α : Type) where
  a : α
  b : α
  c : α
  d : α

/-- Mix four words of a vector in place. -/
def mix {α : Type} {n : Nat} (g : Quad α → Quad α) (v : Fin n → α) (i j k l : Fin n) :
    Fin n → α :=
  let q := g ⟨v i, v j, v k, v l⟩
  Function.update (Function.update (Function.update (Function.update v i q.a) j q.b) k q.c) l q.d

/-- `P`: the columns, then the diagonals of a 4 by 4 matrix of words. -/
def P {α : Type} (g : Quad α → Quad α) (v : Fin 16 → α) : Fin 16 → α :=
  let v := mix g v 0 4 8 12
  let v := mix g v 1 5 9 13
  let v := mix g v 2 6 10 14
  let v := mix g v 3 7 11 15
  let v := mix g v 0 5 10 15
  let v := mix g v 1 6 11 12
  let v := mix g v 2 7 8 13
  mix g v 3 4 9 14

/-- The columns of the matrix. -/
def columns {α : Type} (v : Fin 16 → α) (l : Fin 4) : Quad α :=
  ⟨v ⟨l, by omega⟩, v ⟨4 + l, by omega⟩, v ⟨8 + l, by omega⟩,
    v ⟨12 + l, by omega⟩⟩

/-- Turn the rows so that diagonals become columns. -/
def diagonals {α : Type} (q : Fin 4 → Quad α) (l : Fin 4) : Quad α :=
  ⟨(q l).a, (q (l + 1)).b, (q (l + 2)).c, (q (l + 3)).d⟩

/-- Turn them back. -/
def undiagonals {α : Type} (q : Fin 4 → Quad α) (l : Fin 4) : Quad α :=
  ⟨(q l).a, (q (l + 3)).b, (q (l + 2)).c, (q (l + 1)).d⟩

/-- `P` works on the four columns at once, and then on the four diagonals. -/
theorem columns_P {α : Type} (g : Quad α → Quad α) (v : Fin 16 → α) :
    columns (P g v) = undiagonals fun l => g (diagonals (fun l => g (columns v l)) l) := by
  funext l
  fin_cases l <;> rfl

/-! ## The compression function -/

abbrev Block := Fin 128 → UInt64

/-- The lower half of a word. -/
def trunc (x : UInt64) : UInt64 := x &&& 0xFFFFFFFF

def rotr (x : UInt64) (n : UInt64) : UInt64 := (x >>> n) ||| (x <<< (64 - n))

/-- The multiplication-hardened addition of `GB`. -/
def addMul (x y : UInt64) : UInt64 := x + y + 2 * trunc x * trunc y

/-- `GB`. -/
def GB (q : Quad UInt64) : Quad UInt64 :=
  let ⟨a, b, c, d⟩ := q
  let a := addMul a b
  let d := rotr (d ^^^ a) 32
  let c := addMul c d
  let b := rotr (b ^^^ c) 24
  let a := addMul a b
  let d := rotr (d ^^^ a) 16
  let c := addMul c d
  let b := rotr (b ^^^ c) 63
  ⟨a, b, c, d⟩

section Rounds

variable {α : Type}

/-- The words of row `i` of the 8 by 8 matrix of registers. -/
def row (v : Fin 128 → α) (i : Fin 8) (m : Fin 16) : α := v ⟨16 * i + m, by omega⟩

/-- The words of column `i`. -/
def column (v : Fin 128 → α) (i : Fin 8) (m : Fin 16) : α :=
  v ⟨2 * i + 16 * (m / 2) + m % 2, by omega⟩

/-- `P` on every row. -/
def rowRound (g : Quad α → Quad α) (v : Fin 128 → α) (w : Fin 128) : α :=
  P g (row v ⟨w / 16, by omega⟩) ⟨w % 16, by omega⟩

/-- `P` on every column. -/
def columnRound (g : Quad α → Quad α) (v : Fin 128 → α) (w : Fin 128) : α :=
  P g (column v ⟨w % 16 / 2, by omega⟩) ⟨2 * (w / 16) + w % 2, by omega⟩

end Rounds

/-- The permutation of a block. -/
def permute (r : Block) : Block := columnRound GB (rowRound GB r)

/-- `G`. -/
def compress (x y : Block) : Block :=
  let r : Block := fun w => x w ^^^ y w
  fun w => permute r w ^^^ r w

/-! ## Which block to refer to -/

def zero : Block := fun _ => 0

/-- The input of address generation: pass 0, lane 0, the slice, the number of blocks, one
pass, Argon2id, and the counter. -/
def addressInput (slice blocks counter : Nat) : Block
  | 2 => UInt64.ofNat slice
  | 3 => UInt64.ofNat blocks
  | 4 => 1
  | 5 => 2
  | 6 => UInt64.ofNat counter
  | _ => 0

/-- An address block: 128 pseudo-random values. -/
def addressBlock (slice blocks counter : Nat) : Block :=
  compress zero (compress zero (addressInput slice blocks counter))

theorem word_lt (i : Nat) : i % 128 < 128 := Nat.mod_lt i (by decide)

/-- The value `J₁` for a block: from the address blocks in the first two slices, from the
block before it in the others. -/
def pseudoRandom (q slice offset : Nat) (prev : Block) : Nat :=
  if slice < 2 then
    (addressBlock slice (4 * q) (offset / 128 + 1) ⟨offset % 128, word_lt offset⟩).toNat
      % 2 ^ 32
  else (prev 0).toNat % 2 ^ 32

/-- The blocks of the first pass that may be referred to: everything before, but the last. -/
def referenceArea (q slice offset : Nat) : Nat := slice * q + offset - 1

/-- The block that `J₁` stands for. -/
def referenceIndex (area j₁ : Nat) : Nat :=
  let x := j₁ * j₁ / 2 ^ 32
  let y := area * x / 2 ^ 32
  area - 1 - y

/-- The index of a reference lies in the area it is taken from. -/
theorem referenceIndex_lt {area j₁ : Nat} (ha : 0 < area) : referenceIndex area j₁ < area := by
  unfold referenceIndex
  dsimp only
  omega

/-! ## Filling the memory -/

/-- The reference of block `j` of `4 * q`. -/
def reference (q : Nat) (mem : Nat → Block) (j : Nat) : Nat :=
  referenceIndex (referenceArea q (j / q) (j % q)) (pseudoRandom q (j / q) (j % q) (mem (j - 1)))

/-- Compute block `j`. -/
def fillBlock (q : Nat) (mem : Nat → Block) (j : Nat) : Nat → Block :=
  Function.update mem j (compress (mem (j - 1)) (mem (reference q mem j)))

/-- Compute `n` blocks, from the third on. -/
def fill (q : Nat) (mem : Nat → Block) : Nat → (Nat → Block)
  | 0 => mem
  | n + 1 => fillBlock q (fill q mem n) (n + 2)

/-- The memory of Argon2id after one pass with one lane of `4 * q` blocks. -/
def argon2id (q : Nat) (mem : Nat → Block) : Nat → Block := fill q mem (4 * q - 2)

/-- A memory with its first two blocks. -/
def start (b₀ b₁ : Block) : Nat → Block
  | 0 => b₀
  | 1 => b₁
  | _ => zero

/-- A block refers to one before the block in front of it, so that it never reads what is not yet
written. -/
theorem reference_lt (q : Nat) (mem : Nat → Block) {j : Nat} (hj : 2 ≤ j) :
    reference q mem j < j - 1 := by
  have harea : referenceArea q (j / q) (j % q) = j - 1 := by
    unfold referenceArea
    rw [Nat.div_add_mod']
  unfold reference
  rw [harea]
  exact referenceIndex_lt (by omega)

/-- The blocks computed depend on the first two alone. -/
theorem fill_congr (q : Nat) {mem mem' : Nat → Block} (h : ∀ k, k < 2 → mem k = mem' k)
    (n : Nat) :
    ∀ k, k < n + 2 → fill q mem n k = fill q mem' n k := by
  induction n with
  | zero => exact h
  | succ n ih =>
    intro k hk
    have hprev : fill q mem n (n + 1) = fill q mem' n (n + 1) := ih _ (by omega)
    have href : reference q (fill q mem n) (n + 2) = reference q (fill q mem' n) (n + 2) := by
      unfold reference
      rw [show n + 2 - 1 = n + 1 from rfl, hprev]
    have hlt := reference_lt q (fill q mem n) (j := n + 2) (by omega)
    show fillBlock q (fill q mem n) (n + 2) k = fillBlock q (fill q mem' n) (n + 2) k
    unfold fillBlock
    by_cases hkn : k = n + 2
    · rw [hkn, Function.update_self, Function.update_self, ← href,
        show n + 2 - 1 = n + 1 from rfl, hprev, ih _ (by omega)]
    · rw [Function.update_of_ne hkn, Function.update_of_ne hkn]
      exact ih k (by omega)

/-- The filled lane depends on its two first blocks only. -/
theorem argon2id_start {q : Nat} (hq : 2 ≤ q) (mem : Nat → Block) {k : Nat} (hk : k < 4 * q) :
    argon2id q mem k = argon2id q (start (mem 0) (mem 1)) k := by
  refine fill_congr q (fun k hk => ?_) (4 * q - 2) k (by omega)
  match k with
  | 0 => rfl
  | 1 => rfl

end Argon2
