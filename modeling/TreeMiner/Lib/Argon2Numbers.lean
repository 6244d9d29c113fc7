import Mathlib.Tactic.IntervalCases
import TreeMiner.Lib.Argon2Digest

/-!
# Argon2id by arithmetic

A string of bytes and a block are one number here, least significant byte first, and every step
is an operation on numbers.  The kernel can so compute the digest of a given password
(`digest_eq`).

The recursive definitions are good for proofs and slow to evaluate. So each of them is restated
on numbers, from the mixing of four words up to the filled lane, and each restatement is proved
equal to the definition; only at the very end the kernel is asked to evaluate one closed
number.
-/

namespace Numeral

open Argon2 Blake2

/-- Go on with the value of `n`: the kernel has it as a numeral before it goes on. -/
def force {β : Type} (n : Nat) (k : Nat → β) : β :=
  match n with
  | 0 => k 0
  | m + 1 => k (m + 1)

/-- The number with these words, the least significant one first. -/
def join : List Nat → Nat
  | [] => 0
  | w :: ws => w + 2 ^ 64 * join ws

/-- Word `i`. -/
def limb (n i : Nat) : Nat := n >>> (64 * i) % 2 ^ 64

def add (x y : Nat) : Nat := (x + y) % 2 ^ 64

def rotr (x n : Nat) : Nat := x >>> n ||| x <<< (64 - n) % 2 ^ 64

/-! ## Sixteen words in four columns -/

structure Columns where
  q₀ : Quad Nat
  q₁ : Quad Nat
  q₂ : Quad Nat
  q₃ : Quad Nat

namespace Columns

def of (q : Fin 4 → Quad Nat) : Columns :=
  ⟨q ⟨0, by decide⟩, q ⟨1, by decide⟩, q ⟨2, by decide⟩, q ⟨3, by decide⟩⟩

/-- The matrix that these words fill row by row. -/
def load (v : Nat → Nat) : Columns :=
  ⟨⟨v 0, v 4, v 8, v 12⟩, ⟨v 1, v 5, v 9, v 13⟩, ⟨v 2, v 6, v 10, v 14⟩,
    ⟨v 3, v 7, v 11, v 15⟩⟩

/-- The diagonals as columns. -/
def turn (v : Columns) : Columns :=
  ⟨⟨v.q₀.a, v.q₁.b, v.q₂.c, v.q₃.d⟩, ⟨v.q₁.a, v.q₂.b, v.q₃.c, v.q₀.d⟩,
    ⟨v.q₂.a, v.q₃.b, v.q₀.c, v.q₁.d⟩, ⟨v.q₃.a, v.q₀.b, v.q₁.c, v.q₂.d⟩⟩

/-- And back. -/
def turnBack (v : Columns) : Columns :=
  ⟨⟨v.q₀.a, v.q₃.b, v.q₂.c, v.q₁.d⟩, ⟨v.q₁.a, v.q₀.b, v.q₃.c, v.q₂.d⟩,
    ⟨v.q₂.a, v.q₁.b, v.q₀.c, v.q₃.d⟩, ⟨v.q₃.a, v.q₂.b, v.q₁.c, v.q₀.d⟩⟩

def toList (v : Columns) : List Nat :=
  [v.q₀.a, v.q₁.a, v.q₂.a, v.q₃.a, v.q₀.b, v.q₁.b, v.q₂.b, v.q₃.b,
    v.q₀.c, v.q₁.c, v.q₂.c, v.q₃.c, v.q₀.d, v.q₁.d, v.q₂.d, v.q₃.d]

/-- `g` on the columns, then on the diagonals. -/
def round (g : Nat → Quad Nat → Quad Nat) (v : Columns) : Columns :=
  let v := turn ⟨g 0 v.q₀, g 1 v.q₁, g 2 v.q₂, g 3 v.q₃⟩
  turnBack ⟨g 4 v.q₀, g 5 v.q₁, g 6 v.q₂, g 7 v.q₃⟩

end Columns

/-! ## BLAKE2b -/

def G (x y : Nat) (q : Quad Nat) : Quad Nat :=
  let ⟨a, b, c, d⟩ := q
  let a := add (add a b) x
  let d := rotr (d ^^^ a) 32
  let c := add c d
  let b := rotr (b ^^^ c) 24
  let a := add (add a b) y
  let d := rotr (d ^^^ a) 16
  let c := add c d
  let b := rotr (b ^^^ c) 63
  ⟨a, b, c, d⟩

def schedule (r j : Nat) : Nat := entry sigma (r % 10) j

/-- The rounds from `r` on. -/
def rounds (m : Nat) : Nat → Nat → Columns → Columns
  | 0, _, v => v
  | n + 1, r, v =>
    rounds m n (r + 1)
      (v.round fun i => G (limb m (schedule r (2 * i))) (limb m (schedule r (2 * i + 1))))

def ivWords :
    Nat := join [0x6a09e667f3bcc908, 0xbb67ae8584caa73b, 0x3c6ef372fe94f82b, 0xa54ff53a5f1d36f1,
  0x510e527fade682d1, 0x9b05688c2b3e6c1f, 0x1f83d9abfb41bd6b, 0x5be0cd19137e2179]

/-- The compression function, for fewer than `2 ^ 64` bytes. -/
def F (h m t f : Nat) : Nat :=
  let v :=
    rounds m 12 0 (Columns.load (limb (h + 2 ^ 512 * (ivWords ^^^ join [0, 0, 0, 0, t, 0, f, 0]))))
  let ws := v.toList
  h ^^^ (join (ws.take 8) ^^^ join (ws.drop 8))

/-- The rest of a message of `len` bytes, of which `k` blocks are not the last. -/
def hashFrom : (k h t len msg : Nat) → Nat
  | 0, h, t, len, msg => F h msg (t + len) (2 ^ 64 - 1)
  | k + 1, h, t, len, msg =>
    force (F h (msg % 2 ^ (8 * 128)) (t + 128) 0) fun h =>
      hashFrom k h (t + 128) (len - 128) (msg >>> (8 * 128))

/-- The hash of 64 bytes. -/
def hash64 (len msg : Nat) : Nat := hashFrom ((len - 1) / 128) (ivWords ^^^ 0x01010040) 0 len msg

/-- `H'` from its second hash on, with `k` values that are cut in half. -/
def longTail : (k v : Nat) → Nat
  | 0, v => hash64 64 v
  | k + 1, v => force (hash64 64 v) fun v => v % 2 ^ 256 + 2 ^ 256 * longTail k v

/-- `H'` of a seed of 72 bytes. -/
def longHash1024 (msg : Nat) : Nat :=
  force (hash64 76 (1024 + 2 ^ 32 * msg)) fun v => v % 2 ^ 256 + 2 ^ 256 * longTail 29 v

/-! ## Argon2id -/

def addMul (x y : Nat) : Nat := add (add x y) (2 * (x % 2 ^ 32) * (y % 2 ^ 32))

def GB (q : Quad Nat) : Quad Nat :=
  let ⟨a, b, c, d⟩ := q
  let a := addMul a b
  let d := rotr (d ^^^ a) 32
  let c := addMul c d
  let b := rotr (b ^^^ c) 24
  let a := addMul a b
  let d := rotr (d ^^^ a) 16
  let c := addMul c d
  let b := rotr (b ^^^ c) 63
  ⟨a, b, c, d⟩

/-- `P` on eight vectors. -/
def eightP (v : Nat → Nat → Nat) : List (List Nat) :=
  (List.range 8).map fun i => ((Columns.load (v i)).round fun _ => GB).toList

def pick (table : List (List Nat)) (i m : Nat) : Nat := (table.getD i []).getD m 0

def rowRound (r : Nat) : Nat :=
  let table := eightP fun i m => limb r (16 * i + m)
  join ((List.range 128).map fun w => pick table (w / 16) (w % 16))

def columnRound (r : Nat) : Nat :=
  let table := eightP fun i m => limb r (2 * i + 16 * (m / 2) + m % 2)
  join ((List.range 128).map fun w => pick table (w % 16 / 2) (2 * (w / 16) + w % 2))

def compress (x y : Nat) : Nat :=
  force (x ^^^ y) fun r => force (rowRound r) fun z => columnRound z ^^^ r

def addressBlock (slice blocks counter : Nat) : Nat :=
  force (compress 0 (join [0, 0, slice % 2 ^ 64, blocks % 2 ^ 64, 1, 2, counter % 2 ^ 64]))
    (compress 0)

def pseudoRandom (q slice offset prev : Nat) : Nat :=
  if slice < 2 then limb (addressBlock slice (4 * q) (offset / 128 + 1)) (offset % 128) % 2 ^ 32
  else limb prev 0 % 2 ^ 32

def nextBlock (q : Nat) (mem : List Nat) (j : Nat) : Nat :=
  let prev := mem.getD (j - 1) 0
  let ref := referenceIndex (referenceArea q (j / q) (j % q)) (pseudoRandom q (j / q) (j % q) prev)
  compress prev (mem.getD ref 0)

/-- Compute `n` blocks, from block `j` on. -/
def fill (q : Nat) : (n j : Nat) → List Nat → List Nat
  | 0, _, mem => mem
  | n + 1, j, mem => force (nextBlock q mem j) fun b => fill q n (j + 1) (mem ++ [b])

/-- The digest of 64 bytes, from the message of `H₀`. -/
def digest (q len msg : Nat) : Nat :=
  force (hash64 len msg) fun h =>
    force (longHash1024 h) fun b₀ =>
      force (longHash1024 (h + 2 ^ 512)) fun b₁ =>
        hash64 1028 (64 + 2 ^ 32 * (fill q (4 * q - 2) 2 [b₀, b₁]).getD (4 * q - 1) 0)

/-! ## Words and numbers -/

/-- Forcing a number before it is used does not change what is computed. -/
theorem force_eq {β : Type} (n : Nat) (k : Nat → β) : force n k = k n := by
  cases n <;> rfl

section Words

variable {l l' : List Nat}

/-- A limb of joined words is the word at that place. -/
theorem limb_join (h : ∀ w ∈ l, w < 2 ^ 64) (i : Nat) : limb (join l) i = l.getD i 0 := by
  unfold limb
  induction l generalizing i with
  | nil => simp [join]
  | cons w ws ih =>
    have hw : w < 2 ^ 64 := h w List.mem_cons_self
    show (w + 2 ^ 64 * join ws) >>> (64 * i) % 2 ^ 64 = _
    cases i with
    | zero =>
      show (w + 2 ^ 64 * join ws) % 2 ^ 64 = w
      omega
    | succ i =>
      have hdiv : (w + 2 ^ 64 * join ws) >>> 64 = join ws := by
        rw [Nat.shiftRight_eq_div_pow]
        omega
      rw [Nat.mul_succ, Nat.add_comm (64 * i), Nat.shiftRight_add, hdiv]
      exact ih (fun w' hw' => h w' (List.mem_cons_of_mem _ hw')) i

/-- Words behind others count for as many bits more. -/
theorem join_append (l l' : List Nat) :
    join (l ++ l') = join l + 2 ^ (64 * l.length) * join l' := by
  induction l with
  | nil => simp [join]
  | cons w ws ih =>
    show w + 2 ^ 64 * join (ws ++ l') = w + 2 ^ 64 * join ws + 2 ^ (64 * (ws.length + 1)) * join l'
    rw [ih, Nat.mul_succ, Nat.pow_add, Nat.mul_add, Nat.mul_left_comm, Nat.mul_assoc, Nat.add_assoc]

/-- A number that is put together from its low and its high bits. -/
theorem xor_low_high {a a' b b' k : Nat} (ha : a < 2 ^ k) (ha' : a' < 2 ^ k) :
    (a + 2 ^ k * b) ^^^ (a' + 2 ^ k * b') = (a ^^^ a') + 2 ^ k * (b ^^^ b') := by
  apply Nat.eq_of_testBit_eq
  intro i
  rw [Nat.testBit_xor, Nat.add_comm a, Nat.add_comm a', Nat.add_comm (a ^^^ a'),
    Nat.testBit_two_pow_mul_add _ ha, Nat.testBit_two_pow_mul_add _ ha',
    Nat.testBit_two_pow_mul_add _ (Nat.xor_lt_two_pow ha ha')]
  split
  · exact (Nat.testBit_xor ..).symm
  · exact (Nat.testBit_xor ..).symm

/-- Xor is word by word. -/
theorem join_zipWith_xor (h : ∀ w ∈ l, w < 2 ^ 64) (h' : ∀ w ∈ l', w < 2 ^ 64)
    (hlen : l.length = l'.length) : join (List.zipWith (· ^^^ ·) l l') = join l ^^^ join l' := by
  induction l generalizing l' with
  | nil =>
    rw [List.length_eq_zero_iff.mp hlen.symm]
    rfl
  | cons w ws ih =>
    cases l' with
    | nil => cases hlen
    | cons w' ws' =>
      have hrest := ih (fun w hw => h w (List.mem_cons_of_mem _ hw))
        (fun w hw => h' w (List.mem_cons_of_mem _ hw)) (Nat.succ.inj hlen)
      show (w ^^^ w') + 2 ^ 64 * join (List.zipWith (· ^^^ ·) ws ws') =
        (w + 2 ^ 64 * join ws) ^^^ (w' + 2 ^ 64 * join ws')
      rw [xor_low_high (h w List.mem_cons_self) (h' w' List.mem_cons_self), hrest]

end Words

/-- The number that words fill. -/
def num {n : Nat} (v : Fin n → UInt64) : Nat := join (List.ofFn fun i => (v i).toNat)

section Num

variable {n : Nat} (v u : Fin n → UInt64)

theorem words_lt : ∀ w ∈ List.ofFn fun i => (v i).toNat, w < 2 ^ 64 := by
  intro w hw
  obtain ⟨i, rfl⟩ := List.mem_ofFn.mp hw
  exact UInt64.toNat_lt _

theorem limb_num (i : Fin n) : limb (num v) i = (v i).toNat := by
  unfold num
  rw [limb_join (words_lt v), List.getD_eq_getElem?_getD, List.getElem?_ofFn, dif_pos i.2]
  rfl

/-- The exclusive or of blocks is that of their numbers. -/
theorem num_xor : num (fun i => v i ^^^ u i) = num v ^^^ num u := by
  unfold num
  rw [← join_zipWith_xor (words_lt v) (words_lt u) (by rw [List.length_ofFn, List.length_ofFn])]
  congr 1
  apply List.ext_getElem
  · rw [List.length_ofFn, List.length_zipWith, List.length_ofFn, List.length_ofFn, Nat.min_self]
  · intro i _ _
    rw [List.getElem_ofFn, List.getElem_zipWith, List.getElem_ofFn, List.getElem_ofFn]
    exact UInt64.toNat_xor ..

end Num

/-! ## A round on words and on numbers -/

def nat (q : Quad UInt64) : Quad Nat := ⟨q.a.toNat, q.b.toNat, q.c.toNat, q.d.toNat⟩

/-- A round with a function for each of the columns and of the diagonals. -/
def mixRound {α : Type} (g : Fin 8 → Quad α → Quad α) (v : Fin 16 → α) : Fin 16 → α :=
  let v := mix (g 0) v 0 4 8 12
  let v := mix (g 1) v 1 5 9 13
  let v := mix (g 2) v 2 6 10 14
  let v := mix (g 3) v 3 7 11 15
  let v := mix (g 4) v 0 5 10 15
  let v := mix (g 5) v 1 6 11 12
  let v := mix (g 6) v 2 7 8 13
  mix (g 7) v 3 4 9 14

theorem P_eq_mixRound {α : Type} (g : Quad α → Quad α) : P g = mixRound fun _ => g := rfl

/-- A round seen from the columns: four mixings of columns and then four of diagonals. -/
theorem columns_mixRound {α : Type} (g : Fin 8 → Quad α → Quad α) (v : Fin 16 → α) :
    columns (mixRound g v) = undiagonals fun l =>
      g (4 + l.castLE (by decide))
        (diagonals (fun l => g (l.castLE (by decide)) (columns v l)) l) := by
  funext l
  fin_cases l <;> rfl

/-- The columns of words, as numbers. -/
def image (v : Fin 16 → UInt64) : Columns := Columns.of fun l => nat (columns v l)

theorem load_eq {u : Nat → Nat} {v : Fin 16 → UInt64} (h : ∀ i : Fin 16, u i = (v i).toNat) :
    Columns.load u = image v := by
  have hcolumn : ∀ l : Fin 4, (⟨u l, u (4 + l), u (8 + l), u (12 + l)⟩ : Quad Nat) =
    nat (columns v l) := by
    intro l
    unfold nat columns
    dsimp only
    rw [← h, ← h, ← h, ← h]
  exact congrArg Columns.of (funext hcolumn)

theorem toList_image (v : Fin 16 → UInt64) :
    (image v).toList = List.ofFn fun i => (v i).toNat := rfl

/-- A round on numbers follows the round on words. -/
theorem image_mixRound {g : Fin 8 → Quad UInt64 → Quad UInt64}
    {g' : Nat → Quad Nat → Quad Nat} (h : ∀ (i : Fin 8) q, nat (g i q) = g' i (nat q))
    (v : Fin 16 → UInt64) :
    image (mixRound g v) = (image v).round g' := by
  have hdiagonals : ∀ (q : Fin 4 → Quad UInt64) l,
      nat (diagonals q l) = diagonals (fun l => nat (q l)) l := fun _ _ => rfl
  unfold image
  rw [columns_mixRound]
  show Columns.turnBack (Columns.of fun l => nat (g (4 + l.castLE _) (diagonals _ l))) = _
  simp only [h, hdiagonals]
  rfl

/-! ## BLAKE2b -/

/-- Addition of words, as numbers. -/
theorem add_eq (x y : UInt64) : (x + y).toNat = add x.toNat y.toNat := UInt64.toNat_add x y

/-- Rotation of words, as numbers. -/
theorem rotr_eq (x : UInt64) {n : Nat} (h0 : 0 < n) (hn : n < 64) :
    (Blake2.rotr x (UInt64.ofNat n)).toNat = rotr x.toNat n := by
  have hnat : (UInt64.ofNat n).toNat = n := UInt64.toNat_ofNat_of_lt' (show n < 2 ^ 64 by omega)
  have hle : UInt64.ofNat n ≤ 64 := by
    rw [UInt64.le_iff_toNat_le, hnat]
    exact Nat.le_of_lt hn
  unfold Blake2.rotr rotr
  rw [UInt64.toNat_or, UInt64.toNat_shiftRight, UInt64.toNat_shiftLeft,
    UInt64.toNat_sub_of_le _ _ hle, hnat, Nat.mod_eq_of_lt hn]
  show _ ||| x.toNat <<< ((64 - n) % 64) % 2 ^ 64 = _
  rw [Nat.mod_eq_of_lt (show 64 - n < 64 by omega)]

/-- `G` on four words. -/
def mixing (x y : UInt64) (q : Quad UInt64) : Quad UInt64 :=
  let ⟨a, b, c, d⟩ := q
  let a := a + b + x
  let d := Blake2.rotr (d ^^^ a) 32
  let c := c + d
  let b := Blake2.rotr (b ^^^ c) 24
  let a := a + b + y
  let d := Blake2.rotr (d ^^^ a) 16
  let c := c + d
  let b := Blake2.rotr (b ^^^ c) 63
  ⟨a, b, c, d⟩

/-- A mixing with two message words, as numbers. -/
theorem nat_mixing (x y : UInt64) (q : Quad UInt64) :
    nat (mixing x y q) = G x.toNat y.toNat (nat q) := by
  have hrotr : ∀ {n : Nat} (x : UInt64), 0 < n → n < 64 → _ := fun x h0 hn => rotr_eq x h0 hn
  unfold nat mixing G
  simp only [← add_eq, ← UInt64.toNat_xor, ← rotr_eq _ (show 0 < 32 by decide) (by decide),
    ← rotr_eq _ (show 0 < 24 by decide) (by decide),
      ← rotr_eq _ (show 0 < 16 by decide) (by decide),
    ← rotr_eq _ (show 0 < 63 by decide) (by decide)]
  rfl

/-- The words of a vector. -/
theorem word_setWord {n : Nat} (v : Vector UInt64 n) (i : Fin n) (x : UInt64) :
    word (setWord v i x) = Function.update (word v) i x := by
  funext j
  rw [Function.update_apply]
  show (v.set i x)[j.val] = _
  rw [Vector.getElem_set]
  by_cases h : j = i
  · rw [if_pos h, if_pos (congrArg Fin.val h.symm)]
  · rw [if_neg h, if_neg fun hval => h (Fin.ext hval.symm)]
    rfl

theorem word_G (v : Vector UInt64 16) (a b c d : Fin 16) (x y : UInt64) :
    word (Blake2.G v a b c d x y) = mix (mixing x y) (word v) a b c d := by
  unfold Blake2.G
  dsimp only
  rw [word_setWord, word_setWord, word_setWord, word_setWord]
  rfl

/-- A round is eight mixings with the message words of its row of the table. -/
theorem word_round (m : Vector UInt64 16) (s : Nat → Fin 16) (v : Vector UInt64 16) :
    word (Blake2.round m s v) =
      mixRound (fun i => mixing (word m (s (2 * i))) (word m (s (2 * i + 1)))) (word v) := by
  unfold Blake2.round mixRound
  dsimp only
  rw [word_G, word_G, word_G, word_G, word_G, word_G, word_G, word_G]
  rfl

/-- Any number of rounds, as numbers. -/
theorem foldl_round (m : Vector UInt64 16) (n r : Nat) (v : Vector UInt64 16) :
    image (word ((List.range' r n).foldl (fun v r => Blake2.round m (entry sigma (r % 10)) v) v)) =
      rounds (num (word m)) n r (image (word v)) := by
  induction n generalizing r v with
  | zero => rfl
  | succ n ih =>
    have hround : image (word (Blake2.round m (entry sigma (r % 10)) v)) =
        (image (word v)).round fun i =>
          G (limb (num (word m)) (schedule r (2 * i)))
            (limb (num (word m)) (schedule r (2 * i + 1))) := by
      rw [word_round]
      refine image_mixRound (fun i q => ?_) _
      unfold schedule
      rw [nat_mixing, limb_num, limb_num]
    rw [List.range'_succ, List.foldl_cons, ih, hround]
    rfl

theorem num_word {n : Nat} (v : Vector UInt64 n) :
    num (word v) = join (v.toList.map UInt64.toNat) := by
  unfold num
  congr 1
  apply List.ext_getElem
  · rw [List.length_ofFn, List.length_map, Vector.length_toList]
  · intro i _ _
    rw [List.getElem_ofFn, List.getElem_map, Vector.getElem_toList]
    rfl

theorem ivWords_eq : ivWords = join (iv.toList.map UInt64.toNat) := by decide

/-- The working vector: the chain value and, above it, the constants with the counter and the flag.
-/
theorem num_working (h : Vector UInt64 8) (t f : UInt64) :
    num (word (working h t 0 f)) =
      num (word h) + 2 ^ 512 * (ivWords ^^^ join [0, 0, 0, 0, t.toNat, 0, f.toNat, 0]) := by
  have hlow : ∀ w ∈ [0, 0, 0, 0, t.toNat, 0, f.toNat, 0], w < 2 ^ 64 := by
    intro w hw
    have ht : t.toNat < 2 ^ 64 := t.toNat_lt
    have hf : f.toNat < 2 ^ 64 := f.toNat_lt
    simp only [List.mem_cons, List.not_mem_nil, or_false] at hw
    omega
  have hiv : ∀ w ∈ iv.toList.map UInt64.toNat, w < 2 ^ 64 := by
    intro w hw
    obtain ⟨u, -, rfl⟩ := List.mem_map.mp hw
    exact u.toNat_lt
  rw [num_word, num_word, ivWords_eq, ← join_zipWith_xor hiv hlow (by rfl)]
  unfold working
  rw [Vector.toList_append, List.map_append, join_append, List.length_map, Vector.length_toList]
  congr 3

/-- The compression function of the standard is the one on numbers. -/
theorem F_eq (h : Vector UInt64 8) (m : Vector UInt64 16) (t f : UInt64) :
    num (word (Blake2.F h m t 0 f)) = F (num (word h)) (num (word m)) t.toNat f.toNat := by
  have hstart : Columns.load (limb (num (word h) + 2 ^ 512 * (ivWords ^^^
      join [0, 0, 0, 0, t.toNat, 0, f.toNat, 0]))) = image (word (working h t 0 f)) := by
    refine load_eq fun i => ?_
    rw [← num_working, limb_num]
  unfold F
  dsimp only
  rw [hstart, ← foldl_round, toList_image]
  unfold Blake2.F
  rw [List.range_eq_range']
  generalize (List.range' 0 12).foldl (fun v r => Blake2.round m (entry sigma (r % 10)) v)
    (working h t 0 f) = v
  have hword : word (Vector.ofFn fun i : Fin 8 => h[i] ^^^ (v[i.val] ^^^ v[i.val + 8])) =
      fun i => word h i ^^^ (word v (i.castLE (by decide)) ^^^ word v (i.addNat 8)) := by
    funext i
    exact Vector.getElem_ofFn i.2
  show num (word (Vector.ofFn fun i : Fin 8 => h[i] ^^^ (v[i.val] ^^^ v[i.val + 8]))) = _
  rw [hword, num_xor, num_xor]
  rfl

/-! ### Bytes -/

theorem pow_bytes (n : Nat) : 256 ^ n = 2 ^ (8 * n) := by
  rw [Nat.pow_mul]

/-- Bytes behind others count for as many powers of 256 more. -/
theorem leNat_append (a b : List UInt8) : leNat (a ++ b) = leNat a + 256 ^ a.length * leNat b := by
  induction a with
  | nil =>
    rw [List.nil_append, List.length_nil, Nat.pow_zero, Nat.one_mul]
    exact (Nat.zero_add _).symm
  | cons c a ih =>
    show c.toNat + 256 * leNat (a ++ b) = c.toNat + 256 * leNat a + 256 ^ (a.length + 1) * leNat b
    rw [ih, Nat.pow_succ, Nat.mul_add, Nat.mul_comm _ 256, Nat.mul_assoc, Nat.add_assoc]

/-- Taking and dropping bytes is a remainder and a quotient. -/
theorem leNat_split (l : List UInt8) {n : Nat} (h : n ≤ l.length) :
    leNat (l.take n) = leNat l % 2 ^ (8 * n) ∧ leNat (l.drop n) = leNat l / 2 ^ (8 * n) := by
  rw [← pow_bytes]
  have happ := leNat_append (l.take n) (l.drop n)
  have hlen : (l.take n).length = n := List.length_take_of_le h
  have hlt := leNat_lt (l.take n)
  have hpos : 0 < 256 ^ n := Nat.pow_pos (by decide)
  rw [hlen] at hlt happ
  rw [List.take_append_drop] at happ
  rw [happ, Nat.add_mul_mod_self_left, Nat.mod_eq_of_lt hlt, Nat.add_mul_div_left _ _ hpos,
    Nat.div_eq_of_lt hlt, Nat.zero_add]
  exact ⟨rfl, rfl⟩

theorem leNat_zeros (n : Nat) : leNat (List.replicate n 0) = 0 := by
  induction n with
  | zero => rfl
  | succ n ih =>
    show 0 + 256 * leNat (List.replicate n 0) = 0
    rw [ih]

theorem leBytes_succ (n v : Nat) : leBytes (n + 1) v = UInt8.ofNat v :: leBytes n (v / 256) := by
  unfold leBytes
  rw [List.range_succ_eq_map, List.map_cons, List.map_map, Nat.pow_zero, Nat.div_one]
  congr 1
  refine List.map_congr_left fun i _ => ?_
  show UInt8.ofNat (v / 256 ^ (i + 1)) = UInt8.ofNat (v / 256 / 256 ^ i)
  rw [Nat.div_div_eq_div_mul, Nat.pow_succ, Nat.mul_comm]

/-- A number is read back from its bytes, modulo what they can hold. -/
theorem leNat_leBytes (n v : Nat) : leNat (leBytes n v) = v % 256 ^ n := by
  induction n generalizing v with
  | zero => rw [Nat.pow_zero, Nat.mod_one]; rfl
  | succ n ih =>
    have hmod : v % 256 ^ (n + 1) = v % 256 + 256 * (v / 256 % 256 ^ n) := by
      rw [Nat.pow_succ, Nat.mul_comm, Nat.mod_mul]
    rw [leBytes_succ, hmod]
    show (UInt8.ofNat v).toNat + 256 * leNat (leBytes n (v / 256)) = _
    rw [ih, UInt8.toNat_ofNat']

/-- Bytes are written back from their number. -/
theorem leBytes_leNat (l : List UInt8) : leBytes l.length (leNat l) = l := by
  induction l with
  | nil => rfl
  | cons c l ih =>
    have hc : c.toNat < 256 := c.toNat_lt
    rw [List.length_cons, leBytes_succ]
    show UInt8.ofNat (c.toNat + 256 * leNat l) :: leBytes l.length
      ((c.toNat + 256 * leNat l) / 256) = _
    have hdiv : (c.toNat + 256 * leNat l) / 256 = leNat l := by omega
    have hbyte : UInt8.ofNat (c.toNat + 256 * leNat l) = c := by
      apply UInt8.toNat_inj.mp
      rw [UInt8.toNat_ofNat']
      show (c.toNat + 256 * leNat l) % 256 = c.toNat
      omega
    rw [hdiv, ih, hbyte]

/-- The words of bytes fill the same number. -/
theorem num_bytes {k : Nat} (l : List UInt8) (h : l.length = 8 * k) :
    num (fun i : Fin k => UInt64.ofNat (leNat ((l.drop (8 * i)).take 8))) = leNat l := by
  unfold num
  induction k generalizing l with
  | zero =>
    rw [List.length_eq_zero_iff.mp h]
    rfl
  | succ k ih =>
    obtain ⟨htake, hdrop⟩ := leNat_split l (n := 8) (by omega)
    have hfirst : (UInt64.ofNat (leNat (l.take 8))).toNat = leNat l % 2 ^ 64 := by
      rw [htake]
      exact UInt64.toNat_ofNat_of_lt' (Nat.mod_lt _ (by decide))
    have hrest := ih (l.drop 8) (by rw [List.length_drop]; omega)
    simp only [List.drop_drop] at hrest
    rw [List.ofFn_succ]
    show (UInt64.ofNat (leNat (l.take 8))).toNat + 2 ^ 64 * join (List.ofFn fun i : Fin k =>
      (UInt64.ofNat (leNat ((l.drop (8 * (i + 1))).take 8))).toNat) = _
    simp only [Nat.mul_add, Nat.mul_one, Nat.add_comm _ 8]
    rw [hrest, hfirst, hdrop]
    exact Nat.mod_add_div _ _

/-- And back. -/
theorem leNat_flatMap (ws : List UInt64) :
    leNat (ws.flatMap fun w => leBytes 8 w.toNat) = join (ws.map UInt64.toNat) := by
  induction ws with
  | nil => rfl
  | cons w ws ih =>
    rw [List.flatMap_cons, leNat_append, leNat_leBytes, length_leBytes, ih,
      Nat.mod_eq_of_lt (show w.toNat < 256 ^ 8 from w.toNat_lt)]
    rfl

/-! ### The hashes -/

/-- The compression of one block of a message, as numbers. -/
theorem compress_eq (h : Vector UInt64 8) {block : List UInt8} (hlen : block.length = 128) {t : Nat}
    (ht : t < 2 ^ 64) (f : UInt64) :
    num (word (Blake2.compress h block t f)) = F (num (word h)) (leNat block) t f.toNat := by
  have hzero : UInt64.ofNat (t / 2 ^ 64) = 0 := by
    rw [Nat.div_eq_of_lt ht]
    rfl
  have hwords : word (words block) =
      fun i : Fin 16 => UInt64.ofNat (leNat ((block.drop (8 * i)).take 8)) := by
    funext i
    unfold words word
    rw [Fin.getElem_fin, Vector.getElem_ofFn]
  unfold Blake2.compress
  rw [hzero, F_eq, hwords, num_bytes block hlen, UInt64.toNat_ofNat_of_lt' ht]

/-- The last compression, for what is left of the message. -/
theorem finish_eq (c : Chain) {rest : List UInt8} (hlen : rest.length ≤ 128)
    (ht : c.t + rest.length < 2 ^ 64) :
    leNat (finish c rest 64) =
      F (num (word c.h)) (leNat rest) (c.t + rest.length) (2 ^ 64 - 1) := by
  have hblock : (rest ++ List.replicate (128 - rest.length) 0).length = 128 := by
    rw [List.length_append, List.length_replicate]
    omega
  have hnum : leNat (rest ++ List.replicate (128 - rest.length) 0) = leNat rest := by
    rw [leNat_append, leNat_zeros, Nat.mul_zero, Nat.add_zero]
  unfold finish
  dsimp only
  rw [List.take_of_length_le (by rw [length_output]), output, leNat_flatMap, ← num_word,
    compress_eq _ hblock ht, hnum]
  rfl

/-- From a chain value on, the hash of a message of any number of blocks. -/
theorem hashFrom_eq (k : Nat) (c : Chain) (msg : List UInt8) (hlow : 128 * k < msg.length ∨ k = 0)
    (hhigh : msg.length ≤ 128 * (k + 1)) (ht : c.t + msg.length < 2 ^ 64) :
    leNat (finish (absorb step c msg).1 (absorb step c msg).2 64) =
      hashFrom k (num (word c.h)) c.t msg.length (leNat msg) := by
  -- on the blocks still to absorb; the last one, full or not, is left to `finish`
  induction k generalizing c msg with
  | zero =>
    rw [absorb_of_le step (by omega), finish_eq c (by omega) ht]
    rfl
  | succ k ih =>
    have hmore : 128 < msg.length := by omega
    have hlen : (msg.drop 128).length = msg.length - 128 := List.length_drop ..
    have hrest := ih (step c (msg.take 128)) (msg.drop 128) (by omega) (by omega)
      (by rw [hlen]; show c.t + 128 + (msg.length - 128) < 2 ^ 64; omega)
    have hcount : c.t + 128 < 2 ^ 64 := by omega
    obtain ⟨htake, hdrop⟩ := leNat_split msg (Nat.le_of_lt hmore)
    have hstep : num (word (step c (msg.take 128)).h) =
        F (num (word c.h)) (leNat msg % 2 ^ (8 * 128)) (c.t + 128) 0 := by
      unfold step
      rw [compress_eq _ (List.length_take_of_le (Nat.le_of_lt hmore)) hcount, htake]
      rfl
    rw [absorb_of_gt step hmore, hrest, hstep, hlen, hdrop]
    show hashFrom k _ _ _ _ = force _ fun h => hashFrom k h (c.t + 128) (msg.length - 128) _
    rw [force_eq, Nat.shiftRight_eq_div_pow]
    rfl

/-- BLAKE2b with 64 bytes of output, on numbers. -/
theorem hash_eq (msg : List UInt8) (hlen : msg.length < 2 ^ 64) :
    leNat (Blake2.hash 64 msg) = hash64 msg.length (leNat msg) := by
  have hinit : num (word (init 64).h) = ivWords ^^^ 0x01010040 := by decide
  unfold Blake2.hash
  dsimp only
  rw [hashFrom_eq ((msg.length - 1) / 128) (init 64) msg (by omega) (by omega)
    (by show 0 + _ < _; omega), hinit]
  rfl

/-- The tail of the long hash, on numbers. -/
theorem longTail_eq (k : Nat) (v : List UInt8) (hv : v.length = 64) :
    leNat (Argon2.longTail (64 + 32 * k) v) = longTail k (leNat v) := by
  have hhash : leNat (hash 64 v) = hash64 64 (leNat v) := by
    rw [hash_eq v (by omega), hv]
  have hlen : (hash 64 v).length = 64 := length_hash (Nat.le_refl 64) v
  induction k generalizing v with
  | zero =>
    rw [longTail_of_le (Nat.le_refl 64)]
    exact hhash
  | succ k ih =>
    have hnext : leNat (hash 64 (hash 64 v)) = hash64 64 (leNat (hash 64 v)) := by
      rw [hash_eq _ (by omega), hlen]
    rw [longTail_of_gt (by omega), leNat_append, List.length_take_of_le (by omega),
      (leNat_split (hash 64 v) (n := 32) (by omega)).1,
      show 64 + 32 * (k + 1) - 32 = 64 + 32 * k by omega,
      ih (hash 64 v) hlen hnext (length_hash (Nat.le_refl 64) _), hhash, pow_bytes]
    show _ = force _ fun v => v % 2 ^ 256 + 2 ^ 256 * longTail k v
    rw [force_eq]

theorem leNat_le32 {n : Nat} (h : n < 2 ^ 32) : leNat (le32 n) = n := by
  unfold le32
  rw [leNat_leBytes]
  exact Nat.mod_eq_of_lt h

/-- The long hash of a seed of 72 bytes, which gives a first block. -/
theorem longHash_eq (seed : List UInt8) (hseed : seed.length = 72) :
    leNat (longHash 1024 seed) = longHash1024 (leNat seed) := by
  have hmsg : (le32 1024 ++ seed).length = 76 := by
    rw [List.length_append, length_le32, hseed]
  have hfirst : leNat (hash 64 (le32 1024 ++ seed)) = hash64 76 (1024 + 2 ^ 32 * leNat seed) := by
    rw [hash_eq _ (by omega), hmsg, leNat_append, leNat_le32 (by decide), length_le32]
    rfl
  have hlen : (hash 64 (le32 1024 ++ seed)).length = 64 := length_hash (Nat.le_refl 64) _
  unfold longHash
  rw [if_neg (by decide)]
  dsimp only
  rw [leNat_append, List.length_take_of_le (by omega), (leNat_split _ (n := 32) (by omega)).1,
    show 1024 - 32 = 64 + 32 * 29 from rfl, longTail_eq 29 _ hlen, hfirst, pow_bytes]
  unfold longHash1024
  rw [force_eq]

/-! ## Argon2id -/

/-- The multiplying addition of words, as numbers. -/
theorem addMul_eq (x y : UInt64) : (Argon2.addMul x y).toNat = addMul x.toNat y.toNat := by
  have htrunc : ∀ u : UInt64, (trunc u).toNat = u.toNat % 2 ^ 32 := by
    intro u
    unfold trunc
    rw [UInt64.toNat_and]
    exact Nat.and_two_pow_sub_one_eq_mod u.toNat 32
  unfold Argon2.addMul addMul
  rw [add_eq, add_eq, UInt64.toNat_mul, UInt64.toNat_mul, htrunc, htrunc]
  unfold add
  show (_ + (2 * (x.toNat % 2 ^ 32) % 2 ^ 64 * (y.toNat % 2 ^ 32)) % 2 ^ 64) % 2 ^ 64 = _
  rw [Nat.mod_mul_mod, Nat.add_mod_mod]

/-- The mixing of Argon2, as numbers. -/
theorem nat_GB (q : Quad UInt64) : nat (Argon2.GB q) = GB (nat q) := by
  unfold nat Argon2.GB GB
  simp only [← addMul_eq, ← UInt64.toNat_xor, ← rotr_eq _ (show 0 < 32 by decide) (by decide),
    ← rotr_eq _ (show 0 < 24 by decide) (by decide),
      ← rotr_eq _ (show 0 < 16 by decide) (by decide),
    ← rotr_eq _ (show 0 < 63 by decide) (by decide)]
  rfl

theorem getD_range {α : Type} (f : Nat → α) (d : α) {n i : Nat} (h : i < n) :
    ((List.range n).map f).getD i d = f i := by
  rw [List.getD_eq_getElem?_getD, List.getElem?_map, List.getElem?_range h]
  rfl

/-- Eight permutations of sixteen words each, taken from lists. -/
theorem pick_eightP {u : Nat → Nat → Nat} {v : Fin 8 → Fin 16 → UInt64}
    (h : ∀ i m, u (i : Fin 8) (m : Fin 16) = (v i m).toNat) (i : Fin 8) (m : Fin 16) :
    pick (eightP u) i m = (P Argon2.GB (v i) m).toNat := by
  have hround : (Columns.load (u i)).round (fun _ => GB) = image (P Argon2.GB (v i)) := by
    rw [load_eq (h i), P_eq_mixRound]
    exact (image_mixRound (fun _ q => nat_GB q) _).symm
  unfold pick eightP
  rw [getD_range _ _ i.2, hround, toList_image, List.getD_eq_getElem?_getD, List.getElem?_ofFn,
    dif_pos m.2]
  rfl

theorem join_range {n : Nat} {f : Nat → Nat} {v : Fin n → UInt64}
    (h : ∀ i : Fin n, f i = (v i).toNat) :
    join ((List.range n).map f) = num v := by
  unfold num
  congr 1
  apply List.ext_getElem
  · rw [List.length_map, List.length_range, List.length_ofFn]
  · intro i hi _
    rw [List.getElem_map, List.getElem_range, List.getElem_ofFn, ← h]

/-- The round over the rows of a block, on its number. -/
theorem rowRound_eq (r : Block) : rowRound (num r) = num (Argon2.rowRound Argon2.GB r) := by
  refine join_range fun w => ?_
  exact pick_eightP (v := fun i => row r i) (fun i m => limb_num r ⟨16 * i + m, by omega⟩)
    ⟨w / 16, by omega⟩ ⟨w % 16, by omega⟩

/-- The round over its columns. -/
theorem columnRound_eq (r : Block) :
    columnRound (num r) = num (Argon2.columnRound Argon2.GB r) := by
  refine join_range fun w => ?_
  exact pick_eightP (v := fun i => column r i) (fun i m =>
    limb_num r ⟨2 * i + 16 * (m / 2) + m % 2, by omega⟩) ⟨w % 16 / 2, by omega⟩
    ⟨2 * (w / 16) + w % 2, by omega⟩

/-- The compression of two blocks, on their numbers. -/
theorem compressBlock_eq (x y : Block) : compress (num x) (num y) = num (Argon2.compress x y) := by
  unfold compress Argon2.compress
  dsimp only
  rw [force_eq, force_eq, ← num_xor, rowRound_eq, columnRound_eq]
  exact (num_xor _ _).symm

theorem join_zeros (n : Nat) : join (List.replicate n 0) = 0 := by
  induction n with
  | zero => rfl
  | succ n ih =>
    show 0 + 2 ^ 64 * join (List.replicate n 0) = 0
    rw [ih, Nat.mul_zero]

theorem num_zero : num zero = 0 := by decide +kernel

/-- An address block, as a number. -/
theorem addressBlock_eq (slice blocks counter : Nat) :
    addressBlock slice blocks counter = num (Argon2.addressBlock slice blocks counter) := by
  have hinput : num (addressInput slice blocks counter) =
      join [0, 0, slice % 2 ^ 64, blocks % 2 ^ 64, 1, 2, counter % 2 ^ 64] := by
    have hwords : (List.ofFn fun w => (addressInput slice blocks counter w).toNat) =
        [0, 0, slice % 2 ^ 64, blocks % 2 ^ 64, 1, 2, counter % 2 ^ 64] ++
          List.replicate 121 0 := by
      apply List.ext_getElem
      · rw [List.length_ofFn]
        rfl
      · intro i hi _
        rw [List.length_ofFn] at hi
        rw [List.getElem_ofFn]
        interval_cases i <;> rfl
    unfold num
    rw [hwords, join_append, join_zeros, Nat.mul_zero, Nat.add_zero]
  unfold addressBlock Argon2.addressBlock
  rw [force_eq, ← hinput, ← num_zero, compressBlock_eq, compressBlock_eq]

/-- The first `j` blocks of a memory. -/
def blocks (mem : Nat → Block) (j : Nat) : List Nat := (List.range j).map fun k => num (mem k)

theorem getD_blocks (mem : Nat → Block) {j k : Nat} (h : k < j) :
    (blocks mem j).getD k 0 = num (mem k) := by
  exact getD_range _ _ h

/-- The next block of the lane, from the list of those before it. -/
theorem nextBlock_eq (q : Nat) (mem : Nat → Block) {j : Nat} (hj : 2 ≤ j) :
    nextBlock q (blocks mem j) j = num (fillBlock q mem j j) := by
  have href : pseudoRandom q (j / q) (j % q) (num (mem (j - 1))) =
      Argon2.pseudoRandom q (j / q) (j % q) (mem (j - 1)) := by
    unfold pseudoRandom Argon2.pseudoRandom
    split
    · rw [addressBlock_eq]
      exact congrArg (· % 2 ^ 32) (limb_num _ ⟨j % q % 128, word_lt _⟩)
    · exact congrArg (· % 2 ^ 32) (limb_num _ 0)
  have hlt := reference_lt q mem hj
  unfold nextBlock fillBlock
  dsimp only
  rw [getD_blocks mem (by omega), href]
  show compress _ ((blocks mem j).getD (reference q mem j) 0) = _
  rw [getD_blocks mem (by omega), compressBlock_eq, Function.update_self]

/-- A block that is filled in goes to the end of the list. -/
theorem blocks_fillBlock (q : Nat) (mem : Nat → Block) (j : Nat) :
    blocks (fillBlock q mem j) (j + 1) = blocks mem j ++ [num (fillBlock q mem j j)] := by
  have hbefore : ∀ k ∈ List.range j, num (fillBlock q mem j k) = num (mem k) := by
    intro k hk
    have hne : k ≠ j := Nat.ne_of_lt (List.mem_range.mp hk)
    unfold fillBlock
    rw [Function.update_of_ne hne]
  unfold blocks
  rw [List.range_succ, List.map_append, List.map_congr_left hbefore]
  rfl

/-- Filling a lane on numbers is filling it block by block. -/
theorem fill_eq (q : Nat) (mem : Nat → Block) (n m : Nat) :
    fill q n (m + 2) (blocks (Argon2.fill q mem m) (m + 2)) =
      blocks (Argon2.fill q mem (m + n)) (m + n + 2) := by
  induction n generalizing m with
  | zero => rfl
  | succ n ih =>
    have hnext := ih (m + 1)
    show force _ (fun b => fill q n (m + 2 + 1) (blocks (Argon2.fill q mem m) (m + 2) ++ [b])) = _
    rw [force_eq, nextBlock_eq q _ (by omega), ← blocks_fillBlock, Nat.add_succ m n,
      ← Nat.succ_add]
    exact hnext

/-- A first block is the long hash of the initial hash and its index. -/
theorem firstBlock_eq (p : Params) (password : List UInt8) {i : Nat} (hi : i < 2 ^ 32) :
    leNat (firstBlock p password 0 i) =
      longHash1024 (leNat (initialHash p password) + 2 ^ 512 * i) := by
  have hlen : (initialHash p password).length = 64 := length_hash (Nat.le_refl 64) _
  have hseed : (initialHash p password ++ le32 i ++ le32 0).length = 72 := by
    rw [List.length_append, List.length_append, hlen, length_le32, length_le32]
  unfold firstBlock
  rw [longHash_eq _ hseed, leNat_append, leNat_append, leNat_le32 hi, leNat_le32 (by decide), hlen,
    pow_bytes, Nat.mul_zero, Nat.add_zero]

theorem num_blockOf {bytes : List UInt8} (h : bytes.length = 1024) :
    num (blockOf bytes) = leNat bytes := num_bytes (k := 128) bytes h

/-- The bytes of a block make the number of the block. -/
theorem leNat_blockBytes (b : Block) : leNat (blockBytes b) = num b := by
  unfold blockBytes num
  rw [leNat_flatMap, List.map_ofFn]
  rfl

/-- The digest of a password by arithmetic; `msg` is what `H₀` is the hash of. -/
theorem digest_eq (p : Params) (password msg : List UInt8)
    (hmsg : initialHash p password = Blake2.hash 64 msg) (hlen : msg.length < 2 ^ 64)
    (htag : p.tagLength = 64) :
    Argon2.digest p password =
      leBytes 64 (digest (segmentLength p.memory) msg.length (leNat msg)) := by
  have hq : 2 ≤ segmentLength p.memory := by
    unfold segmentLength
    omega
  unfold Argon2.digest
  rw [htag]
  generalize segmentLength p.memory = q at hq
  have hfirst : ∀ i < 2 ^ 32, (firstBlock p password 0 i).length = 1024 :=
    fun i _ => length_longHash 1024 _
  let mem := start (blockOf (firstBlock p password 0 0)) (blockOf (firstBlock p password 0 1))
  -- the two first blocks, then the lane, then the hash of the last block
  have hstart : blocks mem 2 = [longHash1024 (hash64 msg.length (leNat msg)),
      longHash1024 (hash64 msg.length (leNat msg) + 2 ^ 512)] := by
    show [num (blockOf (firstBlock p password 0 0)), num (blockOf (firstBlock p password 0 1))] = _
    rw [num_blockOf (hfirst 0 (by decide)), num_blockOf (hfirst 1 (by decide)),
      firstBlock_eq p password (by decide), firstBlock_eq p password (by decide), hmsg,
      hash_eq msg hlen, Nat.mul_zero, Nat.mul_one, Nat.add_zero]
  have hlast : leNat (lastBlock q (firstBlocks p password)) =
      (fill q (4 * q - 2) 2 (blocks mem 2)).getD (4 * q - 1) 0 := by
    have hfill := fill_eq q mem (4 * q - 2) 0
    rw [Nat.zero_add, Nat.zero_add] at hfill
    unfold lastBlock firstBlocks
    rw [List.take_left' (hfirst 0 (by decide)), List.drop_left' (hfirst 0 (by decide)),
      leNat_blockBytes]
    show _ = (fill q (4 * q - 2) 2 (blocks (Argon2.fill q mem 0) 2)).getD (4 * q - 1) 0
    rw [hfill, getD_blocks _ (by omega)]
    rfl
  have hbytes : (le32 64 ++ lastBlock q (firstBlocks p password)).length = 1028 := by
    rw [List.length_append, length_le32, length_lastBlock]
  have htagNat : leNat (longHash 64 (lastBlock q (firstBlocks p password))) =
      digest q msg.length (leNat msg) := by
    unfold longHash digest
    rw [if_pos (Nat.le_refl 64), hash_eq _ (by omega), hbytes, leNat_append, leNat_le32 (by decide),
      length_le32, hlast, hstart, force_eq, force_eq, force_eq]
    rfl
  have hback := leBytes_leNat (longHash 64 (lastBlock q (firstBlocks p password)))
  rw [length_longHash, htagNat] at hback
  exact hback.symm

end Numeral
