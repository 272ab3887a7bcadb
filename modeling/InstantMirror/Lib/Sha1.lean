import InstantMirror.Lib.Bytes
import Mathlib.Algebra.Ring.Nat

/-!
# SHA-1

The first section is about any function that reads its input in blocks of `n`: it takes whole
blocks off the front (`InstantMirror.takeBlocks`) and keeps what is left for the next part of the
input, and how the input was cut up makes no difference (`InstantMirror.takeBlocks_append`).

The second is the standard, as it is written: the schedule of eighty words, the eighty rounds, the
padding, and the hash of a message (`InstantMirror.sha1`).
-/

namespace InstantMirror

/-! ### Reading a stream in blocks -/

section Blocks

variable {α σ : Type*} {n : ℕ} [NeZero n]

/-- **Whole blocks are taken off the front**: the state after them, and what is left. -/
def takeBlocks (n : ℕ) [NeZero n] (compress : σ → List α → σ) (s : σ) (l : List α) : σ × List α :=
  if n ≤ l.length then takeBlocks n compress (compress s (l.take n)) (l.drop n) else (s, l)
termination_by l.length
decreasing_by
  have := Nat.pos_of_neZero n
  rw [List.length_drop]
  omega

variable {compress : σ → List α → σ}

theorem takeBlocks_of_lt {s : σ} {l : List α} (h : l.length < n) :
    takeBlocks n compress s l = (s, l) := by
  rw [takeBlocks, if_neg (Nat.not_le.mpr h)]

theorem takeBlocks_of_le {s : σ} {l : List α} (h : n ≤ l.length) :
    takeBlocks n compress s l = takeBlocks n compress (compress s (l.take n)) (l.drop n) := by
  rw [takeBlocks, if_pos h]

/-- A block and what comes after it. -/
theorem takeBlocks_block_append {s : σ} {block l : List α} (h : block.length = n) :
    takeBlocks n compress s (block ++ l) = takeBlocks n compress (compress s block) l := by
  rw [takeBlocks_of_le (by rw [List.length_append]; omega), List.take_left' h,
    List.drop_left' h]

/-- What is left is less than a block. -/
theorem length_takeBlocks (s : σ) (l : List α) :
    (takeBlocks n compress s l).2.length = l.length % n := by
  induction s, l using takeBlocks.induct n compress with
  | case1 s l h ih =>
    rw [takeBlocks_of_le h, ih, List.length_drop, ← Nat.mod_eq_sub_mod h]
  | case2 s l h =>
    rw [takeBlocks_of_lt (Nat.not_le.mp h), Nat.mod_eq_of_lt (Nat.not_le.mp h)]

/-- **What is left is read before the next part.** -/
theorem takeBlocks_append (s : σ) (l l' : List α) : takeBlocks n compress s (l ++ l') =
    takeBlocks n compress (takeBlocks n compress s l).1 ((takeBlocks n compress s l).2 ++ l') := by
  induction s, l using takeBlocks.induct n compress with
  | case1 s l h ih =>
    have hblock : (l.take n).length = n := by rw [List.length_take]; omega
    rw [takeBlocks_of_le h, ← ih, ← takeBlocks_block_append (s := s) hblock, ← List.append_assoc,
      List.take_append_drop]
  | case2 s l h => rw [takeBlocks_of_lt (Nat.not_le.mp h)]

end Blocks

/-! ### The standard -/

/-- A word. -/
abbrev Word : Type := BitVec 32

/-- Four bytes as a word, most significant first. -/
def wordOf (b₀ b₁ b₂ b₃ : UInt8) : Word :=
  b₀.toBitVec.setWidth 32 <<< 24 ||| b₁.toBitVec.setWidth 32 <<< 16 |||
    b₂.toBitVec.setWidth 32 <<< 8 ||| b₃.toBitVec.setWidth 32

/-- **Five words**: the chaining value, and the variables of the rounds. -/
structure Chain where
  /-- The first word. -/
  a : Word
  /-- The second. -/
  b : Word
  /-- The third. -/
  c : Word
  /-- The fourth. -/
  d : Word
  /-- The fifth. -/
  e : Word
deriving DecidableEq

namespace Sha1

/-- The initial value. -/
def init : Chain := ⟨0x67452301, 0xEFCDAB89, 0x98BADCFE, 0x10325476, 0xC3D2E1F0⟩

/-- The functions `f`. -/
def f (t : ℕ) (b c d : Word) : Word :=
  if t < 20 then b &&& c ||| ~~~b &&& d
  else if t < 40 then b ^^^ c ^^^ d
  else if t < 60 then b &&& c ||| b &&& d ||| c &&& d
  else b ^^^ c ^^^ d

/-- The constants `K`. -/
def k (t : ℕ) : Word :=
  if t < 20 then 0x5A827999 else if t < 40 then 0x6ED9EBA1 else if t < 60 then 0x8F1BBCDC
  else 0xCA62C1D6

/-- **The schedule**, from the sixteen words of the block. -/
def schedule (m : ℕ → Word) (t : ℕ) : Word :=
  if t < 16 then m t
  else (schedule m (t - 3) ^^^ schedule m (t - 8) ^^^ schedule m (t - 14) ^^^
    schedule m (t - 16)).rotateLeft 1
termination_by t

/-- **One round.** -/
def round (m : ℕ → Word) (t : ℕ) (s : Chain) : Chain :=
  ⟨s.a.rotateLeft 5 + f t s.b s.c s.d + s.e + schedule m t + k t, s.a, s.b.rotateLeft 30, s.c, s.d⟩

/-- The first rounds. -/
def rounds (m : ℕ → Word) : ℕ → Chain → Chain
  | 0, s => s
  | t + 1, s => round m t (rounds m t s)

/-- The words of a block, most significant byte first. -/
def words (block : Bytes) (i : ℕ) : Word :=
  wordOf (block.getD (4 * i) 0) (block.getD (4 * i + 1) 0) (block.getD (4 * i + 2) 0)
    (block.getD (4 * i + 3) 0)

/-- **One block.** -/
def compress (h : Chain) (block : Bytes) : Chain :=
  let s := rounds (words block) 80 h
  ⟨h.a + s.a, h.b + s.b, h.c + s.c, h.d + s.d, h.e + s.e⟩

/-- A number in `n` bytes, most significant first. -/
def bigEndian (n x : ℕ) : Bytes := (List.range n).map fun i => UInt8.ofNat (x / 256 ^ (n - 1 - i))

/-- **The padding**: a one bit, zeros up to eight bytes before the end of a block, and the length
in bits. -/
def pad (message : Bytes) : Bytes :=
  message ++ [0x80] ++ List.replicate ((119 - message.length % 64) % 64) 0 ++
    bigEndian 8 (8 * message.length)

/-- The words, byte by byte. -/
def digest (h : Chain) : Bytes :=
  [h.a, h.b, h.c, h.d, h.e].flatMap fun w => bigEndian 4 w.toNat

end Sha1

/-- **The hash of a message.** -/
def sha1 (message : Bytes) : Bytes :=
  Sha1.digest (takeBlocks 64 Sha1.compress Sha1.init (Sha1.pad message)).1

end InstantMirror
