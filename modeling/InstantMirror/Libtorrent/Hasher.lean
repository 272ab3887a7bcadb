import InstantMirror.Lib.Sha1
import Mathlib.Logic.Function.Basic
import Mathlib.Tactic.IntervalCases

/-!
# The hasher

`sha1.cpp` computes SHA-1 in place. The schedule is kept in the sixteen words of the block, each
new word in the place of the one sixteen before it; the rounds do not move the five variables but
call the next line with the names rotated, so that they stand in their places again after every
fifth; and the context takes the data in parts of any size.

It is the hash of the standard: `SHA1Transform` on machines of either byte order
(`InstantMirror.Libtorrent.sha1Transform_eq_compress`), and the hasher for every way to cut the data
into parts (`InstantMirror.Libtorrent.sha1Final_eq_sha1`).
-/

namespace InstantMirror.Libtorrent

open Sha1

/-! ### `SHA1Transform` -/

/-- The byte order of the machine. -/
inductive ByteOrder
  /-- Least significant byte first. -/
  | little
  /-- Most significant byte first. -/
  | big

/-- `rol`. -/
def rol (x : Word) (bits : ℕ) : Word := x <<< bits ||| x >>> (32 - bits)

/-- The words of `CHAR64LONG16`, as the machine reads them. -/
def loadWords (order : ByteOrder) (buffer : Bytes) (i : ℕ) : Word :=
  match order with
  | .little =>
    wordOf (buffer.getD (4 * i + 3) 0) (buffer.getD (4 * i + 2) 0) (buffer.getD (4 * i + 1) 0)
      (buffer.getD (4 * i) 0)
  | .big =>
    wordOf (buffer.getD (4 * i) 0) (buffer.getD (4 * i + 1) 0) (buffer.getD (4 * i + 2) 0)
      (buffer.getD (4 * i + 3) 0)

/-- `little_endian_blk0` and `big_endian_blk0`. -/
def blk0 (order : ByteOrder) (w : Word) : Word :=
  match order with
  | .little => rol w 24 &&& 0xFF00FF00 ||| rol w 8 &&& 0x00FF00FF
  | .big => w

/-- **The word of a round**, by `blk0` and then by `blk`, which is stored in the block. -/
def blk (order : ByteOrder) (i : ℕ) (block : ℕ → Word) : Word × (ℕ → Word) :=
  let w :=
    if i < 16 then blk0 order (block i)
    else rol (block ((i + 13) &&& 15) ^^^ block ((i + 8) &&& 15) ^^^ block ((i + 2) &&& 15) ^^^
      block (i &&& 15)) 1
  (w, Function.update block (i &&& 15) w)

/-- What the lines `R0` to `R4` make of `w`, `x` and `y`. -/
def mix (i : ℕ) (w x y : Word) : Word :=
  if i < 20 then (w &&& (x ^^^ y)) ^^^ y
  else if i < 40 then w ^^^ x ^^^ y
  else if i < 60 then (w ||| x) &&& y ||| w &&& x
  else w ^^^ x ^^^ y

/-- **The lines `R0` to `R4`**: the new values of `z` and `w`, and the block. -/
def line (order : ByteOrder) (i : ℕ) (v w x y z : Word) (block : ℕ → Word) :
    Word × Word × (ℕ → Word) :=
  let word := blk order i block
  (z + (mix i w x y + word.1 + k i + rol v 5), rol w 30, word.2)

/-- The variables, and the block. -/
structure Workspace where
  /-- `a` to `e`. -/
  vars : Chain
  /-- `block`. -/
  block : ℕ → Word

/-- **Five lines**, after which the names are in their places again. -/
def fiveLines (order : ByteOrder) (i : ℕ) (s : Workspace) : Workspace :=
  let ⟨⟨a, b, c, d, e⟩, block⟩ := s
  let (e, b, block) := line order i a b c d e block
  let (d, a, block) := line order (i + 1) e a b c d block
  let (c, e, block) := line order (i + 2) d e a b c block
  let (b, d, block) := line order (i + 3) c d e a b block
  let (a, c, block) := line order (i + 4) b c d e a block
  ⟨⟨a, b, c, d, e⟩, block⟩

/-- The first lines, five at a time. -/
def lines (order : ByteOrder) : ℕ → Workspace → Workspace
  | 0, s => s
  | g + 1, s => fiveLines order (5 * g) (lines order g s)

/-- **`SHA1Transform`.** -/
def sha1Transform (order : ByteOrder) (state : Chain) (buffer : Bytes) : Chain :=
  let s := (lines order 16 ⟨state, loadWords order buffer⟩).vars
  ⟨state.a + s.a, state.b + s.b, state.c + s.c, state.d + s.d, state.e + s.e⟩

/-! ### The context -/

/-- **`SHA_CTX`.** -/
structure ShaCtx where
  /-- `state`. -/
  state : Chain
  /-- `count[0]`. -/
  count0 : ℕ
  /-- `count[1]`. -/
  count1 : ℕ
  /-- `buffer`. -/
  buffer : Bytes

/-- `memcpy` into the buffer. -/
def copyInto (buffer : Bytes) (j : ℕ) (data : Bytes) : Bytes :=
  buffer.take j ++ data ++ buffer.drop (j + data.length)

/-- The loop over the blocks in the data: the state, and where it stops. -/
def blockLoop (order : ByteOrder) (data : Bytes) (state : Chain) (i : ℕ) : Chain × ℕ :=
  if i + 63 < data.length then
    blockLoop order data (sha1Transform order state ((data.drop i).take 64)) (i + 64)
  else (state, i)
termination_by data.length - i

/-- The length in bits, in two words. -/
def ShaCtx.countBits (ctx : ShaCtx) (len : ℕ) : ShaCtx :=
  let bits := (len <<< 3) % 2 ^ 32
  let count0 := (ctx.count0 + bits) % 2 ^ 32
  let count1 := if count0 < bits then (ctx.count1 + 1) % 2 ^ 32 else ctx.count1
  { ctx with count0 := count0, count1 := (count1 + len >>> 29) % 2 ^ 32 }

/-- **`internal_update`.** -/
def internalUpdate (order : ByteOrder) (ctx : ShaCtx) (data : Bytes) : ShaCtx :=
  let j := ctx.count0 >>> 3 &&& 63
  let ctx := ctx.countBits data.length
  if 63 < (j + data.length) % 2 ^ 32 then
    let buffer := copyInto ctx.buffer j (data.take (64 - j))
    let (state, i) := blockLoop order data (sha1Transform order ctx.state buffer) (64 - j)
    { ctx with state := state, buffer := copyInto buffer 0 (data.drop i) }
  else { ctx with buffer := copyInto ctx.buffer j data }

/-- `SHA1_Init`; the buffer is whatever was there. -/
def sha1Init (buffer : Bytes) : ShaCtx := ⟨init, 0, 0, buffer⟩

/-- The loop that appends zeros. -/
def zeroLoop (order : ByteOrder) : ℕ → ShaCtx → ShaCtx
  | 0, ctx => ctx
  | fuel + 1, ctx =>
    if ctx.count0 &&& 504 ≠ 448 then zeroLoop order fuel (internalUpdate order ctx [0]) else ctx

/-- `finalcount`. -/
def finalCount (ctx : ShaCtx) : Bytes :=
  (List.range 8).map fun i =>
    UInt8.ofNat ((if 4 ≤ i then ctx.count0 else ctx.count1) >>> ((3 - (i &&& 3)) * 8) &&& 255)

/-- The digest of a state. -/
def stateDigest (state : Chain) : Bytes :=
  (List.range 20).map fun i =>
    UInt8.ofNat (([state.a, state.b, state.c, state.d, state.e].getD (i >>> 2) 0).toNat >>>
      ((3 - (i &&& 3)) * 8) &&& 255)

/-- **`SHA1_Final`**; the loop makes less than sixty-four turns. -/
def sha1Final (order : ByteOrder) (ctx : ShaCtx) : Bytes :=
  let padded := zeroLoop order 64 (internalUpdate order ctx [0x80])
  stateDigest (internalUpdate order padded (finalCount ctx)).state

/-! ### The transform is the compression -/

section Transform

variable {order : ByteOrder} {m block : ℕ → Word} {i : ℕ}

theorem rol_eq_rotateLeft (x : Word) {bits : ℕ} (h : bits < 32) :
    rol x bits = x.rotateLeft bits := by
  rw [rol, BitVec.rotateLeft_def, Nat.mod_eq_of_lt h]

/-- **The byte order makes no difference.** -/
theorem blk0_loadWords (order : ByteOrder) (buffer : Bytes) (i : ℕ) :
    blk0 order (loadWords order buffer i) = words buffer i := by
  cases order with
  | little =>
    simp only [blk0, loadWords, words, rol, wordOf]
    refine BitVec.eq_of_getLsbD_eq fun j hj => ?_
    interval_cases j <;> simp
  | big => rfl

theorem mix_eq_f (i : ℕ) (w x y : Word) : mix i w x y = f i w x y := by
  rw [mix, f]
  refine if_congr Iff.rfl ?_ (if_congr Iff.rfl rfl (if_congr Iff.rfl ?_ rfl))
  · refine BitVec.eq_of_getLsbD_eq fun j hj => ?_
    simp only [BitVec.getLsbD_xor, BitVec.getLsbD_and, BitVec.getLsbD_or, BitVec.getLsbD_not, hj]
    cases w.getLsbD j <;> cases x.getLsbD j <;> cases y.getLsbD j <;> rfl
  · refine BitVec.eq_of_getLsbD_eq fun j hj => ?_
    simp only [BitVec.getLsbD_and, BitVec.getLsbD_or]
    cases w.getLsbD j <;> cases x.getLsbD j <;> cases y.getLsbD j <;> rfl

/-- **The block before a round**: the last sixteen words of the schedule, and words that have not
been read yet. -/
structure Scheduled (order : ByteOrder) (m : ℕ → Word) (i : ℕ) (block : ℕ → Word) : Prop where
  /-- The words of the schedule, each in the place of those before it. -/
  done : ∀ t, t < i → i ≤ t + 16 → block (t % 16) = schedule m t
  /-- The others. -/
  todo : ∀ t, i ≤ t → t < 16 → blk0 order (block t) = m t

theorem and_fifteen (i : ℕ) : i &&& 15 = i % 16 := Nat.and_two_pow_sub_one_eq_mod i 4

/-- **The word of a round is that of the schedule**, and the block is ready for the next round. -/
theorem Scheduled.blk (h : Scheduled order m i block) :
    (blk order i block).1 = schedule m i ∧ Scheduled order m (i + 1) (blk order i block).2 := by
  have hword : (Libtorrent.blk order i block).1 = schedule m i := by
    rw [Libtorrent.blk, schedule]
    simp only [and_fifteen]
    split_ifs with hi
    · exact h.todo i (Nat.le_refl i) hi
    · rw [rol_eq_rotateLeft _ (by omega), show (i + 13) % 16 = (i - 3) % 16 by omega,
        show (i + 8) % 16 = (i - 8) % 16 by omega, show (i + 2) % 16 = (i - 14) % 16 by omega,
        show i % 16 = (i - 16) % 16 by omega, h.done (i - 3) (by omega) (by omega),
        h.done (i - 8) (by omega) (by omega), h.done (i - 14) (by omega) (by omega),
        h.done (i - 16) (by omega) (by omega)]
  have hblock : (Libtorrent.blk order i block).2 =
      Function.update block (i % 16) (schedule m i) := by
    rw [← hword, ← and_fifteen]
    rfl
  refine ⟨hword, ?_, ?_⟩
  · intro t hlt hle
    rw [hblock]
    by_cases heq : t = i
    · rw [heq, Function.update_self]
    · rw [Function.update_of_ne (by omega), h.done t (by omega) (by omega)]
  · intro t hle hlt
    rw [hblock, Function.update_of_ne (by omega), h.todo t (by omega) hlt]

/-- **A line is a round**, with the names rotated. -/
theorem Scheduled.line (h : Scheduled order m i block) {v w x y z z' w' : Word}
    {block' : ℕ → Word} (hline : line order i v w x y z block = (z', w', block')) :
    Sha1.round m i ⟨v, w, x, y, z⟩ = ⟨z', v, w', x, y⟩ ∧ Scheduled order m (i + 1) block' := by
  obtain ⟨hword, hnext⟩ := h.blk
  simp only [Libtorrent.line, Prod.mk.injEq] at hline
  obtain ⟨rfl, rfl, rfl⟩ := hline
  refine ⟨?_, hnext⟩
  simp only [Sha1.round, hword, mix_eq_f, rol_eq_rotateLeft v (show 5 < 32 by decide),
    rol_eq_rotateLeft w (show 30 < 32 by decide), Chain.mk.injEq, and_true]
  ac_rfl

/-- **Five lines are five rounds.** -/
theorem Scheduled.fiveLines {s : Workspace} (h : Scheduled order m i s.block) :
    (fiveLines order i s).vars =
        Sha1.round m (i + 4) (Sha1.round m (i + 3) (Sha1.round m (i + 2)
          (Sha1.round m (i + 1) (Sha1.round m i s.vars)))) ∧
      Scheduled order m (i + 5) (fiveLines order i s).block := by
  obtain ⟨⟨a, b, c, d, e⟩, block⟩ := s
  rcases h₁ : Libtorrent.line order i a b c d e block with ⟨e', b', block₁⟩
  rcases h₂ : Libtorrent.line order (i + 1) e' a b' c d block₁ with ⟨d', a', block₂⟩
  rcases h₃ : Libtorrent.line order (i + 2) d' e' a' b' c block₂ with ⟨c', e'', block₃⟩
  rcases h₄ : Libtorrent.line order (i + 3) c' d' e'' a' b' block₃ with ⟨b'', d'', block₄⟩
  rcases h₅ : Libtorrent.line order (i + 4) b'' c' d'' e'' a' block₄ with ⟨a'', c'', block₅⟩
  obtain ⟨hround₁, hnext₁⟩ := h.line h₁
  obtain ⟨hround₂, hnext₂⟩ := hnext₁.line h₂
  obtain ⟨hround₃, hnext₃⟩ := hnext₂.line h₃
  obtain ⟨hround₄, hnext₄⟩ := hnext₃.line h₄
  obtain ⟨hround₅, hnext₅⟩ := hnext₄.line h₅
  rw [hround₁, hround₂, hround₃, hround₄, hround₅, Libtorrent.fiveLines]
  simp only [h₁, h₂, h₃, h₄, h₅]
  exact ⟨trivial, hnext₅⟩

/-- **The lines are the rounds.** -/
theorem Scheduled.lines {s : Workspace} (h : Scheduled order m 0 s.block) : ∀ g,
    (lines order g s).vars = rounds m (5 * g) s.vars ∧
      Scheduled order m (5 * g) (lines order g s).block := by
  intro g
  induction g with
  | zero => exact ⟨rfl, h⟩
  | succ g ih =>
    obtain ⟨hvars, hnext⟩ := ih
    obtain ⟨hfive, hnext⟩ := hnext.fiveLines
    refine ⟨?_, hnext⟩
    rw [Libtorrent.lines, hfive, hvars]
    rfl

/-- **`SHA1Transform` is the compression of the standard**, whatever the byte order. -/
theorem sha1Transform_eq_compress (order : ByteOrder) (state : Chain) (buffer : Bytes) :
    sha1Transform order state buffer = compress state buffer := by
  have hstart : Scheduled order (words buffer) 0 (loadWords order buffer) :=
    ⟨fun t h => absurd h (Nat.not_lt_zero t), fun t _ _ => blk0_loadWords order buffer t⟩
  have hlines := (Scheduled.lines (s := ⟨state, loadWords order buffer⟩) hstart 16).1
  rw [sha1Transform, compress, hlines]

end Transform

/-! ### The context holds what has been read -/

/-- **What the context holds after a message.** -/
structure Holds (ctx : ShaCtx) (message : Bytes) : Prop where
  /-- The whole blocks have been compressed. -/
  state : ctx.state = (takeBlocks 64 compress init message).1
  /-- The rest is at the start of the buffer. -/
  rest : ctx.buffer.take (message.length % 64) = (takeBlocks 64 compress init message).2
  /-- The length in bits is in the two words. -/
  count : ctx.count0 + ctx.count1 * 2 ^ 32 = 8 * message.length % 2 ^ 64
  /-- The first word is a word. -/
  count_lt : ctx.count0 < 2 ^ 32
  /-- The buffer has its size. -/
  buffer : ctx.buffer.length = 64

section Context

variable {order : ByteOrder} {ctx : ShaCtx} {message data : Bytes}

theorem holds_sha1Init {buffer : Bytes} (h : buffer.length = 64) : Holds (sha1Init buffer) [] := by
  have hblocks : takeBlocks 64 compress init ([] : Bytes) = (init, []) :=
    takeBlocks_of_lt (Nat.succ_pos 63)
  exact ⟨by rw [hblocks]; rfl, by rw [hblocks]; rfl, by simp [sha1Init], by simp [sha1Init], h⟩

theorem length_copyInto {buffer : Bytes} {j : ℕ} (h : j + data.length ≤ buffer.length) :
    (copyInto buffer j data).length = buffer.length := by
  rw [copyInto, List.length_append, List.length_append, List.length_take, List.length_drop]
  omega

theorem take_copyInto {buffer : Bytes} {j : ℕ} (h : j ≤ buffer.length) :
    (copyInto buffer j data).take (j + data.length) = buffer.take j ++ data := by
  rw [copyInto]
  refine List.take_left' ?_
  rw [List.length_append, List.length_take]
  omega

/-- The loop takes the whole blocks from there on. -/
theorem blockLoop_eq (order : ByteOrder) (data : Bytes) (state : Chain) (i : ℕ) :
    (blockLoop order data state i).1 = (takeBlocks 64 compress state (data.drop i)).1 ∧
      data.drop (blockLoop order data state i).2 =
        (takeBlocks 64 compress state (data.drop i)).2 := by
  induction state, i using blockLoop.induct order data with
  | case1 state i h ih =>
    rw [blockLoop, if_pos h, takeBlocks_of_le (by rw [List.length_drop]; omega), List.drop_drop,
      ← sha1Transform_eq_compress order]
    exact ih
  | case2 state i h =>
    rw [blockLoop, if_neg h, takeBlocks_of_lt (by rw [List.length_drop]; omega)]
    exact ⟨rfl, rfl⟩

/-- The place in the buffer. -/
theorem Holds.place (h : Holds ctx message) : ctx.count0 >>> 3 &&& 63 = message.length % 64 := by
  have hcount := h.count
  have hlt := h.count_lt
  have hand : ctx.count0 >>> 3 &&& 63 = ctx.count0 >>> 3 % 64 :=
    Nat.and_two_pow_sub_one_eq_mod _ 6
  rw [hand, Nat.shiftRight_eq_div_pow]
  omega

/-- The length after a part. -/
theorem Holds.countBits (h : Holds ctx message) (data : Bytes) :
    (ctx.countBits data.length).count0 + (ctx.countBits data.length).count1 * 2 ^ 32 =
        8 * (message ++ data).length % 2 ^ 64 ∧ (ctx.countBits data.length).count0 < 2 ^ 32 := by
  have hcount := h.count
  have hlt := h.count_lt
  simp only [ShaCtx.countBits, Nat.shiftRight_eq_div_pow, Nat.shiftLeft_eq, List.length_append]
  split_ifs <;> omega

/-- **A part is read behind the message.** -/
theorem Holds.update (h : Holds ctx message) (order : ByteOrder) (hlen : data.length < 2 ^ 31) :
    Holds (internalUpdate order ctx data) (message ++ data) := by
  have hplace := h.place
  obtain ⟨hcount, hlt⟩ := h.countBits data
  have hbuffer := h.buffer
  have hrest := h.rest
  have hblocks : takeBlocks 64 compress init (message ++ data) = _ :=
    takeBlocks_append init message data
  have hj : message.length % 64 < 64 := Nat.mod_lt _ (by decide)
  rw [← h.state, ← hrest] at hblocks
  rw [internalUpdate, hplace]
  generalize hmod : message.length % 64 = j at hblocks hj ⊢
  simp only
  split_ifs with hfull
  · have htake : (data.take (64 - j)).length = 64 - j := by rw [List.length_take]; omega
    have hblock : copyInto ctx.buffer j (data.take (64 - j)) =
        ctx.buffer.take j ++ data.take (64 - j) := by
      rw [copyInto, htake, List.drop_of_length_le (by omega), List.append_nil]
    have hlength : (ctx.buffer.take j ++ data.take (64 - j)).length = 64 := by
      rw [List.length_append, List.length_take, htake]
      omega
    have hsplit : ctx.buffer.take j ++ data =
        ctx.buffer.take j ++ data.take (64 - j) ++ data.drop (64 - j) := by
      rw [List.append_assoc, List.take_append_drop]
    -- the first block is filled up, and the loop takes the others
    obtain ⟨hstate, hleft⟩ := blockLoop_eq order data
      (compress ctx.state (ctx.buffer.take j ++ data.take (64 - j))) (64 - j)
    rw [← takeBlocks_block_append hlength, ← hsplit, ← hblocks] at hstate hleft
    have hmodlen : (takeBlocks 64 compress init (message ++ data)).2.length = _ :=
      length_takeBlocks init (message ++ data)
    rw [← hleft] at hmodlen
    simp only [ShaCtx.countBits, hblock, sha1Transform_eq_compress]
    refine ⟨hstate, ?_, hcount, hlt, ?_⟩
    · rw [← hmodlen, ← Nat.zero_add (data.drop _).length, take_copyInto (Nat.zero_le _), hleft,
        List.take_zero, List.nil_append]
    · rw [length_copyInto _, hlength]
      rw [hmodlen, hlength, Nat.zero_add]
      exact Nat.le_of_lt (Nat.mod_lt _ (by decide))
  · have hshort : (ctx.buffer.take j ++ data).length < 64 := by
      rw [List.length_append, List.length_take]
      omega
    rw [takeBlocks_of_lt hshort] at hblocks
    refine ⟨?_, ?_, hcount, hlt, ?_⟩
    · rw [hblocks]
      rfl
    · rw [hblocks, List.length_append, show (message.length + data.length) % 64 = j + data.length by
        omega, ← take_copyInto (by omega)]
      rfl
    · exact (length_copyInto (by simp only [ShaCtx.countBits]; omega)).trans hbuffer

theorem Holds.foldl_update (order : ByteOrder) (parts : List Bytes) :
    ∀ {ctx : ShaCtx} {message : Bytes}, Holds ctx message → (∀ part ∈ parts, part.length < 2 ^ 31) →
      Holds (parts.foldl (internalUpdate order) ctx) (message ++ parts.flatten) := by
  induction parts with
  | nil =>
    intro ctx message h _
    rwa [List.flatten_nil, List.append_nil]
  | cons part parts ih =>
    intro ctx message h hlen
    rw [List.flatten_cons, ← List.append_assoc]
    exact ih (h.update order (hlen part List.mem_cons_self)) fun part' hpart =>
      hlen part' (List.mem_cons_of_mem part hpart)

/-! ### The end of the message -/

/-- When the loop that appends zeros ends. -/
theorem Holds.and_eq_iff (h : Holds ctx message) :
    ctx.count0 &&& 504 = 448 ↔ message.length % 64 = 56 := by
  have hand : ctx.count0 &&& 504 = (ctx.count0 >>> 3 &&& 63) <<< 3 := by
    refine Nat.eq_of_testBit_eq fun i => ?_
    rw [show 504 = 63 <<< 3 by decide, Nat.testBit_and, Nat.testBit_shiftLeft,
      Nat.testBit_shiftLeft, Nat.testBit_and, Nat.testBit_shiftRight]
    by_cases hi : 3 ≤ i
    · rw [Nat.add_sub_cancel' hi]
      simp [hi]
    · simp [hi]
  rw [hand, h.place, Nat.shiftLeft_eq]
  omega

/-- **The loop appends the zeros of the padding.** -/
theorem Holds.zeroLoop (order : ByteOrder) :
    ∀ {fuel : ℕ} {ctx : ShaCtx} {message : Bytes}, Holds ctx message →
    (120 - message.length % 64) % 64 ≤ fuel →
      Holds (zeroLoop order fuel ctx)
        (message ++ List.replicate ((120 - message.length % 64) % 64) 0) := by
  intro fuel
  induction fuel with
  | zero =>
    intro ctx message h hle
    rw [Nat.le_zero.mp hle, List.replicate_zero, List.append_nil]
    exact h
  | succ fuel ih =>
    intro ctx message h hle
    rw [Libtorrent.zeroLoop]
    split_ifs with hmod
    · rw [ne_eq, h.and_eq_iff] at hmod
      have hlength : (message ++ [0]).length = message.length + 1 := List.length_append
      have hnext := ih (h.update order (show [0].length < 2 ^ 31 by decide)) (by omega)
      rwa [List.append_assoc, hlength, ← List.replicate_one, List.replicate_append_replicate,
        show 1 + (120 - (message.length + 1) % 64) % 64 = (120 - message.length % 64) % 64 by
          omega] at hnext
    · rw [not_not, h.and_eq_iff] at hmod
      rw [hmod]
      simpa using h

/-- A byte of a number. -/
theorem ofNat_shiftRight_and (x j : ℕ) :
    UInt8.ofNat (x >>> (j * 8) &&& 255) = UInt8.ofNat (x / 256 ^ j) := by
  have hand : x >>> (j * 8) &&& 255 = x >>> (j * 8) % 256 := Nat.and_two_pow_sub_one_eq_mod _ 8
  refine UInt8.toNat_inj.mp ?_
  rw [hand, UInt8.toNat_ofNat', UInt8.toNat_ofNat', Nat.shiftRight_eq_div_pow, Nat.mul_comm,
    Nat.pow_mul, show 2 ^ 8 = 256 by decide, Nat.mod_mod]

/-- The length, byte by byte. -/
theorem Holds.finalCount (h : Holds ctx message) :
    finalCount ctx = bigEndian 8 (8 * message.length) := by
  have hcount := h.count
  have hlt := h.count_lt
  rw [Libtorrent.finalCount, bigEndian]
  refine List.map_congr_left fun i hi => ?_
  rw [List.mem_range] at hi
  rw [ofNat_shiftRight_and]
  refine UInt8.toNat_inj.mp ?_
  rw [UInt8.toNat_ofNat', UInt8.toNat_ofNat']
  interval_cases i <;> simp <;> omega

/-- The state, byte by byte. -/
theorem stateDigest_eq (state : Chain) : stateDigest state = digest state := by
  simp only [stateDigest, digest, bigEndian, ofNat_shiftRight_and]
  rfl

/-- **At the end, the hash is that of the message.** -/
theorem Holds.final (h : Holds ctx message) (order : ByteOrder) :
    sha1Final order ctx = sha1 message := by
  have hone := h.update order (show [0x80].length < 2 ^ 31 by decide)
  have hzeros := Holds.zeroLoop order hone
    (show (120 - (message ++ [0x80]).length % 64) % 64 ≤ 64 by omega)
  have hlength : (message ++ [0x80]).length = message.length + 1 := List.length_append
  have hcount : (Libtorrent.finalCount ctx).length < 2 ^ 31 := by
    rw [h.finalCount, bigEndian, List.length_map, List.length_range]
    decide
  have hpadded := hzeros.update order hcount
  rw [hlength, show (120 - (message.length + 1) % 64) % 64 = (119 - message.length % 64) % 64 by
    omega, h.finalCount] at hpadded
  rw [sha1Final, stateDigest_eq, sha1, pad, h.finalCount, hpadded.state]

end Context

/-- **The hasher computes SHA-1**, for every way to cut the message into parts, and on machines of
either byte order. -/
theorem sha1Final_eq_sha1 (order : ByteOrder) {buffer : Bytes} (hbuffer : buffer.length = 64)
    {parts : List Bytes} (hparts : ∀ part ∈ parts, part.length < 2 ^ 31) :
    sha1Final order (parts.foldl (internalUpdate order) (sha1Init buffer)) =
      sha1 parts.flatten :=
  (Holds.foldl_update order parts (holds_sha1Init hbuffer) hparts).final order

theorem sha1Final_eq_sha1_abc :
    sha1Final .little ([[97], [98, 99]].foldl (internalUpdate .little)
      (sha1Init (List.replicate 64 0))) = sha1 [97, 98, 99] :=
  sha1Final_eq_sha1 .little List.length_replicate (by decide)

end InstantMirror.Libtorrent
