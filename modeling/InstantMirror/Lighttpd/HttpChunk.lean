import InstantMirror.Lib.HttpMessage
import InstantMirror.Lighttpd.WriteQueue
import Mathlib.Algebra.Ring.Nat

/-!
# Answers in chunks

`http_chunk.c`: the pieces of a body are appended to the write queue. If the answer is sent in
chunks, each piece has its size in front of it, in hexadecimal digits, and the end of a line behind
it, and the end of the body is a chunk without bytes.

The size is written with eight digits at most, and a piece without bytes is taken for the end; for
other pieces a client gets back what was appended, in whatever pieces that was
(`InstantMirror.dechunk_appendPieces`).
-/

namespace InstantMirror

/-! ### The source -/

/-- A hexadecimal digit. -/
def sizeDigit (d : ℕ) : UInt8 := UInt8.ofNat (if d ≤ 9 then d + 48 else d + 87)

/-- How many digits there are, up to a number of them. -/
def sizeCount : ℕ → ℕ → ℕ
  | 0, _ => 0
  | i + 1, len => if len = 0 then 0 else sizeCount i (len / 16) + 1

/-- So many digits, which are written from the last one on. -/
def sizeDigits : ℕ → ℕ → Bytes
  | 0, _ => []
  | i + 1, len => sizeDigits i (len / 16) ++ [sizeDigit (len % 16)]

/-- The size of a chunk, as it is written. -/
def chunkSize (len : ℕ) : Bytes := if len = 0 then [48] else sizeDigits (sizeCount 8 len) len

/-- `chunkqueue_append_mem`, of bytes and their NUL. -/
def chunkqueueAppendMem (mem : Bytes) (q : List OutChunk) : List OutChunk :=
  q ++ [.mem ⟨some mem, 0⟩]

/-- **`http_chunk_append_len`.** -/
def httpChunkAppendLen (len : ℕ) (q : List OutChunk) : List OutChunk :=
  chunkqueueAppendBuffer (some (chunkSize len ++ crlf)) q

/-- The size goes in front of a piece. -/
def beginChunk (chunked : Bool) (len : ℕ) (q : List OutChunk) : List OutChunk :=
  if chunked then httpChunkAppendLen len q else q

/-- The end of a line goes behind it. -/
def endChunk (chunked : Bool) (q : List OutChunk) : List OutChunk :=
  if chunked then chunkqueueAppendMem crlf q else q

/-- **`http_chunk_append_file`.** -/
def httpChunkAppendFile (chunked : Bool) (fn : Bytes) (offset len : ℕ) (q : List OutChunk) :
    List OutChunk :=
  endChunk (chunked && decide (0 < len))
    (chunkqueueAppendFile fn offset len (beginChunk chunked len q))

/-- `SIZE_MAX`. -/
def sizeMax : ℕ := 18446744073709551615

/-- **`http_chunk_append_buffer`**; `none` is a buffer with `used == 0`. -/
def httpChunkAppendBuffer (chunked : Bool) (mem : Option Bytes) (q : List OutChunk) :
    List OutChunk :=
  endChunk (chunked && mem.isSome)
    (chunkqueueAppendBuffer mem (beginChunk chunked (mem.elim sizeMax List.length) q))

/-- **`http_chunk_append_mem`**; `none` is the end of the body. -/
def httpChunkAppendMem (chunked : Bool) (mem : Option Bytes) (q : List OutChunk) :
    List OutChunk :=
  match mem with
  | none => chunkqueueAppendMem (if chunked then ascii "0" ++ crlf ++ crlf else []) q
  | some mem => endChunk chunked (chunkqueueAppendMem mem (beginChunk chunked mem.length q))

/-! ### Sizes -/

theorem hexValue_sizeDigit {d : ℕ} (hd : d < 16) : hexValue (sizeDigit d) = some d := by
  have hall : ∀ d < 16, hexValue (sizeDigit d) = some d := by decide
  exact hall d hd

theorem sizeDigit_ne {d : ℕ} (hd : d < 16) : sizeDigit d ≠ 13 := by
  have hall : ∀ d < 16, sizeDigit d ≠ 13 := by decide
  exact hall d hd

/-- The digits are those of the number modulo a power of 16. -/
theorem hexNumber_sizeDigits (i len : ℕ) :
    hexNumber 0 (sizeDigits i len) = some (len % 16 ^ i) := by
  induction i generalizing len with
  | zero => simp [sizeDigits, hexNumber, Nat.mod_one]
  | succ i ih =>
    have hlt : len % 16 < 16 := Nat.mod_lt _ (by omega)
    have hmod : len % 16 ^ (i + 1) = 16 * (len / 16 % 16 ^ i) + len % 16 := by
      rw [Nat.pow_succ', Nat.mod_mul]
      omega
    rw [sizeDigits, hexNumber_append, ih, Option.bind_some, hexNumber, hexValue_sizeDigit hlt, hmod]
    rfl

theorem not_mem_sizeDigits (i len : ℕ) : 13 ∉ sizeDigits i len := by
  induction i generalizing len with
  | zero => exact List.not_mem_nil
  | succ i ih =>
    intro h
    rcases List.mem_append.mp h with h | h
    · exact ih _ h
    · exact sizeDigit_ne (Nat.mod_lt _ (by omega)) (List.mem_singleton.mp h).symm

/-- The digits that are counted are enough. -/
theorem lt_pow_sizeCount {i len : ℕ} (h : len < 16 ^ i) : len < 16 ^ sizeCount i len := by
  induction i generalizing len with
  | zero => exact h
  | succ i ih =>
    rw [sizeCount]
    split_ifs with hzero
    · rw [hzero, Nat.pow_zero]
      exact Nat.one_pos
    · have hdiv : len / 16 < 16 ^ i := by
        rw [Nat.div_lt_iff_lt_mul (by omega)]
        rwa [Nat.pow_succ] at h
      have := ih hdiv
      rw [Nat.pow_succ]
      omega

/-- **A size is read as it was written**, if it is less than `2 ^ 32`. -/
theorem hexNumber_chunkSize {len : ℕ} (hlen : len < 4294967296) :
    hexNumber 0 (chunkSize len) = some len := by
  rw [chunkSize]
  split_ifs with hzero
  · rw [hzero]
    decide
  · have hpow : len < 16 ^ 8 := hlen
    rw [hexNumber_sizeDigits, Nat.mod_eq_of_lt (lt_pow_sizeCount hpow)]

theorem chunkSize_ne_nil (len : ℕ) : chunkSize len ≠ [] := by
  rw [chunkSize]
  split_ifs with hzero
  · exact List.cons_ne_nil _ _
  · rw [sizeCount, if_neg hzero, sizeDigits]
    exact List.append_ne_nil_of_right_ne_nil _ (List.cons_ne_nil _ _)

theorem not_mem_chunkSize (len : ℕ) : 13 ∉ chunkSize len := by
  rw [chunkSize]
  split_ifs
  · decide
  · exact not_mem_sizeDigits _ _

/-! ### Bodies -/

/-- **What may be appended to a body.** -/
inductive Piece where
  /-- `http_chunk_append_file`. -/
  | file (fn : Bytes) (offset len : ℕ) : Piece
  /-- `http_chunk_append_buffer`. -/
  | buffer (m : Bytes) : Piece
  /-- `http_chunk_append_mem`. -/
  | mem (m : Bytes) : Piece

namespace Piece

/-- It is appended. -/
def append (chunked : Bool) (q : List OutChunk) : Piece → List OutChunk
  | file fn offset len => httpChunkAppendFile chunked fn offset len q
  | buffer m => httpChunkAppendBuffer chunked (some m) q
  | mem m => httpChunkAppendMem chunked (some m) q

/-- Its bytes. -/
def data (files : Bytes → Bytes) : Piece → Bytes
  | file fn offset len => ((files fn).drop offset).take len
  | buffer m => m
  | mem m => m

/-- The length that is written in front of it. -/
def length : Piece → ℕ
  | file _ _ len => len
  | buffer m => m.length
  | mem m => m.length

/-- The file has what is asked of it. -/
def InFile (files : Bytes → Bytes) : Piece → Prop
  | file fn offset len => offset + len ≤ (files fn).length
  | _ => True

end Piece

section Bodies

variable {files : Bytes → Bytes}

theorem Piece.length_data {p : Piece} (h : p.InFile files) : (p.data files).length = p.length := by
  rcases p with ⟨fn, offset, len⟩ | m | m
  · have hle : offset + len ≤ (files fn).length := h
    rw [Piece.data, List.length_take, List.length_drop, Piece.length]
    omega
  · rfl
  · rfl

theorem unsent_appendMem (mem : Bytes) (q : List OutChunk) :
    unsent files (q ++ [.mem ⟨some mem, 0⟩]) = unsent files q ++ mem := by
  rw [unsent_append]
  simp [unsent, OutChunk.data, Chunk.data, Chunk.bytes]

theorem unsent_appendFile (fn : Bytes) (offset len : ℕ) (q : List OutChunk) :
    unsent files (chunkqueueAppendFile fn offset len q) =
      unsent files q ++ ((files fn).drop offset).take len := by
  rw [chunkqueueAppendFile]
  split_ifs with hzero
  · simp [hzero]
  · rw [unsent_append]
    simp [unsent, OutChunk.data]

theorem unsent_beginChunk (chunked : Bool) (len : ℕ) (q : List OutChunk) :
    unsent files (beginChunk chunked len q) =
      unsent files q ++ if chunked then chunkSize len ++ crlf else [] := by
  rw [beginChunk]
  split_ifs
  · exact unsent_appendMem _ q
  · rw [List.append_nil]

theorem unsent_endChunk (chunked : Bool) (q : List OutChunk) :
    unsent files (endChunk chunked q) = unsent files q ++ if chunked then crlf else [] := by
  rw [endChunk]
  split_ifs
  · exact unsent_appendMem _ q
  · rw [List.append_nil]

/-- What is written for a piece. -/
def Piece.text (files : Bytes → Bytes) (chunked : Bool) (p : Piece) : Bytes :=
  if chunked then chunkSize p.length ++ crlf ++ p.data files ++ crlf else p.data files

/-- **A piece is appended.** -/
theorem unsent_append_piece {chunked : Bool} {p : Piece} (hp : chunked = true → 0 < p.length)
    (q : List OutChunk) :
    unsent files (p.append chunked q) = unsent files q ++ p.text files chunked := by
  rcases p with ⟨fn, offset, len⟩ | m | m
  -- a file without bytes gets no end of a line, the others always get theirs
  · have hend : (chunked && decide (0 < len)) = chunked := by
      cases chunked with
      | false => rfl
      | true => exact decide_eq_true (hp rfl)
    rw [Piece.append, httpChunkAppendFile, unsent_endChunk, unsent_appendFile, unsent_beginChunk,
      hend, Piece.text]
    cases chunked <;> simp [Piece.length, Piece.data]
  · rw [Piece.append, httpChunkAppendBuffer, unsent_endChunk, chunkqueueAppendBuffer,
      if_neg (by simp), unsent_appendMem, unsent_beginChunk, Piece.text]
    cases chunked <;> simp [Piece.length, Piece.data]
  · rw [Piece.append, httpChunkAppendMem, unsent_endChunk, chunkqueueAppendMem, unsent_appendMem,
      unsent_beginChunk, Piece.text]
    cases chunked <;> simp [Piece.length, Piece.data]

/-- **Pieces are appended.** -/
theorem unsent_foldl_append {chunked : Bool} {pieces : List Piece}
    (hpieces : chunked = true → ∀ p ∈ pieces, 0 < p.length) (q : List OutChunk) :
    unsent files (pieces.foldl (Piece.append chunked) q) =
      unsent files q ++ (pieces.map (Piece.text files chunked)).flatten := by
  induction pieces generalizing q with
  | nil => simp
  | cons p pieces ih =>
    rw [List.foldl_cons, ih (fun h => (List.forall_mem_cons.mp (hpieces h)).2),
      unsent_append_piece (fun h => (List.forall_mem_cons.mp (hpieces h)).1), List.map_cons,
      List.flatten_cons, List.append_assoc]

theorem isChunk_text {p : Piece} (hpos : 0 < p.length) (hlt : p.length < 4294967296)
    (hfile : p.InFile files) : IsChunk (p.data files) (p.text files true) := by
  have hlen := Piece.length_data hfile
  refine ⟨fun h => ?_, chunkSize p.length, rfl, chunkSize_ne_nil _, not_mem_chunkSize _, ?_⟩
  · rw [h, List.length_nil] at hlen
    omega
  · rw [hexNumber_chunkSize hlt, hlen]

end Bodies

/-- The write queue after a body in chunks. -/
def appendPieces (pieces : List Piece) (q : List OutChunk) : List OutChunk :=
  httpChunkAppendMem true none (pieces.foldl (Piece.append true) q)

/-- **A body in chunks is read as it was appended**, and what comes behind it is left over. -/
theorem dechunk_appendPieces (files : Bytes → Bytes) (pieces : List Piece)
    (hfile : ∀ p ∈ pieces, p.InFile files) (hpos : ∀ p ∈ pieces, 0 < p.length)
    (hlt : ∀ p ∈ pieces, p.length < 4294967296) (rest : Bytes) :
    let s := unsent files (appendPieces pieces []) ++ rest
    dechunk (s.length + 1) s = some ((pieces.map (Piece.data files)).flatten, rest) := by
  let chunks := pieces.map fun p => (p.data files, p.text files true)
  have hdata : (chunks.map Prod.fst).flatten = (pieces.map (Piece.data files)).flatten := by
    simp [chunks, Function.comp_def]
  have htext : (chunks.map Prod.snd).flatten = (pieces.map (Piece.text files true)).flatten := by
    simp [chunks, Function.comp_def]
  have hchunks : ∀ c ∈ chunks, IsChunk c.1 c.2 := by
    intro c hc
    obtain ⟨p, hp, rfl⟩ := List.mem_map.mp hc
    exact isChunk_text (hpos p hp) (hlt p hp) (hfile p hp)
  have hs : unsent files (appendPieces pieces []) ++ rest =
      (chunks.map Prod.snd).flatten ++ 48 :: (crlf ++ (crlf ++ rest)) := by
    rw [appendPieces, httpChunkAppendMem, chunkqueueAppendMem, unsent_appendMem,
      unsent_foldl_append (fun _ => hpos), htext]
    simp [unsent, ascii]
  rw [← hdata]
  exact dechunk_append hchunks hs

/-- Two pieces, one of them a file. -/
theorem dechunk_appendPieces_threeBytes :
    let s := unsent threeBytes (appendPieces [.mem [72], .file [] 1 2] []) ++ [7]
    s = ascii "1" ++ crlf ++ [72] ++ crlf ++ ascii "2" ++ crlf ++ [2, 3] ++ crlf ++ ascii "0" ++
        crlf ++ crlf ++ [7] ∧
      dechunk (s.length + 1) s = some ([72, 2, 3], [7]) :=
  ⟨by decide, dechunk_appendPieces threeBytes [.mem [72], .file [] 1 2]
    (by simp [Piece.InFile, threeBytes]) (by simp [Piece.length]) (by simp [Piece.length]) [7]⟩

/-- A piece without bytes ends the body: the client does not see what comes behind it. -/
example : let s := unsent threeBytes (appendPieces [.buffer [], .mem [72]] [])
    (dechunk (s.length + 1) s).map Prod.fst = some [] := by decide

end InstantMirror
