import InstantMirror.Libtorrent.Hasher
import InstantMirror.Libtorrent.Storage
import InstantMirror.Libtorrent.TorrentInvariant

/-!
# The hashes of pieces

A piece is hashed before it counts as downloaded. To read it back for that would be slow, so
`piece_manager` hashes a block as it is written, as long as the blocks of a piece come in order,
and reads only the rest (`InstantMirror.Libtorrent.writeImpl`,
`InstantMirror.Libtorrent.hashForPieceImpl`). The rest is read in one go or block by block, as it
is set up (`InstantMirror.Libtorrent.hashForSlot`), and a second hash can be taken on the way.

What is compared with the torrent is the hash of what is on the disk
(`InstantMirror.Libtorrent.hashForPieceImpl_eq_sha1`), for every order in which the blocks of all
the pieces were written. This takes four things: nothing is written over a part of a piece that has
been hashed, what peers send for a pad file is zeros, pad files end where a piece ends, and the
reads are whole – `hash_for_piece_impl` does not look at how many bytes `hash_for_slot` has read.
-/

namespace InstantMirror.Libtorrent

/-! ### Hashing a slot -/

/-- **A `partial_hash`.** -/
structure PartialHash where
  /-- `offset`: how many bytes of the piece have been hashed. -/
  offset : ℕ
  /-- `h`. -/
  h : ShaCtx

/-- **How pieces are hashed.** -/
structure HashSettings where
  /-- The byte order of the machine. -/
  order : ByteOrder
  /-- What is in the buffer of a new context. -/
  junk : Bytes
  /-- It has its size. -/
  length_junk : junk.length = 64
  /-- `optimize_hashing_for_speed`. -/
  optimizeForSpeed : Bool
  /-- `block_size`. -/
  blockSize : ℕ
  /-- It is not zero. -/
  blockSize_pos : 0 < blockSize
  /-- It is an `int`. -/
  blockSize_lt : blockSize < 2 ^ 31
  /-- What is in a buffer of the pool. -/
  allocate : ℕ → ℕ → Bytes
  /-- It has its size. -/
  length_allocate : ∀ i n, (allocate i n).length = n

/-- A new `partial_hash`. -/
def HashSettings.newHash (S : HashSettings) : PartialHash := ⟨0, sha1Init S.junk⟩

/-- The sizes of the buffers, for so many blocks. -/
def blockSizes (blockSize : ℕ) : ℕ → ℕ → List ℕ
  | 0, _ => []
  | numBlocks + 1, size =>
    min blockSize size :: blockSizes blockSize numBlocks (size - min blockSize size)

/-- What is in the buffers after a read. -/
def fillBufs : List Bytes → Bytes → List Bytes
  | [], _ => []
  | buf :: bufs, read => (read.take buf.length ++ buf.drop read.length) ::
    fillBufs bufs (read.drop buf.length)

/-- **The variables of `hash_for_slot`.** -/
structure SlotHash where
  /-- `ph`. -/
  ph : PartialHash
  /-- `small_piece_size`, as long as `small_hash` is not null. -/
  small : Option ℕ
  /-- What has been stored in `small_hash`. -/
  smallHash : Option Bytes
  /-- `num_read`. -/
  numRead : ℤ
  /-- `error()`. -/
  error : Bool

/-- The context where the small hash is taken. -/
def hashUpTo (S : HashSettings) (n : ℕ) (h : ShaCtx) (data : Bytes) : ShaCtx :=
  if S.optimizeForSpeed || decide (0 < n) then internalUpdate S.order h (data.take n) else h

/-- **One buffer is hashed**, and perhaps the small hash is taken on the way. -/
def hashBuffer (S : HashSettings) (s : SlotHash) (data : Bytes) : SlotHash :=
  let offset := s.ph.offset + data.length
  match s.small with
  | some n =>
    if n < S.blockSize then
      { s with
        ph := ⟨offset, internalUpdate S.order (hashUpTo S n s.ph.h data) (data.drop n)⟩
        small := none
        smallHash := some (sha1Final S.order (hashUpTo S n s.ph.h data)) }
    else { s with
      ph := ⟨offset, internalUpdate S.order s.ph.h data⟩
      small := some (n - data.length) }
  | none => { s with ph := ⟨offset, internalUpdate S.order s.ph.h data⟩ }

section HashSlot

variable (S : HashSettings) (F : Files) (disk : SavedFiles) (slot : ℕ) (io : ℕ → Transfers)

/-- **All buffers are filled by one read**, and then hashed. -/
def hashAtOnce (sizes : List ℕ) (s : SlotHash) : SlotHash :=
  let bufs := sizes.mapIdx S.allocate
  let (ret, read) := readv F disk (io 0) bufs slot s.ph.offset
  (fillBufs bufs read).foldl (hashBuffer S)
    { s with numRead := ret, error := s.error || decide (ret = -1) }

/-- One block is read and hashed. -/
def hashBlock (i n : ℕ) (s : SlotHash) : SlotHash :=
  let (ret, read) := readv F disk (io i) [S.allocate i n] slot s.ph.offset
  let numRead := if 0 < ret then s.numRead + ret else s.numRead
  hashBuffer S { s with numRead := numRead, error := s.error || decide (ret = -1) }
    (fillBufs [S.allocate i n] read).flatten

/-- **Block by block**: each is read and hashed. -/
def hashByBlock : ℕ → List ℕ → SlotHash → SlotHash
  | _, [], s => s
  | i, n :: sizes, s => hashByBlock (i + 1) sizes (hashBlock S F disk slot io i n s)

/-- **`hash_for_slot`**, with its variables at the end; what is returned is in `numRead`. -/
def hashForSlot (ph : PartialHash) (pieceSize : ℕ) (small : Option ℕ) : SlotHash :=
  let s : SlotHash := ⟨ph, small, none, 0, false⟩
  let size := pieceSize - ph.offset
  if 0 < size then
    let sizes := blockSizes S.blockSize ((size + S.blockSize - 1) / S.blockSize) size
    let s' := if S.optimizeForSpeed then hashAtOnce S F disk slot io sizes s
      else hashByBlock S F disk slot io 0 sizes s
    if s'.error then { s' with numRead := 0 } else s'
  else s

end HashSlot

/-! ### Pieces -/

/-- **A `piece_manager`** in full allocation, where a piece is in the slot of its number. -/
structure PieceManager where
  /-- What is on the disk. -/
  disk : SavedFiles
  /-- `m_piece_hasher`. -/
  hashers : ℕ → Option PartialHash

/-- **`write_impl`.** -/
def writeImpl (S : HashSettings) (F : Files) (io : Transfers) (bufs : List Bytes)
    (piece offset : ℕ) (m : PieceManager) : ℤ × PieceManager :=
  let written := writev F io bufs piece offset m.disk
  let m' : PieceManager := { m with disk := written.2 }
  if written.1 ≠ bufsSize bufs then (written.1, m')
  else
    -- an entry that is there already is not made new, only its offset
    let found := if offset = 0 then some (⟨0, ((m.hashers piece).getD S.newHash).h⟩ : PartialHash)
      else m.hashers piece
    match found with
    | none => (written.1, m')
    | some ph =>
      if offset = ph.offset then
        (written.1, { m' with hashers := Function.update m.hashers piece (some
          ⟨ph.offset + bufsSize bufs, bufs.foldl (internalUpdate S.order) ph.h⟩) })
      else (written.1, m')

/-- **`hash_for_piece_impl`**: the hash, and how many bytes were read for it. -/
def hashForPieceImpl (S : HashSettings) (F : Files) (io : ℕ → Transfers) (piece : ℕ)
    (m : PieceManager) : Bytes × ℤ × PieceManager :=
  let ph := (m.hashers piece).getD S.newHash
  let s := hashForSlot S F m.disk piece io ph (F.layout.pieceSize piece) none
  (if s.error then List.replicate 20 0 else sha1Final S.order s.ph.h, s.numRead,
    { m with hashers := Function.update m.hashers piece none })

/-! ### Blocks of a piece -/

section Layout

variable {F : Files} {slot offset size : ℕ}

theorem Files.pieceSize_le (F : Files) (slot : ℕ) : F.layout.pieceSize slot ≤ F.pieceLength := by
  rw [Layout.pieceSize]
  split_ifs
  · have hle := le_roundUp_mul F.totalSize F.pieceLength_pos
    have hnum : F.layout.numPieces = (F.totalSize + F.pieceLength - 1) / F.pieceLength := rfl
    rw [← hnum] at hle
    rw [show F.layout.totalSize = F.totalSize from rfl,
      show F.layout.pieceLength = F.pieceLength from rfl]
    rcases Nat.eq_zero_or_pos F.layout.numPieces with hzero | hpos
    · rw [hzero, Nat.zero_mul] at hle
      omega
    · have hmul : F.layout.numPieces * F.pieceLength =
          (F.layout.numPieces - 1) * F.pieceLength + F.pieceLength := by
        rw [← Nat.succ_mul, Nat.succ_eq_add_one, Nat.sub_add_cancel hpos]
      omega
  · exact Nat.le_refl _

/-- A piece is in the torrent. -/
theorem Files.piece_le_totalSize (h : slot < F.layout.numPieces) :
    slot * F.pieceLength + F.layout.pieceSize slot ≤ F.totalSize := by
  have hlast : (F.layout.numPieces - 1) * F.pieceLength ≤ F.totalSize := by
    have hpos := F.pieceLength_pos
    have hmul : F.layout.numPieces * F.pieceLength ≤ F.totalSize + F.pieceLength - 1 :=
      Nat.div_mul_le_self _ _
    rw [Nat.sub_mul]
    omega
  rw [Layout.pieceSize]
  split_ifs with heq
  · rw [heq, show F.layout.totalSize = F.totalSize from rfl,
      show F.layout.pieceLength = F.pieceLength from rfl]
    omega
  · have hmul : (slot + 1) * F.pieceLength ≤ (F.layout.numPieces - 1) * F.pieceLength :=
      Nat.mul_le_mul_right _ (by omega)
    rw [Nat.succ_mul] at hmul
    rw [show F.layout.pieceLength = F.pieceLength from rfl]
    omega

/-- **Pad files end where a piece ends**, or the torrent. -/
def Files.PadsEndPieces (F : Files) : Prop :=
  ∀ i < F.entries.length, ((F.entries[i]?).any StorageFile.padFile) = true →
    F.pieceLength ∣ F.fileOffset (i + 1) ∨ F.fileOffset (i + 1) = F.totalSize

/-- Then no block goes on behind a pad file. -/
theorem Files.PadsEndPieces.overrunsPad (hpads : F.PadsEndPieces)
    (hslot : slot < F.layout.numPieces) (hfits : offset + size ≤ F.layout.pieceSize slot) :
    overrunsPad F (slot * F.pieceLength + offset) size = false := by
  by_contra hover
  rw [Bool.not_eq_false, Libtorrent.overrunsPad, Option.any_eq_true] at hover
  obtain ⟨⟨i, o⟩, hplace, hover⟩ := hover
  obtain ⟨f, hf, hover⟩ := (Option.any_eq_true _ _).mp hover
  simp only [Bool.and_eq_true, decide_eq_true_eq] at hover
  obtain ⟨⟨hpad, hpos⟩, hlt⟩ := hover
  obtain ⟨size', hsize, ho, hstart⟩ := locateFrom_eq_some hplace
  simp only at hf hsize ho hstart hpos hlt
  have hle := Files.piece_le_totalSize hslot
  have hlen := F.pieceSize_le slot
  have hend : F.fileOffset (i + 1) = F.fileOffset i + f.size := by
    rw [F.fileOffset_eq, F.fileOffset_eq]
    refine extent_take_succ ?_
    rw [F.getElem?_sizes, hf]
    rfl
  rw [F.getElem?_sizes, hf, Option.map_some, Option.some.injEq] at hsize
  rw [← F.fileOffset_eq] at hstart
  rcases hpads i (List.getElem?_eq_some_iff.mp hf).1 (by rw [hf]; exact hpad) with hdvd | htotal
  · obtain ⟨q, hq⟩ := hdvd
    -- the end would be inside the piece
    rw [Nat.mul_comm] at hq
    have hlow : slot * F.pieceLength < q * F.pieceLength := by omega
    have hhigh : q * F.pieceLength < (slot + 1) * F.pieceLength := by rw [Nat.succ_mul]; omega
    have := Nat.lt_of_mul_lt_mul_right hlow
    have := Nat.lt_of_mul_lt_mul_right hhigh
    omega
  · omega

/-- **A block of a piece.** -/
def Files.block (hpads : F.PadsEndPieces) (hslot : slot < F.layout.numPieces) (bufs : List Bytes)
    (hfits : offset + bufsSize bufs ≤ F.layout.pieceSize slot) : Block F where
  bufs := bufs
  slot := slot
  offset := offset
  fits := hfits
  inside := by
    have hle := Files.piece_le_totalSize hslot
    omega
  notOverPad := hpads.overrunsPad hslot hfits

end Layout

/-! ### Hashing buffers -/

section Hashing

variable {S : HashSettings} {cut : Option ℕ} {s : SlotHash} {message data : Bytes}

theorem flatten_fillBufs : ∀ {bufs : List Bytes} {read : Bytes},
    read.length = bufs.flatten.length → (fillBufs bufs read).flatten = read := by
  intro bufs
  induction bufs with
  | nil =>
    intro read h
    exact (List.eq_nil_of_length_eq_zero h).symm
  | cons buf bufs ih =>
    intro read h
    rw [List.flatten_cons, List.length_append] at h
    rw [fillBufs, List.flatten_cons, ih (by rw [List.length_drop]; omega),
      List.drop_of_length_le (by omega), List.append_nil, List.take_append_drop]

theorem map_length_fillBufs : ∀ (bufs : List Bytes) (read : Bytes),
    (fillBufs bufs read).map List.length = bufs.map List.length := by
  intro bufs
  induction bufs with
  | nil => exact fun _ => rfl
  | cons buf bufs ih =>
    intro read
    rw [fillBufs, List.map_cons, List.map_cons, ih, List.length_append, List.length_take,
      List.length_drop]
    congr 1
    omega

theorem extent_blockSizes {blockSize : ℕ} : ∀ {numBlocks size : ℕ}, size ≤ numBlocks * blockSize →
    extent (blockSizes blockSize numBlocks size) = size := by
  intro numBlocks
  induction numBlocks with
  | zero =>
    intro size h
    rw [Nat.zero_mul] at h
    exact (Nat.le_zero.mp h).symm
  | succ numBlocks ih =>
    intro size h
    rw [Nat.succ_mul] at h
    rw [blockSizes, extent_cons, ih (by omega)]
    omega

/-- **What has been hashed**, and the small hash: it is taken where the message is cut. -/
structure Hashed (S : HashSettings) (cut : Option ℕ) (s : SlotHash) (message : Bytes) : Prop where
  /-- The context. -/
  holds : Holds s.ph.h message
  /-- The offset. -/
  offset : s.ph.offset = message.length
  /-- The small hash is still to be taken. -/
  small : ∀ n, s.small = some n → cut = some (message.length + n)
  /-- It has been taken. -/
  taken : s.small = none → ∀ c, cut = some c →
    c ≤ message.length ∧ s.smallHash = some (sha1 (message.take c))

theorem Holds.hashUpTo {ctx : ShaCtx} (h : Holds ctx message) {n : ℕ}
    (hdata : data.length < 2 ^ 31) : Holds (hashUpTo S n ctx data) (message ++ data.take n) := by
  rw [Libtorrent.hashUpTo]
  split_ifs with hif
  · exact h.update S.order (by rw [List.length_take]; omega)
  · rw [Bool.or_eq_true, not_or, decide_eq_true_eq] at hif
    rw [show n = 0 by omega, List.take_zero, List.append_nil]
    exact h

/-- **One buffer.** -/
theorem Hashed.hashBuffer (h : Hashed S cut s message) (hle : data.length ≤ S.blockSize)
    (hcut : ∀ n, s.small = some n → n < S.blockSize → n ≤ data.length) :
    Hashed S cut (hashBuffer S s data) (message ++ data) := by
  have hdata := Nat.lt_of_le_of_lt hle S.blockSize_lt
  have hlength : (message ++ data).length = message.length + data.length := List.length_append
  have hoffset := h.offset
  rw [Libtorrent.hashBuffer]
  rcases hsmall : s.small with _ | n
  · refine ⟨h.holds.update S.order hdata, by rw [hlength, ← hoffset], fun n hn => ?_,
      fun _ c hc => ?_⟩
    · exact absurd hn (Option.some_ne_none n).symm
    · obtain ⟨hcle, hhash⟩ := h.taken hsmall c hc
      rw [hlength, List.take_append_of_le_length hcle]
      exact ⟨by omega, hhash⟩
  · have hcutn := h.small n hsmall
    simp only
    split_ifs with hlt
    · have hn := hcut n hsmall hlt
      have hfirst : Holds (hashUpTo S n s.ph.h data) _ := h.holds.hashUpTo hdata
      have hsecond := hfirst.update S.order
        (show (data.drop n).length < 2 ^ 31 by rw [List.length_drop]; omega)
      rw [List.append_assoc, List.take_append_drop] at hsecond
      refine ⟨hsecond, by rw [hlength, ← hoffset], fun n' hn' => ?_, fun _ c hc => ?_⟩
      · exact absurd hn' (Option.some_ne_none n').symm
      · rw [hcutn, Option.some.injEq] at hc
        simp only
        rw [hfirst.final S.order, ← hc, hlength, List.take_length_add_append]
        exact ⟨by omega, rfl⟩
    · refine ⟨h.holds.update S.order hdata, by rw [hlength, ← hoffset], fun n' hn' => ?_,
        fun hnone => absurd hnone (Option.some_ne_none _)⟩
      obtain rfl := Option.some.inj hn'
      rw [hcutn, hlength]
      congr 1
      omega

/-- **The buffers of a slot**, one after another. -/
theorem Hashed.foldl_hashBuffer : ∀ {numBlocks size : ℕ} {datas : List Bytes} {s : SlotHash}
    {message : Bytes}, datas.map List.length = blockSizes S.blockSize numBlocks size →
    Hashed S cut s message → (∀ c, cut = some c → c ≤ message.length + size) →
      Hashed S cut (datas.foldl (Libtorrent.hashBuffer S) s) (message ++ datas.flatten) := by
  intro numBlocks
  induction numBlocks with
  | zero =>
    intro size datas s message hsizes h _
    obtain rfl := List.map_eq_nil_iff.mp hsizes
    rwa [List.flatten_nil, List.append_nil]
  | succ numBlocks ih =>
    intro size datas s message hsizes h hcut
    rw [blockSizes] at hsizes
    obtain ⟨data, rest, rfl, hlength, hrest⟩ := List.map_eq_cons_iff.mp hsizes
    have hnext := h.hashBuffer (show data.length ≤ S.blockSize by omega) fun n hn hlt => by
      have := hcut _ (h.small n hn)
      omega
    rw [List.flatten_cons, ← List.append_assoc]
    refine ih hrest hnext fun c hc => ?_
    have := hcut c hc
    rw [List.length_append]
    omega

end Hashing

/-! ### Reading and hashing a slot -/

/-- **Bytes are on the disk**, from this position of the torrent on. -/
def Files.HasBytes (F : Files) (disk : SavedFiles) (start : ℕ) (bytes : Bytes) : Prop :=
  bytes.map some = (List.range' start bytes.length).map (F.byte disk)

section HasBytes

variable {F : Files} {disk : SavedFiles} {start : ℕ} {bytes bytes' : Bytes}

theorem Files.hasBytes_iff : F.HasBytes disk start bytes ↔
    ∀ i < bytes.length, F.byte disk (start + i) = bytes[i]? := by
  rw [Files.HasBytes]
  constructor
  · intro h i hi
    have hget := congrArg (·[i]?) h
    simp only [List.getElem?_map] at hget
    rw [List.getElem?_range' hi, Nat.one_mul, Option.map_some, List.getElem?_eq_getElem hi,
      Option.map_some, Option.some.injEq] at hget
    rw [← hget, List.getElem?_eq_getElem hi]
  · intro h
    refine List.ext_getElem (by simp) fun i hi _ => ?_
    rw [List.length_map] at hi
    rw [List.getElem_map, List.getElem_map, List.getElem_range', Nat.one_mul, h i hi,
      List.getElem?_eq_getElem hi]

theorem Files.HasBytes.append (h : F.HasBytes disk start bytes)
    (h' : F.HasBytes disk (start + bytes.length) bytes') :
    F.HasBytes disk start (bytes ++ bytes') := by
  rw [Files.HasBytes] at h h' ⊢
  rw [List.map_append, h, h', List.length_append, ← List.map_append, List.range'_append_1]

/-- What is read is on the disk. -/
theorem Block.hasBytes_read {block : Block F} {io : Transfers}
    (hok : (block.read io disk).1 = block.size) : (block.read io disk).2.length = block.size ∧
      F.HasBytes disk block.start (block.read io disk).2 := by
  have hread := Block.map_read hok
  have hlength := congrArg List.length hread
  rw [List.length_map, List.length_map, List.length_range'] at hlength
  rw [Files.HasBytes, hlength]
  exact ⟨rfl, hread⟩

end HasBytes

section ReadSlot

variable (S : HashSettings) {F : Files} (disk : SavedFiles) {slot : ℕ} (io : ℕ → Transfers)
  {cut : Option ℕ}

/-- What else there is about a buffer. -/
theorem hashBuffer_frame (s : SlotHash) (data : Bytes) :
    (hashBuffer S s data).numRead = s.numRead ∧
      (hashBuffer S s data).ph.offset = s.ph.offset + data.length := by
  rw [hashBuffer]
  rcases s.small with _ | n
  · exact ⟨rfl, rfl⟩
  · simp only
    split_ifs <;> exact ⟨rfl, rfl⟩

theorem numRead_foldl_hashBuffer (datas : List Bytes) : ∀ s : SlotHash,
    (datas.foldl (hashBuffer S) s).numRead = s.numRead := by
  induction datas with
  | nil => exact fun _ => rfl
  | cons data datas ih =>
    intro s
    rw [List.foldl_cons, ih, (hashBuffer_frame S s data).1]

theorem HashSettings.map_length_allocate (S : HashSettings) (sizes : List ℕ) :
    (sizes.mapIdx S.allocate).map List.length = sizes := by
  refine List.ext_getElem (by simp) fun i hi _ => ?_
  rw [List.getElem_map, List.getElem_mapIdx, S.length_allocate]

variable (hpads : F.PadsEndPieces) (hslot : slot < F.layout.numPieces)

include hpads hslot

/-- **What a read in a piece gives.** -/
theorem readv_spec (transfers : Transfers) {bufs : List Bytes} {offset : ℕ}
    (hfits : offset + bufsSize bufs ≤ F.layout.pieceSize slot) :
    (readv F disk transfers bufs slot offset).1 ≤ bufsSize bufs ∧
      ((readv F disk transfers bufs slot offset).1 = bufsSize bufs →
        (readv F disk transfers bufs slot offset).2.length = bufsSize bufs ∧
          F.HasBytes disk (slot * F.pieceLength + offset)
            (readv F disk transfers bufs slot offset).2) ∧
      (transfers.Whole → (∀ i < bufsSize bufs,
          ∃ b, F.byte disk (slot * F.pieceLength + offset + i) = some b) →
        (readv F disk transfers bufs slot offset).1 = bufsSize bufs) := by
  have hread := Block.read_fst_le (Files.block hpads hslot bufs hfits) transfers disk
  refine ⟨hread, fun hok => @Block.hasBytes_read F disk (Files.block hpads hslot bufs hfits)
    transfers hok, fun hio hall => ?_⟩
  refine @Block.read_eq_size F (Files.block hpads hslot bufs hfits) transfers disk hio
    fun pos hcovers => ?_
  obtain ⟨i, rfl⟩ := Nat.exists_eq_add_of_le hcovers.1
  exact hall i (Nat.lt_of_add_lt_add_left hcovers.2)

/-- **All at once**: what is hashed is what is on the disk. -/
theorem hashAtOnce_eq {numBlocks size : ℕ} {s : SlotHash} {message : Bytes}
    (h : Hashed S cut s message) (hsize : size ≤ numBlocks * S.blockSize)
    (hfits : message.length + size ≤ F.layout.pieceSize slot)
    (hcut : ∀ c, cut = some c → c ≤ message.length + size)
    (hread : (hashAtOnce S F disk slot io (blockSizes S.blockSize numBlocks size) s).numRead =
      size) :
    ∃ bytes, bytes.length = size ∧
      F.HasBytes disk (slot * F.pieceLength + message.length) bytes ∧
      Hashed S cut (hashAtOnce S F disk slot io (blockSizes S.blockSize numBlocks size) s)
        (message ++ bytes) := by
  have hlengths := S.map_length_allocate (blockSizes S.blockSize numBlocks size)
  have hsum : bufsSize ((blockSizes S.blockSize numBlocks size).mapIdx S.allocate) = size := by
    rw [bufsSize, hlengths, extent_blockSizes hsize]
  rw [hashAtOnce, h.offset] at hread ⊢
  generalize (blockSizes S.blockSize numBlocks size).mapIdx S.allocate = bufs
    at hlengths hsum hread ⊢
  obtain ⟨-, hspec, -⟩ := readv_spec disk hpads hslot (io 0)
    (show message.length + bufsSize bufs ≤ F.layout.pieceSize slot by omega)
  generalize readv F disk (io 0) bufs slot message.length = res at hspec hread ⊢
  obtain ⟨ret, read⟩ := res
  simp only at hspec hread ⊢
  rw [numRead_foldl_hashBuffer] at hread
  simp only at hread
  rw [hsum] at hspec
  obtain ⟨hlength, hbytes⟩ := hspec hread
  have hfill : (fillBufs bufs read).flatten = read :=
    flatten_fillBufs (by rw [hlength, ← hsum, bufsSize_eq])
  have hstart : Hashed S cut { s with numRead := ret, error := s.error || decide (ret = -1) }
      message := ⟨h.holds, h.offset, h.small, h.taken⟩
  have hhashed := Hashed.foldl_hashBuffer ((map_length_fillBufs bufs read).trans hlengths) hstart
    hcut
  rw [hfill] at hhashed
  exact ⟨read, hlength, hbytes, hhashed⟩

/-- **One block**: no more is read than asked for, and if all is read, what is hashed is what is on
the disk. -/
theorem hashBlock_eq (i : ℕ) {n : ℕ} {s : SlotHash}
    (hfits : s.ph.offset + n ≤ F.layout.pieceSize slot) :
    (hashBlock S F disk slot io i n s).ph.offset = s.ph.offset + n ∧
      (hashBlock S F disk slot io i n s).numRead ≤ s.numRead + n ∧
      ((hashBlock S F disk slot io i n s).numRead = s.numRead + n → 0 < n →
        ∀ {cut : Option ℕ} {message : Bytes}, Hashed S cut s message → n ≤ S.blockSize →
        (∀ m, s.small = some m → m < S.blockSize → m ≤ n) →
        ∃ bytes, bytes.length = n ∧
          F.HasBytes disk (slot * F.pieceLength + message.length) bytes ∧
          Hashed S cut (hashBlock S F disk slot io i n s) (message ++ bytes)) := by
  have hsum : bufsSize [S.allocate i n] = n := by
    rw [bufsSize_eq, List.flatten_cons, List.flatten_nil, List.append_nil, S.length_allocate]
  obtain ⟨hle, hspec, -⟩ := readv_spec disk hpads hslot (io i)
    (show s.ph.offset + bufsSize [S.allocate i n] ≤ F.layout.pieceSize slot by omega)
  rw [hsum] at hle hspec
  rw [hashBlock]
  generalize readv F disk (io i) [S.allocate i n] slot s.ph.offset = res at hle hspec ⊢
  obtain ⟨ret, read⟩ := res
  simp only at hle hspec ⊢
  have hlength : (fillBufs [S.allocate i n] read).flatten.length = n := by
    rw [← bufsSize_eq, bufsSize, map_length_fillBufs, ← bufsSize, hsum]
  obtain ⟨hnum, hoffset⟩ := hashBuffer_frame S
    { s with
      numRead := if 0 < ret then s.numRead + ret else s.numRead
      error := s.error || decide (ret = -1) } (fillBufs [S.allocate i n] read).flatten
  rw [hnum, hoffset, hlength]
  refine ⟨rfl, by simp only; split_ifs <;> omega, fun heq hn cut message h hblock hcut => ?_⟩
  have hret : ret = n := by
    simp only at heq
    split_ifs at heq <;> omega
  obtain ⟨hread, hbytes⟩ := hspec hret
  rw [h.offset] at hbytes
  have hfill : (fillBufs [S.allocate i n] read).flatten = read :=
    flatten_fillBufs (by rw [hread, ← bufsSize_eq, hsum])
  rw [hfill]
  refine ⟨read, hread, hbytes,
    Hashed.hashBuffer ⟨h.holds, h.offset, h.small, h.taken⟩ (by omega) fun m hm hlt => ?_⟩
  have := hcut m hm hlt
  omega

theorem numRead_hashByBlock_le : ∀ {numBlocks size i : ℕ} {s : SlotHash},
    s.ph.offset + size ≤ F.layout.pieceSize slot →
      (hashByBlock S F disk slot io i (blockSizes S.blockSize numBlocks size) s).numRead ≤
        s.numRead + size := by
  intro numBlocks
  induction numBlocks with
  | zero =>
    intro size i s _
    rw [blockSizes, hashByBlock]
    omega
  | succ numBlocks ih =>
    intro size i s hfits
    rw [blockSizes, hashByBlock]
    obtain ⟨hoffset, hle, -⟩ := hashBlock_eq S disk io hpads hslot i
      (show s.ph.offset + min S.blockSize size ≤ F.layout.pieceSize slot by omega)
    refine (ih (by omega)).trans ?_
    omega

/-- **Block by block**: what is hashed is what is on the disk. -/
theorem hashByBlock_eq : ∀ {numBlocks size i : ℕ} {s : SlotHash} {message : Bytes},
    Hashed S cut s message → size ≤ numBlocks * S.blockSize →
    numBlocks * S.blockSize < size + S.blockSize →
    message.length + size ≤ F.layout.pieceSize slot →
    (∀ c, cut = some c → c ≤ message.length + size) →
    (hashByBlock S F disk slot io i (blockSizes S.blockSize numBlocks size) s).numRead =
      s.numRead + size →
    ∃ bytes, bytes.length = size ∧
      F.HasBytes disk (slot * F.pieceLength + message.length) bytes ∧
      Hashed S cut (hashByBlock S F disk slot io i (blockSizes S.blockSize numBlocks size) s)
        (message ++ bytes) := by
  intro numBlocks
  induction numBlocks with
  | zero =>
    intro size i s message h hsize _ _ _ _
    rw [Nat.zero_mul] at hsize
    refine ⟨[], (Nat.le_zero.mp hsize).symm, rfl, ?_⟩
    rw [List.append_nil]
    exact h
  | succ numBlocks ih =>
    intro size i s message h hsize hblocks hfits hcut hread
    have hoffset := h.offset
    have hpos := S.blockSize_pos
    rw [Nat.succ_mul] at hsize hblocks
    rw [blockSizes, hashByBlock] at hread ⊢
    generalize hn : min S.blockSize size = n at hread ⊢
    obtain ⟨hnext, hle, hspec⟩ := hashBlock_eq S disk io hpads hslot i
      (show s.ph.offset + n ≤ F.layout.pieceSize slot by omega)
    have hrest : (hashByBlock S F disk slot io (i + 1)
        (blockSizes S.blockSize numBlocks (size - n)) (hashBlock S F disk slot io i n s)).numRead ≤
          (hashBlock S F disk slot io i n s).numRead + (size - n : ℕ) :=
      numRead_hashByBlock_le S disk io hpads hslot (by omega)
    -- if all is read in the end, all is read here
    obtain ⟨bytes, hlength, hbytes, hhashed⟩ := hspec (by omega) (by omega) h (by omega)
      fun m hm hlt => by
        have := hcut _ (h.small m hm)
        omega
    have happend : (message ++ bytes).length = message.length + n := by
      rw [List.length_append, hlength]
    have hread' : (hashByBlock S F disk slot io (i + 1)
        (blockSizes S.blockSize numBlocks (size - n)) (hashBlock S F disk slot io i n s)).numRead =
          (hashBlock S F disk slot io i n s).numRead + (size - n : ℕ) := by
      omega
    obtain ⟨bytes', hlength', hbytes', hhashed'⟩ := ih hhashed (by omega) (by omega)
      (by omega) (fun c hc => by
        have := hcut c hc
        omega) hread'
    refine ⟨bytes ++ bytes', by rw [List.length_append]; omega, hbytes.append ?_, ?_⟩
    · rwa [happend, ← hlength, ← Nat.add_assoc] at hbytes'
    · rwa [List.append_assoc] at hhashed'

/-- **`hash_for_slot`, both ways**: if it has read as much as it should, what is hashed is what is
on the disk, and a small hash is that of the start of the piece. -/
theorem hashForSlot_eq {ph : PartialHash} {message : Bytes} (h : Holds ph.h message)
    (hoffset : ph.offset = message.length) (hle : message.length ≤ F.layout.pieceSize slot)
    {small : Option ℕ} (hsmall : ∀ n, small = some n → message.length + n ≤ F.layout.pieceSize slot)
    (hread : (hashForSlot S F disk slot io ph (F.layout.pieceSize slot) small).numRead =
      F.layout.pieceSize slot - ph.offset) :
    ∃ bytes, message.length + bytes.length = F.layout.pieceSize slot ∧
      F.HasBytes disk (slot * F.pieceLength + message.length) bytes ∧
      Hashed S (small.map (message.length + ·))
        (hashForSlot S F disk slot io ph (F.layout.pieceSize slot) small) (message ++ bytes) ∧
      (hashForSlot S F disk slot io ph (F.layout.pieceSize slot) small).error = false := by
  have hstart : Hashed S (small.map (message.length + ·)) ⟨ph, small, none, 0, false⟩ message := by
    refine ⟨h, hoffset, fun n hn => ?_, fun hnone c hc => ?_⟩
    · simp only at hn
      rw [hn, Option.map_some]
    · simp only at hnone
      rw [hnone] at hc
      cases hc
  have hcut : ∀ c, small.map (message.length + ·) = some c →
      c ≤ message.length + (F.layout.pieceSize slot - ph.offset) := by
    intro c hc
    obtain ⟨n, hn, rfl⟩ := Option.map_eq_some_iff.mp hc
    have := hsmall n hn
    omega
  rw [hashForSlot] at hread ⊢
  simp only at hread ⊢
  have hpos := S.blockSize_pos
  have hblocks := le_roundUp_mul (F.layout.pieceSize slot - ph.offset) hpos
  have hblocks' := Nat.div_mul_le_self (F.layout.pieceSize slot - ph.offset + S.blockSize - 1)
    S.blockSize
  replace hblocks' := Nat.lt_of_le_of_lt hblocks'
    (show _ < F.layout.pieceSize slot - ph.offset + S.blockSize by omega)
  split_ifs at hread ⊢ with hsize hspeed herror herror
  · simp only at hread
    omega
  · obtain ⟨bytes, hlength, hbytes, hhashed⟩ := hashAtOnce_eq S disk io hpads hslot hstart
      hblocks (by omega) hcut (by omega)
    exact ⟨bytes, by omega, hbytes, hhashed, Bool.eq_false_iff.mpr herror⟩
  · simp only at hread
    omega
  · obtain ⟨bytes, hlength, hbytes, hhashed⟩ := hashByBlock_eq S disk io hpads hslot (i := 0)
      hstart hblocks hblocks' (by omega) hcut (by simp only; omega)
    exact ⟨bytes, by omega, hbytes, hhashed, Bool.eq_false_iff.mpr herror⟩
  · refine ⟨[], by rw [List.length_nil]; omega, rfl, ?_, rfl⟩
    rw [List.append_nil]
    exact hstart

/-- **What is hashed does not depend on how it is read**: in one go or block by block, with blocks
of any size, the hash is that of what was hashed before and the rest of the piece on the disk; and
a small hash that ends inside a block is that of as many bytes of it. -/
theorem hashForSlot_hashes {ph : PartialHash} {message : Bytes} (h : Holds ph.h message)
    (hoffset : ph.offset = message.length) (hle : message.length ≤ F.layout.pieceSize slot)
    {small : Option ℕ}
    (hsmall : ∀ n, small = some n → message.length + n < F.layout.pieceSize slot)
    (hread : (hashForSlot S F disk slot io ph (F.layout.pieceSize slot) small).numRead =
      F.layout.pieceSize slot - ph.offset) :
    ∃ bytes, message.length + bytes.length = F.layout.pieceSize slot ∧
      F.HasBytes disk (slot * F.pieceLength + message.length) bytes ∧
      sha1Final S.order (hashForSlot S F disk slot io ph (F.layout.pieceSize slot) small).ph.h =
        sha1 (message ++ bytes) ∧
      ∀ n, small = some n →
        (hashForSlot S F disk slot io ph (F.layout.pieceSize slot) small).smallHash =
          some (sha1 (message ++ bytes.take n)) := by
  obtain ⟨bytes, hlength, hbytes, hhashed, -⟩ := hashForSlot_eq S disk io hpads hslot h hoffset hle
    (fun n hn => Nat.le_of_lt (hsmall n hn)) hread
  refine ⟨bytes, hlength, hbytes, hhashed.holds.final S.order, ?_⟩
  rintro n rfl
  have hcut := hsmall n rfl
  rcases hleft : (hashForSlot S F disk slot io ph (F.layout.pieceSize slot) (some n)).small with
    _ | left
  · obtain ⟨-, htaken⟩ := hhashed.taken hleft _ rfl
    rw [htaken, List.take_length_add_append]
  · -- a cut that is still ahead would be behind the end of the piece
    have hahead := Option.some.inj (hhashed.small left hleft)
    rw [List.length_append] at hahead
    simp only at hahead
    omega

end ReadSlot

/-- Blocks of two bytes, one after another. -/
def twoByteBlocks : HashSettings where
  order := .little
  junk := List.replicate 64 0
  length_junk := List.length_replicate
  optimizeForSpeed := false
  blockSize := 2
  blockSize_pos := Nat.succ_pos 1
  blockSize_lt := Nat.le_of_ble_eq_true rfl
  allocate _ n := List.replicate n 0
  length_allocate _ _ := List.length_replicate

/-- Both files are there. -/
def twoFilesSaved : SavedFiles := fun path =>
  if path = [97] then some [1, 2, 3] else some [4, 5, 6, 7, 8]

theorem padsEndPieces_twoFiles : twoFiles.PadsEndPieces := by
  intro i hi hpad
  have hi' : i < 2 := hi
  interval_cases i <;> cases hpad

theorem hashForSlot_hashes_twoFiles :
    ∃ bytes, bytes.length = 4 ∧ twoFiles.HasBytes twoFilesSaved 0 bytes ∧
      (hashForSlot twoByteBlocks twoFiles twoFilesSaved 0 (fun _ f _ => .done f.size)
        twoByteBlocks.newHash 4 (some 3)).smallHash = some (sha1 (bytes.take 3)) := by
  obtain ⟨bytes, hlength, hbytes, -, hsmall⟩ := hashForSlot_hashes twoByteBlocks twoFilesSaved
    (fun _ f _ => .done f.size) padsEndPieces_twoFiles
    (show 0 < twoFiles.layout.numPieces by decide)
    (show Holds twoByteBlocks.newHash.h [] from holds_sha1Init twoByteBlocks.length_junk) rfl
    (Nat.zero_le _) (fun n (hn : some 3 = some n) => by cases hn; decide) (by decide)
  exact ⟨bytes, (Nat.zero_add _).symm.trans hlength, hbytes, hsmall 3 rfl⟩

/-! ### Any order of writes -/

/-- What peers send for a pad file is zeros. -/
def Block.PadsZero {F : Files} (block : Block F) : Prop :=
  ∀ i < block.size, F.isPad (block.start + i) = true → block.bufs.flatten[i]? = some 0

/-- Nothing that has been hashed is written over. -/
def Block.Fresh {F : Files} (block : Block F) (m : PieceManager) : Prop :=
  ∀ ph, m.hashers block.slot = some ph → ph.offset ≤ block.offset

section Manager

variable (S : HashSettings) (F : Files)

/-- **A step of the manager**: a block is written, or a piece is hashed; either may fail. -/
inductive ManagerStep : PieceManager → PieceManager → Prop
  | write {m : PieceManager} (block : Block F) (io : Transfers) (hfresh : block.Fresh m)
      (hzero : block.PadsZero) :
      ManagerStep m (writeImpl S F io block.bufs block.slot block.offset m).2
  | hash {m : PieceManager} (piece : ℕ) (io : ℕ → Transfers) :
      ManagerStep m (hashForPieceImpl S F io piece m).2.2

/-- **The partial hashes are those of what is on the disk.** -/
def HashersOk (m : PieceManager) : Prop :=
  ∀ piece ph, m.hashers piece = some ph → ∃ bytes, ph.offset = bytes.length ∧
    bytes.length ≤ F.layout.pieceSize piece ∧ Holds ph.h bytes ∧
      F.HasBytes m.disk (piece * F.pieceLength) bytes

variable {S F} {m m' : PieceManager}

/-- A block leaves other pieces alone, and what is before it in its own. -/
theorem Block.not_covers {block : Block F} {piece i : ℕ} (hi : i < F.layout.pieceSize piece)
    (hbefore : piece = block.slot → i < block.offset) :
    ¬ block.Covers (piece * F.pieceLength + i) := by
  rintro ⟨hge, hlt⟩
  rw [Block.start] at hge hlt
  have hfits := block.fits
  have hle := F.pieceSize_le piece
  have hle' := F.pieceSize_le block.slot
  rw [Block.size] at hlt
  rcases Nat.lt_trichotomy piece block.slot with hlt' | heq | hgt
  · have hmul : (piece + 1) * F.pieceLength ≤ block.slot * F.pieceLength :=
      Nat.mul_le_mul_right _ hlt'
    rw [Nat.succ_mul] at hmul
    omega
  · have := hbefore heq
    rw [heq] at hge
    omega
  · have hmul : (block.slot + 1) * F.pieceLength ≤ piece * F.pieceLength :=
      Nat.mul_le_mul_right _ hgt
    rw [Nat.succ_mul] at hmul
    omega

theorem Files.HasBytes.write (hapart : F.Apart) {block : Block F} {io : Transfers}
    {disk : SavedFiles} {piece : ℕ} {bytes : Bytes}
    (h : F.HasBytes disk (piece * F.pieceLength) bytes)
    (hle : bytes.length ≤ F.layout.pieceSize piece)
    (hbefore : piece = block.slot → bytes.length ≤ block.offset) :
    F.HasBytes (block.write io disk).2 (piece * F.pieceLength) bytes := by
  rw [Files.hasBytes_iff] at h ⊢
  intro i hi
  have hbyte := h i hi
  rw [List.getElem?_eq_getElem hi] at hbyte ⊢
  exact Block.byte_write_of_not_covers hapart (Block.not_covers (by omega) fun heq => by
    have := hbefore heq
    omega) hbyte

/-- The bytes of a block that was written. -/
theorem Block.hasBytes_write (hapart : F.Apart) {block : Block F} (hzero : block.PadsZero)
    {io : Transfers} {disk : SavedFiles} (hok : (block.write io disk).1 = block.size) :
    F.HasBytes (block.write io disk).2 block.start block.bufs.flatten := by
  rw [Files.hasBytes_iff]
  intro i hi
  rw [← bufsSize_eq] at hi
  rcases hpad : F.isPad (block.start + i) with _ | _
  · rw [Block.byte_write_of_covers hapart hok ⟨by omega, by rw [Block.size]; omega⟩ hpad]
    congr 1
    omega
  · rw [Files.byte_of_isPad hpad, hzero i hi hpad]

/-- **What `write_impl` can do to the partial hashes**: nothing, or the block is hashed behind what
was hashed before. -/
theorem writeImpl_cases (block : Block F) (io : Transfers) (m : PieceManager) :
    (writeImpl S F io block.bufs block.slot block.offset m).2.disk = (block.write io m.disk).2 ∧
      ((writeImpl S F io block.bufs block.slot block.offset m).2.hashers = m.hashers ∨
        (block.write io m.disk).1 = block.size ∧ ∃ ph : PartialHash,
          (m.hashers block.slot = some ph ∨
            block.offset = 0 ∧ ph = ⟨0, ((m.hashers block.slot).getD S.newHash).h⟩) ∧
          block.offset = ph.offset ∧
          (writeImpl S F io block.bufs block.slot block.offset m).2.hashers =
            Function.update m.hashers block.slot (some ⟨ph.offset + block.size,
              block.bufs.foldl (internalUpdate S.order) ph.h⟩)) := by
  rw [writeImpl]
  simp only
  split_ifs with hret hzero
  · exact ⟨rfl, Or.inl rfl⟩
  · rw [not_not] at hret
    simp only
    rw [if_pos hzero]
    exact ⟨rfl, Or.inr ⟨hret, _, Or.inr ⟨hzero, rfl⟩, hzero, rfl⟩⟩
  · rw [not_not] at hret
    rcases hph : m.hashers block.slot with _ | ph
    · exact ⟨rfl, Or.inl rfl⟩
    · simp only
      split_ifs with hoffset
      · exact ⟨rfl, Or.inr ⟨hret, ph, Or.inl rfl, hoffset, rfl⟩⟩
      · exact ⟨rfl, Or.inl rfl⟩

theorem HashSettings.holds_newHash (S : HashSettings) : Holds S.newHash.h [] :=
  holds_sha1Init S.length_junk

/-- The buffers of a block are short enough for the hasher. -/
theorem Block.length_lt (hlength : F.pieceLength < 2 ^ 31) (block : Block F) :
    ∀ buf ∈ block.bufs, buf.length < 2 ^ 31 := by
  intro buf hbuf
  have hle : buf.length ≤ block.bufs.flatten.length :=
    (List.sublist_flatten_of_mem hbuf).length_le
  have hfits := block.fits
  have hpiece := F.pieceSize_le block.slot
  rw [bufsSize_eq] at hfits
  omega

/-- **One step.** -/
theorem HashersOk.step (hapart : F.Apart) (hlength : F.pieceLength < 2 ^ 31) (h : HashersOk F m)
    (hstep : ManagerStep S F m m') : HashersOk F m' := by
  cases hstep with
  | write block io hfresh hzero =>
    obtain ⟨hdisk, hcases⟩ := writeImpl_cases (S := S) block io m
    -- entries that were there are still right
    have hkeep : ∀ piece ph, m.hashers piece = some ph → ∃ bytes, ph.offset = bytes.length ∧
        bytes.length ≤ F.layout.pieceSize piece ∧ Holds ph.h bytes ∧
          F.HasBytes (block.write io m.disk).2 (piece * F.pieceLength) bytes := by
      intro piece ph hph
      obtain ⟨bytes, hoffset, hle, hholds, hbytes⟩ := h piece ph hph
      refine ⟨bytes, hoffset, hle, hholds, hbytes.write hapart hle ?_⟩
      rintro rfl
      rw [← hoffset]
      exact hfresh ph hph
    intro piece ph' hph'
    rw [hdisk]
    rcases hcases with heq | ⟨hok, ph, hph, hoffset, heq⟩
    · exact hkeep piece ph' (heq ▸ hph')
    · rw [heq] at hph'
      by_cases hpiece : piece = block.slot
      · subst hpiece
        rw [Function.update_self, Option.some.injEq] at hph'
        subst hph'
        -- what was hashed before, which is nothing if the block is the first
        obtain ⟨bytes, hbefore, hle, hholds, hbytes⟩ : ∃ bytes, ph.offset = bytes.length ∧
            bytes.length ≤ F.layout.pieceSize block.slot ∧ Holds ph.h bytes ∧
              F.HasBytes (block.write io m.disk).2 (block.slot * F.pieceLength) bytes := by
          rcases hph with hph | ⟨hzero', rfl⟩
          · exact hkeep _ ph hph
          · refine ⟨[], rfl, Nat.zero_le _, ?_, rfl⟩
            rcases hnone : m.hashers block.slot with _ | ph
            · exact S.holds_newHash
            · obtain ⟨bytes, hbefore, -, hholds, -⟩ := h _ ph hnone
              have hle := hfresh ph hnone
              obtain rfl := List.eq_nil_of_length_eq_zero
                (show bytes.length = 0 by omega)
              exact hholds
        have hwritten := Block.hasBytes_write hapart hzero hok
        rw [Block.start, hoffset, hbefore] at hwritten
        have hfits := block.fits
        refine ⟨bytes ++ block.bufs.flatten, ?_, ?_,
          Holds.foldl_update S.order block.bufs hholds (block.length_lt hlength),
          hbytes.append hwritten⟩
        · rw [List.length_append, hbefore, Block.size, bufsSize_eq]
        · rw [List.length_append, ← bufsSize_eq]
          omega
      · rw [Function.update_of_ne hpiece] at hph'
        exact hkeep piece ph' hph'
  | hash piece io =>
    intro piece' ph hph
    have hph' : Function.update m.hashers piece none piece' = some ph := hph
    by_cases hpiece : piece' = piece
    · rw [hpiece, Function.update_self] at hph'
      cases hph'
    · rw [Function.update_of_ne hpiece] at hph'
      exact h piece' ph hph'

/-- **Any number of steps**, from a manager without partial hashes. -/
theorem hashersOk_of_steps (hapart : F.Apart) (hlength : F.pieceLength < 2 ^ 31)
    {disk : SavedFiles}
    (hsteps : Relation.ReflTransGen (ManagerStep S F) ⟨disk, fun _ => none⟩ m) :
    HashersOk F m := by
  induction hsteps with
  | refl => exact fun piece ph hph => absurd hph (Option.some_ne_none ph).symm
  | tail _ hstep ih => exact ih.step hapart hlength hstep

/-- **The hash of a piece**, if the partial hashes are right. -/
theorem HashersOk.hash (hpads : F.PadsEndPieces) (h : HashersOk F m) {piece : ℕ}
    (hpiece : piece < F.layout.numPieces) {io : ℕ → Transfers}
    (hread : (hashForPieceImpl S F io piece m).2.1 =
      F.layout.pieceSize piece - ((m.hashers piece).getD S.newHash).offset) :
    ∃ bytes, bytes.length = F.layout.pieceSize piece ∧
      F.HasBytes m.disk (piece * F.pieceLength) bytes ∧
      (hashForPieceImpl S F io piece m).1 = sha1 bytes := by
  obtain ⟨before, hoffset, hle, hholds, hbefore⟩ : ∃ bytes,
      ((m.hashers piece).getD S.newHash).offset = bytes.length ∧
        bytes.length ≤ F.layout.pieceSize piece ∧
        Holds ((m.hashers piece).getD S.newHash).h bytes ∧
        F.HasBytes m.disk (piece * F.pieceLength) bytes := by
    rcases hnone : m.hashers piece with _ | ph
    · exact ⟨[], rfl, Nat.zero_le _, S.holds_newHash, rfl⟩
    · exact h piece ph hnone
  obtain ⟨bytes, hlength, hbytes, hhashed, herror⟩ := hashForSlot_eq S m.disk io hpads hpiece
    hholds hoffset hle (fun n (hn : none = some n) => absurd hn (Option.some_ne_none n).symm) hread
  refine ⟨before ++ bytes, by rw [List.length_append]; omega, hbefore.append hbytes, ?_⟩
  rw [hashForPieceImpl]
  simp only [herror, Bool.false_eq_true, if_false]
  exact hhashed.holds.final S.order

/-- **The hash that is compared with the torrent is that of what is on the disk**, for every order
in which blocks were written and pieces were hashed before. -/
theorem hashForPieceImpl_eq_sha1 (hapart : F.Apart) (hpads : F.PadsEndPieces)
    (hlength : F.pieceLength < 2 ^ 31) {disk : SavedFiles}
    (hsteps : Relation.ReflTransGen (ManagerStep S F) ⟨disk, fun _ => none⟩ m) {piece : ℕ}
    (hpiece : piece < F.layout.numPieces) {io : ℕ → Transfers}
    (hread : (hashForPieceImpl S F io piece m).2.1 =
      F.layout.pieceSize piece - ((m.hashers piece).getD S.newHash).offset) :
    ∃ bytes, bytes.length = F.layout.pieceSize piece ∧
      F.HasBytes m.disk (piece * F.pieceLength) bytes ∧
      (hashForPieceImpl S F io piece m).1 = sha1 bytes :=
  (hashersOk_of_steps hapart hlength hsteps).hash hpads hpiece hread

/-- The second half of the first piece. -/
def secondHalf : Block twoFiles :=
  ⟨[[3, 4]], 0, 2, Nat.le_of_ble_eq_true rfl, Nat.le_of_ble_eq_true rfl, rfl⟩

/-- The first half of the first piece. -/
def firstHalf : Block twoFiles :=
  ⟨[[1], [2]], 0, 0, Nat.le_of_ble_eq_true rfl, Nat.le_of_ble_eq_true rfl, rfl⟩

theorem isPad_twoFiles (pos : ℕ) : twoFiles.isPad pos = false := by
  rw [Files.isPad]
  generalize locateFrom 0 twoFiles.sizes pos = place
  rcases place with _ | ⟨i, o⟩
  · rfl
  · rcases i with _ | _ | i <;> rfl

theorem hashForPieceImpl_eq_sha1_twoFiles :
    ∃ m, Relation.ReflTransGen (ManagerStep twoByteBlocks twoFiles)
        ⟨fun _ => none, fun _ => none⟩ m ∧
      ∃ bytes, bytes.length = 4 ∧ twoFiles.HasBytes m.disk 0 bytes ∧
        (hashForPieceImpl twoByteBlocks twoFiles (fun _ f _ => .done f.size) 0 m).1 =
          sha1 bytes := by
  have hzero : ∀ block : Block twoFiles, block.PadsZero := fun block i _ hpad => by
    rw [isPad_twoFiles] at hpad
    cases hpad
  have hsteps : Relation.ReflTransGen (ManagerStep twoByteBlocks twoFiles)
      ⟨fun _ => none, fun _ => none⟩ _ :=
    (Relation.ReflTransGen.single
      (.write secondHalf (fun f _ => .done f.size) (fun ph hph => by cases hph) (hzero _))).tail
      (.write firstHalf (fun f _ => .done f.size) (fun ph hph => by cases hph) (hzero _))
  exact ⟨_, hsteps, hashForPieceImpl_eq_sha1 (by decide) padsEndPieces_twoFiles (by decide) hsteps
    (show 0 < twoFiles.layout.numPieces by decide) (by decide)⟩

end Manager

end InstantMirror.Libtorrent
