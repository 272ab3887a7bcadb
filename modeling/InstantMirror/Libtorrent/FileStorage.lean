import InstantMirror.Lib.Bytes
import InstantMirror.Lib.Segments
import InstantMirror.Libtorrent.TorrentState

/-!
# Where the bytes of a torrent are

For the protocol, a torrent is one stretch of bytes, cut into pieces; on the disk it is a list of
files. `file_storage` translates between the two. `map_block` looks up the file in which a block
starts and goes on from there, and `map_file` says in which piece a place in a file lies.

A block is cut into the slices of its stretch (`InstantMirror.Libtorrent.mapBlock_eq_slices`), so
they lie behind one another and leave nothing out
(`InstantMirror.Libtorrent.mapBlock_positions`). And a place that `map_file` has translated is
translated back (`InstantMirror.Libtorrent.mapBlock_mapFile`).
-/

namespace InstantMirror.Libtorrent

/-- **A `file_entry`**, as far as the storage reads it. -/
structure StorageFile where
  /-- `path`. -/
  path : Bytes
  /-- `size`. -/
  size : ℕ
  /-- `file_base`: where in the file on the disk this one starts. -/
  fileBase : ℕ
  /-- `pad_file`. -/
  padFile : Bool
deriving DecidableEq

/-- **A `file_storage`.** -/
structure Files where
  /-- `m_files`. -/
  entries : List StorageFile
  /-- `piece_length()`. -/
  pieceLength : ℕ
  /-- `parse_info_section` refuses any other. -/
  pieceLength_pos : 0 < pieceLength

/-- `piece_size`. -/
def Layout.pieceSize (L : Layout) (index : ℕ) : ℕ :=
  if index = L.numPieces - 1 then L.totalSize - (L.numPieces - 1) * L.pieceLength
  else L.pieceLength

namespace Files

variable (F : Files)

/-- The sizes of the files. -/
def sizes : List ℕ := F.entries.map StorageFile.size

/-- Its layout. -/
def layout : Layout := ⟨F.sizes, F.pieceLength, F.pieceLength_pos⟩

/-- The offset of a file. -/
def fileOffset (i : ℕ) : ℕ := F.layout.fileOffset i

/-- `total_size()`. -/
def totalSize : ℕ := F.layout.totalSize

/-- `file_at_offset`: `std::upper_bound` finds the first file with a larger offset. -/
def fileAtOffset (offset : ℕ) : ℕ :=
  (List.range F.entries.length).findIdx (fun i => offset < F.fileOffset i) - 1

end Files

/-- The loop of `map_block`, from this file on. -/
def mapBlockLoop : List StorageFile → ℕ → ℕ → ℕ → List Slice
  | [], _, _, _ => []
  | f :: files, i, fileOffset, size =>
    if size = 0 then []
    else if fileOffset < f.size then
      let n := min (f.size - fileOffset) size
      ⟨i, fileOffset + f.fileBase, n⟩ ::
        mapBlockLoop files (i + 1) (fileOffset + n - f.size) (size - n)
    else mapBlockLoop files (i + 1) (fileOffset - f.size) size

/-- **`map_block`.** -/
def mapBlock (F : Files) (piece offset size : ℕ) : List Slice :=
  let target := piece * F.pieceLength + offset
  mapBlockLoop (F.entries.drop (F.fileAtOffset target)) (F.fileAtOffset target)
    (target - F.fileOffset (F.fileAtOffset target)) size

/-- **A `peer_request`.** -/
structure PeerRequest where
  /-- `piece`. -/
  piece : ℕ
  /-- `start`. -/
  start : ℕ
  /-- `length`. -/
  length : ℕ
deriving DecidableEq

/-- **`map_file`.** -/
def mapFile (F : Files) (fileIndex fileOffset size : ℕ) : PeerRequest :=
  let offset := fileOffset + F.fileOffset fileIndex
  ⟨offset / F.pieceLength, offset - offset / F.pieceLength * F.pieceLength, size⟩

/-! ### Slices -/

theorem sumSizes_eq_extent (sizes : List ℕ) : sumSizes sizes = extent sizes := by
  induction sizes with
  | nil => rfl
  | cons size sizes ih => rw [sumSizes, ih, extent_cons]

section Slices

variable {F : Files} {piece offset size : ℕ}

theorem Files.fileOffset_eq (F : Files) (i : ℕ) : F.fileOffset i = extent (F.sizes.take i) :=
  sumSizes_eq_extent _

theorem Files.totalSize_eq (F : Files) : F.totalSize = extent F.sizes := sumSizes_eq_extent _

theorem Files.getElem?_sizes (F : Files) (i : ℕ) :
    F.sizes[i]? = (F.entries[i]?).map StorageFile.size := List.getElem?_map

/-- The slice as `map_block` gives it, by the offset in the file on the disk. -/
def Files.onDisk (F : Files) (sl : Slice) : Slice :=
  { sl with offset := sl.offset + ((F.entries[sl.index]?).map StorageFile.fileBase).getD 0 }

/-- **The loop cuts the stretch into its slices.** -/
theorem mapBlockLoop_eq : ∀ {files : List StorageFile} {i fileOffset size : ℕ},
    F.entries.drop i = files → mapBlockLoop files i fileOffset size =
      (slicesFrom i (files.map StorageFile.size) fileOffset size).map F.onDisk := by
  intro files
  induction files with
  | nil => exact fun _ => rfl
  | cons f files ih =>
    intro i fileOffset size hdrop
    obtain ⟨hdrop', hf⟩ := of_drop_eq_cons hdrop
    rw [mapBlockLoop]
    split_ifs with hsize hlt
    · rw [hsize, slicesFrom_zero]
      rfl
    · rw [List.map_cons, slicesFrom_of_lt hsize hlt, List.map_cons, Nat.min_comm size]
      simp only [ih hdrop']
      congr 1
      · simp [Files.onDisk, hf]
      · rcases Nat.le_total (f.size - fileOffset) size with hmin | hmin
        · rw [Nat.min_eq_left hmin, show fileOffset + (f.size - fileOffset) - f.size = 0 by omega]
        · rw [Nat.min_eq_right hmin, Nat.sub_self, slicesFrom_zero, slicesFrom_zero]
    · rw [ih hdrop', List.map_cons, slicesFrom_of_le hsize (Nat.not_lt.mp hlt)]

/-- The file that is looked up does not start behind the offset. -/
theorem Files.fileOffset_fileAtOffset_le (F : Files) (offset : ℕ) :
    F.fileOffset (F.fileAtOffset offset) ≤ offset := by
  rcases Nat.eq_zero_or_pos ((List.range F.entries.length).findIdx fun i =>
      offset < F.fileOffset i) with hzero | hpos
  · rw [Files.fileAtOffset, hzero, F.fileOffset_eq]
    exact Nat.zero_le offset
  · rw [Files.fileAtOffset]
    generalize hidx : (List.range F.entries.length).findIdx (fun i => offset < F.fileOffset i) =
      idx at hpos
    have hlt : idx - 1 <
        (List.range F.entries.length).findIdx fun i => offset < F.fileOffset i := by
      omega
    have hnot := List.not_of_lt_findIdx hlt
    simpa using hnot

/-- **`map_block` cuts the block into the slices of its stretch.** -/
theorem mapBlock_eq_slices (F : Files) (piece offset size : ℕ) : mapBlock F piece offset size =
    (slicesFrom 0 F.sizes (piece * F.pieceLength + offset) size).map F.onDisk := by
  have hle := F.fileOffset_fileAtOffset_le (piece * F.pieceLength + offset)
  rw [mapBlock, mapBlockLoop_eq rfl]
  generalize F.fileAtOffset (piece * F.pieceLength + offset) = i at hle ⊢
  rw [F.fileOffset_eq] at hle ⊢
  rw [slicesFrom_drop i (k := 0) hle, Nat.zero_add, Files.sizes, List.map_drop]

/-- The addresses of a slice, as one of the files on the disk. -/
def Files.positions (F : Files) (sl : Slice) : List ℕ :=
  List.range' (F.fileOffset sl.index +
    (sl.offset - ((F.entries[sl.index]?).map StorageFile.fileBase).getD 0)) sl.size

theorem Files.positions_onDisk (F : Files) (sl : Slice) :
    F.positions (F.onDisk sl) = Slice.positions F.sizes sl := by
  rw [Files.positions, Files.onDisk, Slice.positions, F.fileOffset_eq]
  simp only [Nat.add_sub_cancel]

/-- **The slices of a block are the block**: each is a part of its file, and read one after
another they are the bytes of the block, each once. -/
theorem mapBlock_positions (h : piece * F.pieceLength + offset + size ≤ F.totalSize) :
    (mapBlock F piece offset size).flatMap F.positions =
        List.range' (piece * F.pieceLength + offset) size ∧
      ∀ sl ∈ mapBlock F piece offset size, ∃ f, F.entries[sl.index]? = some f ∧ 0 < sl.size ∧
        f.fileBase ≤ sl.offset ∧ sl.offset + sl.size ≤ f.fileBase + f.size := by
  rw [F.totalSize_eq] at h
  rw [mapBlock_eq_slices]
  constructor
  · rw [List.flatMap_map, ← (cuts_slicesFrom h).flatMap_positions]
    exact List.flatMap_congr fun sl _ => F.positions_onDisk sl
  · intro sl hsl
    obtain ⟨sl, hmem, rfl⟩ := List.mem_map.mp hsl
    obtain ⟨size', hsize, hpos, hle⟩ := (cuts_slicesFrom h).bounds sl hmem
    rw [F.getElem?_sizes] at hsize
    obtain ⟨f, hf, rfl⟩ := Option.map_eq_some_iff.mp hsize
    refine ⟨f, hf, hpos, ?_, ?_⟩
    · simp [Files.onDisk, hf]
    · simp only [Files.onDisk, hf, Option.map_some, Option.getD_some]
      omega

/-- Two files of three and five bytes, in pieces of four. -/
def twoFiles : Files := ⟨[⟨[97], 3, 0, false⟩, ⟨[98], 5, 0, false⟩], 4, Nat.succ_pos 3⟩

theorem mapBlock_positions_twoFiles :
    (mapBlock twoFiles 0 2 4).flatMap twoFiles.positions = [2, 3, 4, 5] :=
  (mapBlock_positions (by decide)).1

/-- **What `map_file` translates is translated back.** -/
theorem mapBlock_mapFile {k fileOffset n : ℕ} {f : StorageFile} (hf : F.entries[k]? = some f)
    (hn : 0 < n) (h : fileOffset + n ≤ f.size) :
    mapBlock F (mapFile F k fileOffset n).piece (mapFile F k fileOffset n).start
      (mapFile F k fileOffset n).length = [⟨k, fileOffset + f.fileBase, n⟩] := by
  have hle : ∀ a : ℕ, a / F.pieceLength * F.pieceLength ≤ a := fun a => Nat.div_mul_le_self a _
  have htarget : (mapFile F k fileOffset n).piece * F.pieceLength +
      (mapFile F k fileOffset n).start = extent (F.sizes.take k) + fileOffset := by
    rw [mapFile, F.fileOffset_eq]
    have := hle (fileOffset + extent (F.sizes.take k))
    simp only
    omega
  have hsizes : F.sizes.drop k = f.size :: F.sizes.drop (k + 1) := by
    have hlt := (List.getElem?_eq_some_iff.mp hf).1
    rw [Files.sizes, List.drop_eq_getElem_cons (by simpa using hlt), List.getElem_map]
    rw [List.getElem?_eq_getElem hlt, Option.some.injEq] at hf
    rw [hf]
  rw [mapBlock_eq_slices, htarget, slicesFrom_drop k (Nat.le_add_right _ _), Nat.zero_add,
    Nat.add_sub_cancel_left, hsizes, mapFile]
  simp only
  rw [slicesFrom_of_lt (by omega) (by omega), Nat.min_eq_left (by omega), Nat.sub_self,
    slicesFrom_zero]
  simp [Files.onDisk, hf]

theorem mapBlock_mapFile_twoFiles :
    mapBlock twoFiles (mapFile twoFiles 1 2 3).piece (mapFile twoFiles 1 2 3).start
      (mapFile twoFiles 1 2 3).length = [⟨1, 2, 3⟩] :=
  mapBlock_mapFile (f := ⟨[98], 5, 0, false⟩) rfl (by decide) (by decide)

end Slices

end InstantMirror.Libtorrent
