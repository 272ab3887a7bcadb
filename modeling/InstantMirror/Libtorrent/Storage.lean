import InstantMirror.Libtorrent.FileStorage
import Mathlib.Logic.Function.Basic
import Mathlib.Tactic.IntervalCases

/-!
# Reading and writing the files of a torrent

`storage::readwritev` is the one function through which everything is read and written. It is
given a slot, an offset in it and a list of buffers, walks to the file in which the block starts,
and then goes from file to file, with the operation as a parameter
(`InstantMirror.Libtorrent.FileOp`), taking from the buffers what belongs to each.

It does not use `map_block`, but what it does is the operation for each slice of `map_block`, in
order (`InstantMirror.Libtorrent.readwritev_eq_transferSlices`) – unless the block starts inside
a pad file and goes on behind it: the position in the pad file is then kept for the next file
(`InstantMirror.Libtorrent.overrunsPad`,
`InstantMirror.Libtorrent.byte_writev_over_pad`).

So the files are one memory (`InstantMirror.Libtorrent.Files.byte`). After any number of blocks
have been written, in any order, over one another or not, and some of them in vain, a block is read
as it was last written (`InstantMirror.Libtorrent.read_after_writes`).
-/

namespace InstantMirror.Libtorrent

/-! ### Buffers -/

/-- `bufs_size`. -/
def bufsSize (bufs : List Bytes) : ℕ := extent (bufs.map List.length)

/-- **`copy_bufs`**: the first buffers, down to this many bytes. -/
def copyBufs : List Bytes → ℕ → List Bytes
  | [], _ => []
  | buf :: bufs, n => if n ≤ buf.length then [buf.take n] else buf :: copyBufs bufs (n - buf.length)

/-- **`advance_bufs`**: what is left of the buffers behind this many bytes. -/
def advanceBufs : List Bytes → ℕ → List Bytes
  | [], _ => []
  | buf :: bufs, n =>
    if n ≤ buf.length then buf.drop n :: bufs else advanceBufs bufs (n - buf.length)

theorem bufsSize_eq (bufs : List Bytes) : bufsSize bufs = bufs.flatten.length := by
  induction bufs with
  | nil => rfl
  | cons buf bufs ih =>
    rw [bufsSize] at ih
    rw [bufsSize, List.map_cons, extent_cons, ih, List.flatten_cons, List.length_append]

theorem flatten_copyBufs (bufs : List Bytes) : ∀ n, (copyBufs bufs n).flatten =
    bufs.flatten.take n := by
  induction bufs with
  | nil => simp [copyBufs]
  | cons buf bufs ih =>
    intro n
    rw [copyBufs, List.flatten_cons]
    split_ifs with h
    · rw [List.take_append_of_le_length h]
      simp
    · rw [List.flatten_cons, ih, List.take_append, List.take_of_length_le (l := buf) (by omega)]

theorem flatten_advanceBufs (bufs : List Bytes) : ∀ n, (advanceBufs bufs n).flatten =
    bufs.flatten.drop n := by
  induction bufs with
  | nil => simp [advanceBufs]
  | cons buf bufs ih =>
    intro n
    rw [advanceBufs, List.flatten_cons]
    split_ifs with h
    · rw [List.flatten_cons, List.drop_append_of_le_length h]
    · rw [ih, List.drop_append, List.drop_of_length_le (l := buf) (by omega), List.nil_append]

/-! ### `readwritev` -/

/-- **A `fileop`.** The bytes are those of the buffers, of which a read only has the number. -/
structure FileOp (σ : Type*) where
  /-- What is done for a pad file. -/
  pad : Bytes → σ → σ
  /-- The file is opened and the operation called: how many bytes were transferred, unless there
  was an error. -/
  transfer : StorageFile → ℕ → Bytes → σ → Option ℕ × σ

section ReadWrite

variable {σ : Type*} (op : FileOp σ)

/-- The walk to the file in which the block starts, and the offset there. -/
def skipFiles : List StorageFile → ℕ → List StorageFile × ℕ
  | [], fileOffset => ([], fileOffset)
  | f :: files, fileOffset =>
    if fileOffset < f.size then (f :: files, fileOffset) else skipFiles files (fileOffset - f.size)

/-- **The loop of `readwritev`**, from this file on: what is returned, unless it goes through all
the bytes. Behind the last file there is nothing to be read or written. -/
def readwriteLoop : List StorageFile → ℕ → ℕ → List Bytes → σ → Option ℤ × σ
  | [], _, bytesLeft, _, s => (if bytesLeft = 0 then none else some (-1), s)
  | f :: files, fileOffset, bytesLeft, bufs, s =>
    if bytesLeft = 0 then (none, s)
    else
      let fileBytesLeft :=
        if f.size < fileOffset + bytesLeft then f.size - fileOffset else bytesLeft
      -- the offset is set back to zero only where a file is read or written
      if fileBytesLeft = 0 then readwriteLoop files fileOffset bytesLeft bufs s
      else if f.padFile then
        readwriteLoop files fileOffset (bytesLeft - fileBytesLeft) (advanceBufs bufs fileBytesLeft)
          (op.pad (copyBufs bufs fileBytesLeft).flatten s)
      else
        match op.transfer f (f.fileBase + fileOffset) (copyBufs bufs fileBytesLeft).flatten s with
        | (none, s) => (some (-1), s)
        | (some transferred, s) =>
          if fileBytesLeft ≠ transferred then (some transferred, s)
          else readwriteLoop files 0 (bytesLeft - fileBytesLeft) (advanceBufs bufs fileBytesLeft) s

/-- How many bytes of a block are in its slot. -/
def Files.bytesLeft (F : Files) (slot offset size : ℕ) : ℕ :=
  if F.layout.pieceSize slot < offset + size then F.layout.pieceSize slot - offset else size

/-- **`readwritev`.** -/
def readwritev (F : Files) (bufs : List Bytes) (slot offset : ℕ) (s : σ) : ℤ × σ :=
  let from_ := skipFiles F.entries (slot * F.pieceLength + offset)
  match readwriteLoop op from_.1 from_.2 (F.bytesLeft slot offset (bufsSize bufs)) bufs s with
  | (some r, s) => (r, s)
  | (none, s) => (bufsSize bufs, s)

/-- **The operation for one slice after another**, each with the next part of the data. -/
def transferSlices (F : Files) : List Slice → Bytes → σ → Option ℤ × σ
  | [], _, s => (none, s)
  | sl :: slices, data, s =>
    match F.entries[sl.index]? with
    | none => (some (-1), s)
    | some f =>
      if f.padFile then
        transferSlices F slices (data.drop sl.size) (op.pad (data.take sl.size) s)
      else
        match op.transfer f sl.offset (data.take sl.size) s with
        | (none, s) => (some (-1), s)
        | (some transferred, s) =>
          if sl.size ≠ transferred then (some transferred, s)
          else transferSlices F slices (data.drop sl.size) s

end ReadWrite

/-- **A block starts inside a pad file and goes on behind it.** -/
def overrunsPad (F : Files) (start size : ℕ) : Bool :=
  (locateFrom 0 F.sizes start).any fun place => (F.entries[place.1]?).any fun f =>
    f.padFile && decide (0 < place.2) && decide (f.size < place.2 + size)

section Slices

variable {σ : Type*} {op : FileOp σ} {F : Files}

theorem Files.exists_of_getElem?_sizes {F : Files} {i size : ℕ} (h : F.sizes[i]? = some size) :
    ∃ f, F.entries[i]? = some f ∧ f.size = size := by
  rw [F.getElem?_sizes] at h
  exact Option.map_eq_some_iff.mp h

/-- The walk ends at the place of the address. -/
theorem skipFiles_eq {f : StorageFile} {o : ℕ} (ho : o < f.size) : ∀ {i : ℕ}
    {files : List StorageFile}, files[i]? = some f →
      skipFiles files (extent ((files.map StorageFile.size).take i) + o) = (files.drop i, o) := by
  intro i
  induction i with
  | zero =>
    intro files hf
    obtain ⟨rest, rfl⟩ := List.head?_eq_some_iff.mp (List.head?_eq_getElem?.trans hf)
    rw [List.take_zero, extent_nil, Nat.zero_add, skipFiles, if_pos ho, List.drop_zero]
  | succ i ih =>
    intro files hf
    cases files with
    | nil => cases hf
    | cons first files =>
      rw [List.map_cons, List.take_succ_cons, extent_cons, skipFiles, if_neg (by omega),
        List.drop_succ_cons, Nat.add_assoc, Nat.add_sub_cancel_left, ih hf]

theorem readwriteLoop_zero (files : List StorageFile) (fileOffset : ℕ) (bufs : List Bytes)
    (s : σ) : readwriteLoop op files fileOffset 0 bufs s = (none, s) := by
  cases files <;> simp [readwriteLoop]

/-- **The loop is the operation for one slice after another.** The first file must not be a pad
file that the block starts inside and goes on behind. -/
theorem readwriteLoop_eq : ∀ {files : List StorageFile} {i fileOffset bytesLeft : ℕ}
    {bufs : List Bytes} {s : σ}, F.entries.drop i = files →
    (fileOffset = 0 ∨ ∀ f rest, files = f :: rest → fileOffset < f.size ∧
      (f.padFile = true → fileOffset + bytesLeft ≤ f.size)) →
    fileOffset + bytesLeft ≤ extent (files.map StorageFile.size) →
    readwriteLoop op files fileOffset bytesLeft bufs s = transferSlices op F
      ((slicesFrom i (files.map StorageFile.size) fileOffset bytesLeft).map F.onDisk)
      bufs.flatten s := by
  intro files
  induction files with
  | nil =>
    intro i fileOffset bytesLeft bufs s _ _ hle
    have hzero : bytesLeft = 0 := by rw [List.map_nil, extent_nil] at hle; omega
    simp [readwriteLoop, hzero, transferSlices]
  | cons f files ih =>
    intro i fileOffset bytesLeft bufs s hdrop hfirst hle
    obtain ⟨hdrop', hf⟩ := of_drop_eq_cons hdrop
    rw [List.map_cons, extent_cons] at hle
    rw [readwriteLoop, List.map_cons]
    by_cases hzero : bytesLeft = 0
    · simp [hzero, transferSlices]
    rw [if_neg hzero]
    by_cases hsize : f.size ≤ fileOffset
    · -- a file without bytes, which is passed over
      have hoff : fileOffset = 0 := by
        rcases hfirst with h | h
        · exact h
        · exact absurd (h f files rfl).1 (by omega)
      have hhere :
          (if f.size < fileOffset + bytesLeft then f.size - fileOffset else bytesLeft) = 0 := by
        rw [if_pos (by omega)]
        omega
      simp only [hhere, if_true]
      rw [ih hdrop' (Or.inl hoff) (by omega), slicesFrom_of_le hzero hsize, hoff, Nat.zero_sub]
    · rw [Nat.not_le] at hsize
      have hhere : (if f.size < fileOffset + bytesLeft then f.size - fileOffset else bytesLeft) =
          min bytesLeft (f.size - fileOffset) := by
        split_ifs <;> omega
      rw [slicesFrom_of_lt hzero hsize, List.map_cons, transferSlices]
      simp only [hhere, Files.onDisk, hf, Option.map_some, Option.getD_some]
      generalize hn : min bytesLeft (f.size - fileOffset) = n
      rw [if_neg (by omega), flatten_copyBufs, Nat.add_comm f.fileBase]
      by_cases hpad : f.padFile = true
      · rw [if_pos hpad, if_pos hpad]
        -- here the offset is kept, so it has to be zero, or the block ends
        rcases hfirst with hoff | hin
        · rw [ih hdrop' (Or.inl hoff) (by omega), flatten_advanceBufs, hoff]
        · have hend := (hin f files rfl).2 hpad
          have hleft : bytesLeft - n = 0 := by omega
          rw [hleft, readwriteLoop_zero, slicesFrom_zero]
          rfl
      · rw [if_neg hpad, if_neg hpad]
        rcases op.transfer f (fileOffset + f.fileBase) (bufs.flatten.take n) s with
          ⟨_ | transferred, s'⟩
        · rfl
        · simp only
          by_cases heq : n ≠ transferred
          · rw [if_pos heq, if_pos heq]
          · rw [if_neg heq, if_neg heq, ih hdrop' (Or.inl rfl) (by omega), flatten_advanceBufs]

variable {slot offset : ℕ} {bufs : List Bytes} {s : σ}

/-- **`readwritev` is the operation for each slice of `map_block`, in order.** -/
theorem readwritev_eq_transferSlices
    (hle : slot * F.pieceLength + offset + F.bytesLeft slot offset (bufsSize bufs) ≤ F.totalSize)
    (hpad : overrunsPad F (slot * F.pieceLength + offset)
      (F.bytesLeft slot offset (bufsSize bufs)) = false) :
    readwritev op F bufs slot offset s =
      match transferSlices op F (mapBlock F slot offset (F.bytesLeft slot offset (bufsSize bufs)))
        bufs.flatten s with
      | (some r, s) => (r, s)
      | (none, s) => (bufsSize bufs, s) := by
  rw [readwritev, mapBlock_eq_slices]
  generalize F.bytesLeft slot offset (bufsSize bufs) = n at hle hpad ⊢
  generalize slot * F.pieceLength + offset = start at hle hpad ⊢
  rw [F.totalSize_eq] at hle
  by_cases hn : n = 0
  · simp only [hn, readwriteLoop_zero, slicesFrom_zero, List.map_nil, transferSlices]
  obtain ⟨⟨k, o⟩, hplace⟩ := exists_locateFrom (i := 0) (show start < extent F.sizes by omega)
  obtain ⟨size, hsize, ho, hstart⟩ := locateFrom_eq_some hplace
  obtain ⟨f, hf, rfl⟩ := Files.exists_of_getElem?_sizes hsize
  simp only at hsize ho hstart hf
  have hdrop : F.entries.drop k = f :: F.entries.drop (k + 1) := by
    obtain ⟨hlt, hget⟩ := List.getElem?_eq_some_iff.mp hf
    rw [List.drop_eq_getElem_cons hlt, hget]
  have hextent : extent F.sizes = extent (F.sizes.take k) + extent (F.sizes.drop k) := by
    rw [← extent_append, List.take_append_drop]
  have hskip := skipFiles_eq ho hf
  rw [← Files.sizes, ← hstart] at hskip
  rw [hskip, slicesFrom_drop k (by omega), Nat.zero_add, Files.sizes, ← List.map_drop,
    ← Files.sizes, hdrop, show start - extent (F.sizes.take k) = o by omega, readwriteLoop_eq hdrop]
  · -- not from the inside of a pad file over its end
    rcases Nat.eq_zero_or_pos o with hzero | hpos
    · exact Or.inl hzero
    · rw [overrunsPad, hplace, Option.any_some, hf, Option.any_some] at hpad
      right
      intro g rest hcons
      obtain ⟨rfl, -⟩ := List.cons.inj hcons
      refine ⟨ho, fun hg => ?_⟩
      simpa [hg, hpos] using hpad
  · rw [← hdrop, List.map_drop, ← Files.sizes]
    omega

end Slices

/-! ### Files on the disk -/

/-- **What is under the save path.** -/
abbrev SavedFiles : Type := Bytes → Option Bytes

/-- **What happens to one transfer**: the file may not open, and a transfer may fail or be short
at any point. -/
inductive Transfer
  /-- The file could not be opened. -/
  | notOpened
  /-- After so many bytes there was an error. -/
  | failed (n : ℕ)
  /-- At most so many bytes went through. -/
  | done (n : ℕ)

/-- Which transfers come to what. -/
abbrev Transfers : Type := StorageFile → ℕ → Transfer

/-- **Bytes written into a file**, which is filled up with zeros where it was shorter. -/
def writeAt (content : Bytes) (offset : ℕ) (data : Bytes) : Bytes :=
  if data = [] then content
  else content.take offset ++ List.replicate (offset - content.length) 0 ++ data ++
    content.drop (offset + data.length)

/-- The file is opened, and created if it is not there, and the bytes are written. -/
def SavedFiles.write (disk : SavedFiles) (path : Bytes) (offset : ℕ) (data : Bytes) : SavedFiles :=
  Function.update disk path (some (writeAt ((disk path).getD []) offset data))

/-- **`file::writev`** as the operation: a pad file is not written. -/
def writeOp (io : Transfers) : FileOp SavedFiles where
  pad _ disk := disk
  transfer f offset data disk :=
    match io f offset with
    | .notOpened => (none, disk)
    | .failed n => (none, disk.write f.path offset (data.take n))
    | .done n => (some (data.take n).length, disk.write f.path offset (data.take n))

/-- **`file::readv`** as the operation; the state is what has been read. A pad file is read as
zeros, and a file that does not exist is not opened. -/
def readOp (disk : SavedFiles) (io : Transfers) : FileOp Bytes where
  pad data read := read ++ List.replicate data.length 0
  transfer f offset data read :=
    match disk f.path, io f offset with
    | some content, .done n =>
      let bytes := ((content.drop offset).take data.length).take n
      (some bytes.length, read ++ bytes)
    | _, _ => (none, read)

/-- `writev`. -/
def writev (F : Files) (io : Transfers) (bufs : List Bytes) (slot offset : ℕ) (disk : SavedFiles) :
    ℤ × SavedFiles :=
  readwritev (writeOp io) F bufs slot offset disk

/-- `readv`: what is returned, and what is read. Of the buffers, only the sizes count. -/
def readv (F : Files) (disk : SavedFiles) (io : Transfers) (bufs : List Bytes) (slot offset : ℕ) :
    ℤ × Bytes :=
  readwritev (readOp disk io) F bufs slot offset []

section WriteAt

variable {content data : Bytes} {offset i : ℕ}

theorem getElem?_writeAt_of_mem (hle : offset ≤ i) (hlt : i < offset + data.length) :
    (writeAt content offset data)[i]? = data[i - offset]? := by
  have hdata : data ≠ [] := by
    rintro rfl
    rw [List.length_nil] at hlt
    omega
  have hlength : (content.take offset ++ List.replicate (offset - content.length) 0).length =
      offset := by
    rw [List.length_append, List.length_take, List.length_replicate]
    omega
  rw [writeAt, if_neg hdata, List.append_assoc _ data, List.getElem?_append_right (by omega),
    hlength, List.getElem?_append_left (by omega)]

/-- Bytes outside stay as they are. -/
theorem getElem?_writeAt_of_not_mem {b : UInt8} (hb : content[i]? = some b)
    (hout : ¬ (offset ≤ i ∧ i < offset + data.length)) :
    (writeAt content offset data)[i]? = some b := by
  rw [writeAt]
  split_ifs with hdata
  · exact hb
  have hi := (List.getElem?_eq_some_iff.mp hb).1
  have hlength : (content.take offset ++ List.replicate (offset - content.length) 0).length =
      offset := by
    rw [List.length_append, List.length_take, List.length_replicate]
    omega
  rw [List.append_assoc _ data]
  by_cases hlt : i < offset
  · rw [List.getElem?_append_left (by omega), List.getElem?_append_left
      (by rw [List.length_take]; omega), List.getElem?_take_of_lt hlt, hb]
  · rw [List.getElem?_append_right (by omega), hlength, List.getElem?_append_right (by omega),
      List.getElem?_drop, show offset + data.length + (i - offset - data.length) = i by omega, hb]

end WriteAt

/-! ### The bytes of the torrent -/

/-- A byte of a file, if it is there. -/
def StorageFile.byte (f : StorageFile) (disk : SavedFiles) (o : ℕ) : Option UInt8 :=
  if f.padFile then some 0 else (disk f.path).bind fun content => content[f.fileBase + o]?

/-- **A byte of the torrent on the disk**, by its position in the torrent. -/
def Files.byte (F : Files) (disk : SavedFiles) (pos : ℕ) : Option UInt8 :=
  (locateFrom 0 F.sizes pos).bind fun place =>
    (F.entries[place.1]?).bind fun f => f.byte disk place.2

/-- A position in a pad file. -/
def Files.isPad (F : Files) (pos : ℕ) : Bool :=
  ((locateFrom 0 F.sizes pos).bind fun place =>
    (F.entries[place.1]?).map StorageFile.padFile).getD false

/-- Two files have no byte on the disk in common. -/
def StorageFile.Apart (f g : StorageFile) : Prop :=
  f.padFile = true ∨ g.padFile = true ∨ f.path ≠ g.path ∨
    f.fileBase + f.size ≤ g.fileBase ∨ g.fileBase + g.size ≤ f.fileBase

instance (f g : StorageFile) : Decidable (f.Apart g) :=
  inferInstanceAs (Decidable (_ ∨ _))

/-- **No two files of the torrent have a byte on the disk in common.** `extract_files` does not
see to it. -/
def Files.Apart (F : Files) : Prop := F.entries.Pairwise StorageFile.Apart

instance (F : Files) : Decidable F.Apart := inferInstanceAs (Decidable (List.Pairwise _ _))

theorem StorageFile.Apart.symm {f g : StorageFile} (h : f.Apart g) : g.Apart f := by
  rcases h with h | h | h | h | h
  · exact Or.inr (Or.inl h)
  · exact Or.inl h
  · exact Or.inr (Or.inr (Or.inl h.symm))
  · exact Or.inr (Or.inr (Or.inr (Or.inr h)))
  · exact Or.inr (Or.inr (Or.inr (Or.inl h)))

theorem Files.Apart.of_ne {F : Files} (h : F.Apart) {i j : ℕ} {f g : StorageFile}
    (hf : F.entries[i]? = some f) (hg : F.entries[j]? = some g) (hij : i ≠ j) : f.Apart g := by
  obtain ⟨hi, rfl⟩ := List.getElem?_eq_some_iff.mp hf
  obtain ⟨hj, rfl⟩ := List.getElem?_eq_some_iff.mp hg
  rcases Nat.lt_or_gt_of_ne hij with hlt | hlt
  · exact List.pairwise_iff_getElem.mp h i j hi hj hlt
  · exact (List.pairwise_iff_getElem.mp h j i hj hi hlt).symm

section Byte

variable {F : Files} {disk : SavedFiles} {i o : ℕ} {f : StorageFile}

theorem Files.locate (hf : F.entries[i]? = some f) (ho : o < f.size) :
    locateFrom 0 F.sizes (extent (F.sizes.take i) + o) = some (i, o) := by
  have hsize : F.sizes[i]? = some f.size := by
    rw [F.getElem?_sizes, hf]
    rfl
  have hplace := locateFrom_extent_add (i := 0) ho hsize
  rwa [Nat.zero_add] at hplace

theorem Files.byte_eq (hf : F.entries[i]? = some f) (ho : o < f.size) :
    F.byte disk (extent (F.sizes.take i) + o) = f.byte disk o := by
  rw [Files.byte, Files.locate hf ho, Option.bind_some, hf, Option.bind_some]

theorem Files.isPad_eq (hf : F.entries[i]? = some f) (ho : o < f.size) :
    F.isPad (extent (F.sizes.take i) + o) = f.padFile := by
  rw [Files.isPad, Files.locate hf ho, Option.bind_some, hf]
  rfl

/-- A pad file is not on the disk, and reads as zeros. -/
theorem Files.byte_of_isPad {pos : ℕ} (h : F.isPad pos = true) (disk : SavedFiles) :
    F.byte disk pos = some 0 := by
  rw [Files.isPad] at h
  rw [Files.byte]
  generalize locateFrom 0 F.sizes pos = place at h ⊢
  rcases place with _ | ⟨i, o⟩
  · cases h
  · rw [Option.bind_some] at h ⊢
    simp only at h ⊢
    generalize F.entries[i]? = entry at h ⊢
    rcases entry with _ | f
    · cases h
    · rw [Option.map_some, Option.getD_some] at h
      rw [Option.bind_some, StorageFile.byte, if_pos h]

/-- Where a byte is. -/
theorem Files.exists_of_byte {pos : ℕ} {b : UInt8} (h : F.byte disk pos = some b) :
    ∃ i f o, F.entries[i]? = some f ∧ o < f.size ∧ pos = extent (F.sizes.take i) + o := by
  obtain ⟨place, hplace, hbyte⟩ := Option.bind_eq_some_iff.mp h
  obtain ⟨f, hf, -⟩ := Option.bind_eq_some_iff.mp hbyte
  obtain ⟨size, hsize, hlt, hpos⟩ := locateFrom_eq_some hplace
  rw [F.getElem?_sizes, hf, Option.map_some, Option.some.injEq] at hsize
  exact ⟨place.1, f, place.2, hf, hsize ▸ hlt, hpos⟩

variable {data : Bytes}

/-- **What a write into a file puts on the disk.** -/
theorem Files.byte_write_of_mem {pos : ℕ} (hf : F.entries[i]? = some f) (hpad : f.padFile = false)
    (hle : o + data.length ≤ f.size) (hge : extent (F.sizes.take i) + o ≤ pos)
    (hlt : pos < extent (F.sizes.take i) + o + data.length) :
    F.byte (disk.write f.path (o + f.fileBase) data) pos =
      data[pos - (extent (F.sizes.take i) + o)]? := by
  obtain ⟨d, rfl⟩ := Nat.exists_eq_add_of_le hge
  rw [Nat.add_assoc, Files.byte_eq hf (by omega), StorageFile.byte, hpad, if_neg Bool.false_ne_true,
    SavedFiles.write, Function.update_self, Option.bind_some, getElem?_writeAt_of_mem (by omega)
    (by omega)]
  congr 1
  omega

/-- **What a write into a file leaves alone**, as far as it was there. -/
theorem Files.byte_write_of_not_mem (hapart : F.Apart) {pos : ℕ} {b : UInt8}
    (hf : F.entries[i]? = some f) (hpad : f.padFile = false) (hle : o + data.length ≤ f.size)
    (hout : ¬ (extent (F.sizes.take i) + o ≤ pos ∧
      pos < extent (F.sizes.take i) + o + data.length)) (hb : F.byte disk pos = some b) :
    F.byte (disk.write f.path (o + f.fileBase) data) pos = some b := by
  obtain ⟨j, g, o', hg, ho', rfl⟩ := Files.exists_of_byte hb
  rw [Files.byte_eq hg ho'] at hb ⊢
  rw [StorageFile.byte] at hb ⊢
  by_cases hpad' : g.padFile = true
  · rwa [if_pos hpad'] at hb ⊢
  rw [if_neg hpad'] at hb ⊢
  rw [SavedFiles.write]
  by_cases hpath : g.path = f.path
  · obtain ⟨content, hcontent, hb⟩ := Option.bind_eq_some_iff.mp hb
    rw [hpath] at hcontent ⊢
    rw [Function.update_self, Option.bind_some, hcontent, Option.getD_some]
    refine getElem?_writeAt_of_not_mem hb ?_
    by_cases hij : j = i
    · subst hij
      obtain rfl : g = f := Option.some.inj (hg.symm.trans hf)
      omega
    · rcases hapart.of_ne hg hf hij with h | h | h | h | h
      · exact absurd h hpad'
      · exact absurd (hpad.symm.trans h) Bool.false_ne_true
      · exact absurd hpath h
      · omega
      · omega
  · rwa [Function.update_of_ne hpath]

end Byte

/-! ### What is written -/

section Transfers

variable {σ : Type*} {op : FileOp σ} {F : Files} {start n : ℕ} {slices : List Slice}

theorem transferSlices_onDisk {sl : Slice} {f : StorageFile} (hf : F.entries[sl.index]? = some f)
    (data : Bytes) (s : σ) :
    transferSlices op F ((sl :: slices).map F.onDisk) data s =
      if f.padFile then
        transferSlices op F (slices.map F.onDisk) (data.drop sl.size)
          (op.pad (data.take sl.size) s)
      else
        match op.transfer f (sl.offset + f.fileBase) (data.take sl.size) s with
        | (none, s) => (some (-1), s)
        | (some transferred, s) =>
          if sl.size ≠ transferred then (some transferred, s)
          else transferSlices op F (slices.map F.onDisk) (data.drop sl.size) s := by
  rw [List.map_cons, transferSlices]
  simp only [Files.onDisk, hf, Option.map_some, Option.getD_some]

/-- No more is transferred than asked for. -/
def FileOp.Bounded (op : FileOp σ) : Prop :=
  ∀ f offset data s transferred, (op.transfer f offset data s).1 = some transferred →
    transferred ≤ data.length

/-- **What is returned early is less than the size.** -/
theorem transferSlices_lt (hop : op.Bounded) (hcuts : Cuts F.sizes start n slices) :
    ∀ {data : Bytes} {s : σ} {r : ℤ}, data.length = n →
      (transferSlices op F (slices.map F.onDisk) data s).1 = some r → r < n := by
  induction hcuts with
  | nil =>
    intro data s r _ h
    cases h
  | @cons sl slices size n hsize hpos hle hrest ih =>
    intro data s r hdata h
    obtain ⟨f, hf, rfl⟩ := Files.exists_of_getElem?_sizes hsize
    have hdrop : (data.drop sl.size).length = n := by rw [List.length_drop]; omega
    rw [transferSlices_onDisk hf] at h
    split_ifs at h with hpad
    · have := ih hdrop h
      omega
    · have hbound := hop f (sl.offset + f.fileBase) (data.take sl.size) s
      generalize op.transfer f (sl.offset + f.fileBase) (data.take sl.size) s = res at h hbound
      rcases res with ⟨_ | transferred, s'⟩
      · obtain rfl := Option.some.inj h
        omega
      · have htake := hbound transferred rfl
        rw [List.length_take] at htake
        simp only at h
        split_ifs at h with hne
        · obtain rfl := Option.some.inj h
          omega
        · have := ih hdrop h
          omega

end Transfers

section Write

variable {io : Transfers} {F : Files} {start n : ℕ} {slices : List Slice}

/-- **What a transfer can do.** -/
theorem writeOp_transfer_cases (io : Transfers) (f : StorageFile) (offset : ℕ) (data : Bytes)
    (disk : SavedFiles) : (writeOp io).transfer f offset data disk = (none, disk) ∨ ∃ m,
      (writeOp io).transfer f offset data disk =
          (none, disk.write f.path offset (data.take m)) ∨
        (writeOp io).transfer f offset data disk =
          (some (data.take m).length, disk.write f.path offset (data.take m)) := by
  simp only [writeOp]
  rcases io f offset with _ | m | m
  · exact Or.inl rfl
  · exact Or.inr ⟨m, Or.inl rfl⟩
  · exact Or.inr ⟨m, Or.inr rfl⟩

theorem writeOp_bounded (io : Transfers) : (writeOp io).Bounded := by
  intro f offset data disk transferred h
  rcases writeOp_transfer_cases io f offset data disk with heq | ⟨m, heq | heq⟩
  · cases heq ▸ h
  · cases heq ▸ h
  · rw [heq, Option.some.injEq, List.length_take] at h
    omega

/-- **Whatever becomes of a write, it leaves the other bytes alone.** -/
theorem byte_writeSlices_of_not_mem (hapart : F.Apart) (hcuts : Cuts F.sizes start n slices) :
    ∀ {data : Bytes} {disk : SavedFiles} {pos : ℕ} {b : UInt8}, data.length = n →
      ¬ (start ≤ pos ∧ pos < start + n) → F.byte disk pos = some b →
      F.byte (transferSlices (writeOp io) F (slices.map F.onDisk) data disk).2 pos = some b := by
  induction hcuts with
  | nil => exact fun _ _ hb => hb
  | @cons sl slices size n hsize hpos hle hrest ih =>
    intro data disk pos b hdata hout hb
    obtain ⟨f, hf, rfl⟩ := Files.exists_of_getElem?_sizes hsize
    have hdrop : (data.drop sl.size).length = n := by rw [List.length_drop]; omega
    rw [transferSlices_onDisk hf]
    split_ifs with hpad
    · exact ih hdrop (by omega) hb
    · rw [Bool.not_eq_true] at hpad
      -- however much of the slice is written, it is a part of the slice
      have hwrite : ∀ m, F.byte (disk.write f.path (sl.offset + f.fileBase)
          ((data.take sl.size).take m)) pos = some b := by
        intro m
        have hlength : ((data.take sl.size).take m).length ≤ sl.size := by
          rw [List.length_take, List.length_take]
          omega
        exact Files.byte_write_of_not_mem hapart hf hpad (by omega) (by omega) hb
      rcases writeOp_transfer_cases io f (sl.offset + f.fileBase) (data.take sl.size) disk with
        heq | ⟨m, heq | heq⟩
      · rw [heq]
        exact hb
      · rw [heq]
        exact hwrite m
      · rw [heq]
        simp only
        split_ifs with hne
        · exact hwrite m
        · exact ih hdrop (by omega) (hwrite m)

/-- **A write that goes through puts its bytes on the disk.** -/
theorem byte_writeSlices_of_mem (hapart : F.Apart) (hcuts : Cuts F.sizes start n slices) :
    ∀ {data : Bytes} {disk : SavedFiles} {pos : ℕ}, data.length = n →
      (transferSlices (writeOp io) F (slices.map F.onDisk) data disk).1 = none →
      start ≤ pos → pos < start + n → F.isPad pos = false →
      F.byte (transferSlices (writeOp io) F (slices.map F.onDisk) data disk).2 pos =
        data[pos - start]? := by
  induction hcuts with
  | nil =>
    intro data disk pos _ _ hge hlt
    omega
  | @cons sl slices size n hsize hpos hle hrest ih =>
    intro data disk pos hdata hnone hge hlt hnot
    obtain ⟨f, hf, rfl⟩ := Files.exists_of_getElem?_sizes hsize
    have hdrop : (data.drop sl.size).length = n := by rw [List.length_drop]; omega
    have hindex : ∀ start', start' + sl.size ≤ pos →
        (data.drop sl.size)[pos - (start' + sl.size)]? = data[pos - start']? := by
      intro start' h
      rw [List.getElem?_drop]
      congr 1
      omega
    rw [transferSlices_onDisk hf] at hnone ⊢
    split_ifs at hnone ⊢ with hpad
    · by_cases hfirst : pos < extent (F.sizes.take sl.index) + sl.offset + sl.size
      · obtain ⟨d, rfl⟩ := Nat.exists_eq_add_of_le hge
        rw [Nat.add_assoc, Files.isPad_eq hf (by omega), hpad] at hnot
        cases hnot
      · rw [ih hdrop hnone (by omega) (by omega) hnot, hindex _ (by omega)]
    · rw [Bool.not_eq_true] at hpad
      rcases writeOp_transfer_cases io f (sl.offset + f.fileBase) (data.take sl.size) disk with
        heq | ⟨m, heq | heq⟩
      · rw [heq] at hnone
        cases hnone
      · rw [heq] at hnone
        cases hnone
      · rw [heq] at hnone ⊢
        simp only at hnone ⊢
        split_ifs at hnone ⊢ with hne
        rw [not_not, List.length_take, List.length_take] at hne
        have htake : (data.take sl.size).take m = data.take sl.size :=
          List.take_of_length_le (by rw [List.length_take]; omega)
        rw [htake] at hnone ⊢
        by_cases hfirst : pos < extent (F.sizes.take sl.index) + sl.offset + sl.size
        · have hlength : (data.take sl.size).length = sl.size := by
            rw [List.length_take]
            omega
          have hbyte : F.byte (disk.write f.path (sl.offset + f.fileBase) (data.take sl.size)) pos =
              _ := Files.byte_write_of_mem hf hpad (by omega) hge (by omega)
          rw [List.getElem?_take_of_lt (by omega), List.getElem?_eq_getElem (by omega)] at hbyte
          rw [byte_writeSlices_of_not_mem hapart hrest hdrop (by omega) hbyte,
            List.getElem?_eq_getElem]
        · rw [ih hdrop hnone (by omega) (by omega) hnot, hindex _ (by omega)]

end Write

/-- **A block over the end of a pad file is written in the wrong place**: if it starts `o` bytes
inside the pad file, what belongs to the start of the next file is written `o` bytes behind it. -/
theorem byte_writev_over_pad {io : Transfers} {F : Files} {disk : SavedFiles} {bufs : List Bytes}
    {slot offset i o : ℕ} {f g : StorageFile} (hf : F.entries[i]? = some f)
    (hg : F.entries[i + 1]? = some g) (hpad : f.padFile = true) (hnot : g.padFile = false)
    (hstart : slot * F.pieceLength + offset = F.fileOffset i + o) (ho : o < f.size)
    (hfits : offset + bufsSize bufs ≤ F.layout.pieceSize slot)
    (hover : f.size < o + bufsSize bufs) (hin : o + (o + bufsSize bufs - f.size) ≤ g.size)
    (hok : (writev F io bufs slot offset disk).1 = bufsSize bufs) {d : ℕ}
    (hd : d < o + bufsSize bufs - f.size) :
    g.byte (writev F io bufs slot offset disk).2 (o + d) = bufs.flatten[f.size - o + d]? := by
  have hskip := skipFiles_eq ho hf
  rw [← Files.sizes, ← F.fileOffset_eq, ← hstart] at hskip
  have hdrop : F.entries.drop i = f :: g :: F.entries.drop (i + 2) := by
    obtain ⟨hi, hget⟩ := List.getElem?_eq_some_iff.mp hf
    obtain ⟨hi', hget'⟩ := List.getElem?_eq_some_iff.mp hg
    rw [List.drop_eq_getElem_cons hi, List.drop_eq_getElem_cons hi', hget, hget']
  have hleft : F.bytesLeft slot offset (bufsSize bufs) = bufsSize bufs := by
    rw [Files.bytesLeft, if_neg (by omega)]
  -- the rest of the pad file, and then the next file, with the offset as it was
  have hloop : readwriteLoop (writeOp io) (F.entries.drop i) o (bufsSize bufs) bufs disk =
      readwriteLoop (writeOp io) (g :: F.entries.drop (i + 2)) o
        (bufsSize bufs - (f.size - o)) (advanceBufs bufs (f.size - o)) disk := by
    rw [hdrop, readwriteLoop, if_neg (by omega)]
    simp only [if_pos hover]
    rw [if_neg (by omega), if_pos hpad]
    rfl
  rw [writev, readwritev, hskip, hleft] at hok ⊢
  simp only [hloop] at hok ⊢
  have hlength : (bufs.flatten.drop (f.size - o)).length = bufsSize bufs - (f.size - o) := by
    rw [List.length_drop, bufsSize_eq]
  generalize hn : bufsSize bufs - (f.size - o) = n at hok hlength ⊢
  rw [readwriteLoop, if_neg (by omega)] at hok ⊢
  have hhere : (if g.size < o + n then g.size - o else n) = n := if_neg (by omega)
  simp only [hhere, hnot, if_neg (show ¬ n = 0 by omega), Bool.false_eq_true, if_false,
    flatten_copyBufs, flatten_advanceBufs] at hok ⊢
  rw [List.take_of_length_le (by omega)] at hok ⊢
  rcases writeOp_transfer_cases io g (g.fileBase + o) (bufs.flatten.drop (f.size - o)) disk with
    heq | ⟨m, heq | heq⟩
  · rw [heq] at hok
    simp only at hok
    omega
  · rw [heq] at hok
    simp only at hok
    omega
  · rw [heq] at hok ⊢
    simp only at hok ⊢
    split_ifs at hok ⊢ with hne
    · rw [List.length_take] at hne hok
      simp only at hok
      omega
    · rw [not_not, List.length_take] at hne
      rw [Nat.sub_self, readwriteLoop_zero, List.take_of_length_le (by omega)]
      simp only
      rw [StorageFile.byte, hnot, if_neg Bool.false_ne_true, SavedFiles.write, Function.update_self,
        Option.bind_some, getElem?_writeAt_of_mem (by omega) (by omega), List.getElem?_drop]
      congr 1
      omega

/-- A pad file of four bytes and a file of eight, in one piece. -/
def padThenFile : Files := ⟨[⟨[], 4, 0, true⟩, ⟨[97], 8, 0, false⟩], 16, Nat.succ_pos 15⟩

theorem byte_writev_over_pad_padThenFile : StorageFile.byte ⟨[97], 8, 0, false⟩
    (writev padThenFile (fun f _ => .done f.size) [[1, 2, 3, 4]] 0 2 fun _ => none).2 2 = some 3 :=
  byte_writev_over_pad (i := 0) (o := 2) (f := ⟨[], 4, 0, true⟩) (d := 0) rfl rfl rfl rfl rfl
    (by decide) (by decide) (by decide) (by decide) (by decide) (by decide)

/-! ### What is read -/

section Read

variable {disk : SavedFiles} {io : Transfers} {F : Files} {start n : ℕ} {slices : List Slice}

theorem readOp_transfer_cases (disk : SavedFiles) (io : Transfers) (f : StorageFile) (offset : ℕ)
    (data read : Bytes) : (readOp disk io).transfer f offset data read = (none, read) ∨
      ∃ content m, disk f.path = some content ∧ (readOp disk io).transfer f offset data read =
        (some (((content.drop offset).take data.length).take m).length,
          read ++ ((content.drop offset).take data.length).take m) := by
  simp only [readOp]
  rcases disk f.path with _ | content
  · exact Or.inl rfl
  · rcases io f offset with _ | m | m
    · exact Or.inl rfl
    · exact Or.inl rfl
    · exact Or.inr ⟨content, m, rfl, rfl⟩

theorem readOp_bounded (disk : SavedFiles) (io : Transfers) : (readOp disk io).Bounded := by
  intro f offset data read transferred h
  rcases readOp_transfer_cases disk io f offset data read with heq | ⟨content, m, -, heq⟩
  · cases heq ▸ h
  · rw [heq, Option.some.injEq, List.length_take, List.length_take] at h
    omega

/-- The bytes of a file from here on, if so many are there. -/
theorem StorageFile.map_byte {f : StorageFile} {content : Bytes} {o n : ℕ}
    (hpad : ¬ f.padFile = true) (hcontent : disk f.path = some content)
    (hn : ((content.drop (o + f.fileBase)).take n).length = n) :
    ((content.drop (o + f.fileBase)).take n).map some = (List.range' o n).map (f.byte disk) := by
  have hlength : (((content.drop (o + f.fileBase)).take n).map some).length =
      ((List.range' o n).map (f.byte disk)).length := by
    rw [List.length_map, hn, List.length_map, List.length_range']
  refine List.ext_getElem hlength fun i hi _ => ?_
  rw [List.length_map, List.length_take, List.length_drop] at hi
  rw [List.getElem_map, List.getElem_map, List.getElem_range', StorageFile.byte, if_neg hpad,
    hcontent, Option.bind_some, List.getElem_take, List.getElem_drop,
    show f.fileBase + (o + 1 * i) = o + f.fileBase + i by omega, List.getElem?_eq_getElem]

/-- **A read that goes through is what is on the disk.** -/
theorem readSlices_eq (hcuts : Cuts F.sizes start n slices) : ∀ {data read : Bytes},
    data.length = n →
      (transferSlices (readOp disk io) F (slices.map F.onDisk) data read).1 = none →
      ∃ bytes, (transferSlices (readOp disk io) F (slices.map F.onDisk) data read).2 =
        read ++ bytes ∧ bytes.map some = (List.range' start n).map (F.byte disk) := by
  induction hcuts with
  | nil => exact fun _ _ => ⟨[], (List.append_nil _).symm, rfl⟩
  | @cons sl slices size n hsize hpos hle hrest ih =>
    intro data read hdata hnone
    obtain ⟨f, hf, rfl⟩ := Files.exists_of_getElem?_sizes hsize
    have hdrop : (data.drop sl.size).length = n := by rw [List.length_drop]; omega
    have hlength : (data.take sl.size).length = sl.size := by rw [List.length_take]; omega
    -- the bytes of the first slice, and then the others
    have happend : ∀ {first : Bytes}, first.map some = (List.range' sl.offset sl.size).map
        (f.byte disk) → (transferSlices (readOp disk io) F (slices.map F.onDisk)
          (data.drop sl.size) (read ++ first)).1 = none → ∃ bytes,
        (transferSlices (readOp disk io) F (slices.map F.onDisk) (data.drop sl.size)
          (read ++ first)).2 = read ++ bytes ∧ bytes.map some =
          (List.range' (extent (F.sizes.take sl.index) + sl.offset) (sl.size + n)).map
            (F.byte disk) := by
      intro first hfirst hnone
      obtain ⟨bytes, hread, hbytes⟩ := ih hdrop hnone
      refine ⟨first ++ bytes, ?_, ?_⟩
      · rw [hread, List.append_assoc]
      · have hshift : (List.range' (extent (F.sizes.take sl.index) + sl.offset) sl.size).map
            (F.byte disk) = (List.range' sl.offset sl.size).map (f.byte disk) := by
          rw [← List.map_add_range', List.map_map]
          refine List.map_congr_left fun o ho => ?_
          rw [List.mem_range'_1] at ho
          rw [Function.comp_apply, Files.byte_eq hf (by omega)]
        rw [List.map_append, hfirst, hbytes, ← List.range'_append_1, List.map_append, hshift]
    rw [transferSlices_onDisk hf] at hnone ⊢
    split_ifs at hnone ⊢ with hpad
    · refine happend ?_ hnone
      rw [hlength, List.map_replicate]
      refine (List.eq_replicate_iff.mpr ⟨by rw [List.length_map, List.length_range'],
        fun b hb => ?_⟩).symm
      obtain ⟨o, ho, rfl⟩ := List.mem_map.mp hb
      rw [StorageFile.byte, if_pos hpad]
    · rcases readOp_transfer_cases disk io f (sl.offset + f.fileBase) (data.take sl.size) read with
        heq | ⟨content, m, hcontent, heq⟩
      · rw [heq] at hnone
        cases hnone
      · rw [heq] at hnone ⊢
        simp only [hlength] at hnone ⊢
        split_ifs at hnone ⊢ with hne
        rw [not_not] at hne
        have hfull : ((content.drop (sl.offset + f.fileBase)).take sl.size).length = sl.size := by
          rw [List.length_take] at hne
          rw [List.length_take] at hne ⊢
          omega
        rw [List.take_of_length_le (by rw [List.length_take] at hne; omega)] at hnone ⊢
        exact happend (StorageFile.map_byte hpad hcontent hfull) hnone

/-- Nothing goes wrong. -/
def Transfers.Whole (io : Transfers) : Prop :=
  ∀ (f : StorageFile) (offset : ℕ), ∃ m, io f offset = .done m ∧ f.size ≤ m

/-- **A read goes through if everything is there** and nothing goes wrong. -/
theorem readSlices_eq_none (hio : io.Whole) (hcuts : Cuts F.sizes start n slices) :
    ∀ {data read : Bytes}, data.length = n →
      (∀ pos, start ≤ pos → pos < start + n → ∃ b, F.byte disk pos = some b) →
      (transferSlices (readOp disk io) F (slices.map F.onDisk) data read).1 = none := by
  induction hcuts with
  | nil => exact fun _ _ => rfl
  | @cons sl slices size n hsize hpos hle hrest ih =>
    intro data read hdata hbyte
    obtain ⟨f, hf, rfl⟩ := Files.exists_of_getElem?_sizes hsize
    have hdrop : (data.drop sl.size).length = n := by rw [List.length_drop]; omega
    have hlength : (data.take sl.size).length = sl.size := by rw [List.length_take]; omega
    have hlater : ∀ read, (transferSlices (readOp disk io) F (slices.map F.onDisk)
        (data.drop sl.size) read).1 = none := fun read =>
      ih hdrop fun pos hge hlt => hbyte pos (by omega) (by omega)
    rw [transferSlices_onDisk hf]
    split_ifs with hpad
    · exact hlater _
    · -- the last byte of the slice is there, so all are
      obtain ⟨b, hlast⟩ := hbyte
        (extent (F.sizes.take sl.index) + (sl.offset + (sl.size - 1))) (by omega) (by omega)
      rw [Files.byte_eq hf (by omega), StorageFile.byte, if_neg hpad] at hlast
      obtain ⟨content, hcontent, hb⟩ := Option.bind_eq_some_iff.mp hlast
      have hlt := (List.getElem?_eq_some_iff.mp hb).1
      obtain ⟨m, hm, hmle⟩ := hio f (sl.offset + f.fileBase)
      have htransfer : (readOp disk io).transfer f (sl.offset + f.fileBase) (data.take sl.size)
          read = (some sl.size, read ++
            ((content.drop (sl.offset + f.fileBase)).take sl.size).take m) := by
        simp only [readOp, hcontent, hm, hlength, List.length_take, List.length_drop]
        congr 2
        omega
      rw [htransfer]
      simp only [ne_eq, not_true_eq_false, if_false]
      exact hlater _

end Read

/-! ### Blocks -/

/-- **A block that is read or written**: in its piece, and not from the inside of a pad file over
its end. -/
structure Block (F : Files) where
  /-- The buffers. -/
  bufs : List Bytes
  /-- The slot. -/
  slot : ℕ
  /-- Where it starts in the slot. -/
  offset : ℕ
  /-- It is in the slot. -/
  fits : offset + bufsSize bufs ≤ F.layout.pieceSize slot
  /-- The slot is in the torrent. -/
  inside : slot * F.pieceLength + offset + bufsSize bufs ≤ F.totalSize
  /-- It does not go on behind a pad file that it starts inside. -/
  notOverPad : overrunsPad F (slot * F.pieceLength + offset) (bufsSize bufs) = false

namespace Block

variable {F : Files} (block : Block F)

/-- Where it starts in the torrent. -/
def start : ℕ := block.slot * F.pieceLength + block.offset

/-- How long it is. -/
def size : ℕ := bufsSize block.bufs

/-- A position in the block. -/
def Covers (pos : ℕ) : Prop := block.start ≤ pos ∧ pos < block.start + block.size

instance (pos : ℕ) : Decidable (block.Covers pos) := inferInstanceAs (Decidable (_ ∧ _))

theorem bytesLeft : F.bytesLeft block.slot block.offset (bufsSize block.bufs) = block.size := by
  rw [Files.bytesLeft, if_neg (Nat.not_lt.mpr block.fits), Block.size]

theorem cuts : Cuts F.sizes block.start block.size
    (slicesFrom 0 F.sizes block.start block.size) :=
  cuts_slicesFrom (F.totalSize_eq ▸ block.inside)

/-- **Each block is read and written slice by slice.** -/
theorem readwritev_eq {σ : Type*} (op : FileOp σ) (s : σ) :
    readwritev op F block.bufs block.slot block.offset s =
      match transferSlices op F ((slicesFrom 0 F.sizes block.start block.size).map F.onDisk)
        block.bufs.flatten s with
      | (some r, s) => (r, s)
      | (none, s) => (block.size, s) := by
  have hleft := block.bytesLeft
  have hslices := @readwritev_eq_transferSlices σ op F block.slot block.offset block.bufs s
  rw [hleft, mapBlock_eq_slices] at hslices
  exact hslices block.inside block.notOverPad

/-- **The whole size is returned where the last slice is reached**, and never more. -/
theorem readwritev_fst {σ : Type*} {op : FileOp σ} (hop : op.Bounded) (s : σ) :
    (readwritev op F block.bufs block.slot block.offset s).1 ≤ block.size ∧
      ((readwritev op F block.bufs block.slot block.offset s).1 = block.size ↔
        (transferSlices op F ((slicesFrom 0 F.sizes block.start block.size).map F.onDisk)
          block.bufs.flatten s).1 = none) := by
  rw [block.readwritev_eq op s]
  rcases hres : transferSlices op F ((slicesFrom 0 F.sizes block.start block.size).map F.onDisk)
    block.bufs.flatten s with ⟨_ | r, s'⟩
  · exact ⟨Int.le_refl _, iff_of_true rfl rfl⟩
  · have hlt := transferSlices_lt hop block.cuts (bufsSize_eq block.bufs).symm
      (congrArg Prod.fst hres)
    exact ⟨Int.le_of_lt hlt, iff_of_false (Int.ne_of_lt hlt) (Option.some_ne_none r)⟩

theorem readwritev_snd {σ : Type*} (op : FileOp σ) (s : σ) :
    (readwritev op F block.bufs block.slot block.offset s).2 =
      (transferSlices op F ((slicesFrom 0 F.sizes block.start block.size).map F.onDisk)
        block.bufs.flatten s).2 := by
  rw [block.readwritev_eq op s]
  rcases transferSlices op F ((slicesFrom 0 F.sizes block.start block.size).map F.onDisk)
    block.bufs.flatten s with ⟨_ | r, s'⟩ <;> rfl

/-- The block is written. -/
def write (io : Transfers) (disk : SavedFiles) : ℤ × SavedFiles :=
  writev F io block.bufs block.slot block.offset disk

/-- The block is read. -/
def read (io : Transfers) (disk : SavedFiles) : ℤ × Bytes :=
  readv F disk io block.bufs block.slot block.offset

variable {block} {io : Transfers} {disk : SavedFiles} {pos : ℕ}

theorem byte_write_of_not_covers (hapart : F.Apart) {b : UInt8} (hout : ¬ block.Covers pos)
    (hb : F.byte disk pos = some b) : F.byte (block.write io disk).2 pos = some b := by
  rw [write, writev, block.readwritev_snd]
  exact byte_writeSlices_of_not_mem hapart block.cuts (bufsSize_eq block.bufs).symm hout hb

theorem byte_write_of_covers (hapart : F.Apart) (hok : (block.write io disk).1 = block.size)
    (hin : block.Covers pos) (hpad : F.isPad pos = false) :
    F.byte (block.write io disk).2 pos = block.bufs.flatten[pos - block.start]? := by
  rw [write, writev, (block.readwritev_fst (writeOp_bounded io) disk).2] at hok
  rw [write, writev, block.readwritev_snd]
  exact byte_writeSlices_of_mem hapart block.cuts (bufsSize_eq block.bufs).symm hok hin.1 hin.2 hpad

theorem read_fst_le (block : Block F) (io : Transfers) (disk : SavedFiles) :
    (block.read io disk).1 ≤ block.size := (block.readwritev_fst (readOp_bounded disk io) []).1

theorem map_read (hok : (block.read io disk).1 = block.size) :
    (block.read io disk).2.map some =
      (List.range' block.start block.size).map (F.byte disk) := by
  rw [read, readv, (block.readwritev_fst (readOp_bounded disk io) []).2] at hok
  rw [read, readv, block.readwritev_snd]
  obtain ⟨bytes, hread, hbytes⟩ := readSlices_eq block.cuts (bufsSize_eq block.bufs).symm hok
  rw [hread, List.nil_append, hbytes]

theorem read_eq_size (hio : io.Whole)
    (hbyte : ∀ pos, block.Covers pos → ∃ b, F.byte disk pos = some b) :
    (block.read io disk).1 = block.size := by
  rw [read, readv, (block.readwritev_fst (readOp_bounded disk io) []).2]
  exact readSlices_eq_none hio block.cuts (bufsSize_eq block.bufs).symm fun pos hge hlt =>
    hbyte pos ⟨hge, hlt⟩

end Block

/-! ### Writes in any order -/

/-- **A write, and what becomes of it.** -/
structure Write (F : Files) extends Block F where
  /-- Its transfers. -/
  io : Transfers

section Writes

variable {F : Files}

/-- The disk after some writes. -/
def diskAfter (writes : List (Write F)) (disk : SavedFiles) : SavedFiles :=
  writes.foldl (fun disk w => (w.toBlock.write w.io disk).2) disk

/-- **What is known of the bytes after a write**: those of the block, if it returned its size, and
otherwise nothing in the block. What is in a pad file does not count. -/
def Write.remember (w : Write F) (ok : Bool) (known : ℕ → Option UInt8) : ℕ → Option UInt8 :=
  fun pos =>
    if w.Covers pos ∧ F.isPad pos = false then
      if ok then w.bufs.flatten[pos - w.start]? else none
    else known pos

/-- **What is known of the bytes after some writes.** -/
def knownAfter : List (Write F) → SavedFiles → (ℕ → Option UInt8) → ℕ → Option UInt8
  | [], _, known => known
  | w :: writes, disk, known =>
    knownAfter writes (w.toBlock.write w.io disk).2
      (w.remember ((w.toBlock.write w.io disk).1 = w.size) known)

/-- **One write**: what is known stays true. -/
theorem byte_of_remember (hapart : F.Apart) (w : Write F) {disk : SavedFiles}
    {known : ℕ → Option UInt8} (hknown : ∀ pos b, known pos = some b → F.byte disk pos = some b)
    {pos : ℕ} {b : UInt8}
    (h : w.remember ((w.toBlock.write w.io disk).1 = w.size) known pos = some b) :
    F.byte (w.toBlock.write w.io disk).2 pos = some b := by
  rw [Write.remember] at h
  split_ifs at h with hin hok
  · rw [Block.byte_write_of_covers hapart (by simpa using hok) hin.1 hin.2, h]
  · have hb := hknown pos b h
    by_cases hcovers : w.Covers pos
    · have hpad : F.isPad pos = true := by simpa [hcovers] using hin
      rwa [Files.byte_of_isPad hpad] at hb ⊢
    · exact Block.byte_write_of_not_covers hapart hcovers hb

/-- **Any number of writes.** -/
theorem byte_of_knownAfter (hapart : F.Apart) (writes : List (Write F)) : ∀ {disk : SavedFiles}
    {known : ℕ → Option UInt8}, (∀ pos b, known pos = some b → F.byte disk pos = some b) →
    ∀ pos b, knownAfter writes disk known pos = some b →
      F.byte (diskAfter writes disk) pos = some b := by
  induction writes with
  | nil => exact fun hknown => hknown
  | cons w writes ih =>
    intro disk known hknown
    exact ih fun pos b h => byte_of_remember hapart w hknown h

/-- **A block is read as it was last written.** Whatever was written before, in whatever order,
and whatever became of it: a read that returns the size of the block has read every byte as it was
last written, or as it was on the disk; and if every byte is known and nothing goes wrong, it
does return the size. -/
theorem read_after_writes (hapart : F.Apart) (writes : List (Write F)) (disk : SavedFiles)
    (block : Block F) (io : Transfers) :
    ((block.read io (diskAfter writes disk)).1 = block.size → ∀ i b, i < block.size →
        knownAfter writes disk (F.byte disk) (block.start + i) = some b →
        (block.read io (diskAfter writes disk)).2[i]? = some b) ∧
      (io.Whole → (∀ pos, block.Covers pos →
          ∃ b, knownAfter writes disk (F.byte disk) pos = some b) →
        (block.read io (diskAfter writes disk)).1 = block.size) := by
  have hknown := byte_of_knownAfter hapart writes fun pos b (h : F.byte disk pos = some b) => h
  constructor
  · intro hok i b hi hb
    have hread := congrArg (·[i]?) (Block.map_read hok)
    simp only [List.getElem?_map] at hread
    rw [List.getElem?_range' hi, Nat.one_mul, Option.map_some, hknown _ b hb] at hread
    obtain ⟨b', hb', heq⟩ := Option.map_eq_some_iff.mp hread
    rw [hb', heq]
  · intro hio hall
    refine Block.read_eq_size hio fun pos hcovers => ?_
    obtain ⟨b, hb⟩ := hall pos hcovers
    exact ⟨b, hknown pos b hb⟩

/-- Three bytes over both files. -/
def spanningWrite : Write twoFiles :=
  ⟨⟨[[1, 2], [3]], 0, 1, Nat.le_of_ble_eq_true rfl, Nat.le_of_ble_eq_true rfl, rfl⟩,
    fun f _ => .done f.size⟩

theorem read_after_writes_spanningWrite :
    (spanningWrite.read spanningWrite.io (diskAfter [spanningWrite] fun _ => none)).1 = 3 ∧
      (spanningWrite.read spanningWrite.io (diskAfter [spanningWrite] fun _ => none)).2[2]? =
        some 3 := by
  have hread := read_after_writes (F := twoFiles) (by decide) [spanningWrite] (fun _ => none)
    spanningWrite.toBlock spanningWrite.io
  have hok := hread.2 (fun f _ => ⟨f.size, rfl, Nat.le_refl _⟩) fun pos hcovers => by
    obtain ⟨hge, hlt⟩ : 1 ≤ pos ∧ pos < 4 := hcovers
    interval_cases pos
    · exact ⟨1, by decide⟩
    · exact ⟨2, by decide⟩
    · exact ⟨3, by decide⟩
  exact ⟨hok, hread.1 hok 2 3 (by decide) (by decide)⟩

end Writes

end InstantMirror.Libtorrent
