import InstantMirror.Lib.Path
import InstantMirror.TorrentIndex

/-!
# The disk

What stands below the working directory of the daemon, as far as the daemon
writes there: the files libtorrent saves below `DISK_LOCATION` and the index pages
`saveIndexFile` writes next to them. A node is addressed by the normalised path
(`InstantMirror.normalise`), so two spellings of one path name one file.

An `ofstream` creates or truncates a file, but no directory: it opens when the
directory is there and the name in it is not a directory itself. libtorrent, on
the other hand, makes the directories of all the files of a torrent, and it stores
pieces, not files: of a torrent of which one file is wanted, every file that has a byte
in a piece of that file is written to (`InstantMirror.TorrentInfo.written`).
-/

namespace InstantMirror

/-- `DISK_LOCATION`. -/
def diskLocation : Bytes := ascii "../www/"

/-- What a file on the disk holds. -/
inductive Content where
  /-- The data of a file of a torrent. -/
  | data (e : FileEntry) : Content
  /-- Some pieces of a file of a torrent, and between them whatever stood there before. -/
  | part (e : FileEntry) : Content
  /-- An index page. -/
  | page (p : IndexPage) : Content
  /-- Anything else. -/
  | other (bytes : Bytes) : Content
deriving DecidableEq

/-- Whether it is the data of a torrent, or some of it. -/
def Content.mirrored : Content → Bool
  | .data _ | .part _ => true
  | .page _ | .other _ => false

/-- A file or a directory. -/
inductive Node where
  /-- A directory. -/
  | dir : Node
  /-- A file. -/
  | file (c : Content) : Node
deriving DecidableEq

/-- **The disk**: what stands at each normalised path. -/
structure Disk where
  /-- What stands at a path. -/
  node : List Bytes → Option Node

namespace Disk

variable (disk : Disk)

/-- **Whether an `ofstream` on the path opens.** -/
def opens (path : Bytes) : Bool :=
  disk.node (normalise path).dropLast = some .dir ∧ disk.node (normalise path) ≠ some .dir

/-- Writing a file. -/
def write (path : Bytes) (c : Content) : Disk where
  node q := if q = normalise path then some (.file c) else disk.node q

/-- libtorrent making the directories on the way to a file. -/
def makeDirs (path : Bytes) : Disk where
  node q :=
    if q ≠ normalise path ∧ q.isPrefixOf (normalise path) ∧ disk.node q = none then some .dir
    else disk.node q

/-- libtorrent saving a file: the directories on the way are made. -/
def save (path : Bytes) (c : Content) : Disk := (disk.makeDirs path).write path c

/-- The disk with nothing below `DISK_LOCATION`. -/
def bare : Disk where
  node q := if q = normalise diskLocation then some .dir else none

@[simp] theorem node_write (path : Bytes) (c : Content) :
    (disk.write path c).node (normalise path) = some (.file c) := if_pos rfl

theorem node_write_of_ne {path : Bytes} {q : List Bytes} (hq : q ≠ normalise path) (c : Content) :
    (disk.write path c).node q = disk.node q := if_neg hq

theorem node_makeDirs_of_some {path : Bytes} {q : List Bytes} {n : Node}
    (hq : disk.node q = some n) : (disk.makeDirs path).node q = some n := by
  simp [makeDirs, hq]

@[simp] theorem node_save (path : Bytes) (c : Content) :
    (disk.save path c).node (normalise path) = some (.file c) := node_write _ path c

/-! ### What libtorrent stores -/

/-- libtorrent storing pieces of a file. A file that is complete stays so, and one without any
bytes is complete once it has been made. -/
def store (e : FileEntry) : Disk :=
  disk.save (diskLocation ++ e.path)
    (if e.size = 0 ∨ disk.node (normalise (diskLocation ++ e.path)) = some (.file (.data e)) then
      .data e
    else .part e)

/-- The file has been downloaded: all its pieces are stored. A pad file is not stored. -/
def complete (e : FileEntry) : Disk :=
  if e.padFile then disk else disk.save (diskLocation ++ e.path) (.data e)

end Disk

namespace TorrentInfo

variable (ti : TorrentInfo)

/-- Where a file starts: the files lie one behind the other. -/
def offset (index : ℕ) : ℤ := (ti.files.take index).foldl (fun sum e => sum + e.size) 0

/-- The first piece with a byte of the file. -/
def firstPiece (index : ℕ) : ℤ := ti.offset index / ti.pieceLength

/-- The last piece with a byte of the file. -/
def lastPiece (index : ℕ) (e : FileEntry) : ℤ := (ti.offset index + e.size - 1) / ti.pieceLength

/-- **A file is written to where the pieces of another are stored**: it has no bytes, and is made
with its directory; or a piece has bytes of both. Pad files are not stored. -/
def Writes (index : ℕ) (e : FileEntry) (index' : ℕ) (e' : FileEntry) : Prop :=
  e'.padFile = false ∧ (e'.size = 0 ∨ (0 < e.size ∧ 0 < e'.size ∧
    ti.firstPiece index' ≤ ti.lastPiece index e ∧ ti.firstPiece index ≤ ti.lastPiece index' e'))

instance (index : ℕ) (e : FileEntry) (index' : ℕ) (e' : FileEntry) :
    Decidable (ti.Writes index e index' e') := inferInstanceAs (Decidable (_ ∧ _))

/-- **The files that are written to** where the pieces of a file are stored. -/
def written (index : ℕ) : List FileEntry :=
  match ti.files[index]? with
  | none => []
  | some e => (ti.files.zipIdx.filter fun p => ti.Writes index e p.2 p.1).map Prod.fst

theorem mem_written {index : ℕ} {e' : FileEntry} : e' ∈ ti.written index ↔
    ∃ e index', ti.files[index]? = some e ∧ ti.files[index']? = some e' ∧
      ti.Writes index e index' e' := by
  rw [written]
  split
  · rename_i hnone
    simp [hnone]
  · rename_i e he
    simp [he, List.mem_zipIdx_iff_getElem?, and_comm]

end TorrentInfo

/-- **libtorrent storing the pieces of a file**: the directories of all the files are made, and
the files that have bytes in these pieces are written to. -/
def Disk.spill (disk : Disk) (ti : TorrentInfo) (index : ℕ) : Disk :=
  (ti.written index).foldl Disk.store
    (ti.files.foldl (fun disk e => disk.makeDirs (diskLocation ++ e.path)) disk)

end InstantMirror
