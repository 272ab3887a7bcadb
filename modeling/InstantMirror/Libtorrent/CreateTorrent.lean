import InstantMirror.Libtorrent.TorrentInfo

/-!
# Making a `.torrent` file

`make_torrent` and the part of libtorrent it uses. `add_files` goes through a tree of files
and adds to a `file_storage` every file that is no directory and whose name does not start
with a dot (`InstantMirror.addFilesImpl`); `create_torrent` puts the largest file in front
(`InstantMirror.optimize`) and counts the pieces; `generate` makes the `entry` that `bencode`
writes (`InstantMirror.CreateTorrent.generate`).

The target of a symbolic link passes through a buffer of `MAX_SYMLINK_PATH` bytes on its way.
If it does not fit, the stored target is the empty path
(`InstantMirror.getSymlinkPath`) – and then `generate` makes an entry for it that it never
assigns anything to (`InstantMirror.listEntry`).
-/

namespace InstantMirror

/-! ### The scan -/

/-- What `lstat` says about a file: its modification time, and whether its owner may execute
it. -/
structure Stat where
  /-- `st_mtime`. -/
  mtime : ℤ
  /-- `st_mode & S_IXUSR`. -/
  executable : Bool
  /-- A `time_t` has 64 bits. -/
  mtime_lt : mtime < 0x8000000000000000

/-- **A tree of files**, as `is_directory` sees it: a symbolic link that leads to a directory
is one. -/
inductive Tree where
  /-- A regular file, of a size that an `off_t` can hold. -/
  | regular (stat : Stat) (size : ℕ) (size_lt : size < 0x8000000000000000) : Tree
  /-- A symbolic link that leads to no directory. -/
  | symlink (stat : Stat) (target : FsPath) : Tree
  /-- A directory: what it contains, in the order it is read. -/
  | directory (children : List (Bytes × Tree)) : Tree

/-- **A file that the scan adds.** -/
structure Leaf where
  /-- Its path, starting with the name of the tree. -/
  path : FsPath
  /-- What `lstat` says about it. -/
  stat : Stat
  /-- Its size, `0` for a link. -/
  size : ℕ
  /-- Its target, if it is a link. -/
  target : Option FsPath
  /-- The size is one that an `off_t` can hold. -/
  size_lt : size < 0x8000000000000000
  /-- A link is added with size `0`. -/
  size_of_link : target ≠ none → size = 0

/-- `ignore_subdir`. -/
def ignoreSubdir (leaf : Bytes) : Bool := leaf = dotdot ∨ leaf = dot

/-- `file_filter` of `make_torrent`: nothing whose name starts with a dot. -/
def fileFilter (leaf : Bytes) : Bool := leaf.head? ≠ some 46

/-- Whether a path is scanned. -/
def scanned (l : FsPath) : Bool :=
  let leaf := l.getLast?.getD []
  !ignoreSubdir leaf && fileFilter leaf

mutual

/-- **`add_files_impl`**: the files it adds, in order. -/
def addFilesImpl (l : FsPath) : Tree → List Leaf
  | .regular stat size size_lt =>
    if scanned l then [⟨l, stat, size, none, size_lt, fun h => absurd rfl h⟩] else []
  | .symlink stat target =>
    if scanned l then [⟨l, stat, 0, some target, by decide, fun _ => rfl⟩] else []
  | .directory children => if scanned l then addChildren l children else []

/-- The loop of `add_files_impl` over a directory. -/
def addChildren (l : FsPath) : List (Bytes × Tree) → List Leaf
  | [] => []
  | (name, tree) :: children => addFilesImpl (l ++ [name]) tree ++ addChildren l children

end

/-- **`get_symlink_path`**: a target is lost if it does not fit into the buffer. -/
def getSymlinkPath (target : FsPath) : FsPath := if target.string.length < 200 then target else []

/-- **A `file_storage`**: its name and its files. -/
structure FileStorage where
  /-- `name()`. -/
  name : Bytes
  /-- The files. -/
  files : List StoredFile

/-- The `file_entry` that `add_file` makes. -/
def Leaf.stored (leaf : Leaf) : StoredFile where
  path := leaf.path
  size := leaf.size
  mtime := leaf.stat.mtime
  padFile := false
  hiddenAttribute := false
  executableAttribute := leaf.stat.executable
  symlinkAttribute := leaf.target.isSome
  symlinkPath := (leaf.target.map getSymlinkPath).getD []

@[simp] theorem Leaf.stored_path (leaf : Leaf) : leaf.stored.path = leaf.path := rfl

@[simp] theorem Leaf.stored_size (leaf : Leaf) : leaf.stored.size = leaf.size := rfl

@[simp] theorem Leaf.stored_mtime (leaf : Leaf) : leaf.stored.mtime = leaf.stat.mtime := rfl

/-- **`file_storage::add_file`.** -/
def FileStorage.addFile (fs : FileStorage) (leaf : Leaf) : FileStorage where
  name :=
    if leaf.path.hasParentPath then
      if fs.files = [] then leaf.path.head?.getD [] else fs.name
    else leaf.path.string
  files := fs.files ++ [leaf.stored]

/-- **`add_files`**, for a tree of this name. -/
def addFiles (name : Bytes) (tree : Tree) : FileStorage :=
  (addFilesImpl [name] tree).foldl FileStorage.addFile ⟨[], []⟩

/-! ### `create_torrent` -/

/-- `std::max_element`: the first file that is as large as any. -/
def largest (files : List StoredFile) : ℕ :=
  files.findIdx fun f => files.all fun g => g.size ≤ f.size

/-- **`file_storage::optimize(-1)`**, without padding: the largest file changes places with
the first. -/
def optimize : List StoredFile → List StoredFile
  | [] => []
  | f :: files =>
    match largest (f :: files) with
    | 0 => f :: files
    | i + 1 =>
      match files.drop i with
      | [] => f :: files
      | g :: after => g :: (files.take i ++ f :: after)

/-- **A `sha1_hash`.** -/
structure Sha1Hash where
  /-- Its bytes. -/
  bytes : Bytes
  /-- There are twenty of them. -/
  length_eq : bytes.length = 20

/-- **A `create_torrent`.** -/
structure CreateTorrent where
  /-- `m_files.name()`. -/
  name : Bytes
  /-- The files, in the order of the torrent. -/
  files : List StoredFile
  /-- `m_multifile`. -/
  multifile : Bool
  /-- `m_files.piece_length()`. -/
  pieceLength : ℤ
  /-- `m_piece_hash`. -/
  pieceHash : List Sha1Hash
  /-- `m_creation_date`, in seconds. -/
  creationDate : ℤ
  /-- The trackers and their tiers. -/
  urls : List (Bytes × ℤ) := []
  /-- `m_nodes`. -/
  nodes : List (Bytes × ℤ) := []
  /-- `m_comment`. -/
  comment : Bytes := []
  /-- `m_created_by`. -/
  createdBy : Bytes := []
  /-- `m_url_seeds`. -/
  urlSeeds : List Bytes := []
  /-- `m_private`. -/
  isPrivate : Bool := false

/-- **The constructor of `create_torrent`**; `none` where it looks at the first of no files, or
makes a vector of a negative size. The hashes are those that `set_piece_hashes` sets. -/
def createTorrent (fs : FileStorage) (pieceSize creationDate : ℤ) (hash : ℕ → Sha1Hash) :
    Option CreateTorrent :=
  match fs.files with
  | [] => none
  | f :: files =>
    let count := numPieces (optimize (f :: files)) pieceSize
    if count < 0 then none
    else some
      { name := fs.name
        files := optimize (f :: files)
        multifile := decide (1 < (f :: files).length) || f.path.hasParentPath
        pieceLength := pieceSize
        pieceHash := (List.range count.toNat).map hash
        creationDate := creationDate }

/-! ### `generate` -/

/-- The entry of a path: a component is put into its `list()`, and then the next. Without any,
the entry stays undefined. -/
def listEntry (p : FsPath) : Entry := if p = [] then .undefined else .list (p.map .string)

/-- The letters of `attr`. -/
def StoredFile.attr (f : StoredFile) : Bytes :=
  (if f.padFile then [112] else []) ++ (if f.hiddenAttribute then [104] else []) ++
    (if f.executableAttribute then [120] else []) ++ (if f.symlinkAttribute then [108] else [])

/-- What is written about a file in both kinds of torrents, into a dictionary that has these
items. -/
def StoredFile.writeAttributes (f : StoredFile) (items : List (Bytes × Entry)) :
    List (Bytes × Entry) :=
  let items := if f.attr = [] then items else assign (ascii "attr") (.string f.attr) items
  if f.symlinkAttribute then assign (ascii "symlink path") (listEntry f.symlinkPath) items
  else items

/-- The dictionary of one of several files. -/
def StoredFile.entry (f : StoredFile) : Entry :=
  let items := assign (ascii "mtime") (.int f.mtime) []
  let items := assign (ascii "length") (.int f.size) items
  let items := assign (ascii "path") (listEntry f.path.tail) items
  .dict (f.writeAttributes items)

/-- The tiers of the trackers, `tier` being the one that is not complete yet. -/
def trackerTiers (current : ℤ) (tier : List Entry) : List (Bytes × ℤ) → List Entry
  | [] => [.list tier]
  | (url, n) :: urls =>
    if n ≠ current then .list tier :: trackerTiers n [.string url] urls
    else trackerTiers current (tier ++ [.string url]) urls

namespace CreateTorrent

/-- The dictionary `info`. -/
def info (t : CreateTorrent) : Entry :=
  let info := assign (ascii "name") (.string t.name) []
  let info := if t.isPrivate then assign (ascii "private") (.int 1) info else info
  let info :=
    if t.multifile then assign (ascii "files") (.list (t.files.map StoredFile.entry)) info
    else
      match t.files with
      | [] => info
      | f :: _ =>
        let info := assign (ascii "mtime") (.int f.mtime) info
        let info := assign (ascii "length") (.int f.size) info
        f.writeAttributes info
  let info := assign (ascii "piece length") (.int t.pieceLength) info
  .dict (assign (ascii "pieces") (.string (t.pieceHash.flatMap Sha1Hash.bytes)) info)

/-- **`create_torrent::generate`.** -/
def generate (t : CreateTorrent) : Entry :=
  if t.files = [] then .undefined
  else
    let dict := match t.urls with
      | [] => []
      | (url, _) :: _ => assign (ascii "announce") (.string url) []
    let dict := if t.nodes = [] then dict
      else assign (ascii "nodes")
        (.list (t.nodes.map fun node => .list [.string node.1, .int node.2])) dict
    let dict := match t.urls with
      | (url, n) :: u :: urls =>
        assign (ascii "announce-list") (.list (trackerTiers n [.string url] (u :: urls))) dict
      | _ => dict
    let dict := if t.comment = [] then dict else assign (ascii "comment") (.string t.comment) dict
    let dict := assign (ascii "creation date") (.int t.creationDate) dict
    let dict := if t.createdBy = [] then dict
      else assign (ascii "created by") (.string t.createdBy) dict
    let dict := match t.urlSeeds with
      | [] => dict
      | [url] => assign (ascii "url-list") (.string url) dict
      | urls => assign (ascii "url-list") (.list (urls.map .string)) dict
    .dict (assign (ascii "info") t.info dict)

end CreateTorrent

/-! ### `make_torrent` -/

/-- What `make_torrent` is given: its arguments, the time, and the hashes of the pieces. -/
structure MakeTorrent where
  /-- The announce url. -/
  announce : Bytes
  /-- The url seed, if there is a fourth argument. -/
  urlSeed : Option Bytes
  /-- The time. -/
  creationDate : ℤ
  /-- The hash of each piece, as it is read from the files. -/
  hash : ℕ → Sha1Hash

/-- **`make_torrent`**, up to `generate`. -/
def MakeTorrent.torrent (m : MakeTorrent) (name : Bytes) (tree : Tree) : Option CreateTorrent :=
  (createTorrent (addFiles name tree) (256 * 1024) m.creationDate m.hash).map fun t =>
    { t with urls := [(m.announce, 0)], createdBy := ascii "libtorrent",
             urlSeeds := m.urlSeed.toList }

/-- **What `bencode` writes to the file.** It counts the bytes in an `int`; there is no
result where they are too many for that. -/
def writeBencode (e : Entry) : Option Bytes :=
  if e.bencode.length < 0x80000000 then some e.bencode else none

end InstantMirror
