import Mathlib.Data.List.Basic
import InstantMirror.Lib.Bytes

/-!
# The `.torrent` files, and the two readers of one

`TORRENT_LOCATION` is a directory of `.torrent` files (and whatever else somebody
put there), and the daemon reads each of them with *two* pieces of code:

* `tor::gettor` of `daemon.cpp` (`InstantMirror.gettor`), which loads the file
  itself, up to `10 * 1000000` bytes, and answers every failure with an empty
  list or with `exit(-1)`. Its list is what a request is looked up in;
* the constructor `torrent_info(fs::path const&)` of libtorrent
  (`InstantMirror.torrentInfo`), which goes through `load_file`, up to `5000000`
  bytes, and answers a failure to load by an object *without any file* and a
  failure to parse by an exception. Its list is what the status of the daemon is
  sized for.

What the two have in common – decoding a buffer with `lazy_bdecode` and reading a
`torrent_info` out of it – is taken here as a property of the file: a
`InstantMirror.TorrentFile` knows what its first `n` bytes decode to. The two
agree as soon as the second one delivers a file at all
(`InstantMirror.gettor_eq_of_torrentInfo`).
-/

namespace InstantMirror

/-! ### What a `.torrent` file describes -/

/-- **A file of a torrent**, as `file_entry` of libtorrent has it. -/
structure FileEntry where
  /-- The path, starting with the name of the torrent. -/
  path : Bytes
  /-- The length in bytes. -/
  size : ℤ
  /-- The modification time the torrent records for this file. -/
  mtime : ℤ
  /-- Whether the file is a symbolic link. -/
  symlinkAttribute : Bool
  /-- The target of the link. -/
  symlinkPath : Bytes
  /-- Whether the file is there for its length only, and never stored. -/
  padFile : Bool
deriving DecidableEq

/-- **A `torrent_info`**: its files, in order, the length of its pieces, and the hash that
identifies the rest of it. -/
structure TorrentInfo where
  /-- The hash of the info section. -/
  infoHash : Bytes
  /-- The files, in the order of the torrent. -/
  files : List FileEntry
  /-- The length of a piece. -/
  pieceLength : ℤ
deriving DecidableEq

/-- `torrent_info::num_files`. -/
def TorrentInfo.numFiles (ti : TorrentInfo) : ℕ := ti.files.length

/-- The `torrent_info` of a file that `load_file` could not load: the constructor
returns before it has read anything. -/
def TorrentInfo.blank : TorrentInfo := ⟨[], [], 0⟩

/-- What a buffer decodes to. -/
inductive Decoded where
  /-- `lazy_bdecode` fails. -/
  | invalidBencoding : Decoded
  /-- The buffer is bencoded, but `parse_torrent_file` rejects it. -/
  | invalidTorrent : Decoded
  /-- The buffer is a torrent. -/
  | torrent (ti : TorrentInfo) : Decoded
deriving DecidableEq

/-- **A regular file in `TORRENT_LOCATION`.** -/
structure TorrentFile where
  /-- Its size in bytes. -/
  size : ℕ
  /-- Whether it can be opened for reading. -/
  readable : Bool
  /-- What its first `n` bytes decode to. -/
  decode : ℕ → Decoded
  /-- The modification time `stat` reports. -/
  mtime : ℤ
  /-- The modification time `lstat` reports: another one when the name in the
  directory is a symbolic link. -/
  linkMtime : ℤ

/-- An entry of `TORRENT_LOCATION`: a regular file, or a directory with the two
modification times `stat` and `lstat` report. -/
inductive DirEntry where
  /-- A regular file. -/
  | file (f : TorrentFile) : DirEntry
  /-- A directory. -/
  | directory (mtime linkMtime : ℤ) : DirEntry

/-- `st_mtime` after `stat`. -/
def DirEntry.mtime : DirEntry → ℤ
  | .file f => f.mtime
  | .directory t _ => t

/-- `st_mtime` after `lstat`. -/
def DirEntry.linkMtime : DirEntry → ℤ
  | .file f => f.linkMtime
  | .directory _ t => t

/-- `S_ISREG(st_mode)` after `stat`. -/
def DirEntry.isReg : DirEntry → Bool
  | .file _ => true
  | .directory _ _ => false

/-- **The content of `TORRENT_LOCATION`**: what is found at the end of a path
appended to it. The empty path is the location itself, a directory. -/
structure TorrentDir where
  /-- What `stat(TORRENT_LOCATION + path)` finds. -/
  entry : Bytes → Option DirEntry
  /-- The location itself is a directory. -/
  root_isDir : ∃ t t', entry [] = some (.directory t t')

/-! ### `tor::gettor` -/

/-- **A row of `gettor`'s list**, `torfile_list` of `daemon.h`. The piece numbers
`node_s` and `node_f` are never read. -/
structure TorFile where
  /-- The full path of the file. -/
  name : Bytes
  /-- The length in bytes. -/
  size : ℤ
  /-- The modification time the torrent records for this file. -/
  mtime : ℤ
  /-- Whether the file is a symbolic link. -/
  symlinkAttribute : Bool
  /-- The target of the link. -/
  symlinkPath : Bytes
deriving DecidableEq

/-- The loop of `gettor` over the files of the torrent. One `torfile_list` object
is filled again and again, and `symlink_path` only for links: a row that is no
link carries the target of the last link before it. -/
def torList (symlinkPath : Bytes) : List FileEntry → List TorFile
  | [] => []
  | e :: es =>
    let target := if e.symlinkAttribute then e.symlinkPath else symlinkPath
    ⟨e.path, e.size, e.mtime, e.symlinkAttribute, target⟩ :: torList target es

/-- What `gettor` decodes: the first `n` bytes of the file, or as many zeros when
the `ifstream` did not open. -/
def TorrentFile.bufDecode (f : TorrentFile) (n : ℕ) : Decoded :=
  if f.readable then f.decode n else if n = 0 then .invalidTorrent else .invalidBencoding

/-- `int size = file_size(argvv)`: the size, converted to a 32-bit integer. -/
def TorrentFile.intSize (f : TorrentFile) : ℤ := (f.size : ℤ).bmod 0x100000000

/-- **`tor::gettor` on a regular file**; `none` where it calls `exit(-1)`. A
negative size makes the constructor of the buffer throw, and what is thrown is
caught: the list stays empty. -/
def TorrentFile.gettor (f : TorrentFile) : Option (List TorFile) :=
  if f.intSize > 10 * 1000000 then none
  else if f.intSize < 0 then some []
  else
    match f.bufDecode f.intSize.toNat with
    | .invalidBencoding => none
    | .invalidTorrent => some []
    | .torrent ti => some (torList [] ti.files)

/-- **`tor::gettor`**; `none` where it calls `exit(-1)`. `file_size` throws on
what is no regular file, and what is thrown is caught. -/
def gettor (dir : TorrentDir) (name : Bytes) : Option (List TorFile) :=
  match dir.entry name with
  | some (.file f) => f.gettor
  | _ => some []

/-- The loop of `check`: the first row whose name is `torrent_name/path`, or `-1`. -/
def checkIndex (list : List TorFile) (torrentName path : Bytes) : ℤ :=
  match list.findIdx? fun row => row.name = torrentName ++ slash :: path with
  | some i => (i : ℤ)
  | none => -1

/-- **`check`**; `none` where `gettor` calls `exit(-1)`. -/
def check (dir : TorrentDir) (torrentName path : Bytes) : Option ℤ :=
  (gettor dir torrentName).map fun list => checkIndex list torrentName path

/-! ### The constructor of `torrent_info` -/

/-- `load_file`: how many bytes it loads, unless it fails. -/
def TorrentFile.loadFile (f : TorrentFile) : Option ℕ :=
  if f.readable ∧ f.size ≤ 5000000 then some f.size else none

/-- **`torrent_info(fs::path const&)`**; `none` where it throws. -/
def torrentInfo (dir : TorrentDir) (name : Bytes) : Option TorrentInfo :=
  match dir.entry name with
  | some (.file f) =>
    match f.loadFile with
    | none => some .blank
    | some n =>
      match f.decode n with
      | .torrent ti => some ti
      | _ => none
  | _ => some .blank

/-! ### Small directories, for examples -/

/-- A regular file of a torrent. -/
def FileEntry.plain (path : Bytes) (mtime : ℤ) : FileEntry := ⟨path, 1, mtime, false, [], false⟩

/-- A symbolic link of a torrent. -/
def FileEntry.link (path target : Bytes) : FileEntry := ⟨path, 0, 1, true, target, false⟩

/-- The `torrent_info` of these files. -/
def TorrentInfo.ofFiles (files : List FileEntry) : TorrentInfo := ⟨[], files, 16384⟩

/-- A `.torrent` file of this age that lists these files. -/
def DirEntry.listing (mtime : ℤ) (files : List FileEntry) : DirEntry :=
  .file ⟨300, true, fun _ => .torrent (.ofFiles files), mtime, mtime⟩

/-- The directory with these entries and no other. -/
def TorrentDir.ofList (entries : List (Bytes × DirEntry)) : TorrentDir where
  entry name := if name = [] then some (.directory 0 0) else entries.lookup name
  root_isDir := ⟨0, 0, rfl⟩

theorem TorrentDir.mem_of_entry {entries : List (Bytes × DirEntry)} {name : Bytes} {e : DirEntry}
    (h : (TorrentDir.ofList entries).entry name = some e) (hne : name ≠ []) :
    (name, e) ∈ entries := by
  have hlookup : entries.lookup name = some e := (if_neg hne).symm.trans h
  obtain ⟨before, after, rfl, -⟩ := List.lookup_eq_some_iff.mp hlookup
  simp

/-! ### The two readers compared -/

/-- What a row of either list is matched on: its full path and its own
modification time. -/
def FileEntry.key (e : FileEntry) : Bytes × ℤ := (e.path, e.mtime)

/-- The same for a row of `gettor`'s list. -/
def TorFile.key (row : TorFile) : Bytes × ℤ := (row.name, row.mtime)

/-- `gettor` keeps the files in order, with their paths and modification times. -/
theorem map_key_torList (es : List FileEntry) :
    ∀ target, (torList target es).map TorFile.key = es.map FileEntry.key := by
  induction es with
  | nil => intro target; rfl
  | cons e es ih =>
    intro target
    simp [torList, ih, TorFile.key, FileEntry.key]

theorem length_torList (es : List FileEntry) (target : Bytes) :
    (torList target es).length = es.length := by
  simpa using congrArg List.length (map_key_torList es target)

theorem exists_file_of_mem_torList {es : List FileEntry} {target : Bytes} {row : TorFile}
    (h : row ∈ torList target es) : ∃ e ∈ es, e.key = row.key := by
  have hkey : row.key ∈ (torList target es).map TorFile.key := List.mem_map_of_mem h
  rw [map_key_torList] at hkey
  exact List.mem_map.mp hkey

/-- **What `gettor` lists**: nothing, or the files of a torrent. -/
theorem gettor_cases {dir : TorrentDir} {name : Bytes} {list : List TorFile}
    (h : gettor dir name = some list) : list = [] ∨ ∃ f n ti,
      dir.entry name = some (.file f) ∧ f.decode n = .torrent ti ∧ list = torList [] ti.files := by
  rw [gettor] at h
  split at h
  · rename_i f hf
    rw [TorrentFile.gettor] at h
    split at h
    · cases h
    split at h
    · exact Or.inl (Option.some.inj h).symm
    rw [TorrentFile.bufDecode] at h
    split at h
    · cases h
    · exact Or.inl (Option.some.inj h).symm
    · rename_i ti hdec
      split at hdec
      · exact Or.inr ⟨f, _, ti, hf, hdec, (Option.some.inj h).symm⟩
      · split at hdec <;> cases hdec
  · exact Or.inl (Option.some.inj h).symm

/-- A size that `load_file` accepts survives the conversion to `int`. -/
theorem TorrentFile.intSize_of_loadFile {f : TorrentFile} {n : ℕ} (h : f.loadFile = some n) :
    f.readable = true ∧ n = f.size ∧ f.intSize = f.size ∧ f.size ≤ 5000000 := by
  by_cases hc : f.readable ∧ f.size ≤ 5000000
  · rw [TorrentFile.loadFile, if_pos hc] at h
    refine ⟨hc.1, (Option.some.inj h).symm, ?_, hc.2⟩
    have hs : f.size ≤ 5000000 := hc.2
    exact Int.bmod_eq_of_le (by omega) (by omega)
  · rw [TorrentFile.loadFile, if_neg hc] at h
    cases h

/-- **The readers agree where the second one finds a file.** A `torrent_info` with
at least one file was loaded and parsed, and `gettor` reads the same bytes. -/
theorem gettor_eq_of_torrentInfo {dir : TorrentDir} {name : Bytes} {ti : TorrentInfo}
    (h : torrentInfo dir name = some ti) (hne : ti.files ≠ []) :
    gettor dir name = some (torList [] ti.files) := by
  rw [torrentInfo] at h
  split at h
  · rename_i f hf
    split at h
    · -- nothing was loaded: the object has no file
      obtain rfl := Option.some.inj h
      exact absurd rfl hne
    · rename_i n hn
      obtain ⟨hr, rfl, hint, hle⟩ := TorrentFile.intSize_of_loadFile hn
      have hdec : f.decode f.size = .torrent ti := by
        split at h
        · rename_i ti' hti
          rw [hti, Option.some.inj h]
        · cases h
      rw [gettor, hf]
      simp only [TorrentFile.gettor, hint, TorrentFile.bufDecode, hr, Int.toNat_natCast, hdec,
        if_true]
      rw [if_neg (by omega), if_neg (by omega)]
  · obtain rfl := Option.some.inj h
    exact absurd rfl hne

/-- The two readers list as many files. -/
theorem length_of_torrentInfo {dir : TorrentDir} {name : Bytes} {ti : TorrentInfo}
    {list : List TorFile} (hti : torrentInfo dir name = some ti) (hne : ti.files ≠ [])
    (hlist : gettor dir name = some list) : list.length = ti.numFiles := by
  rw [gettor_eq_of_torrentInfo hti hne] at hlist
  obtain rfl := Option.some.inj hlist
  exact length_torList _ _

/-- The row of `gettor`'s list at an index, and the file of the `torrent_info`. -/
theorem exists_file_of_row {dir : TorrentDir} {name : Bytes} {ti : TorrentInfo}
    {list : List TorFile} {k : ℕ} {row : TorFile} (hti : torrentInfo dir name = some ti)
    (hne : ti.files ≠ []) (hlist : gettor dir name = some list) (hrow : list[k]? = some row) :
    ∃ f : FileEntry, ti.files[k]? = some f ∧ f.key = row.key := by
  rw [gettor_eq_of_torrentInfo hti hne] at hlist
  obtain rfl := Option.some.inj hlist
  have hkeys := congrArg (·[k]?) (map_key_torList ti.files [])
  rw [List.getElem?_map, List.getElem?_map, hrow] at hkeys
  rcases hf : ti.files[k]? with _ | f
  · simp [hf] at hkeys
  · exact ⟨f, rfl, by simpa [hf] using hkeys.symm⟩

/-- The row has the path, the length and the modification time of the file. -/
def TorFile.Describes (row : TorFile) (f : FileEntry) : Prop :=
  f.path = row.name ∧ f.size = row.size ∧ f.mtime = row.mtime

theorem describes_of_torList {es : List FileEntry} {row : TorFile} {f : FileEntry} :
    ∀ {target : Bytes} {k : ℕ}, (torList target es)[k]? = some row → es[k]? = some f →
      row.Describes f := by
  induction es with
  | nil => intro target k hrow; cases hrow
  | cons e es ih =>
    intro target k hrow hf
    cases k with
    | zero =>
      obtain rfl := Option.some.inj hrow
      obtain rfl := Option.some.inj hf
      exact ⟨rfl, rfl, rfl⟩
    | succ k => exact ih hrow hf

/-- The row of `gettor`'s list describes the file of the `torrent_info`. -/
theorem describes_of_row {dir : TorrentDir} {name : Bytes} {ti : TorrentInfo}
    {list : List TorFile} {k : ℕ} {row : TorFile} {f : FileEntry}
    (hti : torrentInfo dir name = some ti) (hlist : gettor dir name = some list)
    (hrow : list[k]? = some row) (hf : ti.files[k]? = some f) : row.Describes f := by
  have hne : ti.files ≠ [] := List.ne_nil_of_mem (List.mem_of_getElem? hf)
  rw [gettor_eq_of_torrentInfo hti hne] at hlist
  obtain rfl := Option.some.inj hlist
  exact describes_of_torList hrow hf

/-- **Where `gettor` lists a file, the other reader does not throw**: it either loads the
same bytes or gives an object without files. -/
theorem exists_torrentInfo_of_gettor {dir : TorrentDir} {name : Bytes} {list : List TorFile}
    (h : gettor dir name = some list) (hne : list ≠ []) :
    ∃ e ti, dir.entry name = some e ∧ torrentInfo dir name = some ti := by
  rw [gettor] at h
  split at h
  · rename_i f hf
    rcases hload : f.loadFile with _ | n
    · exact ⟨.file f, .blank, hf, by simp [torrentInfo, hf, hload]⟩
    · obtain ⟨hr, rfl, hint, hle⟩ := TorrentFile.intSize_of_loadFile hload
      rw [TorrentFile.gettor, if_neg (by omega), if_neg (by omega), hint, Int.toNat_natCast,
        TorrentFile.bufDecode, if_pos hr] at h
      rcases hdec : f.decode f.size with _ | _ | ti
      · simp [hdec] at h
      · rw [hdec] at h
        exact absurd (Option.some.inj h).symm hne
      · exact ⟨.file f, ti, hf, by simp [torrentInfo, hf, hload, hdec]⟩
  · exact absurd (Option.some.inj h).symm hne

/-- **What the loop of `check` finds**: nothing, and then no row has the requested
name, or the index of a row that has it. -/
theorem checkIndex_cases (list : List TorFile) (torrentName path : Bytes) :
    (checkIndex list torrentName path = -1 ∧
        ∀ row ∈ list, row.name ≠ torrentName ++ slash :: path) ∨
      ∃ (k : ℕ) (row : TorFile), checkIndex list torrentName path = k ∧
        list[k]? = some row ∧ row.name = torrentName ++ slash :: path := by
  rw [checkIndex]
  split
  · rename_i i hi
    obtain ⟨hlt, hrow, -⟩ := List.findIdx?_eq_some_iff_getElem.mp hi
    exact Or.inr ⟨i, list[i], rfl, List.getElem?_eq_getElem hlt, by simpa using hrow⟩
  · rename_i hi
    refine Or.inl ⟨rfl, fun row hrow => ?_⟩
    simpa using List.findIdx?_eq_none_iff.mp hi row hrow

end InstantMirror
