import InstantMirror.GetTorrent
import InstantMirror.Im0.MiniHttpd

/-!
# The prototype: fetching a file

`getTorrent` of `im0` keeps no status. A call looks the file up in the list of the torrent – the
names there have lost their top directory – follows a symbolic link by calling itself, and hands
the torrent to libtorrent with priority for this one file (`InstantMirror.Im0.download`). What
libtorrent does is given by an `InstantMirror.Session` for each call, as for the daemon; the
files are saved below `"./"`, the web directory, under the paths they have in the torrent.

The web directory is at the same time where the torrents are
(`InstantMirror.Im0.World.torrentDir`). They stay as they are while a request is handled.

What a call is for is one file of the torrent, `InstantMirror.Im0.wanted`. It saves that file, at
its own path in the torrent, and sets the time of what is at the path of the request
(`InstantMirror.Im0.getTorrent_own`); everything else it saves are files of the same torrent, for
the links it has followed (`InstantMirror.Im0.exists_file_of_saved`).
-/

namespace InstantMirror.Im0

/-! ### The torrents of the web directory -/

/-- What the readers of `.torrent` files find. -/
def Node.dirEntry : Node → DirEntry
  | .file f => .file f
  | .directory _ mtime => .directory mtime mtime

/-- **The web directory, as one of torrents.** -/
def World.torrentDir (w : World) : TorrentDir where
  entry path := if path = [] then some (.directory 0 0) else (w.node path).map Node.dirEntry
  root_isDir := ⟨0, 0, rfl⟩

/-- `torrent_name` once `".torrent"` has been appended. -/
def torrentPath (path : Bytes) : Bytes := torrentName path ++ ascii ".torrent"

/-- The row without its top directory. -/
def stripTop (row : TorFile) : TorFile := { row with name := torrentFileName row.name }

section Readers

variable {w : World} {path : Bytes}

theorem torrentPath_ne_nil (path : Bytes) : torrentPath path ≠ [] :=
  List.append_ne_nil_of_right_ne_nil _ (by decide)

theorem entry_torrentPath (w : World) (path : Bytes) :
    w.torrentDir.entry (torrentPath path) = (w.node (torrentPath path)).map Node.dirEntry :=
  if_neg (torrentPath_ne_nil path)

/-- **The two versions of `gettor`** differ in the names. -/
theorem gettor_eq (w : World) (path : Bytes) : gettor w (torrentPath path) =
    (InstantMirror.gettor w.torrentDir (torrentPath path)).map (·.map stripTop) := by
  rw [gettor, InstantMirror.gettor, entry_torrentPath]
  rcases w.node (torrentPath path) with _ | f | _ <;> rfl

end Readers

/-! ### `getTorrent` -/

/-- `p.save_path`. -/
def savePath : Bytes := ascii "./"

/-- **What a call does to the files.** -/
inductive Event where
  /-- libtorrent saves a file. -/
  | saved (path : Bytes) : Event
  /-- `utime` is called. -/
  | touched (path : Bytes) (mtime : ℤ) : Event
deriving DecidableEq

/-- **How a call ends**, and what it has done. -/
structure Fetched where
  /-- Whether it returns. -/
  result : Except Stop Unit
  /-- What it has done. -/
  events : List Event

/-- **From `listen_on` on.** A `torrent_info` without files makes `add_torrent` throw. -/
def download (s : Session) (w : World) (path : Bytes) (index : ℕ) (row : TorFile) : Fetched :=
  match torrentInfo w.torrentDir (torrentPath path) with
  | none => ⟨.ok (), []⟩
  | some ti =>
    if ti.files = [] ∨ s = .addThrows ∨ s = .statusThrows then ⟨.ok (), []⟩
    else if s = .never then ⟨.error .stuck, []⟩
    else
      match ti.files[index]? with
      | some e => ⟨.ok (), [.saved (savePath ++ e.path), .touched path row.mtime]⟩
      | none => ⟨.ok (), [.touched path row.mtime]⟩

/-- `index_t` and `list[index_t]`, each of which reads the torrent. -/
def lookUp (w : World) (path : Bytes) : Except Stop (ℕ × TorFile) :=
  match check w (torrentName path) (torrentFileName path), gettor w (torrentPath path) with
  | some index, some list =>
    -- `priorities_files[-1]` is written where the file is not found
    if index < 0 then .error .undefined
    else
      match list[index.toNat]? with
      | some row => .ok (index.toNat, row)
      | none => .error .undefined
  | _, _ => .error .exited

/-- **`getTorrent`**, at a depth of the chain of links. -/
def getTorrent (net : ℕ → Session) (w : World) : ℕ → ℕ → Bytes → Fetched
  | 0, _, _ => ⟨.error .stuck, []⟩
  | fuel + 1, depth, path =>
    if net depth = .noSession then ⟨.ok (), []⟩
    else
      match lookUp w path with
      | .error s => ⟨.error s, []⟩
      | .ok (index, row) =>
        if row.symlinkAttribute then
          match resolveLink fuel (path ++ slash :: row.symlinkPath) with
          | none => ⟨.error .stuck, []⟩
          | some target =>
            -- what the inner call returns is not looked at
            let inner := getTorrent net w fuel (depth + 1) (cstr target)
            match inner.result with
            | .error s => ⟨.error s, inner.events⟩
            | .ok _ =>
              let own := download (net depth) w path index row
              ⟨own.result, inner.events ++ own.events⟩
        else download (net depth) w path index row

/-! ### What a call saves -/

/-- **The file a call is for**, as libtorrent knows it. -/
def wanted (w : World) (path : Bytes) : Option FileEntry :=
  match lookUp w path with
  | .ok (index, _) => (torrentInfo w.torrentDir (torrentPath path)).bind (·.files[index]?)
  | .error _ => none

section Saved

variable {net : ℕ → Session} {s : Session} {w : World} {path : Bytes} {depth index : ℕ}
  {row : TorFile} {ti : TorrentInfo} {e : FileEntry}

/-- **What is looked up**: the first row whose name, without its top directory, is that of the
request. -/
theorem lookUp_cases (w : World) (path : Bytes) :
    (gettor w (torrentPath path) = none ∧ lookUp w path = .error .exited) ∨
      ∃ list, gettor w (torrentPath path) = some list ∧
        ((list.findIdx? (fun row => row.name = torrentFileName path) = none ∧
            lookUp w path = .error .undefined) ∨
          ∃ index row, list.findIdx? (fun row => row.name = torrentFileName path) = some index ∧
            list[index]? = some row ∧ lookUp w path = .ok (index, row)) := by
  rw [lookUp, check, ← torrentPath]
  rcases gettor w (torrentPath path) with _ | list
  · exact Or.inl ⟨rfl, rfl⟩
  · refine Or.inr ⟨list, rfl, ?_⟩
    rcases hfind : list.findIdx? fun row => row.name = torrentFileName path with _ | index
    · exact Or.inl ⟨hfind, by simp [hfind]⟩
    · obtain ⟨hlt, -⟩ := List.findIdx?_eq_some_iff_findIdx_eq.mp hfind
      refine Or.inr ⟨index, list[index], hfind, List.getElem?_eq_getElem hlt, ?_⟩
      simp [hfind, hlt]

/-- `check_file` accepts what can be looked up. -/
theorem checkFile_eq_true_iff :
    checkFile w path = some true ↔ ∃ index row, lookUp w path = .ok (index, row) := by
  rw [checkFile, check, ← torrentName, ← torrentPath, ← torrentFileName]
  rcases lookUp_cases w path with ⟨hnone, hlook⟩ | ⟨list, hlist, ⟨hfind, hlook⟩ |
    ⟨index, row, hfind, -, hlook⟩⟩
  · simp [hnone, hlook]
  · simp [hlist, hfind, hlook]
  · simp [hlist, hfind, hlook]

/-- The rows of a torrent that libtorrent has loaded as well. -/
theorem gettor_of_torrentInfo (hti : torrentInfo w.torrentDir (torrentPath path) = some ti)
    (hne : ti.files ≠ []) :
    gettor w (torrentPath path) = some ((torList [] ti.files).map stripTop) := by
  rw [gettor_eq, gettor_eq_of_torrentInfo hti hne]
  rfl

theorem map_name_torList (es : List FileEntry) (target : Bytes) :
    (torList target es).map TorFile.name = es.map FileEntry.path := by
  have hkeys := congrArg (List.map Prod.fst) (map_key_torList es target)
  rwa [List.map_map, List.map_map] at hkeys

/-- **The file that is looked up is the one that libtorrent is asked for**, if it has loaded the
torrent. -/
theorem wanted_eq (hti : torrentInfo w.torrentDir (torrentPath path) = some ti) :
    wanted w path =
      ti.files.find? fun e => torrentFileName e.path = torrentFileName path := by
  by_cases hne : ti.files = []
  · rw [wanted, hti, hne]
    rcases lookUp w path with _ | ⟨index, row⟩
    · rfl
    · simp [hne]
  have hrows := gettor_of_torrentInfo hti hne
  have hfind : ((torList [] ti.files).map stripTop).findIdx?
      (fun row => row.name = torrentFileName path) =
        ti.files.findIdx? fun e => torrentFileName e.path = torrentFileName path := by
    have hnames := congrArg
      (List.findIdx? fun name => torrentFileName name = torrentFileName path)
      (map_name_torList ti.files [])
    rw [List.findIdx?_map, List.findIdx?_map] at hnames
    rw [List.findIdx?_map]
    exact hnames
  rw [List.find?_eq_bind_findIdx?_getElem?, ← hfind]
  rcases lookUp_cases w path with ⟨hnone, -⟩ | ⟨list, hlist, ⟨hfind, hlook⟩ |
    ⟨index, row, hfind, -, hlook⟩⟩
  · rw [hrows] at hnone
    cases hnone
  · obtain rfl := Option.some.inj (hrows.symm.trans hlist)
    rw [wanted, hlook, hfind]
    rfl
  · obtain rfl := Option.some.inj (hrows.symm.trans hlist)
    rw [wanted, hlook, hfind, hti]
    rfl

/-- **What is wanted is a file of the torrent**, the first whose path, without its top directory,
is that of the request. -/
theorem exists_torrentInfo_of_wanted (hwanted : wanted w path = some e) :
    ∃ ti, torrentInfo w.torrentDir (torrentPath path) = some ti ∧
      ti.files.find? (fun e => torrentFileName e.path = torrentFileName path) = some e := by
  rcases hti : torrentInfo w.torrentDir (torrentPath path) with _ | ti
  · rw [wanted, hti] at hwanted
    split at hwanted <;> cases hwanted
  · exact ⟨ti, rfl, (wanted_eq hti).symm.trans hwanted⟩

theorem torrentFileName_of_wanted (hwanted : wanted w path = some e) :
    torrentFileName e.path = torrentFileName path := by
  obtain ⟨ti, -, hfind⟩ := exists_torrentInfo_of_wanted hwanted
  simpa using List.find?_some hfind

/-- A file that can be looked up is wanted, unless the torrent was not loaded. -/
theorem exists_wanted (hlook : lookUp w path = .ok (index, row))
    (hti : torrentInfo w.torrentDir (torrentPath path) = some ti) (hne : ti.files ≠ []) :
    ∃ e, wanted w path = some e ∧ ti.files[index]? = some e := by
  have hwanted : wanted w path = ti.files[index]? := by
    rw [wanted, hlook, hti]
    rfl
  rcases lookUp_cases w path with ⟨-, hlook'⟩ | ⟨list, hlist, ⟨-, hlook'⟩ |
    ⟨index', row', -, hrow, hlook'⟩⟩
  · cases hlook.symm.trans hlook'
  · cases hlook.symm.trans hlook'
  · cases hlook.symm.trans hlook'
    obtain rfl := Option.some.inj ((gettor_of_torrentInfo hti hne).symm.trans hlist)
    have hlt := (List.getElem?_eq_some_iff.mp hrow).1
    rw [List.length_map, length_torList] at hlt
    exact ⟨_, hwanted.trans (List.getElem?_eq_getElem hlt), List.getElem?_eq_getElem hlt⟩

/-- **What is downloaded for a call**: nothing, or the file it is for. -/
theorem events_download (hlook : lookUp w path = .ok (index, row)) (s : Session) :
    (download s w path index row).events = [] ∨ ∃ e, wanted w path = some e ∧
      (download s w path index row).events =
        [.saved (savePath ++ e.path), .touched path row.mtime] := by
  rw [download]
  rcases hti : torrentInfo w.torrentDir (torrentPath path) with _ | ti
  · exact Or.inl rfl
  · simp only
    split_ifs with hthrows hnever
    · exact Or.inl rfl
    · exact Or.inl rfl
    · obtain ⟨e, hwanted, hfile⟩ := exists_wanted hlook hti fun h => hthrows (Or.inl h)
      exact Or.inr ⟨e, hwanted, by rw [hfile]⟩

/-- **What a call does itself** comes after what is done for a link: nothing, or it saves the
file it is for, and sets the time of the path it was given. -/
theorem getTorrent_own (net : ℕ → Session) (w : World) (fuel depth : ℕ) (path : Bytes) :
    ∃ inner own, (getTorrent net w (fuel + 1) depth path).events = inner ++ own ∧
      (inner = [] ∨ ∃ link target, resolveLink fuel (path ++ slash :: link) = some target ∧
        inner = (getTorrent net w fuel (depth + 1) (cstr target)).events) ∧
      (own = [] ∨ ∃ e mtime, wanted w path = some e ∧
        own = [.saved (savePath ++ e.path), .touched path mtime]) := by
  rw [getTorrent]
  split_ifs with hnet
  · exact ⟨[], [], rfl, Or.inl rfl, Or.inl rfl⟩
  rcases hlook : lookUp w path with stop | ⟨index, row⟩
  · exact ⟨[], [], rfl, Or.inl rfl, Or.inl rfl⟩
  have hown : (download (net depth) w path index row).events = [] ∨
      ∃ e mtime, wanted w path = some e ∧ (download (net depth) w path index row).events =
        [.saved (savePath ++ e.path), .touched path mtime] :=
    (events_download hlook (net depth)).imp_right fun ⟨e, hwanted, hevents⟩ =>
      ⟨e, row.mtime, hwanted, hevents⟩
  simp only
  split_ifs with hlink
  · rcases hres : resolveLink fuel (path ++ slash :: row.symlinkPath) with _ | target
    · exact ⟨[], [], rfl, Or.inl rfl, Or.inl rfl⟩
    · simp only
      rcases (getTorrent net w fuel (depth + 1) (cstr target)).result with stop | _
      · exact ⟨_, [], (List.append_nil _).symm, Or.inr ⟨_, target, hres, rfl⟩, Or.inl rfl⟩
      · exact ⟨_, _, rfl, Or.inr ⟨_, target, hres, rfl⟩, hown⟩
  · exact ⟨[], _, rfl, Or.inl rfl, hown⟩

/-- **Everything a request saves are files of its torrent**, at their paths there. -/
theorem exists_file_of_saved {p : Bytes} : ∀ (fuel depth : ℕ) (path : Bytes), (0 : UInt8) ∉ path →
    .saved p ∈ (getTorrent net w fuel depth path).events →
      ∃ ti, torrentInfo w.torrentDir (torrentPath path) = some ti ∧
        ∃ e ∈ ti.files, p = savePath ++ e.path := by
  intro fuel
  induction fuel with
  | zero => exact fun _ _ _ h => absurd h List.not_mem_nil
  | succ fuel ih =>
    intro depth path hpath hsaved
    obtain ⟨inner, own, hevents, hinner, hown⟩ := getTorrent_own net w fuel depth path
    rw [hevents] at hsaved
    rcases List.mem_append.mp hsaved with hsaved | hsaved
    · rcases hinner with rfl | ⟨link, target, hres, rfl⟩
      · cases hsaved
      · -- the loop over the link stays in the torrent
        have hsame : torrentPath (cstr target) = torrentPath path := by
          rw [torrentPath, torrentName_resolveLink hres hpath, ← torrentPath]
        rw [← hsame]
        exact ih (depth + 1) (cstr target) (zero_notMem_cstr target) hsaved
    · rcases hown with rfl | ⟨e, mtime, hwanted, rfl⟩
      · cases hsaved
      · have hp : p = savePath ++ e.path := by simpa using hsaved
        obtain ⟨ti, hti, hfind⟩ := exists_torrentInfo_of_wanted hwanted
        exact ⟨ti, hti, e, List.mem_of_find?_eq_some hfind, hp⟩

/-- **A file that is no link is saved**, if libtorrent finishes. -/
theorem getTorrent_of_plain (hnet : net depth = .finished)
    (hlook : lookUp w path = .ok (index, row)) (hplain : row.symlinkAttribute = false)
    (hwanted : wanted w path = some e) (fuel : ℕ) :
    getTorrent net w (fuel + 1) depth path =
      ⟨.ok (), [.saved (savePath ++ e.path), .touched path row.mtime]⟩ := by
  rcases hti : torrentInfo w.torrentDir (torrentPath path) with _ | ti
  · rw [wanted, hti, hlook] at hwanted
    cases hwanted
  · have hfile : ti.files[index]? = some e := by rwa [wanted, hlook, hti] at hwanted
    have hne : ti.files ≠ [] := List.ne_nil_of_mem (List.mem_of_getElem? hfile)
    simp [getTorrent, hnet, hlook, hplain, download, hti, hne, hfile]

end Saved

end InstantMirror.Im0
