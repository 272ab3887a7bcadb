import InstantMirror.Im0.FreshFile
import InstantMirror.Im0.GetTorrent
import InstantMirror.RoundTrip

/-!
# The prototype: the file that is opened

Three names meet when the prototype fetches a file. The request names the `.torrent` file and a
path; the list in which the path is looked up has lost the top directories of the torrent; and
libtorrent saves the file under its path in the torrent, top directory and all. Nothing compares
the name of the `.torrent` file with the top directory.

`do_file` opens the path of the request, if it opens anything (`InstantMirror.Im0.opened`). So
what it opens is what was downloaded (`InstantMirror.Im0.OpensDownload`) exactly if the two top
directories are the same, and the torrent is one that libtorrent loads: it may have ten million
bytes for the first reader, but only five for the second
(`InstantMirror.Im0.opensDownload_iff`).

Of the torrents that `make_torrent` makes, those of a directory have to be called after it, and
those of a single file, which have no top directory, never work
(`InstantMirror.Im0.opensDownload_made_iff`).
-/

namespace InstantMirror.Im0

variable {cfg : Config} {w : World} {req : Request} {cwd : List Bytes} {file path : Bytes}

/-! ### What is opened -/

/-- **The path that `do_file` opens**, if it comes that far. -/
def opened (cfg : Config) (w : World) (req : Request) (file : Bytes) (pathinfo : Option Bytes) :
    Option Bytes :=
  match authCheck cfg w req.authorization (dirname file) with
  | some _ => none
  | none =>
    if isAuthFile file then none
    else
      match checkReferer cfg req with
      | some _ => none
      | none =>
        if (cfg.cgiPattern.map (matchPattern · file)).getD false then none
        else if pathinfo.isSome then none
        else some file

/-- A file is sent exactly if it is opened, and that succeeds. -/
theorem answered_eq_none_iff {pathinfo : Option Bytes} :
    answered cfg w req file pathinfo = none ↔
      opened cfg w req file pathinfo = some file ∧ w.readable file = true := by
  rw [answered, opened]
  rcases authCheck cfg w req.authorization (dirname file) with _ | refusal
  · rcases checkReferer cfg req with _ | refusal
    · simp only
      split_ifs with hauth hcgi hinfo hread
      · simp
      · simp
      · simp
      · simp [hread]
      · simp [hread]
    · simp only
      split_ifs <;> simp
  · simp

/-- It is the path of the request, and no password file. -/
theorem eq_of_opened {pathinfo : Option Bytes} (h : opened cfg w req file pathinfo = some path) :
    path = file ∧ isAuthFile file = false := by
  rw [opened] at h
  split at h
  · cases h
  split at h
  · cases h
  rename_i hauth
  split at h
  · cases h
  split_ifs at h
  exact ⟨(Option.some.inj h).symm, Bool.eq_false_iff.mpr hauth⟩

/-- A server without settings opens whatever is no password file. -/
theorem opened_plainServer (hauth : isAuthFile file = false) (req : Request) :
    opened plainServer (.ofList []) req file none = some file := by
  have hworld : ∀ path, (World.ofList []).stat path = none := by
    intro path
    simp [World.stat, World.ofList]
  simp [opened, authCheck, hworld, hauth, checkReferer, plainServer]

/-- **What is opened for the request is what was downloaded for it**, from this working directory:
whatever the settings and the headers are, and whatever else the download has changed. -/
def OpensDownload (cwd : List Bytes) (w : World) (file : Bytes) : Prop :=
  ∀ (cfg : Config) (w' : World) (req : Request) (path : Bytes), req.file = file →
    opened cfg w' req req.file none = some path →
      ∃ e, wanted w file = some e ∧ absolutePath cwd path = absolutePath cwd (savePath ++ e.path)

/-- For a file that may be opened at all, that is a question of its path. -/
theorem opensDownload_iff_absolutePath : OpensDownload cwd w file ↔
    isAuthFile file = true ∨ ∃ e, wanted w file = some e ∧
      absolutePath cwd file = absolutePath cwd (savePath ++ e.path) := by
  constructor
  · intro h
    by_cases hauth : isAuthFile file = true
    · exact Or.inl hauth
    · rw [Bool.not_eq_true] at hauth
      exact Or.inr (h plainServer (.ofList []) ⟨.get, slash :: file, file, none, -1, [], none⟩ file
        rfl (opened_plainServer hauth _))
  · rintro hcond cfg w' req path rfl hopened
    obtain ⟨rfl, hauth⟩ := eq_of_opened hopened
    refine hcond.resolve_left fun h => ?_
    rw [hauth] at h
    cases h

/-! ### Top directories -/

/-- The top directory of a path, with its slash; nothing if there is no slash. -/
def topDirectory (path : Bytes) : Bytes := substrTo path (find path slash + 1)

theorem topDirectory_of_notMem (h : slash ∉ path) : topDirectory path = [] := by
  rw [topDirectory, find_of_notMem h]
  rfl

theorem topDirectory_append {top : Bytes} (h : slash ∉ top) (rest : Bytes) :
    topDirectory (top ++ slash :: rest) = top ++ [slash] := by
  have hlen : (top.length : ℤ) + 1 = (top ++ [slash]).length := by simp
  rw [topDirectory, find_append_cons h, hlen, List.append_cons, substrTo_length_append]

/-- A name that `torrent_info` leaves as it is names a directory. -/
theorem pathNames_topDirectory {top : Bytes} (h : CleanName top) (rest : Bytes) :
    pathNames (topDirectory (top ++ slash :: rest)) = [top] := by
  have hdot : top ≠ dot := by
    rintro rfl
    exact absurd h.valid (by decide)
  rw [topDirectory_append h.slash_notMem, pathNames_append, pathNames_nil, List.append_nil,
    pathNames, components_of_notMem h.slash_notMem]
  simp [h.ne_nil, hdot]

theorem torrentFileName_of_notMem (h : slash ∉ path) : torrentFileName path = path := by
  rw [torrentFileName, find_of_notMem h]
  rfl

/-- **A path goes through its top directory first.** -/
theorem pathNames_eq (path : Bytes) :
    pathNames path = pathNames (topDirectory path) ++ pathNames (torrentFileName path) := by
  by_cases h : slash ∈ path
  · obtain ⟨top, rest, rfl, htop⟩ := exists_split h
    rw [topDirectory_append htop, torrentFileName_append htop, pathNames_append, pathNames_append,
      pathNames_nil, List.append_nil]
  · rw [topDirectory_of_notMem h, torrentFileName_of_notMem h]
    rfl

/-- What is saved is saved below the working directory. -/
theorem absolutePath_savePath (cwd : List Bytes) (path : Bytes) :
    absolutePath cwd (savePath ++ path) = cwd ++ pathNames path := by
  have hnames : pathNames (savePath ++ path) = pathNames path :=
    (pathNames_append dot path).trans (List.nil_append _)
  have hhead : (savePath ++ path).head? = some 46 := rfl
  rw [absolutePath, hnames, hhead]
  exact if_neg (by decide)

/-- **The top directories are the same.** A path that begins with a slash starts at the root, and
not at the working directory. -/
def SameTop (cwd : List Bytes) (file path : Bytes) : Prop :=
  pathNames (topDirectory file) = pathNames (topDirectory path) ∧
    (file.head? = some slash → cwd = [])

/-- Nothing is above a path that begins with a slash. -/
theorem pathNames_topDirectory_of_slash (h : file.head? = some slash) :
    pathNames (topDirectory file) = [] := by
  obtain ⟨rest, rfl⟩ : ∃ rest, file = slash :: rest := by
    rcases file with _ | ⟨c, rest⟩
    · cases h
    · exact ⟨rest, by rw [Option.some.inj h]⟩
  have htop := topDirectory_append (List.not_mem_nil (a := slash)) rest
  rw [List.nil_append, List.nil_append] at htop
  rw [htop]
  rfl

/-- **Where the rest is the same, the top directories decide.** -/
theorem absolutePath_eq_iff (hrest : torrentFileName path = torrentFileName file) :
    absolutePath cwd file = absolutePath cwd (savePath ++ path) ↔ SameTop cwd file path := by
  rw [absolutePath_savePath, absolutePath, pathNames_eq file, pathNames_eq path, hrest, SameTop]
  by_cases hslash : file.head? = some slash
  · rw [if_pos hslash, pathNames_topDirectory_of_slash hslash, ← List.append_assoc,
      List.append_cancel_right_eq, List.nil_eq, List.append_eq_nil_iff]
    constructor
    · rintro ⟨hcwd, htop⟩
      exact ⟨htop.symm, fun _ => hcwd⟩
    · rintro ⟨htop, hcwd⟩
      exact ⟨hcwd hslash, htop.symm⟩
  · rw [if_neg hslash, List.append_cancel_left_eq, List.append_cancel_right_eq]
    simp [hslash]

/-! ### When the download is opened -/

section Accepted

variable {f : TorrentFile} {ti : TorrentInfo} {e : FileEntry}

/-- A torrent in which a file was found could be read. -/
theorem readable_of_checkFile (h : checkFile w file = some true)
    (hnode : w.node (torrentPath file) = some (.file f)) : f.readable = true := by
  obtain ⟨index, row, hlook⟩ := checkFile_eq_true_iff.mp h
  by_contra hread
  have hgettor : gettor w (torrentPath file) = none ∨ gettor w (torrentPath file) = some [] := by
    rw [gettor, hnode]
    simp only [TorrentFile.gettor, TorrentFile.bufDecode, if_neg hread]
    split_ifs <;> simp
  rcases lookUp_cases w file with ⟨-, hlook'⟩ | ⟨list, hlist, ⟨-, hlook'⟩ | ⟨i, row', -, hrow, -⟩⟩
  · cases hlook.symm.trans hlook'
  · cases hlook.symm.trans hlook'
  · rw [hlist] at hgettor
    rcases hgettor with hnone | hnil
    · cases hnone
    · obtain rfl := Option.some.inj hnil
      cases hrow

/-- libtorrent loads it as well, if it is small enough. -/
theorem torrentInfo_of_checkFile (h : checkFile w file = some true)
    (hnode : w.node (torrentPath file) = some (.file f)) (hsize : f.size ≤ 5000000)
    (hdecode : f.decode f.size = .torrent ti) :
    torrentInfo w.torrentDir (torrentPath file) = some ti := by
  have hread := readable_of_checkFile h hnode
  rw [torrentInfo, entry_torrentPath, hnode]
  simp [Node.dirEntry, TorrentFile.loadFile, hread, hsize, hdecode]

/-- **What libtorrent is asked for**: the file that was found, if the torrent has at most five
million bytes. -/
theorem wanted_eq_some_iff (h : checkFile w file = some true) : wanted w file = some e ↔
    ∃ f ti, w.node (torrentPath file) = some (.file f) ∧ f.size ≤ 5000000 ∧
      f.decode f.size = .torrent ti ∧
        ti.files.find? (fun e => torrentFileName e.path = torrentFileName file) = some e := by
  constructor
  · intro hwanted
    obtain ⟨ti, hti, hfind⟩ := exists_torrentInfo_of_wanted hwanted
    rw [torrentInfo, entry_torrentPath] at hti
    rcases hnode : w.node (torrentPath file) with _ | f | _
    · rw [hnode] at hti
      obtain rfl := Option.some.inj hti
      cases hfind
    · rw [hnode] at hti
      simp only [Option.map_some, Node.dirEntry, TorrentFile.loadFile] at hti
      split_ifs at hti with hload
      · simp only at hti
        split at hti
        · rename_i ti' hdecode
          obtain rfl := Option.some.inj hti
          exact ⟨f, ti', rfl, hload.2, hdecode, hfind⟩
        · cases hti
      · obtain rfl := Option.some.inj hti
        cases hfind
    · rw [hnode] at hti
      obtain rfl := Option.some.inj hti
      cases hfind
  · rintro ⟨f, ti, hnode, hsize, hdecode, hfind⟩
    rw [wanted_eq (torrentInfo_of_checkFile h hnode hsize hdecode), hfind]

/-- For a file that is saved, and may be opened, the top directories decide. -/
theorem opensDownload_iff_of_wanted (hwanted : wanted w file = some e)
    (hauth : isAuthFile file = false) : OpensDownload cwd w file ↔ SameTop cwd file e.path := by
  rw [opensDownload_iff_absolutePath, hauth, hwanted,
    ← absolutePath_eq_iff (torrentFileName_of_wanted hwanted)]
  simp

/-- **When the prototype opens the file it has downloaded**: the torrent has at most five million
bytes, and the first file whose path, without its top directory, is that of the request has the
name of the torrent for its top directory. A password file is not opened at all. -/
theorem opensDownload_iff (h : checkFile w file = some true) : OpensDownload cwd w file ↔
    isAuthFile file = true ∨ ∃ f ti e, w.node (torrentPath file) = some (.file f) ∧
      f.size ≤ 5000000 ∧ f.decode f.size = .torrent ti ∧
        ti.files.find? (fun e => torrentFileName e.path = torrentFileName file) = some e ∧
          SameTop cwd file e.path := by
  rw [opensDownload_iff_absolutePath]
  refine or_congr_right ?_
  constructor
  · rintro ⟨e, hwanted, hpath⟩
    have htop := (absolutePath_eq_iff (torrentFileName_of_wanted hwanted)).mp hpath
    obtain ⟨f, ti, hnode, hsize, hdecode, hfind⟩ := (wanted_eq_some_iff h).mp hwanted
    exact ⟨f, ti, e, hnode, hsize, hdecode, hfind, htop⟩
  · rintro ⟨f, ti, e, hnode, hsize, hdecode, hfind, htop⟩
    have hwanted := (wanted_eq_some_iff h).mpr ⟨f, ti, hnode, hsize, hdecode, hfind⟩
    exact ⟨e, hwanted, (absolutePath_eq_iff (torrentFileName_of_wanted hwanted)).mpr htop⟩

end Accepted

/-- A torrent `n`, which is the file `f`. -/
def singleFile : Bytes × TorrentFile :=
  (ascii "n.torrent", ⟨300, true, fun _ => .torrent (.ofFiles [.plain (ascii "f") 5]), 7, 7⟩)

/-- The web directory once that file has been saved. -/
def singleSaved : World :=
  .ofList [singleFile, (ascii "./f", ⟨3, true, fun _ => .invalidBencoding, 5, 5⟩)]

/-- The torrent of `n/f` again, under another name. -/
def renamed : Bytes × TorrentFile := (ascii "m.torrent", oneFile.2)

/-- The torrent `n` of the directory `n` is served. -/
theorem opensDownload_oneFile :
    checkFile (.ofList [oneFile]) (ascii "n/f") = some true ∧
      OpensDownload [ascii "www"] (.ofList [oneFile]) (ascii "n/f") := by
  have haccepted : checkFile (.ofList [oneFile]) (ascii "n/f") = some true := by decide
  refine ⟨haccepted, (opensDownload_iff haccepted).mpr (Or.inr ?_)⟩
  exact ⟨_, _, _, rfl, by decide, rfl, rfl, by decide, by decide⟩

/-- **The file is saved beside the directory in which it is looked for.** Of the torrent of a
single file, `/n/f` is accepted and `./f` is saved; then `do_file` opens `n/f`, and the client is
told that the file is protected. Of the torrent that was renamed, `/m/f` is accepted, and what is
saved is `./n/f`. -/
theorem saved_elsewhere :
    checkFile (.ofList [singleFile]) (ascii "n/f") = some true ∧
      (getTorrent (fun _ => .finished) (.ofList [singleFile]) 1 0 (ascii "n/f")).events =
        [.saved (ascii "./f"), .touched (ascii "n/f") 5] ∧
      opened plainServer singleSaved (getF (-1)) (ascii "n/f") none = some (ascii "n/f") ∧
      handleRequest plainServer (fun _ _ => singleSaved) (.ofList [singleFile]) (getF (-1)) =
        .error fileProtected ∧
      (∀ cwd, ¬ OpensDownload cwd (.ofList [singleFile]) (ascii "n/f")) ∧
      checkFile (.ofList [renamed]) (ascii "m/f") = some true ∧
      (getTorrent (fun _ => .finished) (.ofList [renamed]) 1 0 (ascii "m/f")).events =
        [.saved (ascii "./n/f"), .touched (ascii "m/f") 5] ∧
      ∀ cwd, ¬ OpensDownload cwd (.ofList [renamed]) (ascii "m/f") := by
  refine ⟨by decide, by decide, by decide, by decide, fun cwd => ?_, by decide, by decide,
    fun cwd => ?_⟩
  · rw [opensDownload_iff_of_wanted (e := .plain (ascii "f") 5) rfl (by decide)]
    exact fun htop => absurd htop.1 (by decide)
  · rw [opensDownload_iff_of_wanted (e := .plain (ascii "n/f") 5) rfl (by decide)]
    exact fun htop => absurd htop.1 (by decide)

/-! ### Torrents that were made -/

section Made

variable {m : MakeTorrent} {name : Bytes} {multifile : Bool} {order : List Leaf} {leaf : Leaf}
  {torrent rest : Bytes}

/-- Where the request goes through the name of the torrent. -/
theorem sameTop_iff_of_clean (h : CleanName torrent) (rest path : Bytes) :
    SameTop cwd (torrent ++ slash :: rest) path ↔ pathNames (topDirectory path) = [torrent] := by
  rw [SameTop, pathNames_topDirectory h]
  constructor
  · rintro ⟨htop, -⟩
    exact htop.symm
  · intro htop
    refine ⟨htop.symm, fun hhead => absurd ?_ h.slash_notMem⟩
    rw [List.head?_append_of_ne_nil _ h.ne_nil] at hhead
    exact List.mem_of_head? hhead

/-- The top directory of a file of a torrent: the name, unless it is the only file. -/
theorem pathNames_topDirectory_of_laid (hlaid : Laid name multifile order)
    (hclean : ∀ leaf ∈ order, leaf.Clean) (hleaf : leaf ∈ order) :
    pathNames (topDirectory leaf.stored.fileEntry.path) = if multifile then [name] else [] := by
  have hnames := (hclean leaf hleaf).names
  cases hlaid with
  | single leaf' hpath =>
    obtain rfl := List.mem_singleton.mp hleaf
    have hname : CleanName name := hnames name (by simp [hpath])
    have hentry : leaf.stored.fileEntry.path = name := by
      rw [StoredFile.fileEntry, Leaf.stored_path, hpath, FsPath.string_singleton]
    rw [hentry, topDirectory_of_notMem hname.slash_notMem]
    rfl
  | multi _ hne hpath =>
    obtain ⟨c, rest, hleafpath⟩ := hpath leaf hleaf
    have hname : CleanName name := hnames name (by simp [hleafpath])
    obtain ⟨more, hmore⟩ := hname.exists_string_eq c rest
    have hentry : leaf.stored.fileEntry.path = name ++ slash :: more := by
      rw [StoredFile.fileEntry, Leaf.stored_path, hleafpath, hmore]
    rw [hentry, pathNames_topDirectory hname]
    rfl

/-- **Which torrents of `make_torrent` are served**: those of a directory that have kept its
name. -/
theorem opensDownload_made_iff (sha1 : Bytes → Bytes) (hlaid : Laid name multifile order)
    (hclean : ∀ leaf ∈ order, leaf.Clean) (hkept : ∀ leaf ∈ order, leaf.Kept)
    (hdistinct : Distinct (order.map Leaf.stored)) (hpieces : 0 ≤ pieceCount order)
    {content : Bytes}
    (hcontent : content = (m.made name (order.map Leaf.stored) multifile).generate.bencode)
    (hsize : content.length ≤ 5000000) {mtime linkMtime : ℤ} (htorrent : CleanName torrent)
    (hnode : w.node (torrent ++ ascii ".torrent") =
      some (.file (.ofBytes sha1 content mtime linkMtime)))
    (h : checkFile w (torrent ++ slash :: rest) = some true)
    (hauth : isAuthFile (torrent ++ slash :: rest) = false) :
    OpensDownload cwd w (torrent ++ slash :: rest) ↔ multifile = true ∧ torrent = name := by
  have hpath : torrentPath (torrent ++ slash :: rest) = torrent ++ ascii ".torrent" := by
    rw [torrentPath, torrentName_append htorrent.slash_notMem]
  rw [← hpath] at hnode
  obtain ⟨infoHash, hdecode⟩ : ∃ infoHash,
      (TorrentFile.ofBytes sha1 content mtime linkMtime).decode content.length =
        .torrent ⟨infoHash, (order.map Leaf.stored).map StoredFile.fileEntry, 256 * 1024⟩ := by
    simp only [TorrentFile.ofBytes, List.take_length]
    rw [hcontent] at hsize ⊢
    exact ⟨_, hlaid.decodeBuffer_generate sha1 hclean hkept hdistinct hpieces (by omega)⟩
  have hti := torrentInfo_of_checkFile h hnode hsize hdecode
  obtain ⟨index, row, hlook⟩ := checkFile_eq_true_iff.mp h
  obtain ⟨e, hwanted, hfile⟩ := exists_wanted hlook hti (by simpa using hlaid.ne_nil)
  obtain ⟨leaf, hleaf, rfl⟩ : ∃ leaf ∈ order, leaf.stored.fileEntry = e := by
    simpa using List.mem_of_getElem? hfile
  rw [opensDownload_iff_of_wanted hwanted hauth, sameTop_iff_of_clean htorrent,
    pathNames_topDirectory_of_laid hlaid hclean hleaf]
  cases multifile <;> simp [eq_comm]

end Made

end InstantMirror.Im0
