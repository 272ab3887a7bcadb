import InstantMirror.GetTorrent

/-!
# Requests

The router of `imdaemon.cpp`. A request is a C string whose first byte is skipped;
the rest is taken apart twice, independently:

* `checkRequest` stats the part before the first slash, wherever that slash is;
* `handleRequest` replaces an empty path by the default torrent, and tells a file of
  a torrent from everything else by a slash that is *not* at the start.

A file that `check` knows is fetched; everything else below a torrent, and a
torrent named alone, is answered with an index page – whose path is built from the
request, whether the page could be saved or not.
-/

namespace InstantMirror

/-- `DEFAULT_TORRENT_FILE`. -/
def defaultTorrentFile : Bytes := ascii "test"

/-- `path = path.substr(0, index_t)` where `index_t > -1`: the part before the first
slash. -/
def firstComponent (path : Bytes) : Bytes :=
  if find path slash > -1 then substrTo path (find path slash) else path

/-- The torrent name `checkRequest` finds in the request. -/
def checkRequestName (url : Bytes) : Bytes := firstComponent (cstr (url.drop 1))

/-- **`checkRequest`.** -/
def checkRequest (dir : TorrentDir) (url : Bytes) : ℤ :=
  match dir.entry (checkRequestName url) with
  | none => 0
  | some _ => 1

/-- `urlPath` of `handleRequest`: the request without its first byte, or the default
torrent. -/
def urlPath (url : Bytes) : Bytes :=
  if (cstr (url.drop 1)).length = 0 then defaultTorrentFile else cstr (url.drop 1)

/-- **`torrentIndex::saveIndexFile`**: the page is written if the `ofstream` opens;
the path is returned in any case. -/
def saveIndexFile (torrentPath : Bytes) (page : IndexPage) (st : TorrentStatus) (disk : Disk) :
    Outcome Bytes :=
  let fileSavePath := diskLocation ++ torrentPath ++ ascii "index.html"
  if disk.opens fileSavePath then
    ⟨.ok (torrentPath ++ ascii "index.html"), st, disk.write fileSavePath (.page page),
      [.saved fileSavePath]⟩
  else ⟨.ok (torrentPath ++ ascii "index.html"), st, disk, []⟩

/-- **`getTorrentIndex`.** -/
def getTorrentIndex (env : Env) (urlPath : Bytes) (st : TorrentStatus) (disk : Disk) :
    Outcome Bytes :=
  match gettor env.dir (firstComponent urlPath) with
  | none => ⟨.error .exited, st, disk, []⟩
  | some list =>
    saveIndexFile (indexPath urlPath) (generateIndex (indexPath urlPath) list) st disk

/-- **`getTorrentFile`**: the path is returned however `getTorrent` fared. -/
def getTorrentFile (env : Env) (fuel : ℕ) (torrentName filePath : Bytes) (st : TorrentStatus)
    (disk : Disk) : Outcome Bytes :=
  let o := getTorrent env fuel 0 (torrentName ++ slash :: filePath) st disk
  ⟨o.result.map fun _ => torrentName ++ slash :: filePath, o.status, o.disk, o.events⟩

/-- What `handleRequest` returns where it has nothing to offer. -/
def errorReply : Bytes := ascii "Error"

/-- **`handleRequest`.** -/
def handleRequest (env : Env) (fuel : ℕ) (url : Bytes) (st : TorrentStatus) (disk : Disk) :
    Outcome Bytes :=
  let index := find (urlPath url) slash
  if index > 0 then
    let torrentName := substrTo (urlPath url) index
    let filePath := substrFrom (urlPath url) (index + 1)
    match check env.dir torrentName filePath with
    | none => ⟨.error .exited, st, disk, []⟩
    | some ckIndex =>
      if ckIndex > -1 then getTorrentFile env fuel torrentName filePath st disk
      else getTorrentIndex env (urlPath url) st disk
  else
    match env.dir.entry (urlPath url) with
    | none => ⟨.ok errorReply, st, disk, []⟩
    | some e =>
      if e.isReg then getTorrentIndex env (urlPath url) st disk
      else ⟨.ok errorReply, st, disk, []⟩

/-! ### How the router takes a path apart -/

theorem firstComponent_of_notMem {s : Bytes} (h : slash ∉ s) : firstComponent s = s := by
  rw [firstComponent, find_of_notMem h, if_neg (by omega)]

theorem firstComponent_append {a : Bytes} (h : slash ∉ a) (b : Bytes) :
    firstComponent (a ++ slash :: b) = a := by
  rw [firstComponent, find_append_cons h, if_pos (by omega), substrTo_length_append]

section Branches

variable {env : Env} {url : Bytes} {st : TorrentStatus} {disk : Disk} {list : List TorFile}

/-- The parts of a path that lies inside a torrent. -/
theorem urlPath_of_pos (hpos : 0 < find (urlPath url) slash) :
    torrentName (urlPath url) ++ slash :: torrentFileName (urlPath url) = urlPath url ∧
      firstComponent (urlPath url) = torrentName (urlPath url) := by
  rcases path_cases (urlPath url) with ⟨-, hfind⟩ | ⟨b, -, hfind⟩ | ⟨a, b, hpath, ha, -, -⟩
  · omega
  · omega
  · rw [hpath, torrentName_append ha, torrentFileName_append ha, firstComponent_append ha]
    exact ⟨rfl, rfl⟩

/-- A request for something inside a torrent, from the list of the torrent on. -/
theorem handleRequest_of_pos (hpos : 0 < find (urlPath url) slash)
    (hlist : gettor env.dir (torrentName (urlPath url)) = some list) (fuel : ℕ) :
    handleRequest env fuel url st disk =
      if checkIndex list (torrentName (urlPath url)) (torrentFileName (urlPath url)) > -1 then
        getTorrentFile env fuel (torrentName (urlPath url)) (torrentFileName (urlPath url)) st disk
      else getTorrentIndex env (urlPath url) st disk := by
  have hcheck : check env.dir (torrentName (urlPath url)) (torrentFileName (urlPath url)) =
      some (checkIndex list (torrentName (urlPath url)) (torrentFileName (urlPath url))) := by
    rw [check, hlist, Option.map_some]
  rw [torrentName, torrentFileName] at hcheck
  simp only [handleRequest, gt_iff_lt, if_pos hpos, hcheck]
  rfl

theorem handleRequest_of_pos_of_none (hpos : 0 < find (urlPath url) slash)
    (hlist : gettor env.dir (torrentName (urlPath url)) = none) (fuel : ℕ) :
    handleRequest env fuel url st disk = ⟨.error .exited, st, disk, []⟩ := by
  have hcheck : check env.dir (torrentName (urlPath url)) (torrentFileName (urlPath url)) =
      none := by
    rw [check, hlist, Option.map_none]
  rw [torrentName, torrentFileName] at hcheck
  simp [handleRequest, hpos, hcheck]

/-! ### Replies are not errors by accident -/

theorem length_le_length_indexPath (str : Bytes) : str.length ≤ (indexPath str).length := by
  rw [indexPath]
  split <;> simp

theorem length_indexPath_le (str : Bytes) : (indexPath str).length ≤ str.length + 1 := by
  rw [indexPath]
  split <;> simp

/-- The path of an index page is longer than the path that was asked for. -/
theorem indexPath_append_ne (path : Bytes) : indexPath path ++ ascii "index.html" ≠ path := by
  intro h
  have hlen := congrArg List.length h
  have hten : (ascii "index.html").length = 10 := rfl
  rw [List.length_append, hten] at hlen
  have := length_le_length_indexPath path
  omega

theorem indexPath_append_ne_errorReply (path : Bytes) :
    indexPath path ++ ascii "index.html" ≠ errorReply := by
  intro h
  have hlen := congrArg List.length h
  have hten : (ascii "index.html").length = 10 := rfl
  have hfive : errorReply.length = 5 := rfl
  rw [List.length_append, hten, hfive] at hlen
  omega

/-- Once a torrent is listed, an error is no longer replied. -/
theorem getTorrentIndex_ne_errorReply (env : Env) (path : Bytes) (st : TorrentStatus)
    (disk : Disk) : (getTorrentIndex env path st disk).result ≠ .ok errorReply := by
  unfold getTorrentIndex saveIndexFile
  split
  · nofun
  · simp only
    split <;> simpa using indexPath_append_ne_errorReply path

theorem getTorrentFile_ne_errorReply (env : Env) (fuel : ℕ) (torrentName filePath : Bytes)
    (st : TorrentStatus) (disk : Disk) :
    (getTorrentFile env fuel torrentName filePath st disk).result ≠ .ok errorReply := by
  have hne : torrentName ++ slash :: filePath ≠ errorReply := by
    intro h
    have hmem : slash ∈ errorReply := by simp [← h]
    exact absurd hmem (by decide)
  simp only [getTorrentFile]
  rcases (getTorrent env fuel 0 (torrentName ++ slash :: filePath) st disk).result with stop | _
  · nofun
  · simpa [Except.map] using hne

/-! ### Only the text matters, and bounds the reply -/

/-- The router reads a request up to its NUL, and not its first byte. -/
theorem checkRequest_congr {url' : Bytes} (h : cstr (url.drop 1) = cstr (url'.drop 1))
    (dir : TorrentDir) : checkRequest dir url = checkRequest dir url' := by
  simp only [checkRequest, checkRequestName, h]

theorem handleRequest_congr {url' : Bytes} (h : cstr (url.drop 1) = cstr (url'.drop 1))
    (env : Env) (fuel : ℕ) (st : TorrentStatus) (disk : Disk) :
    handleRequest env fuel url st disk = handleRequest env fuel url' st disk := by
  have hpath : urlPath url = urlPath url' := by simp only [urlPath, h]
  simp only [handleRequest, hpath]

theorem getTorrentIndex_result {path : Bytes}
    (hlist : gettor env.dir (firstComponent path) = some list) :
    (getTorrentIndex env path st disk).result = .ok (indexPath path ++ ascii "index.html") := by
  simp only [getTorrentIndex, hlist, saveIndexFile]
  split <;> rfl

/-- What `getTorrentIndex` and `getTorrentFile` reply, if anything. -/
theorem eq_of_getTorrentIndex {path reply : Bytes}
    (h : (getTorrentIndex env path st disk).result = .ok reply) :
    reply = indexPath path ++ ascii "index.html" := by
  rcases hlist : gettor env.dir (firstComponent path) with _ | list
  · simp [getTorrentIndex, hlist] at h
  · rw [getTorrentIndex_result hlist] at h
    exact (Except.ok.inj h).symm

theorem eq_of_getTorrentFile {fuel : ℕ} {torrentName filePath reply : Bytes}
    (h : (getTorrentFile env fuel torrentName filePath st disk).result = .ok reply) :
    reply = torrentName ++ slash :: filePath := by
  simp only [getTorrentFile] at h
  rcases hres : (getTorrent env fuel 0 (torrentName ++ slash :: filePath) st disk).result with
    stop | _ <;> rw [hres] at h
  · cases h
  · exact (Except.ok.inj h).symm

/-- **The three replies there are**: the path that was asked for, the index page below it,
and an error. -/
theorem handleRequest_reply {fuel : ℕ} {reply : Bytes}
    (h : (handleRequest env fuel url st disk).result = .ok reply) :
    reply = urlPath url ∨ reply = indexPath (urlPath url) ++ ascii "index.html" ∨
      reply = errorReply := by
  by_cases hpos : 0 < find (urlPath url) slash
  · rcases hlist : gettor env.dir (torrentName (urlPath url)) with _ | list
    · rw [handleRequest_of_pos_of_none hpos hlist] at h
      cases h
    · rw [handleRequest_of_pos hpos hlist] at h
      split at h
      · exact Or.inl ((eq_of_getTorrentFile h).trans (urlPath_of_pos hpos).1)
      · exact Or.inr (Or.inl (eq_of_getTorrentIndex h))
  · simp only [handleRequest, gt_iff_lt, if_neg hpos] at h
    split at h
    · exact Or.inr (Or.inr (Except.ok.inj h).symm)
    · split at h
      · exact Or.inr (Or.inl (eq_of_getTorrentIndex h))
      · exact Or.inr (Or.inr (Except.ok.inj h).symm)

theorem zero_notMem_urlPath (url : Bytes) : (0 : UInt8) ∉ urlPath url := by
  rw [urlPath]
  split
  · decide
  · exact zero_notMem_cstr _

/-- **No reply is longer than the index page.** -/
theorem length_of_handleRequest {fuel : ℕ} {reply : Bytes}
    (h : (handleRequest env fuel url st disk).result = .ok reply) :
    reply.length ≤ (indexPath (urlPath url) ++ ascii "index.html").length := by
  have hten : (ascii "index.html").length = 10 := rfl
  have hfive : errorReply.length = 5 := rfl
  have hle := length_le_length_indexPath (urlPath url)
  rw [List.length_append]
  rcases handleRequest_reply h with rfl | rfl | rfl
  · omega
  · rw [List.length_append]
  · omega

/-- A reply is a C string. -/
theorem zero_notMem_of_handleRequest {fuel : ℕ} {reply : Bytes}
    (h : (handleRequest env fuel url st disk).result = .ok reply) : (0 : UInt8) ∉ reply := by
  have hpath := zero_notMem_urlPath url
  have hindex : (0 : UInt8) ∉ indexPath (urlPath url) := by
    rw [indexPath]
    split
    · exact hpath
    · rw [List.mem_append, not_or]
      exact ⟨hpath, by decide⟩
  rcases handleRequest_reply h with rfl | rfl | rfl
  · exact hpath
  · rw [List.mem_append, not_or]
    exact ⟨hindex, by decide⟩
  · decide

end Branches

/-! ### A directory in which a path is listed -/

/-- The name under which the router looks for a regular file. -/
def lookedUp (path : Bytes) : Bytes :=
  if 0 < find path slash then firstComponent path else path

/-- The directory in which a request for the path is answered with an index page: it has
one torrent, without files, under the name that is looked up. -/
def indexDir (path : Bytes) : TorrentDir := .ofList [(lookedUp path, .listing 0 [])]

section IndexDir

variable {path : Bytes}

theorem entry_lookedUp (hne : path ≠ []) :
    (indexDir path).entry (lookedUp path) = some (.listing 0 []) := by
  have hkey : lookedUp path ≠ [] := by
    rw [lookedUp]
    split
    · rename_i hpos
      rcases path_cases path with ⟨-, hfind⟩ | ⟨b, -, hfind⟩ | ⟨a, b, rfl, ha, hane, -⟩
      · omega
      · omega
      · rwa [firstComponent_append ha]
    · exact hne
  simp [indexDir, TorrentDir.ofList, hkey]

/-- The first component is the name that is looked up, or that of the location itself. -/
theorem firstComponent_cases (path : Bytes) :
    firstComponent path = lookedUp path ∨ firstComponent path = [] := by
  rcases path_cases path with ⟨hno, hfind⟩ | ⟨b, rfl, -⟩ | ⟨a, b, rfl, ha, hane, hfind⟩
  · exact Or.inl (by rw [lookedUp, hfind, if_neg (by omega), firstComponent_of_notMem hno])
  · exact Or.inr (firstComponent_append (a := []) (by simp) b)
  · have hpos := List.length_pos_iff.mpr hane
    exact Or.inl (by rw [lookedUp, hfind, if_pos (by omega)])

theorem gettor_indexDir (hne : path ≠ []) :
    gettor (indexDir path) (firstComponent path) = some [] := by
  rcases firstComponent_cases path with hfirst | hfirst <;> rw [hfirst]
  · rw [gettor, entry_lookedUp hne]
    rfl
  · rfl

/-- **Every request is answered with an index page somewhere.** -/
theorem handleRequest_indexDir (url : Bytes) :
    checkRequest (indexDir (urlPath url)) url = 1 ∧
      ∀ (env : Env) fuel st disk, env.dir = indexDir (urlPath url) →
        (handleRequest env fuel url st disk).result =
          .ok (indexPath (urlPath url) ++ ascii "index.html") := by
  have hne : urlPath url ≠ [] := by
    rw [urlPath]
    split
    · decide
    · rename_i hlen
      exact fun h => hlen (by rw [h]; rfl)
  constructor
  · by_cases hlen : (cstr (url.drop 1)).length = 0
    · rw [checkRequest, checkRequestName, List.eq_nil_of_length_eq_zero hlen]
      rfl
    · have hpath : urlPath url = cstr (url.drop 1) := if_neg hlen
      rw [checkRequest, checkRequestName, ← hpath]
      rcases firstComponent_cases (urlPath url) with hfirst | hfirst <;> rw [hfirst]
      · rw [entry_lookedUp hne]
      · rfl
  · intro env fuel st disk henv
    have hlist := gettor_indexDir hne
    rw [← henv] at hlist
    by_cases hpos : 0 < find (urlPath url) slash
    · have hlist' := hlist
      rw [(urlPath_of_pos hpos).2] at hlist'
      rw [handleRequest_of_pos hpos hlist', if_neg (by simp [checkIndex])]
      exact getTorrentIndex_result hlist
    · have hent : env.dir.entry (urlPath url) = some (.listing 0 []) := by
        have := entry_lookedUp hne
        rwa [lookedUp, if_neg hpos, ← henv] at this
      simpa [handleRequest, hpos, hent, DirEntry.listing, DirEntry.isReg] using
        getTorrentIndex_result hlist

end IndexDir

/-! ### The two parsers compared -/

/-- **The parsers agree on a request**: when `checkRequest` accepts it, `handleRequest`
works on the name that `checkRequest` has found, a regular file, and does not reply an
error. -/
def ParsersAgree (env : Env) (url : Bytes) : Prop :=
  checkRequest env.dir url = 1 →
    firstComponent (urlPath url) = checkRequestName url ∧
      (∃ e, env.dir.entry (checkRequestName url) = some e ∧ e.isReg = true) ∧
      ∀ fuel st disk, (handleRequest env fuel url st disk).result ≠ .ok errorReply

/-- Where `checkRequest` has found a regular file, `handleRequest` finds the same. -/
theorem urlPath_of_isReg {dir : TorrentDir} {url : Bytes} {e : DirEntry}
    (hent : dir.entry (checkRequestName url) = some e) (hreg : e.isReg = true) :
    urlPath url = cstr (url.drop 1) := by
  refine if_neg fun hlen => ?_
  -- the empty name is that of the location itself
  obtain ⟨t, t', hroot⟩ := dir.root_isDir
  rw [checkRequestName, List.eq_nil_of_length_eq_zero hlen] at hent
  obtain rfl : DirEntry.directory t t' = e := Option.some.inj (hroot.symm.trans hent)
  cases hreg

/-- **The parsers agree exactly on the requests whose first component is not a
directory.** -/
theorem parsersAgree_iff (env : Env) (url : Bytes) :
    ParsersAgree env url ↔
      ∀ e, env.dir.entry (checkRequestName url) = some e → e.isReg = true := by
  constructor
  · intro hagree e hent
    obtain ⟨-, ⟨e', hent', hreg⟩, -⟩ := hagree (by rw [checkRequest, hent])
    rwa [Option.some.inj (hent.symm.trans hent')]
  · intro hcond hone
    obtain ⟨e, hent⟩ : ∃ e, env.dir.entry (checkRequestName url) = some e := by
      rcases hent : env.dir.entry (checkRequestName url) with _ | e
      · simp [checkRequest, hent] at hone
      · exact ⟨e, rfl⟩
    have hreg := hcond e hent
    have hpath := urlPath_of_isReg hent hreg
    refine ⟨by rw [hpath, checkRequestName], ⟨e, hent, hreg⟩, fun fuel st disk => ?_⟩
    rcases path_cases (urlPath url) with ⟨hno, hfind⟩ | ⟨b, hb, hfind⟩ | ⟨a, b, hab, ha, hne, hfind⟩
    · -- the request names the torrent alone, so it is the torrent that is looked at again
      rw [checkRequestName, ← hpath, firstComponent_of_notMem hno] at hent
      simpa [handleRequest, hfind, hent, hreg] using
        getTorrentIndex_ne_errorReply env (urlPath url) st disk
    · -- a path that starts with a slash has the empty name in front of it
      obtain ⟨t, t', hroot⟩ := env.dir.root_isDir
      have hname : checkRequestName url = [] := by
        rw [checkRequestName, ← hpath, hb]
        exact firstComponent_append (a := []) (by simp) b
      have hreg := hcond _ (hname ▸ hroot)
      cases hreg
    · have hpos : 0 < find (urlPath url) slash := by
        rw [hfind]
        exact_mod_cast List.length_pos_iff.mpr hne
      rcases hlist : gettor env.dir (torrentName (urlPath url)) with _ | list
      · rw [handleRequest_of_pos_of_none hpos hlist]
        nofun
      · rw [handleRequest_of_pos hpos hlist]
        split
        · exact getTorrentFile_ne_errorReply _ _ _ _ _ _
        · exact getTorrentIndex_ne_errorReply _ _ _ _

/-- **The parsers disagree on a subdirectory**: `checkRequest` accepts it, `handleRequest`
replies an error. -/
theorem parsers_disagree :
    ¬ ParsersAgree (.finishing (.ofList [(ascii "sub", .directory 5 5)]))
      (ascii "/sub" ++ [0]) := by
  intro hagree
  exact absurd rfl ((hagree rfl).2.2 5 .new .bare)

end InstantMirror
