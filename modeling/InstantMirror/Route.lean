import InstantMirror.Request

/-!
# What the router decides

`handleRequest` looks at the request and at `TORRENT_LOCATION`, decides, and hands over
to one of two functions. The decision (`InstantMirror.route`) depends on nothing else –
not on the status, not on the disk – and `InstantMirror.handleRequest_eq_route` is the
router as a decision and what follows from it. Of the two functions, the one that lists is
short (`InstantMirror.getTorrentIndex_effects`).
-/

namespace InstantMirror

/-- **What is done with a request.** -/
inductive Route where
  /-- `gettor`, called by `check`, calls `exit`. -/
  | exits : Route
  /-- An error is replied. -/
  | error : Route
  /-- `getTorrentFile` is called. -/
  | file (torrentName filePath : Bytes) : Route
  /-- `getTorrentIndex` is called. -/
  | index (urlPath : Bytes) : Route
deriving DecidableEq

/-- **The decision of `handleRequest`.** -/
def route (dir : TorrentDir) (url : Bytes) : Route :=
  if find (urlPath url) slash > 0 then
    match check dir (torrentName (urlPath url)) (torrentFileName (urlPath url)) with
    | none => .exits
    | some ckIndex =>
      if ckIndex > -1 then .file (torrentName (urlPath url)) (torrentFileName (urlPath url))
      else .index (urlPath url)
  else
    match dir.entry (urlPath url) with
    | none => .error
    | some e => if e.isReg then .index (urlPath url) else .error

/-- **The router is its decision and what follows from it.** -/
theorem handleRequest_eq_route (env : Env) (fuel : ℕ) (url : Bytes) (st : TorrentStatus)
    (disk : Disk) : handleRequest env fuel url st disk =
      match route env.dir url with
      | .exits => ⟨.error .exited, st, disk, []⟩
      | .error => ⟨.ok errorReply, st, disk, []⟩
      | .file torrentName filePath => getTorrentFile env fuel torrentName filePath st disk
      | .index path => getTorrentIndex env path st disk := by
  rw [route]
  by_cases hpos : find (urlPath url) slash > 0
  · rw [if_pos hpos]
    rcases hlist : gettor env.dir (torrentName (urlPath url)) with _ | list
    · rw [handleRequest_of_pos_of_none hpos hlist, check, hlist]
      rfl
    · rw [handleRequest_of_pos hpos hlist, check, hlist, Option.map_some]
      simp only
      split <;> rfl
  · rw [if_neg hpos]
    simp only [handleRequest, if_neg hpos]
    rcases env.dir.entry (urlPath url) with _ | e
    · rfl
    · simp only
      split <;> rfl

section Decisions

variable {dir : TorrentDir} {url path torrentName filePath name file : Bytes}
  {list : List TorFile}

/-- Only the path that was asked for is listed. -/
theorem eq_of_route_index (h : route dir url = .index path) : path = urlPath url := by
  rw [route] at h
  split at h
  · split at h
    · cases h
    · split at h
      · cases h
      · exact (Route.index.inj h).symm
  · split at h
    · cases h
    · split at h
      · exact (Route.index.inj h).symm
      · cases h

/-- Where `check` exits, `gettor` does, for the torrent in front of the first slash. -/
theorem gettor_of_route_exits (h : route dir url = .exits) :
    gettor dir (firstComponent (urlPath url)) = none := by
  rw [route] at h
  split at h
  · rename_i hpos
    rw [(urlPath_of_pos hpos).2]
    rcases hlist : gettor dir (InstantMirror.torrentName (urlPath url)) with _ | list
    · rfl
    · rw [check, hlist, Option.map_some] at h
      simp only at h
      split at h <;> cases h
  · split at h
    · cases h
    · split at h <;> cases h

/-- Where an error is replied, there is no torrent. -/
theorem gettor_of_route_error (h : route dir url = .error) :
    gettor dir (firstComponent (urlPath url)) = some [] := by
  rw [route] at h
  split at h
  · split at h
    · cases h
    · split at h <;> cases h
  · rename_i hpos
    rcases path_cases (urlPath url) with ⟨hno, -⟩ | ⟨b, hb, -⟩ | ⟨a, b, -, -, hne, hfind⟩
    · rw [firstComponent_of_notMem hno, gettor]
      rcases hent : dir.entry (urlPath url) with _ | ⟨f⟩ | _
      · rfl
      · simp [hent, DirEntry.isReg] at h
      · rfl
    · obtain ⟨t, t', hroot⟩ := dir.root_isDir
      have hfirst : firstComponent (slash :: b) = [] := firstComponent_append (a := []) (by simp) b
      rw [hb, hfirst, gettor, hroot]
    · have := List.length_pos_iff.mpr hne
      omega

/-- **A file that is fetched** is the path that was asked for, and a row of its torrent. -/
theorem eq_of_route_file (h : route dir url = .file torrentName filePath) :
    torrentName ++ slash :: filePath = urlPath url ∧ slash ∉ torrentName ∧ torrentName ≠ [] ∧
      ∃ (list : List TorFile) (k : ℕ) (row : TorFile), gettor dir torrentName = some list ∧
        checkIndex list torrentName filePath = k ∧ list[k]? = some row ∧
        row.name = urlPath url := by
  rw [route] at h
  split at h
  · rename_i hpos
    rcases path_cases (urlPath url) with ⟨-, hfind⟩ | ⟨b, -, hfind⟩ | ⟨a, b, hpath, ha, hne, -⟩
    · omega
    · omega
    rw [hpath, torrentName_append ha, torrentFileName_append ha, check] at h
    rcases hlist : gettor dir a with _ | list
    · simp [hlist] at h
    rw [hlist, Option.map_some] at h
    simp only at h
    split at h
    · obtain ⟨rfl, rfl⟩ := Route.file.inj h
      rcases checkIndex_cases list a b with ⟨hnone, -⟩ | ⟨k, row, hk, hrow, hname⟩
      · omega
      · exact ⟨hpath.symm, ha, hne, list, k, row, hlist, hk, hrow, hname.trans hpath.symm⟩
    · cases h
  · split at h
    · cases h
    · split at h <;> cases h

/-- A request for a path inside a torrent: a file if the torrent has it, and an index page
otherwise. -/
theorem route_of_slash (hpath : urlPath url = name ++ slash :: file) (hname : slash ∉ name)
    (hne : name ≠ []) (hlist : gettor dir name = some list) :
    route dir url = if ∃ row ∈ list, row.name = urlPath url then .file name file
      else .index (urlPath url) := by
  have hpos : find (urlPath url) slash > 0 := by
    rw [hpath, find_append_cons hname]
    exact_mod_cast List.length_pos_iff.mpr hne
  rw [route, if_pos hpos, hpath, torrentName_append hname, torrentFileName_append hname, check,
    hlist, Option.map_some]
  rcases checkIndex_cases list name file with ⟨hnone, hno⟩ | ⟨k, row, hk, hrow, hrowname⟩
  · rw [if_neg (by simpa using hno)]
    simp only
    rw [if_neg (by omega)]
  · rw [if_pos ⟨row, List.mem_of_getElem? hrow, hrowname⟩]
    simp only
    rw [if_pos (by omega)]

/-- A request for a torrent alone. -/
theorem route_of_isReg (hslash : slash ∉ urlPath url) {e : DirEntry}
    (hent : dir.entry (urlPath url) = some e) (hreg : e.isReg = true) :
    route dir url = .index (urlPath url) := by
  rw [route, find_of_notMem hslash, if_neg (by omega), hent]
  exact if_pos hreg

end Decisions

/-! ### What a listing does -/

/-- The path of the page that is saved where this path is listed. -/
def pagePath (path : Bytes) : Bytes := diskLocation ++ indexPath path ++ ascii "index.html"

/-- **The normal form of a path appended to `DISK_LOCATION`.** -/
theorem normalise_below (path : Bytes) : normalise (diskLocation ++ path) =
    if (normalise path).head? = some dotdot then normalise path
    else normalise diskLocation ++ normalise path := by
  have hsplit : diskLocation ++ path = ascii "../www" ++ slash :: path := rfl
  have hdir : normalise (ascii "../www") = normalise diskLocation := by decide
  have hstack : (normalise diskLocation).reverse = [ascii "www", dotdot] := by decide
  rw [hsplit, normalise_append, hdir]
  obtain ⟨k, names, hnames, heq⟩ := exists_normalise path
  rw [heq]
  cases k with
  | zero =>
    have hhead : names.head? ≠ some dotdot := fun h => (hnames _ (List.mem_of_head? h)).2.2 rfl
    rw [List.replicate_zero, List.nil_append, if_neg hhead, foldl_pushComponent_of_named hnames]
    simp
  | succ k =>
    -- the first `..` takes `www` away, and the others stay
    have htop : pushComponent [ascii "www", dotdot] dotdot = List.replicate 1 dotdot := by decide
    rw [if_pos (by simp [List.replicate_succ]), List.replicate_succ, List.cons_append,
      List.foldl_cons, hstack, htop, List.foldl_append, foldl_pushComponent_replicate,
      foldl_pushComponent_of_named hnames, Nat.add_comm 1 k, List.reverse_append,
      List.reverse_reverse, List.reverse_replicate, List.replicate_succ, List.cons_append]

/-- The page is beside the files of its directory. -/
theorem normalise_page (path : Bytes) : normalise (indexPath path ++ ascii "index.html") =
    normalise path ++ [ascii "index.html"] := by
  have hbelow : ∀ q : Bytes, normalise (q ++ slash :: ascii "index.html") =
      normalise q ++ [ascii "index.html"] := by
    intro q
    have hpage : normalise (ascii "index.html") = [ascii "index.html"] := by decide
    rw [normalise_append, hpage, List.foldl_cons, List.foldl_nil,
      pushComponent_of_named (by decide)]
    simp
  rw [indexPath]
  split
  · rename_i hlast
    obtain ⟨q, rfl⟩ := List.getLast?_eq_some_iff.mp hlast
    have hnil : normalise [] = [] := by decide
    have hq : normalise (q ++ [slash]) = normalise q := by
      rw [normalise_append, hnil, List.foldl_nil, List.reverse_reverse]
    rw [hq, List.append_assoc, List.singleton_append, hbelow]
  · rw [List.append_assoc, List.singleton_append, hbelow]

/-- The page is not its directory. -/
theorem normalise_pagePath_ne_dropLast (path : Bytes) :
    normalise (pagePath path) ≠ (normalise (pagePath path)).dropLast := by
  have hpos : 0 < (normalise (pagePath path)).length := by
    rw [pagePath, List.append_assoc, normalise_below, normalise_page, List.length_pos_iff]
    split <;> simp
  intro heq
  have hlen := congrArg List.length heq
  rw [List.length_dropLast] at hlen
  omega

/-- A listing saves its page where the `ofstream` opens. -/
theorem getTorrentIndex_of_opens {env : Env} {path : Bytes} {list : List TorFile} {disk : Disk}
    (hlist : gettor env.dir (firstComponent path) = some list)
    (hopens : disk.opens (pagePath path) = true) (st : TorrentStatus) :
    getTorrentIndex env path st disk = ⟨.ok (indexPath path ++ ascii "index.html"), st,
      disk.write (pagePath path) (.page (generateIndex (indexPath path) list)),
      [.saved (pagePath path)]⟩ := by
  rw [pagePath] at hopens
  simp only [getTorrentIndex, hlist, saveIndexFile, hopens, if_true]
  rfl

/-- **A listing saves its page, or does nothing**, and leaves the status alone. -/
theorem getTorrentIndex_effects {env : Env} {path : Bytes} {st : TorrentStatus} {disk : Disk}
    {o : Outcome Bytes} (ho : getTorrentIndex env path st disk = o) : o.status = st ∧
      ((o.events = [] ∧ o.disk = disk) ∨
        ∃ list, gettor env.dir (firstComponent path) = some list ∧
          o.events = [.saved (pagePath path)] ∧
          o.disk = disk.write (pagePath path) (.page (generateIndex (indexPath path) list))) := by
  unfold getTorrentIndex saveIndexFile at ho
  split at ho
  · subst ho
    exact ⟨rfl, Or.inl ⟨rfl, rfl⟩⟩
  · rename_i list hlist
    simp only at ho
    split at ho <;> subst ho
    · exact ⟨rfl, Or.inr ⟨list, hlist, rfl, rfl⟩⟩
    · exact ⟨rfl, Or.inl ⟨rfl, rfl⟩⟩

end InstantMirror
