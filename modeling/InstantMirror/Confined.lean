import InstantMirror.Chain
import InstantMirror.Effects

/-!
# Staying inside the mirror

Three sources feed the paths the daemon writes to: the paths of torrents, which
libtorrent has cleaned (`InstantMirror.SanitisedDir`); the path of a request, which nobody
cleans; and the targets of links, which nobody cleans either.

A path appended to `DISK_LOCATION` leaves it if its own normal form starts with `..` and
does not come back (`InstantMirror.Climbs`). `InstantMirror.confined_iff` says that this
is the only way out: a listing stays inside exactly if the requested path does not climb,
and a file request exactly if no path that the links lead to does.

A link to a path outside leads to no file of the torrent, so the call for it indexes its
vectors with `-1`; `utime` is called, if at all, by a run that has no meaning any more.
Such a run is counted as leaving the mirror if the path of one of its calls does.
-/

namespace InstantMirror

/-! ### The property -/

/-- **The path names something inside `DISK_LOCATION`**, lexically. -/
def InMirror (path : Bytes) : Prop := normalise diskLocation <+: normalise path

instance (path : Bytes) : Decidable (InMirror path) := inferInstanceAs (Decidable (_ <+: _))

/-- What the event writes to or re-dates is inside. -/
def Event.WritesInMirror : Event → Prop
  | .saved path => InMirror path
  | .touched path _ => InMirror path
  | .spilled ti _ => ∀ e ∈ ti.files, InMirror (diskLocation ++ e.path)
  | .downloaded e => InMirror (diskLocation ++ e.path)
  | _ => True

/-- What a call re-dates, if it gets there, is inside. -/
def Event.CallsInMirror : Event → Prop
  | .call _ _ path _ => InMirror (diskLocation ++ path)
  | _ => True

/-- **A request stays inside the mirror**, whatever the status, the disk and the sessions. -/
def Confined (dir : TorrentDir) (url : Bytes) : Prop :=
  checkRequest dir url = 1 → ∀ env : Env, env.dir = dir → ∀ fuel st disk,
    (∀ e ∈ (handleRequest env fuel url st disk).events, e.WritesInMirror) ∧
      ((handleRequest env fuel url st disk).result = .error .undefined →
        ∀ e ∈ (handleRequest env fuel url st disk).events, e.CallsInMirror)

/-! ### The condition -/

/-- The path leads out of the directory it is appended to, and not back into one of its name. -/
def Climbs (path : Bytes) : Prop :=
  (normalise path).head? = some dotdot ∧ ¬ normalise diskLocation <+: normalise path

instance (path : Bytes) : Decidable (Climbs path) := inferInstanceAs (Decidable (_ ∧ _))

/-- **The condition**, on the requested path and on the paths that its links lead to. -/
def StaysBelow (dir : TorrentDir) (url : Bytes) : Prop :=
  match route dir url with
  | .index path => gettor dir (firstComponent path) ≠ none → ¬ Climbs path
  | .file _ _ => ∀ target, Relation.ReflTransGen (Leads dir) (urlPath url) target → ¬ Climbs target
  | _ => True

/-- A path of a torrent, as libtorrent leaves it: components that name something. -/
def SanitisedPath (path : Bytes) : Prop :=
  ∃ comps, comps ≠ [] ∧ (∀ c ∈ comps, Named c ∧ slash ∉ c) ∧ path = joined comps

/-- **Every torrent has clean paths.** -/
def SanitisedDir (dir : TorrentDir) : Prop :=
  ∀ name f n ti, dir.entry name = some (.file f) → f.decode n = .torrent ti →
    ∀ e ∈ ti.files, SanitisedPath e.path

/-! ### Paths below the mirror -/

/-- **A path below `DISK_LOCATION` is inside it unless it climbs.** -/
theorem inMirror_iff (path : Bytes) : InMirror (diskLocation ++ path) ↔ ¬ Climbs path := by
  rw [InMirror, normalise_below, Climbs]
  split
  · rename_i hup
    simp [hup]
  · rename_i hup
    simp [hup]

/-- The page of a directory is inside the mirror if the directory is. -/
theorem inMirror_page_iff (path : Bytes) : InMirror (pagePath path) ↔ ¬ Climbs path := by
  rw [pagePath, List.append_assoc, inMirror_iff, Climbs, Climbs, normalise_page]
  have hhead : (normalise path ++ [ascii "index.html"]).head? = some dotdot ↔
      (normalise path).head? = some dotdot := by
    rcases normalise path with _ | ⟨c, cs⟩
    · decide
    · simp
  have hpre : normalise diskLocation <+: normalise path ++ [ascii "index.html"] ↔
      normalise diskLocation <+: normalise path := by
    rw [List.prefix_concat_iff]
    refine or_iff_right fun heq => ?_
    have hlast := congrArg List.getLast? heq
    rw [List.getLast?_concat] at hlast
    exact absurd hlast (by decide)
  rw [hhead, hpre]

theorem SanitisedPath.not_climbs {path : Bytes} (h : SanitisedPath path) : ¬ Climbs path := by
  obtain ⟨comps, hne, hcomps, rfl⟩ := h
  rintro ⟨hhead, -⟩
  rw [normalise_joined hne hcomps] at hhead
  exact (hcomps _ (List.mem_of_head? hhead)).1.2.2 rfl

/-! ### Torrents with clean paths -/

section Clean

variable {dir : TorrentDir} {name path target : Bytes} {list : List TorFile}

/-- `gettor` and the constructor of `torrent_info` read paths out of the same files. -/
theorem SanitisedDir.of_gettor (hclean : SanitisedDir dir) (hlist : gettor dir name = some list) :
    ∀ row ∈ list, SanitisedPath row.name := by
  intro row hrow
  obtain ⟨f, n, ti, hf, hdec, rfl⟩ := (gettor_cases hlist).resolve_left (List.ne_nil_of_mem hrow)
  obtain ⟨e, he, hkey⟩ := exists_file_of_mem_torList hrow
  have hpath : e.path = row.name := congrArg Prod.fst hkey
  rw [← hpath]
  exact hclean name f n ti hf hdec e he

theorem SanitisedDir.of_torrentInfo (hclean : SanitisedDir dir) {ti : TorrentInfo}
    (hti : torrentInfo dir name = some ti) : ∀ e ∈ ti.files, SanitisedPath e.path := by
  rw [torrentInfo] at hti
  split at hti
  · rename_i f hf
    split at hti
    · obtain rfl := Option.some.inj hti
      simp [TorrentInfo.blank]
    · rename_i n hn
      split at hti
      · rename_i ti' hdec
        obtain rfl := Option.some.inj hti
        exact hclean name f n ti' hf hdec
      · cases hti
  · obtain rfl := Option.some.inj hti
    simp [TorrentInfo.blank]

/-- A link leads to a path in the same torrent. -/
theorem Leads.exists_append {rest : Bytes} (h : Leads dir (name ++ slash :: rest) target)
    (hname : slash ∉ name) (hname₀ : (0 : UInt8) ∉ name) :
    ∃ rest', target = name ++ slash :: rest' := by
  obtain ⟨list, -, fuel, k, row, -, -, -, hres⟩ := h
  obtain ⟨s, hs, rfl⟩ := Option.map_eq_some_iff.mp hres
  exact cstr_resolveLink (by simpa using hs) hname hname₀

/-- **A path that climbs is no file of a torrent**, and a call for it leaves its vectors. -/
theorem enter_of_climbs {env : Env} {depth : ℕ} {st : TorrentStatus} {rest : Bytes}
    (hclean : SanitisedDir env.dir) (hlist : gettor env.dir name = some list) (hname : slash ∉ name)
    (hnet : env.net depth ≠ .noSession) (hem : st.empty = true)
    (hclimbs : Climbs (name ++ slash :: rest)) :
    enter env depth (name ++ slash :: rest) st = (.stopped .undefined, st, []) := by
  have hindex : checkIndex list name rest = -1 := by
    rcases checkIndex_cases list name rest with ⟨hnone, -⟩ | ⟨k, row, -, hrow, hrowname⟩
    · exact hnone
    · have hpath := hclean.of_gettor hlist row (List.mem_of_getElem? hrow)
      rw [hrowname] at hpath
      exact absurd hclimbs hpath.not_climbs
  simp [enter, if_neg hnet, torrentName_append hname, torrentFileName_append hname, hlist,
    validate_of_empty hem, hem, hindex, prioritise]

/-- **A chain of links to a path that climbs is followed to its end**, from a new status. -/
theorem getTorrent_of_climbs {env : Env} {st : TorrentStatus} (hclean : SanitisedDir env.dir)
    (hlist : gettor env.dir name = some list) (hname : slash ∉ name)
    (hname₀ : (0 : UInt8) ∉ name) (hnet : ∀ depth, env.net depth ≠ .noSession)
    (hem : st.empty = true) (disk : Disk) (hclimbs : Climbs target)
    (hreach : Relation.ReflTransGen (Leads env.dir) path target) :
    (∃ rest, path = name ++ slash :: rest) → ∃ fuel, ∀ depth,
      (getTorrent env fuel depth path st disk).result = .error .undefined ∧
        ∃ d, .call env d target st ∈ (getTorrent env fuel depth path st disk).events := by
  induction hreach using Relation.ReflTransGen.head_induction_on with
  | refl =>
    rintro ⟨rest, rfl⟩
    refine ⟨1, fun depth => ?_⟩
    rw [getTorrent_of_stopped (enter_of_climbs hclean hlist hname (hnet depth) hem hclimbs)]
    exact ⟨rfl, depth, List.mem_cons_self⟩
  | head hleads _ ih =>
    rintro ⟨rest, rfl⟩
    obtain ⟨fuel₁, hfuel₁⟩ := ih (hleads.exists_append hname hname₀)
    obtain ⟨list', hlist', fuel₂, k, row, hk, hrow, hlink, hres⟩ := hleads
    obtain ⟨s, hs, rfl⟩ := Option.map_eq_some_iff.mp hres
    refine ⟨max fuel₁ fuel₂ + 1, fun depth => ?_⟩
    have hent := enter_of_clear (hnet depth) hlist' (validate_of_empty hem env depth _) hk hrow
      (Or.inl hem)
    have hres' := resolveLink_mono (Nat.le_max_right fuel₁ fuel₂) hs
    have hinner := @getTorrent_mono env fuel₁ _ (depth + 1) (cstr s) st disk
      (Nat.le_max_left fuel₁ fuel₂) (by rw [(hfuel₁ (depth + 1)).1]; simp)
    obtain ⟨hundef, d, hcall⟩ := hfuel₁ (depth + 1)
    rw [← hinner] at hundef hcall
    rcases getTorrent_of_link hent hlink (max fuel₁ fuel₂) disk with
      ⟨hnone, -⟩ | ⟨target', st₂, disk₂, ev₂, hres'', hin⟩
    · rw [hres'] at hnone
      cases hnone
    obtain rfl := Option.some.inj (hres'.symm.trans hres'')
    rcases hin with ⟨stop, hin, hs'⟩ | ⟨hin, -⟩ <;> rw [hin] at hundef hcall
    · rw [hs']
      exact ⟨hundef, d, List.mem_append_right _ hcall⟩
    · cases hundef

end Clean

/-! ### The theorem -/

section Requests

variable {dir : TorrentDir} {url path torrentName filePath : Bytes}

/-- A disk on which the page can be saved. -/
def Disk.opening (path : Bytes) : Disk where
  node q := if q = (normalise (pagePath path)).dropLast then some .dir else none

theorem Disk.opens_opening (path : Bytes) : (Disk.opening path).opens (pagePath path) = true := by
  simp [Disk.opens, Disk.opening, normalise_pagePath_ne_dropLast]

/-- A listing that stays inside does not climb. -/
theorem not_climbs_of_index (hconf : Confined dir url) (hcheck : checkRequest dir url = 1)
    (hroute : route dir url = .index path) (hlist : gettor dir (firstComponent path) ≠ none) :
    ¬ Climbs path := by
  obtain ⟨list, hlist⟩ := Option.ne_none_iff_exists'.mp hlist
  have hsaved := (hconf hcheck (.finishing dir) rfl 0 .new (.opening path)).1
    (.saved (pagePath path))
  rw [handleRequest_eq_route] at hsaved
  have hdir : (Env.finishing dir).dir = dir := rfl
  simp only [hdir, hroute] at hsaved
  rw [getTorrentIndex_of_opens hlist (Disk.opens_opening path)] at hsaved
  exact (inMirror_page_iff path).mp (hsaved List.mem_cons_self)

/-- A file request that stays inside leads to no path that climbs. -/
theorem not_climbs_of_file (hclean : SanitisedDir dir) (hconf : Confined dir url)
    (hcheck : checkRequest dir url = 1) (hroute : route dir url = .file torrentName filePath)
    {target : Bytes} (hreach : Relation.ReflTransGen (Leads dir) (urlPath url) target) :
    ¬ Climbs target := by
  intro hclimbs
  obtain ⟨hpath, hname, -, list, -, -, hlist, -⟩ := eq_of_route_file hroute
  have htext := zero_notMem_urlPath url
  rw [← hpath] at htext
  obtain ⟨fuel, hfuel⟩ := @getTorrent_of_climbs torrentName (urlPath url) target list
    (.finishing dir) .new hclean hlist hname (fun h => htext (List.mem_append_left _ h))
    (by simp [Env.finishing]) rfl .bare hclimbs hreach ⟨filePath, hpath.symm⟩
  obtain ⟨hundef, d, hcall⟩ := hfuel 0
  have hcalls := (hconf hcheck (.finishing dir) rfl fuel .new .bare).2
  rw [handleRequest_eq_route] at hcalls
  have hdir : (Env.finishing dir).dir = dir := rfl
  simp only [hdir, hroute, getTorrentFile, hpath, hundef] at hcalls
  exact (inMirror_iff target).mp (hcalls rfl _ hcall) hclimbs

/-- What the links lead to is re-dated inside the mirror, and what libtorrent stores is stored
there. -/
theorem writesInMirror_of_concerns {Reached : Bytes → Prop} {e : Event} (hclean : SanitisedDir dir)
    (hstays : ∀ target, Reached target → ¬ Climbs target) (he : e.Concerns dir Reached) :
    e.WritesInMirror := by
  cases e with
  | touched path mtime =>
    obtain ⟨target, htarget, rfl⟩ := he
    exact (inMirror_iff target).mpr (hstays target htarget)
  | spilled ti index =>
    obtain ⟨path, -, hfetch⟩ := he
    exact fun f hf =>
      (inMirror_iff f.path).mpr (hclean.of_torrentInfo hfetch.info_eq f hf).not_climbs
  | downloaded f =>
    obtain ⟨path, ti, index, -, hfetch, hf⟩ := he
    exact (inMirror_iff f.path).mpr
      (hclean.of_torrentInfo hfetch.info_eq f (List.mem_of_getElem? hf)).not_climbs
  | saved path => exact he.elim
  | _ => trivial

theorem callsInMirror_of_concerns {Reached : Bytes → Prop} {e : Event}
    (hstays : ∀ target, Reached target → ¬ Climbs target) (he : e.Concerns dir Reached) :
    e.CallsInMirror := by
  cases e with
  | call env depth path st => exact (inMirror_iff path).mpr (hstays path he)
  | _ => trivial

/-- **A request stays inside the mirror exactly if** the path that is listed, or every path the
links lead to from the file, does not climb out of it. -/
theorem confined_iff (hclean : SanitisedDir dir) (url : Bytes) :
    Confined dir url ↔ (checkRequest dir url = 1 → StaysBelow dir url) := by
  constructor
  · intro hconf hcheck
    rw [StaysBelow]
    split
    · rename_i path hroute
      exact not_climbs_of_index hconf hcheck hroute
    · rename_i torrentName filePath hroute
      exact fun target => not_climbs_of_file hclean hconf hcheck hroute
    · trivial
  · rintro hstays hcheck env rfl fuel st disk
    have hstays := hstays hcheck
    rw [StaysBelow] at hstays
    rcases handleRequest_effects (o := handleRequest env fuel url st disk) rfl with
      ⟨hev, -⟩ | ⟨list, hroute, hlist, hev, -⟩ | ⟨⟨torrentName, filePath, hroute⟩, hreplays⟩
    · simp [hev]
    · rw [hroute] at hstays
      rw [hev]
      have hin := (inMirror_page_iff (urlPath url)).mpr (hstays (by simp [hlist]))
      simpa [Event.WritesInMirror, Event.CallsInMirror] using hin
    · rw [hroute] at hstays
      refine ⟨fun e he => ?_, fun _ e he => ?_⟩
      · exact writesInMirror_of_concerns hclean hstays (hreplays.concerns e he)
      · exact callsInMirror_of_concerns hstays (hreplays.concerns e he)

end Requests

/-- The torrent “n”, in a directory that has a parent. -/
def climbingDir : TorrentDir :=
  .ofList [(ascii "n", .listing 5 [.plain (ascii "n/a") 1, .plain (ascii "n/b") 1]),
    (dotdot, .directory 0 0)]

theorem sanitisedDir_climbingDir : SanitisedDir climbingDir := by
  intro name f n ti hent hdec e he
  rcases eq_or_ne name [] with rfl | hne
  · cases hent
  have hmem := TorrentDir.mem_of_entry hent hne
  rcases List.mem_cons.mp hmem with heq | hmem
  · obtain ⟨rfl, hfile⟩ := Prod.mk.inj heq
    obtain rfl := DirEntry.file.inj hfile
    obtain rfl := Decoded.torrent.inj hdec
    rcases List.mem_cons.mp he with rfl | he
    · exact ⟨[ascii "n", ascii "a"], by decide, by decide, by decide⟩
    · obtain rfl := List.mem_singleton.mp he
      exact ⟨[ascii "n", ascii "b"], by decide, by decide, by decide⟩
  · cases (Prod.mk.inj (List.mem_singleton.mp hmem)).2

/-- A file of the torrent is fetched inside the mirror. -/
theorem confined_file : Confined climbingDir (ascii "/n/a" ++ [0]) := by
  refine (confined_iff sanitisedDir_climbingDir _).mpr fun _ => ?_
  have hroute : route climbingDir (ascii "/n/a" ++ [0]) = .file (ascii "n") (ascii "a") := by decide
  rw [StaysBelow, hroute]
  intro target hreach
  rcases hreach.cases_head with rfl | ⟨next, ⟨list, hlist, -, k, row, hk, hrow, hlink, -⟩, -⟩
  · decide
  · -- the file is no link
    obtain rfl := Option.some.inj hlist
    obtain rfl : k = 0 := Int.natCast_inj.mp (hk.symm.trans (by decide))
    obtain rfl := Option.some.inj hrow
    cases hlink

/-- **A listing outside the mirror**: the page of `..` is saved beside the torrents. -/
theorem page_outside : SanitisedDir climbingDir ∧
    ¬ Confined climbingDir (ascii "/../torrents" ++ [0]) := by
  refine ⟨sanitisedDir_climbingDir, fun hconf => ?_⟩
  have hroute : route climbingDir (ascii "/../torrents" ++ [0]) =
      .index (ascii "../torrents") := by decide
  have hlist : gettor climbingDir (firstComponent (ascii "../torrents")) ≠ none := by decide
  exact not_climbs_of_index hconf rfl hroute hlist (by decide)

end InstantMirror
