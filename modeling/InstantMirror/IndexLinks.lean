import Mathlib.Data.List.Induction
import InstantMirror.IndexRows
import InstantMirror.Lib.Path
import InstantMirror.Route

/-!
# The links of an index page

An index page links each of its rows by a path, built from the path of the page and a
name in the list of `gettor`; the router takes such a path apart again, and tells a file
from a directory by asking `check`. For the two to fit together

* the path has to come back as it was sent, which a NUL in a name prevents;
* a file that is listed has to lie inside its torrent: the page of a torrent that is a
  single file links the torrent itself, and so leads back to the page;
* and no file may have the name of a directory that is listed, since `check` is asked
  first.

`InstantMirror.linksWork_iff` says that nothing else is needed, for the torrents that
libtorrent makes: the name of the torrent, and behind it the components of the path,
none of them empty, `.` or `..`.
-/

namespace InstantMirror

/-! ### The property -/

/-- The link of a row: `"/" + baseurl + tmp` of `addToList`. -/
def Row.href (r : Row) : Bytes := slash :: (r.baseurl ++ r.filename)

/-- A row works: its link is accepted; a file is then fetched under its own name, and a
directory is listed, with at least one row. -/
def Row.Works (dir : TorrentDir) (list : List TorFile) (r : Row) : Prop :=
  checkRequest dir r.href = 1 ∧
    match r.fileType with
    | .file => ∃ torrentName filePath, route dir r.href = .file torrentName filePath ∧
        torrentName ++ slash :: filePath = r.baseurl ++ r.filename
    | .directory => route dir r.href = .index (r.baseurl ++ r.filename) ∧
        (generateIndex (indexPath (r.baseurl ++ r.filename)) list).rows ≠ []

/-- **Every link of every index page of the torrent works.** -/
def LinksWork (dir : TorrentDir) (name : Bytes) (list : List TorFile) : Prop :=
  ∀ url path, route dir url = .index path → firstComponent path = name →
    ∀ r ∈ (generateIndex (indexPath path) list).rows, r.Works dir list

/-- A path inside the torrent: behind its name, components that name something. -/
def InTorrent (name path : Bytes) : Prop :=
  ∃ comps, comps ≠ [] ∧ (∀ c ∈ comps, Named c ∧ slash ∉ c) ∧ path = joined (name :: comps)

/-- **The list of a torrent under its own name**, as libtorrent makes it: files with the name
of the torrent, as a single file has it, or inside it. -/
structure OwnNames (name : Bytes) (list : List TorFile) : Prop where
  /-- The name is one component. -/
  slash_notMem : slash ∉ name
  /-- It is not empty. -/
  ne_nil : name ≠ []
  /-- It is a C string, being the name of a file in `TORRENT_LOCATION`. -/
  text : (0 : UInt8) ∉ name
  /-- The paths of the files. -/
  names : ∀ row ∈ list, row.name = name ∨ InTorrent name row.name

/-! ### The condition -/

/-- The entries that index pages list: all but the first, unless there is only one. -/
def listed : List TorFile → List TorFile
  | [row] => [row]
  | list => list.tail

/-- **The condition**: the torrent is no single file; no name that is listed has a NUL in it; and
no name inside the torrent is that of a directory that is listed. -/
structure Browsable (name : Bytes) (list : List TorFile) : Prop where
  /-- The torrent is no single file. -/
  inside : ∀ row, list = [row] → row.name ≠ name
  /-- No listed name has a NUL in it. -/
  text : ∀ row ∈ listed list, (0 : UInt8) ∉ row.name
  /-- No file has the name of a directory of a listed file. -/
  distinct : ∀ row ∈ list, row.name ≠ name →
    ∀ row' ∈ list.tail, ¬ row.name ++ [slash] <+: row'.name

section Torrent

variable {dir : TorrentDir} {name path file d : Bytes} {list : List TorFile} {row : TorFile}
  {r : Row}

/-! ### Links that work -/

/-- A link that is a C string is read as it was sent. -/
theorem urlPath_link (htext : (0 : UInt8) ∉ path) (hne : path ≠ []) :
    urlPath (slash :: path) = path ∧ checkRequestName (slash :: path) = firstComponent path := by
  have hcstr : cstr ((slash :: path).drop 1) = path := cstr_of_notMem htext
  refine ⟨?_, by rw [checkRequestName, hcstr]⟩
  rw [urlPath, hcstr, if_neg]
  exact fun h => hne (List.eq_nil_of_length_eq_zero h)

/-- A torrent that lists a file is a regular file. -/
theorem exists_file_of_gettor (hlist : gettor dir name = some list) (hne : list ≠ []) :
    ∃ f, dir.entry name = some (.file f) := by
  obtain ⟨f, -, -, hf, -, -⟩ := (gettor_cases hlist).resolve_left hne
  exact ⟨f, hf⟩

/-- Requests for what lies in the torrent are accepted. -/
theorem checkRequest_link (hlist : gettor dir name = some list) (hrow : row ∈ list)
    (htext : (0 : UInt8) ∉ path) (hne : path ≠ []) (hfirst : firstComponent path = name) :
    checkRequest dir (slash :: path) = 1 := by
  obtain ⟨f, hf⟩ := exists_file_of_gettor hlist (List.ne_nil_of_mem hrow)
  rw [checkRequest, (urlPath_link htext hne).2, hfirst, hf]

theorem InTorrent.exists_eq (h : InTorrent name path) : ∃ file, path = name ++ slash :: file := by
  obtain ⟨comps, hne, -, rfl⟩ := h
  exact ⟨_, joined_cons hne name⟩

namespace OwnNames

variable (hown : OwnNames name list)
include hown

/-- A path inside the torrent is read as such. -/
theorem link_of_slash (hlist : gettor dir name = some list) (hrow : row ∈ list)
    (htext : (0 : UInt8) ∉ name ++ slash :: file) :
    checkRequest dir (slash :: (name ++ slash :: file)) = 1 ∧
      route dir (slash :: (name ++ slash :: file)) =
        if ∃ row ∈ list, row.name = name ++ slash :: file then .file name file
        else .index (name ++ slash :: file) := by
  have hne : name ++ slash :: file ≠ [] := by simp
  have hpath := (urlPath_link htext hne).1
  have hroute := route_of_slash hpath hown.slash_notMem hown.ne_nil hlist
  rw [hpath] at hroute
  exact ⟨checkRequest_link hlist hrow htext hne (firstComponent_append hown.slash_notMem file),
    hroute⟩

/-- **The link to a file of the torrent works.** -/
theorem file_works (hlist : gettor dir name = some list) (hrow : row ∈ list)
    (hne : row.name ≠ name) (htext : (0 : UInt8) ∉ row.name) (htype : r.fileType = .file)
    (hr : row.name = r.baseurl ++ r.filename) : r.Works dir list := by
  obtain ⟨file, hfile⟩ := ((hown.names row hrow).resolve_left hne).exists_eq
  obtain ⟨hcheck, hroute⟩ := hown.link_of_slash hlist hrow (hfile ▸ htext)
  rw [if_pos ⟨row, hrow, hfile⟩] at hroute
  rw [Row.Works, htype, Row.href, ← hr, hfile]
  exact ⟨hcheck, name, file, hroute, rfl⟩

end OwnNames

/-- A page of several files lists all but the first of them. -/
theorem rows_of_mem_tail (hrow : row ∈ list.tail) (tp : Bytes) :
    (generateIndex tp list).rows = generateRows tp [] list.tail ∧ row ∈ list ∧
      row ∈ listed list := by
  rcases list with _ | ⟨first, _ | ⟨second, list⟩⟩
  · cases hrow
  · cases hrow
  · exact ⟨rfl, List.mem_cons_of_mem first hrow, hrow⟩

/-- A path that is listed has a slash at its end. -/
theorem slash_mem_indexPath (path : Bytes) : slash ∈ indexPath path := by
  rw [indexPath]
  split
  · rename_i hlast
    exact List.mem_of_getLast? hlast
  · simp

/-- The path of a page that has a row starts with the name of the torrent and a slash. -/
theorem exists_append_of_indexPath (hslash : slash ∉ name) {rest : Bytes}
    (h : indexPath path ++ rest = name ++ slash :: file) :
    ∃ dirs, indexPath path = name ++ slash :: dirs := by
  obtain ⟨front, dirs, hfront, hno⟩ := exists_split (slash_mem_indexPath path)
  have hfirst := congrArg firstComponent h
  rw [hfront, List.append_assoc, List.cons_append, firstComponent_append hno,
    firstComponent_append hslash] at hfirst
  exact ⟨dirs, hfirst ▸ hfront⟩

/-- A path that ends in a name is listed with a slash behind it. -/
theorem indexPath_append (hslash : slash ∉ file) (hne : file ≠ []) (base : Bytes) :
    indexPath (base ++ file) = base ++ file ++ [slash] := by
  refine if_neg fun hlast => hslash ?_
  rw [List.getLast?_append_of_ne_nil _ hne] at hlast
  exact List.mem_of_getLast? hlast

/-- **The link to a subdirectory works.** -/
theorem OwnNames.directory_works (hown : OwnNames name list) (hbrowse : Browsable name list)
    (hlist : gettor dir name = some list) (hrow : row ∈ list.tail) {more : Bytes}
    (hbase : r.baseurl = indexPath path) (htype : r.fileType = .directory)
    (hslash : slash ∉ r.filename) (hne : r.filename ≠ [])
    (hname : row.name = r.baseurl ++ r.filename ++ slash :: more) : r.Works dir list := by
  obtain ⟨hrows, hmem, hlisted⟩ := rows_of_mem_tail hrow (indexPath (r.baseurl ++ r.filename))
  have hnot : row.name ≠ name := fun heq => hown.slash_notMem (by rw [← heq, hname]; simp)
  obtain ⟨file, hfile⟩ := ((hown.names row hmem).resolve_left hnot).exists_eq
  have hfront : indexPath path ++ (r.filename ++ slash :: more) = name ++ slash :: file := by
    rw [← hfile, hname, hbase, List.append_assoc]
  obtain ⟨dirs, hdirs⟩ := exists_append_of_indexPath hown.slash_notMem hfront
  have hsub : r.baseurl ++ r.filename = name ++ slash :: (dirs ++ r.filename) := by
    rw [hbase, hdirs, List.append_assoc, List.cons_append]
  have hpre : r.baseurl ++ r.filename ++ [slash] <+: row.name := ⟨more, by rw [hname]; simp⟩
  have htext : (0 : UInt8) ∉ r.baseurl ++ r.filename := fun hzero =>
    hbrowse.text row hlisted (hpre.subset (List.mem_append_left _ hzero))
  obtain ⟨hcheck, hroute⟩ := hown.link_of_slash hlist hmem (hsub ▸ htext)
  rw [if_neg] at hroute
  · rw [Row.Works, htype, Row.href, hsub]
    refine ⟨hcheck, hroute, ?_⟩
    rw [← hsub, hrows, indexPath_append hslash hne]
    exact generateRows_ne_nil hrow hpre
  · rintro ⟨row', hrow', heq⟩
    have hnot' : row'.name ≠ name := fun h => hown.slash_notMem (by rw [← h, heq]; simp)
    exact hbrowse.distinct row' hrow' hnot' row hrow (by rwa [heq, ← hsub])

/-- **The condition suffices.** -/
theorem linksWork_of_browsable (hlist : gettor dir name = some list) (hown : OwnNames name list)
    (hbrowse : Browsable name list) : LinksWork dir name list := by
  intro url path _ _ r hr
  rcases list with _ | ⟨first, _ | ⟨second, list⟩⟩
  · cases hr
  · obtain rfl := List.mem_singleton.mp hr
    exact hown.file_works hlist List.mem_cons_self (hbrowse.inside first rfl)
      (hbrowse.text first List.mem_cons_self) rfl rfl
  · obtain ⟨hbase, row, hrow, ⟨htype, hname⟩ | ⟨htype, hslash, hne, more, hname⟩⟩ :=
      mem_generateRows hr
    · have hnot : row.name ≠ name := fun heq =>
        hown.slash_notMem (by rw [← heq, hname]; simp [slash_mem_indexPath])
      exact hown.file_works hlist (List.mem_cons_of_mem first hrow) hnot (hbrowse.text row hrow)
        htype (by rw [hname, hbase])
    · exact hown.directory_works hbrowse hlist hrow hbase htype hslash hne (by rw [hname, hbase])

/-! ### What working links need -/

/-- The page of the torrent itself. -/
theorem OwnNames.route_name (hown : OwnNames name list) (hlist : gettor dir name = some list)
    (hne : list ≠ []) : route dir (slash :: name) = .index name := by
  obtain ⟨f, hf⟩ := exists_file_of_gettor hlist hne
  have hpath := (urlPath_link hown.text hown.ne_nil).1
  have hslash : slash ∉ urlPath (slash :: name) := by
    rw [hpath]
    exact hown.slash_notMem
  rw [← hpath] at hf
  rw [route_of_isReg hslash hf rfl, hpath]

/-- **A link that works is a C string.** -/
theorem Row.Works.text (h : r.Works dir list) : (0 : UInt8) ∉ r.baseurl ++ r.filename := by
  obtain ⟨-, h⟩ := h
  split at h
  · obtain ⟨torrentName, filePath, hroute, heq⟩ := h
    rw [← heq, (eq_of_route_file hroute).1]
    exact zero_notMem_urlPath r.href
  · rw [eq_of_route_index h.1]
    exact zero_notMem_urlPath r.href

/-- A page is listed under the components of its directory. -/
theorem indexPath_joined {comps : List Bytes} (hne : comps ≠ [])
    (hcomps : ∀ c ∈ comps, c ≠ [] ∧ slash ∉ c) : indexPath (joined comps) = dirText comps := by
  obtain ⟨dirs, c, rfl⟩ := (List.eq_nil_or_concat' comps).resolve_left hne
  obtain ⟨hc, hslash⟩ := hcomps c (by simp)
  rw [← joined_append_slash hne, joined_append (by simp), joined_singleton,
    indexPath_append hslash hc]

theorem firstComponent_joined (hslash : slash ∉ name) (comps : List Bytes) :
    firstComponent (joined (name :: comps)) = name := by
  rcases eq_or_ne comps [] with rfl | hne
  · rw [joined_singleton, firstComponent_of_notMem hslash]
  · rw [joined_cons hne, firstComponent_append hslash]

section Needs

variable (hlist : gettor dir name = some list) (hown : OwnNames name list)
  (hworks : LinksWork dir name list) {pre post : List Bytes}
include hlist hown hworks

/-- The rows of the page of a directory work. -/
theorem works_of_route (hrow : row ∈ list.tail) (hpre : ∀ c ∈ pre, Named c ∧ slash ∉ c)
    (hroute : route dir (slash :: joined (name :: pre)) = .index (joined (name :: pre)))
    (hr : r ∈ generateRows (dirText (name :: pre)) [] list.tail) : r.Works dir list := by
  refine hworks _ _ hroute (firstComponent_joined hown.slash_notMem pre) r ?_
  rw [indexPath_joined (by simp), (rows_of_mem_tail hrow _).1]
  · exact hr
  · intro c hc
    rcases List.mem_cons.mp hc with rfl | hc
    · exact ⟨hown.ne_nil, hown.slash_notMem⟩
    · exact ⟨(hpre c hc).1.1, (hpre c hc).2⟩

/-- **Every directory of a listed file has a page**: the links lead to it, one component
after the other. -/
theorem route_of_linksWork (hrow : row ∈ list.tail)
    (hname : row.name = joined (name :: (pre ++ post))) (hpost : post ≠ [])
    (hcomps : ∀ c ∈ pre ++ post, Named c ∧ slash ∉ c) :
    route dir (slash :: joined (name :: pre)) = .index (joined (name :: pre)) := by
  induction pre using List.reverseRecOn generalizing post with
  | nil =>
    rw [joined_singleton]
    exact hown.route_name hlist (List.ne_nil_of_mem (rows_of_mem_tail hrow []).2.1)
  | append_singleton pre c ih =>
    rw [List.append_assoc, List.singleton_append] at hname hcomps
    obtain ⟨hc, hslash⟩ := hcomps c (by simp)
    have hroute := ih hname (by simp) hcomps
    have hsub : row.name = dirText (name :: pre) ++ c ++ slash :: joined post := by
      rw [hname, ← List.cons_append, joined_append (by simp), joined_cons hpost, List.append_assoc]
    rcases directory_mem_generateRows hrow hsub hslash hc.1 with hr | hprev
    swap
    · exact absurd hprev hc.1.symm
    have hwork := works_of_route hlist hown hworks hrow
      (fun c' hc' => hcomps c' (List.mem_append_left _ hc')) hroute hr
    rw [← List.cons_append, joined_append (by simp), joined_singleton]
    exact hwork.2.1

/-- The torrent is no single file: the only row of its page would lead back to the page. -/
theorem ne_of_linksWork (hone : list = [row]) : row.name ≠ name := by
  intro heq
  subst hone
  have hroute := hown.route_name hlist (by simp)
  obtain ⟨-, torrentName, filePath, hfile, -⟩ := hworks _ _ hroute
    (firstComponent_of_notMem hown.slash_notMem) _ List.mem_cons_self
  rw [Row.href, List.nil_append, heq, hroute] at hfile
  cases hfile

/-- The names that are listed are C strings, as the links to them are. -/
theorem text_of_linksWork (hrow : row ∈ listed list) : (0 : UInt8) ∉ row.name := by
  rcases list with _ | ⟨first, _ | ⟨second, list⟩⟩
  · cases hrow
  · obtain rfl := List.mem_singleton.mp hrow
    exact (hworks _ _ (hown.route_name hlist (by simp))
      (firstComponent_of_notMem hown.slash_notMem) _ List.mem_cons_self).text
  · rcases hown.names row (List.mem_cons_of_mem first hrow) with hname | ⟨comps, hne, hcomps, hname⟩
    · rw [hname]
      exact hown.text
    obtain ⟨pre, c, rfl⟩ := (List.eq_nil_or_concat' comps).resolve_left hne
    have hsub : row.name = dirText (name :: pre) ++ c := by
      rw [hname, ← List.cons_append, joined_append (by simp), joined_singleton]
    have hroute := route_of_linksWork hlist hown hworks hrow hname (by simp) hcomps
    have hwork := works_of_route hlist hown hworks hrow
      (fun c' hc' => hcomps c' (List.mem_append_left _ hc')) hroute
      (file_mem_generateRows hrow hsub (hcomps c (by simp)).2)
    rw [hsub]
    exact hwork.text

/-- **The condition is necessary.** -/
theorem browsable_of_linksWork : Browsable name list := by
  refine ⟨fun row => ne_of_linksWork hlist hown hworks,
    fun row => text_of_linksWork hlist hown hworks, ?_⟩
  rintro row hrow hnot row' hrow' ⟨more, hmore⟩
  -- the file has the name of a directory, which has a page; but the file would be fetched
  have hnot' : row'.name ≠ name := fun heq => hown.slash_notMem (by rw [← heq, ← hmore]; simp)
  obtain ⟨pre, hpre, hprecomps, hname⟩ := (hown.names row hrow).resolve_left hnot
  obtain ⟨comps, hne, hcomps, hname'⟩ :=
    (hown.names row' (rows_of_mem_tail hrow' []).2.1).resolve_left hnot'
  have hslash : ∀ {cs : List Bytes}, (∀ c ∈ cs, Named c ∧ slash ∉ c) →
      ∀ c ∈ name :: cs, slash ∉ c := by
    intro cs hcs c hc
    rcases List.mem_cons.mp hc with rfl | hc
    · exact hown.slash_notMem
    · exact (hcs c hc).2
  have hsplit : comps = pre ++ components more := by
    have heq := congrArg components hmore
    rw [List.append_assoc, List.singleton_append, components_append, hname, hname',
      components_joined (hslash hprecomps) (by simp), components_joined (hslash hcomps) (by simp),
      List.cons_append] at heq
    exact (List.cons.inj heq).2.symm
  subst hsplit
  have hroute := route_of_linksWork hlist hown hworks hrow' hname' (components_ne_nil more) hcomps
  have htext : (0 : UInt8) ∉ joined (name :: pre) := by
    rw [eq_of_route_index hroute]
    exact zero_notMem_urlPath _
  rw [joined_cons hpre] at hroute htext hname
  rw [(hown.link_of_slash hlist hrow htext).2, if_pos ⟨row, hrow, hname⟩] at hroute
  cases hroute

end Needs

end Torrent

/-! ### The theorem -/

/-- **Every link of every index page works exactly if** the torrent is no single file, no
listed name has a NUL in it, and no file inside has the name of a listed directory. -/
theorem linksWork_iff {dir : TorrentDir} {name : Bytes} {list : List TorFile}
    (hlist : gettor dir name = some list) (hown : OwnNames name list) :
    LinksWork dir name list ↔ Browsable name list :=
  ⟨browsable_of_linksWork hlist hown, linksWork_of_browsable hlist hown⟩

/-- The directory with one torrent, `n`, of these paths. -/
def torrentN (paths : List Bytes) : TorrentDir :=
  .ofList [(ascii "n", .listing 0 (paths.map fun path => .plain path 1))]

/-- A file beside a subdirectory. -/
theorem linksWork_of_subdirectory :
    LinksWork (torrentN [ascii "n/a", ascii "n/d/b"]) (ascii "n")
      (torList [] [.plain (ascii "n/a") 1, .plain (ascii "n/d/b") 1]) := by
  have hown : OwnNames (ascii "n")
      (torList [] [.plain (ascii "n/a") 1, .plain (ascii "n/d/b") 1]) := by
    refine ⟨by decide, by decide, by decide, ?_⟩
    rintro row hrow
    rcases List.mem_cons.mp hrow with rfl | hrow
    · exact Or.inr ⟨[ascii "a"], by decide, by decide, by decide⟩
    · obtain rfl := List.mem_singleton.mp hrow
      exact Or.inr ⟨[ascii "d", ascii "b"], by decide, by decide, by decide⟩
  exact (linksWork_iff rfl hown).mpr ⟨by rintro _ ⟨⟩, by decide, by decide⟩

/-- **The page of a torrent that is a single file does not link it**: the link leads back to
the page. -/
theorem link_back : ∃ list, gettor (torrentN [ascii "n"]) (ascii "n") = some list ∧
    OwnNames (ascii "n") list ∧ ¬ LinksWork (torrentN [ascii "n"]) (ascii "n") list := by
  refine ⟨torList [] [.plain (ascii "n") 1], rfl, ⟨by decide, by decide, by decide, ?_⟩, ?_⟩
  · intro row hrow
    obtain rfl := List.mem_singleton.mp hrow
    exact Or.inl rfl
  · intro hworks
    have hroute : route (torrentN [ascii "n"]) (ascii "/n") = .index (ascii "n") := by decide
    obtain ⟨-, torrentName, filePath, hfile, -⟩ :=
      hworks (ascii "/n") (ascii "n") hroute (by decide) _ List.mem_cons_self
    cases hroute.symm.trans hfile

end InstantMirror
