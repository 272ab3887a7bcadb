import InstantMirror.Lib.Collapse
import InstantMirror.Lib.Path
import InstantMirror.Libtorrent.CreateTorrent
import InstantMirror.Libtorrent.TorrentInfo
import InstantMirror.TorrentIndex

/-!
# The rows of an index page

The loop of `generateIndex` does two things at once. It takes each entry of the list to the
row it asks for, if it lies below the path that is listed (`InstantMirror.rowOf`); and it
leaves out a directory that it has listed last. The second is the loop of
`InstantMirror.collapse`, and `InstantMirror.generateRows_eq` takes the two apart. Three
questions about a page are then questions about one of the parts:

* is each row there for an entry? It is (`InstantMirror.index_sound`): the rows stand, in
  the order of the list, for entries below the path;
* has each entry its row? All but the first, where the loop does not begin
  (`InstantMirror.indexComplete_iff`);
* is there one row for each child of the directory? Only if no subdirectory comes back
  after another one, as it does in the order that `file_storage::optimize` leaves
  (`InstantMirror.rowsOnce_iff`).
-/

namespace InstantMirror

/-! ### The loop in two parts -/

/-- **The row that an entry asks for**, in the page of this path. -/
def rowOf (torrentPath : Bytes) (row : TorFile) : Option Row :=
  if findStr torrentPath row.name ≠ 0 then none
  else
    let localstr := row.name.drop torrentPath.length
    if find localstr slash > 0 then
      some ⟨.directory, torrentPath, substrTo localstr (find localstr slash), 0, 0⟩
    else some ⟨.file, torrentPath, localstr, row.mtime, row.size⟩

/-- The directory that is remembered. -/
def Row.directoryName (r : Row) : Option Bytes :=
  match r.fileType with
  | .directory => some r.filename
  | .file => none

/-- **The loop** leaves out repetitions among the rows that are asked for. -/
theorem generateRows_eq (tp previous : Bytes) (list : List TorFile) :
    generateRows tp previous list =
      collapse Row.directoryName previous (list.filterMap (rowOf tp)) := by
  induction list generalizing previous with
  | nil => rfl
  | cons row list ih =>
    rw [generateRows]
    by_cases hfind : findStr tp row.name ≠ 0
    · have hrow : rowOf tp row = none := if_pos hfind
      rw [if_pos hfind, List.filterMap_cons_none hrow, ih]
    rw [if_neg hfind]
    simp only
    by_cases hpos : find (row.name.drop tp.length) slash > 0
    · have hrow : rowOf tp row = some ⟨.directory, tp, substrTo (row.name.drop tp.length)
          (find (row.name.drop tp.length) slash), 0, 0⟩ := by
        rw [rowOf, if_neg hfind]
        exact if_pos hpos
      rw [if_pos hpos, List.filterMap_cons_some hrow, collapse]
      simp only [Row.directoryName, Option.some.injEq, Option.getD_some, ih, eq_comm]
    · have hrow : rowOf tp row =
          some ⟨.file, tp, row.name.drop tp.length, row.mtime, row.size⟩ := by
        rw [rowOf, if_neg hfind]
        exact if_neg hpos
      rw [if_neg hpos, List.filterMap_cons_some hrow, collapse]
      simp only [Row.directoryName, reduceCtorEq, if_false, Option.getD_none, ih]

section Rows

variable {tp previous x more : Bytes} {list : List TorFile} {row : TorFile} {r : Row}

/-- The first component of what is left of a name, if there is more than one. -/
theorem find_local (hx : slash ∉ x) (hx₀ : x ≠ []) (more : Bytes) :
    find (x ++ slash :: more) slash > 0 ∧
      substrTo (x ++ slash :: more) (find (x ++ slash :: more) slash) = x := by
  rw [find_append_cons hx, substrTo_length_append]
  exact ⟨by exact_mod_cast List.length_pos_iff.mpr hx₀, rfl⟩

/-- Only what lies below the path asks for a row. -/
theorem rowOf_eq_none_iff : rowOf tp row = none ↔ ¬ tp <+: row.name := by
  rw [← findStr_eq_zero_iff, rowOf]
  simp only
  split_ifs with hfind hpos <;> simp [hfind]

/-- What lies below the path asks for a row, by what is left of its name. -/
theorem rowOf_of_append {localstr : Bytes} (hname : tp ++ localstr = row.name) :
    rowOf tp row =
      if find localstr slash > 0 then
        some ⟨.directory, tp, substrTo localstr (find localstr slash), 0, 0⟩
      else some ⟨.file, tp, localstr, row.mtime, row.size⟩ := by
  have hlocal : row.name.drop tp.length = localstr := by rw [← hname, List.drop_left]
  rw [rowOf, if_neg (not_not.mpr (findStr_eq_zero_iff.mpr ⟨localstr, hname⟩)), hlocal]

/-- A file of the directory asks for a row of its own. -/
theorem rowOf_of_file (hname : row.name = tp ++ x) (hx : slash ∉ x) :
    rowOf tp row = some ⟨.file, tp, x, row.mtime, row.size⟩ := by
  rw [rowOf_of_append hname.symm, find_of_notMem hx]
  exact if_neg (by omega)

/-- A file further below asks for a row of its subdirectory. -/
theorem rowOf_of_directory (hname : row.name = tp ++ x ++ slash :: more) (hx : slash ∉ x)
    (hx₀ : x ≠ []) : rowOf tp row = some ⟨.directory, tp, x, 0, 0⟩ := by
  have hname' : tp ++ (x ++ slash :: more) = row.name := by rw [hname, List.append_assoc]
  obtain ⟨hpos, hsub⟩ := find_local hx hx₀ more
  rw [rowOf_of_append hname', if_pos hpos, hsub]

/-- **What a row stands for**: a file, or the directory of one. In the name of a file, a slash
could stand only where a component is empty. -/
theorem rowOf_cases (h : rowOf tp row = some r) :
    (r = ⟨.file, tp, r.filename, row.mtime, row.size⟩ ∧ row.name = tp ++ r.filename ∧
        (slash ∉ r.filename ∨ ∃ b, r.filename = slash :: b)) ∨
      (r = ⟨.directory, tp, r.filename, 0, 0⟩ ∧ slash ∉ r.filename ∧ r.filename ≠ [] ∧
        ∃ more, row.name = tp ++ r.filename ++ slash :: more) := by
  obtain ⟨localstr, hname⟩ : tp <+: row.name := by
    by_contra hnot
    rw [rowOf_eq_none_iff.mpr hnot] at h
    cases h
  rcases path_cases localstr with ⟨hno, -⟩ | ⟨b, rfl, hfind⟩ | ⟨a, b, rfl, ha, hne, -⟩
  · rw [rowOf_of_file hname.symm hno] at h
    obtain rfl := Option.some.inj h
    exact Or.inl ⟨rfl, hname.symm, Or.inl hno⟩
  · rw [rowOf_of_append hname, hfind, if_neg (by omega)] at h
    obtain rfl := Option.some.inj h
    exact Or.inl ⟨rfl, hname.symm, Or.inr ⟨b, rfl⟩⟩
  · have hname' : row.name = tp ++ a ++ slash :: b := by rw [← hname, List.append_assoc]
    rw [rowOf_of_directory hname' ha hne] at h
    obtain rfl := Option.some.inj h
    exact Or.inr ⟨rfl, ha, hne, b, hname'⟩

/-- A row of a page is one that some entry asks for. -/
theorem exists_rowOf_of_mem (h : r ∈ generateRows tp previous list) :
    ∃ row ∈ list, rowOf tp row = some r := by
  rw [generateRows_eq] at h
  exact List.mem_filterMap.mp (collapse_sublist.subset h)

/-- **What a row of a page stands for**: a file, or the directory of one. -/
theorem mem_generateRows (h : r ∈ generateRows tp previous list) :
    r.baseurl = tp ∧ ∃ row ∈ list,
      (r.fileType = .file ∧ row.name = tp ++ r.filename) ∨
        (r.fileType = .directory ∧ slash ∉ r.filename ∧ r.filename ≠ [] ∧
          ∃ more, row.name = tp ++ r.filename ++ slash :: more) := by
  obtain ⟨row, hrow, hof⟩ := exists_rowOf_of_mem h
  rcases rowOf_cases hof with ⟨hr, hname, -⟩ | ⟨hr, hx, hx₀, hname⟩
  · exact ⟨by rw [hr], row, hrow, Or.inl ⟨by rw [hr], hname⟩⟩
  · exact ⟨by rw [hr], row, hrow, Or.inr ⟨by rw [hr], hx, hx₀, hname⟩⟩

/-- **Every file of a directory has its row** in the page of the directory. -/
theorem file_mem_generateRows (hrow : row ∈ list) (hname : row.name = tp ++ x) (hx : slash ∉ x) :
    (⟨.file, tp, x, row.mtime, row.size⟩ : Row) ∈ generateRows tp previous list := by
  rw [generateRows_eq]
  exact mem_collapse_of_key_eq_none rfl (List.mem_filterMap.mpr ⟨row, hrow, rowOf_of_file hname hx⟩)

/-- **Every subdirectory has its row**, unless it is the one that was listed last. -/
theorem directory_mem_generateRows (hrow : row ∈ list)
    (hname : row.name = tp ++ x ++ slash :: more) (hx : slash ∉ x) (hx₀ : x ≠ []) :
    (⟨.directory, tp, x, 0, 0⟩ : Row) ∈ generateRows tp previous list ∨ previous = x := by
  by_cases hprev : previous = x
  · exact Or.inr hprev
  have hof := List.mem_filterMap.mpr ⟨row, hrow, rowOf_of_directory hname hx hx₀⟩
  obtain ⟨r, hr, hkey⟩ : ∃ r ∈ collapse Row.directoryName previous (list.filterMap (rowOf tp)),
      r.directoryName = some x := exists_mem_collapse hof rfl (Ne.symm hprev)
  rw [← generateRows_eq] at hr
  -- a row of a directory is determined by its name
  have hrow' : r = ⟨.directory, tp, x, 0, 0⟩ := by
    obtain ⟨row', -, hof'⟩ := exists_rowOf_of_mem hr
    rcases rowOf_cases hof' with ⟨heq, -⟩ | ⟨heq, -⟩ <;> rw [heq] at hkey
    · cases hkey
    · rw [heq, Option.some.inj hkey]
  exact Or.inl (hrow' ▸ hr)

/-- A page with something to list has a row. -/
theorem generateRows_ne_nil (hrow : row ∈ list) (hpre : tp <+: row.name) :
    generateRows tp [] list ≠ [] := by
  obtain ⟨r, hr⟩ : ∃ r, rowOf tp row = some r := by
    rw [← Option.isSome_iff_exists, Option.isSome_iff_ne_none, ne_eq, rowOf_eq_none_iff]
    exact not_not.mpr hpre
  have hmem := List.mem_filterMap.mpr ⟨row, hrow, hr⟩
  rw [generateRows_eq]
  rcases rowOf_cases hr with ⟨heq, -⟩ | ⟨heq, -, hx₀, -⟩
  · refine List.ne_nil_of_mem (mem_collapse_of_key_eq_none ?_ hmem)
    rw [heq]
    rfl
  · have hkey : r.directoryName = some r.filename := by
      rw [heq]
      rfl
    obtain ⟨b, hb, -⟩ := exists_mem_collapse hmem hkey hx₀
    exact List.ne_nil_of_mem hb

/-- A page of several entries is made of all but the first. -/
theorem rows_of_two_le (hlen : 2 ≤ list.length) (tp : Bytes) :
    (generateIndex tp list).rows = generateRows tp [] list.tail := by
  rcases list with _ | ⟨first, _ | ⟨second, list⟩⟩
  · simp at hlen
  · simp at hlen
  · rfl

end Rows

/-! ### Each row is there for an entry -/

/-- **A row stands for an entry**: a file of the directory, with its time and size, or something
in the subdirectory. -/
def Row.StandsFor (torrentPath : Bytes) (r : Row) (row : TorFile) : Prop :=
  slash ∉ r.filename ∧
    match r.fileType with
    | .file => torrentPath ++ r.filename = row.name ∧ r.mtime = row.mtime ∧ r.size = row.size
    | .directory => torrentPath ++ r.filename ++ [slash] <+: row.name

/-- **The index is sound**: the rows stand for entries, in the order of the list; and they are the
rows of the entries that lie below the path. -/
def IndexSound (torrentPath : Bytes) (list : List TorFile) : Prop :=
  List.SublistForall₂ (Row.StandsFor torrentPath) (generateIndex torrentPath list).rows list ∧
    (generateIndex torrentPath list).rows =
      generateRows torrentPath [] (list.tail.filter (torrentPath.isPrefixOf ·.name))

section Sound

variable {tp path : Bytes} {list : List TorFile} {row : TorFile} {r : Row}

theorem exists_indexPath_eq (path : Bytes) : ∃ u, indexPath path = u ++ [slash] := by
  rw [indexPath]
  split
  · rename_i hlast
    obtain ⟨u, hu⟩ := List.getLast?_eq_some_iff.mp hlast
    exact ⟨u, hu⟩
  · exact ⟨path, rfl⟩

/-- Where no component is empty, no slash follows the path. -/
theorem ne_slash_of_components (hnames : ∀ c ∈ components row.name, c ≠ []) (b : Bytes) :
    row.name ≠ indexPath path ++ slash :: b := by
  intro hname
  obtain ⟨u, hu⟩ := exists_indexPath_eq path
  refine hnames [] ?_ rfl
  have hempty : components (slash :: b) = [] :: components b := components_append [] b
  rw [hname, hu, List.append_assoc, List.singleton_append, components_append, hempty]
  simp

theorem standsFor_of_rowOf (hnames : ∀ c ∈ components row.name, c ≠ [])
    (h : rowOf (indexPath path) row = some r) : r.StandsFor (indexPath path) row := by
  rcases rowOf_cases h with ⟨hr, hname, hslash⟩ | ⟨hr, hslash, -, more, hname⟩
  · have hno : slash ∉ r.filename := by
      rcases hslash with hno | ⟨b, hb⟩
      · exact hno
      · exact absurd (hb ▸ hname) (ne_slash_of_components hnames b)
    refine ⟨hno, ?_⟩
    rw [hr]
    exact ⟨hname.symm, rfl, rfl⟩
  · refine ⟨hslash, ?_⟩
    rw [hr]
    exact ⟨more, by rw [hname]; simp⟩

/-- Entries that do not lie below the path change nothing. -/
theorem generateRows_filter (tp previous : Bytes) (list : List TorFile) :
    generateRows tp previous (list.filter (tp.isPrefixOf ·.name)) =
      generateRows tp previous list := by
  rw [generateRows_eq, generateRows_eq, List.filterMap_filter]
  congr 2
  funext row
  split_ifs with hpre
  · rfl
  · exact (rowOf_eq_none_iff.mpr (by simpa using hpre)).symm

/-- **The index is sound**, for every list of at least two entries without empty components, and
every path. -/
theorem index_sound (path : Bytes) {list : List TorFile} (hlen : 2 ≤ list.length)
    (hnames : ∀ row ∈ list, ∀ c ∈ components row.name, c ≠ []) :
    IndexSound (indexPath path) list := by
  rw [IndexSound, rows_of_two_le hlen, generateRows_filter]
  refine ⟨?_, rfl⟩
  have hsub : (generateRows (indexPath path) [] list.tail).Sublist
      (list.filterMap (rowOf (indexPath path))) := by
    rw [generateRows_eq]
    exact collapse_sublist.trans ((List.tail_sublist list).filterMap _)
  obtain ⟨entries, hentries, hrows⟩ := exists_sublist_of_filterMap hsub
  have hof : List.Forall₂ (fun row r => rowOf (indexPath path) row = some r) entries
      (generateRows (indexPath path) [] list.tail) := by
    have heq := List.forall₂_eq_eq_eq.symm ▸ hrows
    rwa [List.forall₂_map_left_iff, List.forall₂_map_right_iff] at heq
  have hmem := (List.forall₂_and_left _ _).mpr
    ⟨fun row hrow => hnames row (hentries.subset hrow), hof⟩
  exact List.sublistForall₂_iff.mpr ⟨entries,
    (hmem.imp fun row r h => standsFor_of_rowOf h.1 h.2).flip, hentries⟩

/-- The torrent that comes with the sources, and the page of its subdirectory: the file beside
it begins with the name of the subdirectory, and is not listed. -/
theorem index_sound_another :
    IndexSound (ascii "test/another/")
      (torList [] [.plain (ascii "test/a") 1, .plain (ascii "test/another2") 2,
        .plain (ascii "test/another/b") 3]) :=
  index_sound (ascii "test/another") (by decide) (by decide)

end Sound

/-! ### Each entry has its row -/

/-- **The index is complete**: every file of the directory has its row, and so has every
subdirectory with a file anywhere below it. -/
structure IndexComplete (torrentPath : Bytes) (list : List TorFile) : Prop where
  /-- The files. -/
  files : ∀ row ∈ list, ∀ x, slash ∉ x → row.name = torrentPath ++ x →
    ∃ r ∈ (generateIndex torrentPath list).rows, r.fileType = .file ∧ r.filename = x
  /-- The subdirectories. -/
  directories : ∀ row ∈ list, ∀ d, slash ∉ d → d ≠ [] →
    torrentPath ++ d ++ [slash] <+: row.name →
    ∃ r ∈ (generateIndex torrentPath list).rows, r.fileType = .directory ∧ r.filename = d

/-- **The condition**: the first entry is no file of the directory, and if it lies in a
subdirectory, so does another one. -/
structure FirstCovered (torrentPath : Bytes) (first : TorFile) (rest : List TorFile) : Prop where
  /-- It is no file of the directory. -/
  files : ∀ x, first.name = torrentPath ++ x → slash ∈ x
  /-- Its subdirectory has another file. -/
  directories : ∀ d, slash ∉ d → d ≠ [] → torrentPath ++ d ++ [slash] <+: first.name →
    ∃ row ∈ rest, torrentPath ++ d ++ [slash] <+: row.name

section Complete

variable {tp d : Bytes} {first : TorFile} {rest : List TorFile}

/-- A subdirectory has a row if an entry of the loop lies in it. -/
theorem directory_row_iff (hd : slash ∉ d) (hd₀ : d ≠ []) :
    (∃ r ∈ generateRows tp [] rest, r.fileType = .directory ∧ r.filename = d) ↔
      ∃ row ∈ rest, tp ++ d ++ [slash] <+: row.name := by
  constructor
  · rintro ⟨r, hr, htype, rfl⟩
    obtain ⟨-, row, hrow, ⟨hfile, -⟩ | ⟨-, -, -, more, hname⟩⟩ := mem_generateRows hr
    · rw [htype] at hfile
      cases hfile
    · exact ⟨row, hrow, more, by rw [hname]; simp⟩
  · rintro ⟨row, hrow, more, hmore⟩
    have hname : row.name = tp ++ d ++ slash :: more := by rw [← hmore]; simp
    rcases directory_mem_generateRows hrow hname hd hd₀ with hr | hprev
    · exact ⟨_, hr, rfl, rfl⟩
    · exact absurd hprev.symm hd₀

/-- **A page is complete exactly if nothing is lost with the first entry.** -/
theorem indexComplete_iff (path : Bytes) {first : TorFile} {rest : List TorFile}
    (hlen : rest ≠ []) (hdistinct : ((first :: rest).map TorFile.name).Nodup) :
    IndexComplete (indexPath path) (first :: rest) ↔ FirstCovered (indexPath path) first rest := by
  have hrows : (generateIndex (indexPath path) (first :: rest)).rows =
      generateRows (indexPath path) [] rest :=
    rows_of_two_le (by simpa [Nat.one_le_iff_ne_zero] using hlen) _
  constructor
  · rintro ⟨hfiles, hdirs⟩
    rw [hrows] at hfiles hdirs
    refine ⟨fun x hname => ?_, fun d hd hd₀ hpre => ?_⟩
    · by_contra hx
      obtain ⟨r, hr, htype, rfl⟩ := hfiles first (by simp) x hx hname
      obtain ⟨-, row, hrow, ⟨-, hname'⟩ | ⟨hdir, -⟩⟩ := mem_generateRows hr
      · -- the row would be that of another entry with the same name
        have hmem := List.mem_map_of_mem (f := TorFile.name) hrow
        rw [hname', ← hname] at hmem
        exact (List.nodup_cons.mp hdistinct).1 hmem
      · rw [htype] at hdir
        cases hdir
    · exact (directory_row_iff hd hd₀).mp (hdirs first (by simp) d hd hd₀ hpre)
  · rintro ⟨hfiles, hdirs⟩
    constructor <;> rw [hrows]
    · intro row hrow x hx hname
      rcases List.mem_cons.mp hrow with rfl | hrow
      · exact absurd (hfiles x hname) hx
      · exact ⟨_, file_mem_generateRows hrow hname hx, rfl, rfl⟩
    · intro row hrow d hd hd₀ hpre
      rw [directory_row_iff hd hd₀]
      rcases List.mem_cons.mp hrow with rfl | hrow
      · exact hdirs d hd hd₀ hpre
      · exact ⟨row, hrow, hpre⟩

/-- Two files of one subdirectory, of which the first is not looked at. -/
theorem indexComplete_of_shared :
    IndexComplete (ascii "n/")
      (torList [] [.plain (ascii "n/d/a") 1, .plain (ascii "n/d/b") 1]) := by
  refine (indexComplete_iff (ascii "n") (by simp [torList]) (by decide)).mpr ⟨fun x hname => ?_, ?_⟩
  · have hname' : ascii "n/" ++ ascii "d/a" = ascii "n/" ++ x := hname
    obtain rfl := List.append_cancel_left hname'
    decide
  · rintro d hd - ⟨more, hmore⟩
    have hsplit : d ++ slash :: more = ascii "d" ++ slash :: ascii "a" := by
      have hall : ascii "n/" ++ (d ++ slash :: more) =
          ascii "n/" ++ (ascii "d" ++ slash :: ascii "a") := by
        calc ascii "n/" ++ (d ++ slash :: more) = ascii "n/" ++ d ++ [slash] ++ more := by simp
          _ = ascii "n/" ++ (ascii "d" ++ slash :: ascii "a") := hmore
      exact List.append_cancel_left hall
    have hcomps := congrArg components hsplit
    rw [components_append_slash hd] at hcomps
    obtain rfl : d = ascii "d" := (List.cons.inj hcomps).1
    exact ⟨_, List.mem_cons_self, by decide⟩

/-- **The first file of a directory is lost.** -/
theorem first_lost :
    ((torList [] [.plain (ascii "n/a") 1, .plain (ascii "n/b") 1]).map TorFile.name).Nodup ∧
      ¬ IndexComplete (ascii "n/")
        (torList [] [.plain (ascii "n/a") 1, .plain (ascii "n/b") 1]) := by
  refine ⟨by decide, fun h => ?_⟩
  obtain ⟨r, hr, -, hname⟩ := h.files _ List.mem_cons_self (ascii "a") (by decide) (by decide)
  obtain rfl := List.mem_singleton.mp hr
  exact absurd hname (by decide)

end Complete

/-! ### One row for each child -/

/-- **There is one row for each child of the directory**: no two rows are for a file of the same
name, or for a directory of the same name. -/
def RowsOnce (torrentPath : Bytes) (list : List TorFile) : Prop :=
  (generateIndex torrentPath list).rows.Pairwise fun r r' =>
    ¬ (r.fileType = r'.fileType ∧ r.filename = r'.filename)

/-- No two rows have the same name, be it of a file or of a directory. -/
def NamesOnce (torrentPath : Bytes) (list : List TorFile) : Prop :=
  (generateIndex torrentPath list).rows.Pairwise fun r r' => r.filename ≠ r'.filename

/-- The entry lies in this subdirectory of the path. -/
def InDirectory (torrentPath d : Bytes) (row : TorFile) : Prop :=
  slash ∉ d ∧ d ≠ [] ∧ torrentPath ++ d ++ [slash] <+: row.name

/-- **The condition**: no subdirectory comes back after another one. The first entry, which is
not looked at, may lie anywhere. -/
def NoReturn (torrentPath : Bytes) (list : List TorFile) : Prop :=
  ∀ row₁ row₂ row₃ d e, [row₁, row₂, row₃].Sublist list.tail → d ≠ e →
    ¬ (InDirectory torrentPath d row₁ ∧ InDirectory torrentPath e row₂ ∧
      InDirectory torrentPath d row₃)

/-- No file has the name of a subdirectory. -/
def NoTwins (torrentPath : Bytes) (list : List TorFile) : Prop :=
  ∀ row ∈ list.tail, ∀ row' ∈ list.tail, ∀ d, row.name = torrentPath ++ d →
    ¬ InDirectory torrentPath d row'

section Once

variable {tp d : Bytes} {list : List TorFile} {row : TorFile} {r : Row}

/-- An entry in a subdirectory asks for the row of the subdirectory. -/
theorem inDirectory_iff :
    InDirectory tp d row ↔ ∃ r, rowOf tp row = some r ∧ r.directoryName = some d := by
  constructor
  · rintro ⟨hd, hd₀, more, hmore⟩
    have hname : row.name = tp ++ d ++ slash :: more := by rw [← hmore]; simp
    exact ⟨_, rowOf_of_directory hname hd hd₀, rfl⟩
  · rintro ⟨r, hof, hkey⟩
    rcases rowOf_cases hof with ⟨hr, -⟩ | ⟨hr, hd, hd₀, more, hname⟩ <;> rw [hr] at hkey
    · cases hkey
    · obtain rfl := Option.some.inj hkey
      exact ⟨hd, hd₀, more, by rw [hname]; simp⟩

/-- The files have distinct names, and so have their rows. -/
theorem pairwise_files (hdistinct : list.Pairwise fun row row' => row.name ≠ row'.name) :
    (generateRows tp [] list).Pairwise fun r r' =>
      r.fileType = .file → r'.fileType = .file → r.filename ≠ r'.filename := by
  rw [generateRows_eq]
  refine List.Pairwise.sublist collapse_sublist ?_
  rw [List.pairwise_filterMap]
  refine hdistinct.imp fun {row row'} hne r hr r' hr' htype htype' heq => hne ?_
  rcases rowOf_cases hr with ⟨-, hname, -⟩ | ⟨hdir, -⟩
  · rcases rowOf_cases hr' with ⟨-, hname', -⟩ | ⟨hdir, -⟩
    · rw [hname, hname', heq]
    · rw [hdir] at htype'
      cases htype'
  · rw [hdir] at htype
    cases htype

/-- **The directories have one row each exactly if none comes back.** -/
theorem pairwise_directories_iff :
    ((generateRows tp [] list).filterMap Row.directoryName).Nodup ↔
      ∀ row₁ row₂ row₃ d e, [row₁, row₂, row₃].Sublist list → d ≠ e →
        ¬ (InDirectory tp d row₁ ∧ InDirectory tp e row₂ ∧ InDirectory tp d row₃) := by
  have hlast : ∀ r ∈ list.filterMap (rowOf tp), r.directoryName ≠ some [] := by
    intro r hr hkey
    obtain ⟨row, -, hof⟩ := List.mem_filterMap.mp hr
    exact (inDirectory_iff.mpr ⟨r, hof, hkey⟩).2.1 rfl
  rw [generateRows_eq, nodup_collapse_iff hlast]
  simp only [inDirectory_iff]
  constructor
  · rintro h row₁ row₂ row₃ d e hsub hne ⟨⟨a, ha, hka⟩, ⟨b, hb, hkb⟩, ⟨c, hc, hkc⟩⟩
    exact h a b c d e (sublist_filterMap_three.mpr ⟨row₁, row₂, row₃, hsub, ha, hb, hc⟩) hne
      ⟨hka, hkb, hkc⟩
  · rintro h a b c d e hsub hne ⟨hka, hkb, hkc⟩
    obtain ⟨row₁, row₂, row₃, hsub, ha, hb, hc⟩ := sublist_filterMap_three.mp hsub
    exact h row₁ row₂ row₃ d e hsub hne ⟨⟨a, ha, hka⟩, ⟨b, hb, hkb⟩, ⟨c, hc, hkc⟩⟩

/-- Rows of the same kind, by kind. -/
theorem pairwise_kind_iff {rows : List Row} :
    rows.Pairwise (fun r r' => ¬ (r.fileType = r'.fileType ∧ r.filename = r'.filename)) ↔
      rows.Pairwise (fun r r' =>
        r.fileType = .file → r'.fileType = .file → r.filename ≠ r'.filename) ∧
      (rows.filterMap Row.directoryName).Nodup := by
  rw [List.Nodup, List.pairwise_filterMap, ← List.pairwise_and_iff]
  refine List.Pairwise.iff fun r r' => ?_
  simp only [Row.directoryName]
  rcases r.fileType with _ | _ <;> rcases r'.fileType with _ | _ <;> simp

/-- The page of a list, whatever its length, as far as repetitions go. -/
theorem pairwise_rows_iff (P : Row → Row → Prop) :
    (generateIndex tp list).rows.Pairwise P ↔ (generateRows tp [] list.tail).Pairwise P := by
  rcases list with _ | ⟨first, _ | ⟨second, list⟩⟩
  · rfl
  · simp [generateIndex, generateRows]
  · rfl

theorem rowsOnce_iff_noReturn (hdistinct : (list.map TorFile.name).Nodup) :
    RowsOnce tp list ↔ NoReturn tp list := by
  have htail : list.tail.Pairwise fun row row' => row.name ≠ row'.name :=
    (List.pairwise_map.mp hdistinct).sublist (List.tail_sublist list)
  rw [RowsOnce, pairwise_rows_iff, pairwise_kind_iff, and_iff_right (pairwise_files htail),
    pairwise_directories_iff]
  rfl

/-- A file and a directory of the same name are listed both. -/
theorem pairwise_twins_iff :
    (generateRows tp [] list).Pairwise (fun r r' =>
        r.fileType ≠ r'.fileType → r.filename ≠ r'.filename) ↔
      ∀ row ∈ list, ∀ row' ∈ list, ∀ d, row.name = tp ++ d → ¬ InDirectory tp d row' := by
  constructor
  · rintro h row hrow row' hrow' d hname ⟨hd, hd₀, hpre⟩
    have hfile : (⟨.file, tp, d, row.mtime, row.size⟩ : Row) ∈ generateRows tp [] list :=
      file_mem_generateRows hrow hname hd
    obtain ⟨r, hr, htype, hdir⟩ := (directory_row_iff hd hd₀).mpr ⟨row', hrow', hpre⟩
    have hsymm : Std.Symm fun r r' : Row => r.fileType ≠ r'.fileType → r.filename ≠ r'.filename :=
      ⟨fun _ _ hne ht heq => hne ht.symm heq.symm⟩
    have hall := h.forall_of_forall fun _ _ ht => absurd rfl ht
    exact hall hfile hr (by rw [htype]; simp) hdir.symm
  · -- one of the two rows is for a file, the other one for a directory
    intro h
    have hmixed : ∀ r ∈ generateRows tp [] list, ∀ r' ∈ generateRows tp [] list,
        r.fileType = .file → r'.fileType = .directory → r.filename ≠ r'.filename := by
      intro r hr r' hr' htype htype' heq
      obtain ⟨-, row, hrow, ⟨-, hname⟩ | ⟨hdir, -⟩⟩ := mem_generateRows hr
      · obtain ⟨row', hrow', hof⟩ := exists_rowOf_of_mem hr'
        refine h row hrow row' hrow' _ hname (inDirectory_iff.mpr ⟨r', hof, ?_⟩)
        rw [Row.directoryName, htype', heq]
      · rw [htype] at hdir
        cases hdir
    refine List.pairwise_of_forall_mem_list fun r hr r' hr' hne heq => ?_
    rcases htype : r.fileType with _ | _ <;> rcases htype' : r'.fileType with _ | _
    · exact hne (htype.trans htype'.symm)
    · exact hmixed r' hr' r hr htype' htype heq.symm
    · exact hmixed r hr r' hr' htype htype' heq
    · exact hne (htype.trans htype'.symm)

/-- **One row for each child**, exactly if no subdirectory comes back after another one; and no
name twice exactly if moreover no file has the name of a subdirectory. -/
theorem rowsOnce_iff (tp : Bytes) {list : List TorFile}
    (hdistinct : (list.map TorFile.name).Nodup) :
    (RowsOnce tp list ↔ NoReturn tp list) ∧
      (NamesOnce tp list ↔ NoReturn tp list ∧ NoTwins tp list) := by
  refine ⟨rowsOnce_iff_noReturn hdistinct, ?_⟩
  have hboth : NamesOnce tp list ↔ RowsOnce tp list ∧
      (generateIndex tp list).rows.Pairwise (fun r r' =>
        r.fileType ≠ r'.fileType → r.filename ≠ r'.filename) := by
    rw [NamesOnce, RowsOnce, ← List.pairwise_and_iff]
    refine List.Pairwise.iff fun r r' => ?_
    by_cases htype : r.fileType = r'.fileType <;> simp [htype]
  rw [hboth, rowsOnce_iff_noReturn hdistinct, pairwise_rows_iff, pairwise_twins_iff]
  rfl

/-- Four files in two subdirectories, the third one being the largest. -/
def fourFiles : Tree :=
  let file (size : ℕ) (h : size < 0x8000000000000000) : Tree :=
    .regular ⟨0, false, by decide⟩ size h
  .directory
    [(ascii "a", .directory [(ascii "1", file 1 (by decide))]),
      (ascii "b", .directory [(ascii "1", file 1 (by decide)), (ascii "2", file 2 (by decide)),
        (ascii "3", file 1 (by decide))])]

/-- The files of a tree, as `gettor` lists them in the order of the scan. -/
def scanList (name : Bytes) (tree : Tree) : List TorFile :=
  torList [] ((addFiles name tree).files.map StoredFile.fileEntry)

/-- The files of a tree, as `gettor` lists them in the order that `optimize` leaves. -/
def optimizedList (name : Bytes) (tree : Tree) : List TorFile :=
  torList [] ((optimize (addFiles name tree).files).map StoredFile.fileEntry)

/-- In the order of the scan, no subdirectory comes back. -/
theorem noReturn_scan_fourFiles :
    RowsOnce (ascii "n/") (scanList (ascii "n") fourFiles) ∧
      NoReturn (ascii "n/") (scanList (ascii "n") fourFiles) := by
  have honce : RowsOnce (ascii "n/") (scanList (ascii "n") fourFiles) := by
    rw [RowsOnce]
    decide
  exact ⟨honce, (rowsOnce_iff (ascii "n/") (by decide)).1.mp honce⟩

/-- **The optimiser makes a subdirectory come back**: it is listed twice. -/
theorem listed_twice :
    ((optimizedList (ascii "n") fourFiles).map TorFile.name).Nodup ∧
      (generateIndex (ascii "n/") (optimizedList (ascii "n") fourFiles)).rows =
        [⟨.directory, ascii "n/", ascii "b", 0, 0⟩, ⟨.directory, ascii "n/", ascii "a", 0, 0⟩,
          ⟨.directory, ascii "n/", ascii "b", 0, 0⟩] ∧
      ¬ RowsOnce (ascii "n/") (optimizedList (ascii "n") fourFiles) := by
  refine ⟨by decide, by decide, ?_⟩
  rw [RowsOnce]
  decide

end Once

end InstantMirror
