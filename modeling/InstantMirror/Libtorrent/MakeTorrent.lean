import Mathlib.Data.List.Perm.Basic
import InstantMirror.Libtorrent.Metainfo

/-!
# What `make_torrent` makes of a tree

The files of a torrent are the leaves of the tree, in an order in which the largest comes
first (`InstantMirror.exists_perm_of_optimize`), and the torrent is of one of two kinds: a
single file, or the files of a directory (`InstantMirror.Laid`).

What becomes of its bytes depends on the links among the leaves only. Where every target
passed the buffer of the scan, `lazy_bdecode` reads the torrent that was written
(`InstantMirror.Laid.lazyBdecode_generate`), and `torrent_info` finds in it the files as they
were stored (`InstantMirror.Laid.parseTorrentFile_generate`). One target that was lost leaves
a key without a value, and nothing is decoded (`InstantMirror.Laid.lazyBdecode_eq_none`).
-/

namespace InstantMirror

/-! ### What the scan finds -/

mutual

theorem path_of_mem_addFilesImpl : ∀ (tree : Tree) (l : FsPath) (leaf : Leaf),
    leaf ∈ addFilesImpl l tree → ∃ rest, leaf.path = l ++ rest
  | .regular stat size size_lt, l, leaf, h => by
    rw [addFilesImpl] at h
    split at h
    · exact ⟨[], by rw [List.mem_singleton.mp h, List.append_nil]⟩
    · simp at h
  | .symlink stat target, l, leaf, h => by
    rw [addFilesImpl] at h
    split at h
    · exact ⟨[], by rw [List.mem_singleton.mp h, List.append_nil]⟩
    · simp at h
  | .directory children, l, leaf, h => by
    rw [addFilesImpl] at h
    split at h
    · obtain ⟨c, rest, hpath⟩ := path_of_mem_addChildren children l leaf h
      exact ⟨c :: rest, hpath⟩
    · simp at h

/-- What lies in a directory has a longer path. -/
theorem path_of_mem_addChildren : ∀ (children : List (Bytes × Tree)) (l : FsPath) (leaf : Leaf),
    leaf ∈ addChildren l children → ∃ c rest, leaf.path = l ++ c :: rest
  | [], l, leaf, h => by simp [addChildren] at h
  | (c, tree) :: children, l, leaf, h => by
    rw [addChildren, List.mem_append] at h
    rcases h with h | h
    · obtain ⟨rest, hpath⟩ := path_of_mem_addFilesImpl tree (l ++ [c]) leaf h
      exact ⟨c, rest, by rw [hpath, List.append_assoc]; rfl⟩
    · exact path_of_mem_addChildren children l leaf h

end

/-- **A torrent is one file, or what lies in one directory.** -/
theorem addFilesImpl_cases (name : Bytes) (tree : Tree) :
    (∃ leaf, addFilesImpl [name] tree = [leaf] ∧ leaf.path = [name]) ∨
      ∀ leaf ∈ addFilesImpl [name] tree, ∃ c rest, leaf.path = name :: c :: rest := by
  cases tree with
  | regular stat size size_lt =>
    rw [addFilesImpl]
    split
    · exact Or.inl ⟨_, rfl, rfl⟩
    · exact Or.inr (by simp)
  | symlink stat target =>
    rw [addFilesImpl]
    split
    · exact Or.inl ⟨_, rfl, rfl⟩
    · exact Or.inr (by simp)
  | directory children =>
    rw [addFilesImpl]
    split
    · exact Or.inr (path_of_mem_addChildren children [name])
    · exact Or.inr (by simp)

theorem files_foldl_addFile (leaves : List Leaf) (fs : FileStorage) :
    (leaves.foldl FileStorage.addFile fs).files = fs.files ++ leaves.map Leaf.stored := by
  induction leaves generalizing fs with
  | nil => simp
  | cons leaf leaves ih =>
    rw [List.foldl_cons, ih]
    simp [FileStorage.addFile]

theorem name_foldl_addFile {name : Bytes} {leaves : List Leaf}
    (h : ∀ leaf ∈ leaves, ∃ rest, leaf.path = name :: rest) :
    ∀ fs : FileStorage, fs.name = name ∨ fs.files = [] ∧ leaves ≠ [] →
      (leaves.foldl FileStorage.addFile fs).name = name := by
  induction leaves with
  | nil =>
    rintro fs (hname | ⟨-, hne⟩)
    · exact hname
    · exact absurd rfl hne
  | cons leaf leaves ih =>
    intro fs hfs
    refine ih (fun leaf hleaf => h leaf (by simp [hleaf])) _ (Or.inl ?_)
    obtain ⟨rest, hpath⟩ := h leaf (by simp)
    rw [FileStorage.addFile, hpath]
    rcases rest with _ | ⟨c, rest⟩
    · exact FsPath.string_singleton name
    · rcases hfs with hname | ⟨hempty, -⟩
      · simp [FsPath.hasParentPath, hname]
      · simp [FsPath.hasParentPath, hempty]

/-- **The scan stores the leaves, under the name of the tree.** -/
theorem addFiles_eq {name : Bytes} {tree : Tree} (hne : addFilesImpl [name] tree ≠ []) :
    addFiles name tree = ⟨name, (addFilesImpl [name] tree).map Leaf.stored⟩ := by
  have hname : (addFiles name tree).name = name :=
    name_foldl_addFile (fun leaf hleaf => path_of_mem_addFilesImpl tree [name] leaf hleaf) _
      (Or.inr ⟨rfl, hne⟩)
  have hfiles : (addFiles name tree).files = (addFilesImpl [name] tree).map Leaf.stored :=
    (files_foldl_addFile _ _).trans (List.nil_append _)
  rw [← hfiles]
  exact congrArg (FileStorage.mk · _) hname

/-- The largest file changes places. -/
theorem optimize_perm (files : List StoredFile) : (optimize files).Perm files := by
  rcases files with _ | ⟨f, files⟩
  · exact List.Perm.refl _
  · rw [optimize]
    split
    · exact List.Perm.refl _
    · rename_i i _
      split
      · exact List.Perm.refl _
      · rename_i g after hdrop
        have hsplit : files.take i ++ g :: after = files := by
          rw [← hdrop, List.take_append_drop]
        have hswap : (g :: (files.take i ++ f :: after)).Perm
            (f :: (files.take i ++ g :: after)) :=
          (List.perm_middle.cons g).trans <| (List.Perm.swap f g _).trans
            (List.perm_middle.symm.cons f)
        rwa [hsplit] at hswap

/-- **The files of a torrent are the leaves**, in another order. -/
theorem exists_perm_of_optimize (leaves : List Leaf) :
    ∃ order : List Leaf, order.Perm leaves ∧
      optimize (leaves.map Leaf.stored) = order.map Leaf.stored := by
  have hperm : (fun l₁ l₂ => l₁.Perm (l₂.map Leaf.stored)) (optimize (leaves.map Leaf.stored))
      leaves := optimize_perm _
  rw [← List.eq_map_comp_perm] at hperm
  obtain ⟨order, horder, hperm⟩ := hperm
  exact ⟨order, hperm, horder⟩

/-! ### The torrent that is made -/

/-- **The `create_torrent` that `make_torrent` calls `generate` of**, for these files. -/
def MakeTorrent.made (m : MakeTorrent) (name : Bytes) (files : List StoredFile)
    (multifile : Bool) : CreateTorrent where
  name := name
  files := files
  multifile := multifile
  pieceLength := 256 * 1024
  pieceHash := (List.range (numPieces files (256 * 1024)).toNat).map m.hash
  creationDate := m.creationDate
  urls := [(m.announce, 0)]
  createdBy := ascii "libtorrent"
  urlSeeds := m.urlSeed.toList

/-- **What `make_torrent` makes of a tree.** -/
theorem MakeTorrent.torrent_eq (m : MakeTorrent) {name : Bytes} {tree : Tree} {leaf : Leaf}
    {leaves : List Leaf} (hleaves : addFilesImpl [name] tree = leaf :: leaves) :
    m.torrent name tree =
      if numPieces (optimize ((leaf :: leaves).map Leaf.stored)) (256 * 1024) < 0 then none
      else some (m.made name (optimize ((leaf :: leaves).map Leaf.stored))
        (decide (1 < (leaf :: leaves).length) || leaf.path.hasParentPath)) := by
  have hstorage : addFiles name tree = ⟨name, (leaf :: leaves).map Leaf.stored⟩ := by
    rw [addFiles_eq (by simp [hleaves]), hleaves]
  rw [MakeTorrent.torrent, hstorage, createTorrent, List.map_cons]
  simp only
  split
  · rfl
  · simp [MakeTorrent.made, Leaf.stored]

theorem MakeTorrent.torrent_eq_none (m : MakeTorrent) {name : Bytes} {tree : Tree}
    (hleaves : addFilesImpl [name] tree = []) : m.torrent name tree = none := by
  rw [MakeTorrent.torrent, addFiles, hleaves]
  rfl

/-- The items in front of the info section. -/
def MakeTorrent.headItems (m : MakeTorrent) : List (Bytes × Entry) :=
  [(ascii "announce", .string m.announce), (ascii "created by", .string (ascii "libtorrent")),
    (ascii "creation date", .int m.creationDate)]

/-- The item `url-list`. -/
def MakeTorrent.seedItem (m : MakeTorrent) : List (Bytes × Entry) :=
  match m.urlSeed with
  | none => []
  | some url => [(ascii "url-list", .string url)]

section Made

variable (m : MakeTorrent) (name : Bytes) {files : List StoredFile} {multifile : Bool}

/-- **The dictionary of the torrent.** -/
theorem MakeTorrent.generate_made (hne : files ≠ []) :
    (m.made name files multifile).generate = .dict (m.headItems ++
      (ascii "info", (m.made name files multifile).info) :: m.seedItem) := by
  rw [CreateTorrent.generate, if_neg (show (m.made name files multifile).files ≠ [] from hne),
    MakeTorrent.seedItem]
  rcases hseed : m.urlSeed with _ | url <;> simp only [MakeTorrent.made, hseed] <;> rfl

/-- The hashes of the pieces. -/
def MakeTorrent.pieces (m : MakeTorrent) (files : List StoredFile) : Bytes :=
  ((List.range (numPieces files (256 * 1024)).toNat).map m.hash).flatMap Sha1Hash.bytes

theorem MakeTorrent.info_made_multi : (m.made name files true).info = .dict
    [(ascii "files", .list (files.map StoredFile.entry)), (ascii "name", .string name),
      (ascii "piece length", .int (256 * 1024)), (ascii "pieces", .string (m.pieces files))] :=
  CreateTorrent.info_of_multifile rfl rfl

theorem MakeTorrent.info_made_single (f : StoredFile) : (m.made name [f] false).info = .dict (
    f.attrItem ++ [(ascii "length", .int f.size), (ascii "mtime", .int f.mtime),
      (ascii "name", .string name), (ascii "piece length", .int (256 * 1024)),
      (ascii "pieces", .string (m.pieces [f]))] ++ f.linkItem) :=
  CreateTorrent.info_of_single rfl rfl rfl

theorem length_flatMap_bytes (hashes : List Sha1Hash) :
    (hashes.flatMap Sha1Hash.bytes).length = 20 * hashes.length := by
  induction hashes with
  | nil => rfl
  | cons h hashes ih => simp [h.length_eq, ih]; omega

theorem MakeTorrent.length_pieces :
    (m.pieces files).length = 20 * (numPieces files (256 * 1024)).toNat := by
  rw [MakeTorrent.pieces, length_flatMap_bytes, List.length_map, List.length_range]

/-- **The leaves of a torrent of this name**: a single one, or some with longer paths. -/
inductive Laid (name : Bytes) : Bool → List Leaf → Prop where
  /-- One file. -/
  | single (leaf : Leaf) (hpath : leaf.path = [name]) : Laid name false [leaf]
  /-- A directory. -/
  | multi (order : List Leaf) (hne : order ≠ [])
      (hpath : ∀ leaf ∈ order, ∃ c rest, leaf.path = name :: c :: rest) : Laid name true order

end Made

/-! ### Whether it can be decoded -/

section Decoding

variable {leaf : Leaf} {f : StoredFile} {d : ℕ}

/-- A target that passes the buffer is not empty then. -/
theorem Leaf.kept_iff : leaf.Kept ↔
    (leaf.stored.symlinkAttribute = true → leaf.stored.symlinkPath ≠ []) := by
  rcases htarget : leaf.target with _ | target
  · simp [Leaf.Kept, Leaf.stored, htarget]
  · by_cases hshort : target.string.length < 200
    · simp [Leaf.Kept, Leaf.stored, htarget, getSymlinkPath, hshort]
    · simp [Leaf.Kept, Leaf.stored, htarget, getSymlinkPath, hshort]

theorem fits_listEntry {p : FsPath} (h : p ≠ []) : (listEntry p).Fits (d + 1) := by
  rw [listEntry, if_neg h]
  refine Entry.Fits.list fun e he => ?_
  obtain ⟨c, -, rfl⟩ := List.mem_map.mp he
  exact Entry.Fits.string c

theorem fits_attrItem : ∀ item ∈ f.attrItem, item.2.Fits d := by
  rw [StoredFile.attrItem]
  split
  · simp
  · simpa using Entry.Fits.string f.attr

theorem fits_linkItem (h : f.symlinkAttribute = true → f.symlinkPath ≠ []) :
    ∀ item ∈ f.linkItem, item.2.Fits (d + 1) := by
  rw [StoredFile.linkItem]
  split
  · rename_i hlink
    simpa using fits_listEntry (h hlink)
  · simp

/-- **The target that was lost.** -/
theorem linkItem_of_not_kept (h : ¬ leaf.Kept) :
    leaf.stored.linkItem = [(ascii "symlink path", .undefined)] := by
  rw [Leaf.kept_iff, Classical.not_imp, Ne, not_not] at h
  rw [StoredFile.linkItem, if_pos h.1, h.2]
  rfl

/-- The items of a file in front of its target. -/
theorem fits_fileItems {c : Bytes} {name : Bytes} {rest : FsPath}
    (hpath : leaf.path = name :: c :: rest) : ∀ item ∈ leaf.stored.attrItem ++
      [(ascii "length", .int leaf.stored.size), (ascii "mtime", .int leaf.stored.mtime),
        (ascii "path", listEntry leaf.stored.path.tail)], item.2.Fits 1 := by
  have htail : leaf.stored.path.tail ≠ [] := by simp [Leaf.stored, hpath]
  simp only [List.mem_append, List.mem_cons, List.not_mem_nil, or_false]
  rintro item (hattr | rfl | rfl | rfl)
  · exact fits_attrItem item hattr
  · exact Entry.Fits.int _
  · exact Entry.Fits.int _
  · exact fits_listEntry htail

theorem fits_entry {c : Bytes} {name : Bytes} {rest : FsPath}
    (hpath : leaf.path = name :: c :: rest) (hkept : leaf.Kept) :
    leaf.stored.entry.Fits 2 := by
  rw [StoredFile.entry_eq]
  refine Entry.Fits.dict fun item hitem => ?_
  rcases List.mem_append.mp hitem with hitem | hitem
  · exact fits_fileItems hpath item hitem
  · exact fits_linkItem (Leaf.kept_iff.mp hkept) item hitem

theorem dangling_entry {c : Bytes} {name : Bytes} {rest : FsPath}
    (hpath : leaf.path = name :: c :: rest) (hkept : ¬ leaf.Kept) :
    leaf.stored.entry.Dangling 2 := by
  rw [StoredFile.entry_eq, linkItem_of_not_kept hkept]
  exact Entry.Dangling.here _ (fits_fileItems hpath)

/-- Files whose targets were kept. -/
theorem fits_entries {name : Bytes} {leaves : List Leaf}
    (hpath : ∀ leaf ∈ leaves, ∃ c rest, leaf.path = name :: c :: rest)
    (hkept : ∀ leaf ∈ leaves, leaf.Kept) :
    ∀ e ∈ (leaves.map Leaf.stored).map StoredFile.entry, e.Fits 2 := by
  intro e he
  obtain ⟨f, hf, rfl⟩ := List.mem_map.mp he
  obtain ⟨leaf, hleaf, rfl⟩ := List.mem_map.mp hf
  obtain ⟨c, rest, hleafpath⟩ := hpath leaf hleaf
  exact fits_entry hleafpath (hkept leaf hleaf)

variable {m : MakeTorrent} {name : Bytes} {multifile : Bool} {order : List Leaf}

/-- The items of a single file in front of its target. -/
theorem fits_singleItems : ∀ item ∈ f.attrItem ++
      [(ascii "length", .int f.size), (ascii "mtime", .int f.mtime), (ascii "name", .string name),
        (ascii "piece length", .int (256 * 1024)), (ascii "pieces", .string (m.pieces [f]))],
    item.2.Fits d := by
  simp only [List.mem_append, List.mem_cons, List.not_mem_nil, or_false]
  rintro item (hattr | rfl | rfl | rfl | rfl | rfl)
  · exact fits_attrItem item hattr
  · exact Entry.Fits.int _
  · exact Entry.Fits.int _
  · exact Entry.Fits.string _
  · exact Entry.Fits.int _
  · exact Entry.Fits.string _

/-- **If every target was kept, the info section is defined.** -/
theorem Laid.fits_info (hlaid : Laid name multifile order) (hkept : ∀ leaf ∈ order, leaf.Kept) :
    (m.made name (order.map Leaf.stored) multifile).info.Fits 4 := by
  cases hlaid with
  | single leaf hpath =>
    rw [List.map_singleton, MakeTorrent.info_made_single]
    refine Entry.Fits.dict fun item hitem => ?_
    rcases List.mem_append.mp hitem with hitem | hitem
    · exact fits_singleItems item hitem
    · exact fits_linkItem (Leaf.kept_iff.mp (hkept leaf (by simp))) item hitem
  | multi _ hne hpath =>
    rw [MakeTorrent.info_made_multi]
    refine Entry.Fits.dict ?_
    simp only [List.mem_cons, List.not_mem_nil, or_false]
    rintro item (rfl | rfl | rfl | rfl)
    · exact Entry.Fits.list (fits_entries hpath hkept)
    · exact Entry.Fits.string _
    · exact Entry.Fits.int _
    · exact Entry.Fits.string _

/-- **If some target was lost, the info section has a key that nothing stands behind.** -/
theorem Laid.dangling_info (hlaid : Laid name multifile order)
    (hlost : ∃ leaf ∈ order, ¬ leaf.Kept) :
    (m.made name (order.map Leaf.stored) multifile).info.Dangling 4 := by
  cases hlaid with
  | single leaf hpath =>
    obtain ⟨leaf', hmem, hlost⟩ := hlost
    obtain rfl := List.mem_singleton.mp hmem
    rw [List.map_singleton, MakeTorrent.info_made_single, linkItem_of_not_kept hlost]
    exact Entry.Dangling.here _ fits_singleItems
  | multi _ hne hpath =>
    classical
    obtain ⟨leaf, hfind⟩ : ∃ leaf, order.find? (fun leaf => ¬ leaf.Kept) = some leaf :=
      Option.isSome_iff_exists.mp (List.find?_isSome.mpr (by simpa using hlost))
    obtain ⟨hfirst, before, after, rfl, hbefore⟩ := List.find?_eq_some_iff_append.mp hfind
    obtain ⟨c, rest, hleafpath⟩ := hpath leaf (by simp)
    have hfits : ∀ e ∈ (before.map Leaf.stored).map StoredFile.entry, e.Fits 2 :=
      fits_entries (fun leaf' hleaf' => hpath leaf' (by simp [hleaf']))
        fun leaf' hleaf' => by simpa using hbefore leaf' hleaf'
    rw [MakeTorrent.info_made_multi, List.map_append, List.map_append]
    exact @Entry.Dangling.dict 3 [] _ _ _ (by simp)
      (Entry.Dangling.list hfits (dangling_entry hleafpath (by simpa using hfirst)))

theorem Laid.ne_nil (hlaid : Laid name multifile order) : order ≠ [] := by
  cases hlaid with
  | single => simp
  | multi _ hne => exact hne

theorem fits_seedItem : ∀ item ∈ m.seedItem, item.2.Fits d := by
  rw [MakeTorrent.seedItem]
  split
  · simp
  · simpa using Entry.Fits.string _

theorem fits_headItems : ∀ item ∈ m.headItems, item.2.Fits d := by
  simp only [MakeTorrent.headItems, List.mem_cons, List.not_mem_nil, or_false]
  rintro item (rfl | rfl | rfl)
  · exact Entry.Fits.string _
  · exact Entry.Fits.string _
  · exact Entry.Fits.int _

/-- **If every target was kept, the torrent is decoded.** -/
theorem Laid.lazyBdecode_generate (hlaid : Laid name multifile order)
    (hkept : ∀ leaf ∈ order, leaf.Kept) :
    lazyBdecode (m.made name (order.map Leaf.stored) multifile).generate.bencode =
      some (m.made name (order.map Leaf.stored) multifile).generate.decoded := by
  have hne : order.map Leaf.stored ≠ [] := by simpa using hlaid.ne_nil
  rw [MakeTorrent.generate_made m name hne]
  refine lazyBdecode_bencode (d := 5) (Entry.Fits.dict fun item hitem => ?_) (by decide)
  rcases List.mem_append.mp hitem with hitem | hitem
  · exact fits_headItems item hitem
  rcases List.mem_cons.mp hitem with rfl | hitem
  · exact hlaid.fits_info hkept
  · exact fits_seedItem item hitem

/-- **If some target was lost, the torrent is not decoded.** -/
theorem Laid.lazyBdecode_eq_none (hlaid : Laid name multifile order)
    (hlost : ∃ leaf ∈ order, ¬ leaf.Kept) :
    lazyBdecode (m.made name (order.map Leaf.stored) multifile).generate.bencode = none := by
  have hne : order.map Leaf.stored ≠ [] := by simpa using hlaid.ne_nil
  rw [MakeTorrent.generate_made m name hne]
  refine lazyBdecode_dangling (d := 5) ?_ (by decide)
  exact Entry.Dangling.dict fits_headItems (hlaid.dangling_info hlost)

end Decoding

/-! ### Whether it is read back -/

section Reading

variable {m : MakeTorrent} {name : Bytes} {multifile : Bool} {order : List Leaf} {leaf : Leaf}

theorem describes_info (f : StoredFile) : f.Describes (m.made name [f] false).info.decoded := by
  rw [MakeTorrent.info_made_single]
  exact f.describes_items rfl rfl rfl rfl

/-- **A single file is read as it was stored.** -/
theorem readSingle_info (hclean : leaf.Clean) (hkept : leaf.Kept) (hpath : leaf.path = [name]) :
    readSingle (m.made name [leaf.stored] false).info.decoded name = some leaf.stored := by
  have hdict : leaf.stored.Describes (m.made name [leaf.stored] false).info.decoded :=
    describes_info leaf.stored
  have hname : CleanName name := hclean.names name (by simp [hpath])
  have hlength : LazyEntry.dictFindIntValue (ascii "length")
      (m.made name [leaf.stored] false).info.decoded (-1) = leaf.size := by
    rw [LazyEntry.dictFindIntValue, hdict.length]
    exact leaf.intValue_size
  have hread := hkept.readAttributes hdict
  rw [hpath] at hread
  simp only [readSingle, hlength, hclean.readMtime hdict, hname.ofString, hread]
  rw [hclean.markPadding rfl]
  exact if_neg (by simp [Leaf.stored])

/-- **The files are read as they were stored.** -/
theorem Laid.readFiles_info (hlaid : Laid name multifile order)
    (hclean : ∀ leaf ∈ order, leaf.Clean) (hkept : ∀ leaf ∈ order, leaf.Kept)
    (hdistinct : Distinct (order.map Leaf.stored)) :
    readFiles (m.made name (order.map Leaf.stored) multifile).info.decoded name =
      some (order.map Leaf.stored) := by
  cases hlaid with
  | single leaf hpath =>
    have hnolist : LazyEntry.dictFindList (ascii "files")
        (m.made name [leaf.stored] false).info.decoded = none := by
      rw [MakeTorrent.info_made_single, LazyEntry.dictFindList, Entry.dictFind_decoded,
        StoredFile.lookup_items _ (by decide) (by decide)]
      rfl
    rw [List.map_singleton, readFiles, hnolist]
    simp only [readSingle_info (hclean leaf (by simp)) (hkept leaf (by simp)) hpath]
    rfl
  | multi _ hne hpath =>
    have hlist : LazyEntry.dictFindList (ascii "files")
        (m.made name (order.map Leaf.stored) true).info.decoded =
          some (Entry.decodedList ((order.map Leaf.stored).map StoredFile.entry)) := by
      rw [MakeTorrent.info_made_multi]
      rfl
    rw [readFiles, hlist]
    refine (extractFiles_entries (fun f hf => ?_) [] hdistinct).trans (by rw [List.nil_append])
    obtain ⟨leaf, hleaf, rfl⟩ := List.mem_map.mp hf
    obtain ⟨c, rest, hleafpath⟩ := hpath leaf hleaf
    exact Leaf.extractSingleFile_entry (hclean leaf hleaf) (hkept leaf hleaf) hleafpath (by simp)

/-- The info section, as far as both kinds of torrents have it. -/
theorem Laid.exists_info_eq (hlaid : Laid name multifile order) : ∃ items,
    (m.made name (order.map Leaf.stored) multifile).info = .dict items ∧
      items.lookup (ascii "piece length") = some (.int (256 * 1024)) ∧
      items.lookup (ascii "name.utf-8") = none ∧
      items.lookup (ascii "name") = some (.string name) ∧
      items.lookup (ascii "pieces") = some (.string (m.pieces (order.map Leaf.stored))) := by
  cases hlaid with
  | single leaf hpath =>
    refine ⟨_, MakeTorrent.info_made_single m name leaf.stored, ?_, ?_, ?_, ?_⟩
    all_goals
      rw [StoredFile.lookup_items _ (by decide) (by decide)]
      rfl
  | multi _ hne hpath =>
    exact ⟨_, MakeTorrent.info_made_multi m name, rfl, rfl, rfl, rfl⟩

/-- **The torrent is read as it was made.** -/
theorem Laid.parseTorrentFile_generate (sha1 : Bytes → Bytes) (hlaid : Laid name multifile order)
    (hclean : ∀ leaf ∈ order, leaf.Clean) (hkept : ∀ leaf ∈ order, leaf.Kept)
    (hdistinct : Distinct (order.map Leaf.stored))
    (hnonneg : 0 ≤ numPieces (order.map Leaf.stored) (256 * 1024))
    (hsmall : numPieces (order.map Leaf.stored) (256 * 1024) * 20 < 0x80000000) :
    parseTorrentFile sha1 (m.made name (order.map Leaf.stored) multifile).generate.decoded =
      some ⟨sha1 (m.made name (order.map Leaf.stored) multifile).info.bencode,
        (order.map Leaf.stored).map StoredFile.fileEntry, 256 * 1024⟩ := by
  have hne : order.map Leaf.stored ≠ [] := by simpa using hlaid.ne_nil
  have hreadFiles := hlaid.readFiles_info (m := m) hclean hkept hdistinct
  obtain ⟨items, hinfo, hlength, hutf8, hname, hpieces⟩ := hlaid.exists_info_eq (m := m)
  have hcleanName : CleanName name := by
    obtain ⟨leaf, hleaf⟩ := List.exists_mem_of_ne_nil order hlaid.ne_nil
    refine (hclean leaf hleaf).names name ?_
    cases hlaid with
    | single leaf' hpath => simp [List.mem_singleton.mp hleaf, hpath]
    | multi _ hne hpath =>
      obtain ⟨c, rest, hleafpath⟩ := hpath leaf hleaf
      simp [hleafpath]
  have hcount : ((m.pieces (order.map Leaf.stored)).length : ℤ) =
      wrap32 (numPieces (order.map Leaf.stored) (256 * 1024) * 20) := by
    rw [MakeTorrent.length_pieces, wrap32, Int.bmod_eq_of_le (by omega) (by omega)]
    omega
  have hfind : LazyEntry.dictFindDict (ascii "info")
      (m.made name (order.map Leaf.stored) multifile).generate.decoded =
        some (Entry.dict items).decoded := by
    rw [MakeTorrent.generate_made m name hne, hinfo]
    rfl
  rw [hinfo] at hreadFiles
  rw [parseTorrentFile, hfind, hinfo]
  exact parseInfoSection_decoded sha1 hlength hutf8 hname hcleanName hreadFiles hpieces hcount

end Reading

end InstantMirror
