import InstantMirror.Libtorrent.MakeTorrent

/-!
# From a tree of files to the list of the daemon

The `.torrent` file is the only thing that carries the metadata of the mirrored files from
the machine that has them to the daemon. `make_torrent` writes it, `tor::gettor` reads it,
and between the two a path is taken apart into components and put together again, every
number becomes a text, and every attribute a letter.

`InstantMirror.MetadataSurvives` says that nothing is lost on the way: each file that was
scanned is a row of the daemon's list, with its path, its size, its time and, for a link,
its target. That is so exactly for the trees of `InstantMirror.Storable`
(`InstantMirror.metadataSurvives_iff`), and it leaves out

* trees without a file, and trees with so much in them that the number of pieces, in 32 bits,
  is negative: no torrent is made of them;
* trees whose torrent has more than ten million bytes (`InstantMirror.MakeTorrent.torrentSize`),
  which the daemon does not read: it exits;
* trees with a symbolic link whose target has two hundred bytes or more. The torrent then says
  that there is a target and not which one. This is no bencoding at all, and the daemon exits
  as well (`InstantMirror.target_lost`).
-/

namespace InstantMirror

/-! ### How long it is -/

/-- The bytes of a string. -/
def textSize (s : Bytes) : ℕ := (decimal s.length).length + 1 + s.length

/-- The bytes of an integer. -/
def intSize (n : ℤ) : ℕ := (intText n).length + 2

/-- The bytes of a path. -/
def pathSize (p : FsPath) : ℕ := (p.map textSize).sum + 2

namespace Leaf

/-- The bytes of what is written about a file in both kinds of torrents: a letter for
executable files, a letter for links, and the target. -/
def attributesSize (leaf : Leaf) : ℕ :=
  let letters := (if leaf.stat.executable then 1 else 0) + (if leaf.target.isSome then 1 else 0)
  (if letters = 0 then 0 else textSize (ascii "attr") + 2 + letters) +
    match leaf.target with
    | none => 0
    | some target => textSize (ascii "symlink path") + pathSize target

/-- The bytes of its size and its time. -/
def numbersSize (leaf : Leaf) : ℕ :=
  textSize (ascii "length") + intSize leaf.size +
    (textSize (ascii "mtime") + intSize leaf.stat.mtime)

/-- The bytes of one of several files. -/
def fileSize (leaf : Leaf) : ℕ :=
  leaf.attributesSize + leaf.numbersSize + (textSize (ascii "path") + pathSize leaf.path.tail) + 2

end Leaf

/-- The number of pieces, in the 32 bits it is kept in. -/
def pieceCount (leaves : List Leaf) : ℤ :=
  wrap32 ((wrap64 (wrap64 (leaves.map Leaf.size).sum + 256 * 1024 - 1)).tdiv (256 * 1024))

/-- The bytes of the files of a torrent: of a single one, or of the list. -/
def filesSize (leaves : List Leaf) : ℕ :=
  if leaves.all (·.path.tail = []) then
    (leaves.map fun leaf => leaf.attributesSize + leaf.numbersSize).sum
  else textSize (ascii "files") + (leaves.map Leaf.fileSize).sum + 2

/-- **The bytes of a torrent**, whose pieces have a hash of twenty bytes each. -/
def MakeTorrent.torrentSize (m : MakeTorrent) (name : Bytes) (leaves : List Leaf) : ℕ :=
  let pieces := 20 * (pieceCount leaves).toNat
  let info := filesSize leaves + (textSize (ascii "name") + textSize name) +
    (textSize (ascii "piece length") + intSize (256 * 1024)) +
    (textSize (ascii "pieces") + ((decimal pieces).length + 1 + pieces)) + 2
  let seed := match m.urlSeed with
    | none => 0
    | some url => textSize (ascii "url-list") + textSize url
  textSize (ascii "announce") + textSize m.announce +
    (textSize (ascii "created by") + textSize (ascii "libtorrent")) +
    (textSize (ascii "creation date") + intSize m.creationDate) +
    (textSize (ascii "info") + info) + seed + 2

section Sizes

variable {leaf : Leaf} {m : MakeTorrent} {name : Bytes} {multifile : Bool} {order : List Leaf}

theorem length_bencodeString (s : Bytes) : (bencodeString s).length = textSize s := by
  rw [bencodeString, textSize, List.length_append, List.length_cons]
  omega

theorem length_bencode_int (n : ℤ) : (Entry.int n).bencode.length = intSize n := by
  simp [Entry.bencode, intSize]

theorem length_bencode_string (s : Bytes) : (Entry.string s).bencode.length = textSize s := by
  rw [Entry.bencode, length_bencodeString]

theorem length_bencode_dict (items : List (Bytes × Entry)) :
    (Entry.dict items).bencode.length = (Entry.bencodeItems items).length + 2 := by
  simp [Entry.bencode]

theorem length_bencodeItems_cons (key : Bytes) (e : Entry) (items : List (Bytes × Entry)) :
    (Entry.bencodeItems ((key, e) :: items)).length =
      textSize key + e.bencode.length + (Entry.bencodeItems items).length := by
  rw [Entry.bencodeItems, List.length_append, List.length_append, length_bencodeString]
  omega

theorem length_bencodeItems_nil : (Entry.bencodeItems []).length = 0 := rfl

theorem length_bencode_list {α : Type*} (l : List α) (entry : α → Entry) :
    (Entry.list (l.map entry)).bencode.length =
      (l.map fun a => (entry a).bencode.length).sum + 2 := by
  have hitems : (Entry.bencodeList (l.map entry)).length =
      (l.map fun a => (entry a).bencode.length).sum := by
    induction l with
    | nil => rfl
    | cons a l ih => simp [Entry.bencodeList, ih]
  simp [Entry.bencode, hitems]

theorem length_bencode_listEntry {p : FsPath} (h : p ≠ []) :
    (listEntry p).bencode.length = pathSize p := by
  rw [listEntry, if_neg h, length_bencode_list]
  simp [pathSize, length_bencode_string]

/-- Wrapping at every file or once at the end makes no difference. -/
theorem totalSize_stored (leaves : List Leaf) :
    totalSize (leaves.map Leaf.stored) = wrap64 (leaves.map Leaf.size).sum := by
  have hfold : ∀ total : ℤ, (leaves.map Leaf.stored).foldl (fun total e => wrap64 (total + e.size))
      (wrap64 total) = wrap64 (total + ((leaves.map Leaf.size).sum : ℕ)) := by
    induction leaves with
    | nil => simp
    | cons leaf leaves ih =>
      intro total
      have hadd : wrap64 (wrap64 total + leaf.stored.size) = wrap64 (total + leaf.size) :=
        Int.bmod_add_bmod
      rw [List.map_cons, List.foldl_cons, hadd, ih, List.map_cons, List.sum_cons]
      congr 1
      omega
  have htotal := hfold 0
  rw [Int.zero_add] at htotal
  exact htotal

theorem numPieces_stored (leaves : List Leaf) :
    numPieces (leaves.map Leaf.stored) (256 * 1024) = pieceCount leaves := by
  rw [numPieces, totalSize_stored, pieceCount]

/-- What is written about a file in both kinds of torrents. -/
theorem Leaf.Kept.length_attributes (h : leaf.Kept) :
    (Entry.bencodeItems leaf.stored.attrItem).length +
      (Entry.bencodeItems leaf.stored.linkItem).length = leaf.attributesSize := by
  have hattr : (Entry.bencodeItems leaf.stored.attrItem).length =
      if leaf.stored.attr = [] then 0 else textSize (ascii "attr") + textSize leaf.stored.attr := by
    rw [StoredFile.attrItem]
    split_ifs
    · rfl
    · rw [length_bencodeItems_cons, length_bencode_string]
      rfl
  rcases htarget : leaf.target with _ | target
  · have hlink : leaf.stored.linkItem = [] := if_neg (by simp [Leaf.stored, htarget])
    rw [hattr, hlink, Leaf.attributesSize, htarget]
    rcases hexec : leaf.stat.executable with _ | _ <;>
      simp [Leaf.stored, StoredFile.attr, htarget, hexec] <;> rfl
  · obtain ⟨hne, hshort⟩ := h target htarget
    have hlink : leaf.stored.linkItem = [(ascii "symlink path", listEntry target)] := by
      simp [StoredFile.linkItem, Leaf.stored, htarget, getSymlinkPath, hshort]
    rw [hattr, hlink, length_bencodeItems_cons, length_bencode_listEntry hne, Leaf.attributesSize,
      htarget]
    rcases hexec : leaf.stat.executable with _ | _ <;>
      simp [Leaf.stored, StoredFile.attr, htarget, hexec] <;> rfl

/-- The dictionary of one of several files. -/
theorem Leaf.Kept.length_entry (h : leaf.Kept) (hpath : leaf.path.tail ≠ []) :
    leaf.stored.entry.bencode.length = leaf.fileSize := by
  rw [StoredFile.entry_eq, length_bencode_dict, Entry.bencodeItems_append,
    Entry.bencodeItems_append, List.length_append, List.length_append, Leaf.fileSize,
    ← h.length_attributes, Leaf.numbersSize]
  simp only [length_bencodeItems_cons, length_bencodeItems_nil, length_bencode_int,
    Leaf.stored_size, Leaf.stored_mtime, Leaf.stored_path, length_bencode_listEntry hpath]
  omega

theorem Laid.length_info (hlaid : Laid name multifile order) (hkept : ∀ leaf ∈ order, leaf.Kept) :
    (m.made name (order.map Leaf.stored) multifile).info.bencode.length =
      filesSize order + (textSize (ascii "name") + textSize name) +
        (textSize (ascii "piece length") + intSize (256 * 1024)) +
        (textSize (ascii "pieces") + textSize (m.pieces (order.map Leaf.stored))) + 2 := by
  cases hlaid with
  | single leaf hpath =>
    have hfiles : filesSize [leaf] = leaf.attributesSize + leaf.numbersSize := by
      simp [filesSize, hpath]
    rw [List.map_singleton, MakeTorrent.info_made_single, length_bencode_dict, hfiles,
      ← (hkept leaf (by simp)).length_attributes, Leaf.numbersSize, Entry.bencodeItems_append,
      Entry.bencodeItems_append, List.length_append, List.length_append]
    simp only [length_bencodeItems_cons, length_bencodeItems_nil, length_bencode_int,
      length_bencode_string, Leaf.stored_size, Leaf.stored_mtime]
    omega
  | multi _ hne hpath =>
    have hfiles : filesSize order =
        textSize (ascii "files") + (order.map Leaf.fileSize).sum + 2 := by
      obtain ⟨leaf, hleaf⟩ := List.exists_mem_of_ne_nil order hne
      obtain ⟨c, rest, hleafpath⟩ := hpath leaf hleaf
      refine if_neg fun hall => ?_
      have := List.all_eq_true.mp hall leaf hleaf
      simp [hleafpath] at this
    have hentries : (order.map fun leaf => leaf.stored.entry.bencode.length) =
        order.map Leaf.fileSize := by
      refine List.map_congr_left fun leaf hleaf => (hkept leaf hleaf).length_entry ?_
      obtain ⟨c, rest, hleafpath⟩ := hpath leaf hleaf
      simp [hleafpath]
    rw [MakeTorrent.info_made_multi, length_bencode_dict, hfiles]
    simp only [length_bencodeItems_cons, length_bencodeItems_nil, length_bencode_int,
      length_bencode_string, List.map_map, length_bencode_list, Function.comp_def, hentries]
    omega

/-- **The bytes that are written.** -/
theorem Laid.length_generate (hlaid : Laid name multifile order)
    (hkept : ∀ leaf ∈ order, leaf.Kept) :
    (m.made name (order.map Leaf.stored) multifile).generate.bencode.length =
      m.torrentSize name order := by
  have hne : order.map Leaf.stored ≠ [] := by simpa using hlaid.ne_nil
  have hpieces : textSize (m.pieces (order.map Leaf.stored)) =
      (decimal (20 * (pieceCount order).toNat)).length + 1 + 20 * (pieceCount order).toNat := by
    rw [textSize, MakeTorrent.length_pieces, numPieces_stored]
  rw [MakeTorrent.generate_made m name hne, length_bencode_dict, Entry.bencodeItems_append,
    List.length_append]
  simp only [length_bencodeItems_cons, length_bencode_int, length_bencode_string,
    hlaid.length_info hkept, hpieces, MakeTorrent.torrentSize, MakeTorrent.headItems,
    MakeTorrent.seedItem]
  rcases m.urlSeed with _ | url
  · simp only [length_bencodeItems_nil]
    omega
  · simp only [length_bencodeItems_cons, length_bencodeItems_nil, length_bencode_string]
    omega

end Sizes

/-! ### What the daemon reads -/

/-- **A row that says about a leaf what is to be said about it.** -/
structure Leaf.Listed (leaf : Leaf) (row : TorFile) : Prop where
  /-- Its path. -/
  name : row.name = leaf.path.string
  /-- Its size. -/
  size : row.size = leaf.size
  /-- Its time. -/
  mtime : row.mtime = leaf.stat.mtime
  /-- Whether it is a link. -/
  symlinkAttribute : row.symlinkAttribute = leaf.target.isSome
  /-- Its target. -/
  symlinkPath : ∀ target, leaf.target = some target → row.symlinkPath = target.string

/-- **The metadata survive the `.torrent` file**: it is made, and written, and read, and the
list has a row for each leaf, in the order of the torrent. -/
def MetadataSurvives (sha1 : Bytes → Bytes) (m : MakeTorrent) (name : Bytes) (tree : Tree) : Prop :=
  ∃ (t : CreateTorrent) (content : Bytes) (order : List Leaf) (list : List TorFile),
    m.torrent name tree = some t ∧ writeBencode t.generate = some content ∧
      order.Perm (addFilesImpl [name] tree) ∧ t.files = order.map Leaf.stored ∧
      (∀ mtime linkMtime, (TorrentFile.ofBytes sha1 content mtime linkMtime).gettor = some list) ∧
      List.Forall₂ Leaf.Listed order list

/-- **Leaves that make a torrent the daemon can read.** -/
structure Storable (m : MakeTorrent) (name : Bytes) (leaves : List Leaf) : Prop where
  /-- There is one. -/
  ne_nil : leaves ≠ []
  /-- The target of every link has less than two hundred bytes, and is not empty. -/
  kept : ∀ leaf ∈ leaves, leaf.Kept
  /-- The number of pieces is one. -/
  pieces : 0 ≤ pieceCount leaves
  /-- The torrent has at most ten million bytes. -/
  size : m.torrentSize name leaves ≤ 10 * 1000000

section Gettor

variable {sha1 : Bytes → Bytes} {content : Bytes}

theorem eq_of_writeBencode {e : Entry} (h : writeBencode e = some content) :
    e.bencode = content ∧ e.bencode.length < 0x80000000 := by
  rw [writeBencode] at h
  split at h
  · rename_i hlen
    exact ⟨Option.some.inj h, hlen⟩
  · cases h

theorem intSize_ofBytes (hlen : content.length < 0x80000000) (mtime linkMtime : ℤ) :
    (TorrentFile.ofBytes sha1 content mtime linkMtime).intSize = content.length :=
  Int.bmod_eq_of_le (by simp only [TorrentFile.ofBytes]; omega)
    (by simp only [TorrentFile.ofBytes]; omega)

theorem bufDecode_ofBytes (mtime linkMtime : ℤ) :
    (TorrentFile.ofBytes sha1 content mtime linkMtime).bufDecode content.length =
      decodeBuffer sha1 content :=
  (if_pos rfl).trans (congrArg (decodeBuffer sha1) List.take_length)

/-- **What `gettor` lists of a file**: it has at most ten million bytes, and they are a
torrent. -/
theorem gettor_ofBytes_of_torrent {ti : TorrentInfo} (hlen : content.length ≤ 10 * 1000000)
    (hdecode : decodeBuffer sha1 content = .torrent ti) (mtime linkMtime : ℤ) :
    (TorrentFile.ofBytes sha1 content mtime linkMtime).gettor = some (torList [] ti.files) := by
  rw [TorrentFile.gettor, intSize_ofBytes (by omega), Int.toNat_natCast, bufDecode_ofBytes, hdecode,
    if_neg (by omega), if_neg (by omega)]

/-- **Where `gettor` exits on a file.** -/
theorem gettor_ofBytes_eq_none (hlen : content.length < 0x80000000)
    (h : 10 * 1000000 < content.length ∨ decodeBuffer sha1 content = .invalidBencoding)
    (mtime linkMtime : ℤ) :
    (TorrentFile.ofBytes sha1 content mtime linkMtime).gettor = none := by
  rw [TorrentFile.gettor, intSize_ofBytes hlen, Int.toNat_natCast, bufDecode_ofBytes]
  rcases h with hlong | hdecode
  · exact if_pos (by omega)
  · rw [hdecode]
    split
    · rfl
    · exact if_neg (by omega)

end Gettor

theorem forall₂_torList {order : List Leaf} (hkept : ∀ leaf ∈ order, leaf.Kept) :
    ∀ target, List.Forall₂ Leaf.Listed order
      (torList target ((order.map Leaf.stored).map StoredFile.fileEntry)) := by
  induction order with
  | nil => exact fun target => List.Forall₂.nil
  | cons leaf order ih =>
    intro target
    refine List.Forall₂.cons ⟨rfl, rfl, rfl, rfl, fun own hown => ?_⟩
      (ih (fun leaf hleaf => hkept leaf (by simp [hleaf])) _)
    obtain ⟨-, hshort⟩ := hkept leaf (by simp) own hown
    simp [StoredFile.fileEntry, Leaf.stored, hown, getSymlinkPath, hshort]

/-! ### In another order -/

section Order

variable {m : MakeTorrent} {name : Bytes} {order leaves : List Leaf}

theorem pieceCount_perm (h : order.Perm leaves) : pieceCount order = pieceCount leaves := by
  rw [pieceCount, pieceCount, (h.map Leaf.size).sum_nat]

theorem torrentSize_perm (h : order.Perm leaves) :
    m.torrentSize name order = m.torrentSize name leaves := by
  have hall : order.all (·.path.tail = []) = leaves.all (·.path.tail = []) := by
    rw [Bool.eq_iff_iff, List.all_eq_true, List.all_eq_true]
    exact forall_congr' fun leaf => by rw [h.mem_iff]
  have hfiles : filesSize order = filesSize leaves := by
    rw [filesSize, filesSize, hall, (h.map Leaf.fileSize).sum_nat,
      (h.map fun leaf => leaf.attributesSize + leaf.numbersSize).sum_nat]
  rw [MakeTorrent.torrentSize, MakeTorrent.torrentSize, pieceCount_perm h, hfiles]

/-- **The torrent that is made of a tree.** -/
theorem MakeTorrent.torrent_cases (m : MakeTorrent) {tree : Tree}
    (hne : addFilesImpl [name] tree ≠ []) : ∃ order multifile,
      order.Perm (addFilesImpl [name] tree) ∧ Laid name multifile order ∧
        m.torrent name tree = if pieceCount (addFilesImpl [name] tree) < 0 then none
          else some (m.made name (order.map Leaf.stored) multifile) := by
  obtain ⟨leaf, leaves, hleaves⟩ := List.exists_cons_of_ne_nil hne
  obtain ⟨order, hperm, horder⟩ := exists_perm_of_optimize (leaf :: leaves)
  refine ⟨order, decide (1 < (leaf :: leaves).length) || leaf.path.hasParentPath,
    hleaves ▸ hperm, ?_, ?_⟩
  · rcases addFilesImpl_cases name tree with ⟨leaf', hsingle, hpath⟩ | hpath
    · obtain ⟨rfl, rfl⟩ := List.cons.inj (hleaves.symm.trans hsingle)
      obtain rfl := List.perm_singleton.mp hperm
      have hmulti : (decide (1 < [leaf].length) || leaf.path.hasParentPath) = false := by
        simp [FsPath.hasParentPath, hpath]
      rw [hmulti]
      exact Laid.single leaf hpath
    · rw [hleaves] at hpath
      have hmulti : (decide (1 < (leaf :: leaves).length) || leaf.path.hasParentPath) = true := by
        obtain ⟨c, rest, hleafpath⟩ := hpath leaf (by simp)
        simp [FsPath.hasParentPath, hleafpath]
      rw [hmulti]
      refine Laid.multi order (fun h => ?_) fun leaf' hleaf' =>
        hpath leaf' (hperm.mem_iff.mp hleaf')
      rw [h] at hperm
      simpa using hperm.symm.eq_nil
  · rw [m.torrent_eq hleaves, horder, numPieces_stored, pieceCount_perm hperm, hleaves]

end Order

/-! ### When the metadata survive -/

/-- The hashes of the pieces are a part of the torrent. -/
theorem length_pieces_le (m : MakeTorrent) (name : Bytes) (leaves : List Leaf) :
    20 * (pieceCount leaves).toNat ≤ m.torrentSize name leaves := by
  simp only [MakeTorrent.torrentSize]
  omega

/-- **The bytes of a torrent that is small enough are the torrent.** -/
theorem Laid.decodeBuffer_generate (sha1 : Bytes → Bytes) {m : MakeTorrent} {name : Bytes}
    {multifile : Bool} {order : List Leaf} (hlaid : Laid name multifile order)
    (hclean : ∀ leaf ∈ order, leaf.Clean) (hkept : ∀ leaf ∈ order, leaf.Kept)
    (hdistinct : Distinct (order.map Leaf.stored)) (hpieces : 0 ≤ pieceCount order)
    (hsize : (m.made name (order.map Leaf.stored) multifile).generate.bencode.length ≤
      10 * 1000000) :
    decodeBuffer sha1 (m.made name (order.map Leaf.stored) multifile).generate.bencode =
      .torrent ⟨sha1 (m.made name (order.map Leaf.stored) multifile).info.bencode,
        (order.map Leaf.stored).map StoredFile.fileEntry, 256 * 1024⟩ := by
  rw [hlaid.length_generate hkept] at hsize
  have hle := length_pieces_le m name order
  rw [decodeBuffer, hlaid.lazyBdecode_generate hkept]
  simp only [hlaid.parseTorrentFile_generate sha1 hclean hkept hdistinct
    (by rwa [numPieces_stored]) (by rw [numPieces_stored]; omega)]

/-- **The metadata survive exactly where the torrent can be stored.** -/
theorem metadataSurvives_iff (sha1 : Bytes → Bytes) (m : MakeTorrent) (name : Bytes) (tree : Tree)
    (hclean : ∀ leaf ∈ addFilesImpl [name] tree, leaf.Clean)
    (hdistinct : (addFilesImpl [name] tree).Pairwise fun leaf leaf' =>
      stringEqualNoCase leaf.path.string leaf'.path.string = false) :
    MetadataSurvives sha1 m name tree ↔ Storable m name (addFilesImpl [name] tree) := by
  constructor
  · rintro ⟨t, content, -, list, ht, hcontent, -, -, hlist, -⟩
    have hne : addFilesImpl [name] tree ≠ [] := by
      intro hnil
      rw [m.torrent_eq_none hnil] at ht
      cases ht
    obtain ⟨order, multifile, hperm, hlaid, htorrent⟩ := m.torrent_cases hne
    rw [htorrent] at ht
    split at ht
    · cases ht
    rename_i hpieces
    obtain rfl := Option.some.inj ht
    obtain ⟨rfl, hlen⟩ := eq_of_writeBencode hcontent
    -- whatever makes `gettor` exit is excluded
    have hread : ¬ (10 * 1000000 <
        (m.made name (order.map Leaf.stored) multifile).generate.bencode.length ∨
        decodeBuffer sha1 (m.made name (order.map Leaf.stored) multifile).generate.bencode =
          .invalidBencoding) := by
      intro h
      have hnone := gettor_ofBytes_eq_none hlen h 0 0
      rw [hlist 0 0] at hnone
      cases hnone
    rw [not_or] at hread
    have hkept : ∀ leaf ∈ order, leaf.Kept := by
      intro leaf hleaf
      by_contra hlost
      refine hread.2 ?_
      rw [decodeBuffer, hlaid.lazyBdecode_eq_none ⟨leaf, hleaf, hlost⟩]
    refine ⟨hne, fun leaf hleaf => hkept leaf (hperm.mem_iff.mpr hleaf), by omega, ?_⟩
    rw [← torrentSize_perm hperm, ← hlaid.length_generate hkept]
    omega
  · rintro ⟨hne, hkept, hpieces, hsize⟩
    obtain ⟨order, multifile, hperm, hlaid, htorrent⟩ := m.torrent_cases hne
    have hkept' : ∀ leaf ∈ order, leaf.Kept := fun leaf hleaf => hkept leaf (hperm.mem_iff.mp hleaf)
    have hclean' : ∀ leaf ∈ order, leaf.Clean := fun leaf hleaf =>
      hclean leaf (hperm.mem_iff.mp hleaf)
    have hdistinct' : Distinct (order.map Leaf.stored) := by
      rw [Distinct, List.pairwise_map]
      refine hdistinct.perm hperm.symm fun {leaf leaf'} h => ?_
      rwa [stringEqualNoCase_comm]
    have hpieces' : 0 ≤ pieceCount order := by rwa [pieceCount_perm hperm]
    rw [← torrentSize_perm hperm, ← hlaid.length_generate hkept'] at hsize
    have hdecode := hlaid.decodeBuffer_generate sha1 hclean' hkept' hdistinct' hpieces' hsize
    exact ⟨_, _, order, _, htorrent.trans (if_neg (by omega)), if_pos (by omega), hperm, rfl,
      gettor_ofBytes_of_torrent hsize hdecode, forall₂_torList hkept' []⟩

/-- A directory with a file `a` and a link `l` to this target. -/
def linkTree (target : FsPath) : Tree :=
  .directory [(ascii "a", .regular ⟨7, false, by decide⟩ 3 (by decide)),
    (ascii "l", .symlink ⟨7, true, by decide⟩ target)]

/-- A call of `make_torrent`. -/
def makeExample : MakeTorrent := ⟨ascii "http://t", none, 1, fun _ => ⟨List.replicate 20 0, rfl⟩⟩

theorem linkTree_clean (target : FsPath) :
    (∀ leaf ∈ addFilesImpl [ascii "t"] (linkTree target), leaf.Clean) ∧
      (addFilesImpl [ascii "t"] (linkTree target)).Pairwise fun leaf leaf' =>
        stringEqualNoCase leaf.path.string leaf'.path.string = false := by
  have hnames : ∀ c ∈ [ascii "t", ascii "a", ascii "l"], CleanName c := by
    simp only [List.mem_cons, List.not_mem_nil, or_false]
    rintro c (rfl | rfl | rfl) <;> exact ⟨by decide, by decide, by decide, by decide⟩
  constructor
  · have hleaf : ∀ leaf : Leaf, ∀ c ∈ [ascii "a", ascii "l"], leaf.path = [ascii "t", c] →
        leaf.stat.mtime = 7 → leaf.Clean := by
      intro leaf c hc hpath hmtime
      refine ⟨fun c' hc' => hnames c' ?_, ?_, by omega⟩
      · rw [hpath] at hc'
        simp only [List.mem_cons, List.not_mem_nil, or_false] at hc hc' ⊢
        rcases hc' with rfl | rfl
        · exact Or.inl rfl
        · exact Or.inr hc
      · rw [hpath]
        simp only [List.mem_cons, List.not_mem_nil, or_false] at hc
        rcases hc with rfl | rfl <;> decide
    rintro leaf (_ | ⟨_, _ | ⟨_, h⟩⟩)
    · exact hleaf _ (ascii "a") (by simp) rfl rfl
    · exact hleaf _ (ascii "l") (by simp) rfl rfl
    · cases h
  · refine List.Pairwise.cons ?_ (List.pairwise_singleton _ _)
    intro leaf hleaf
    obtain rfl := List.mem_singleton.mp hleaf
    exact (by decide : stringEqualNoCase (FsPath.string [ascii "t", ascii "a"])
      (FsPath.string [ascii "t", ascii "l"]) = false)

/-- A link to the file beside it survives. -/
theorem metadataSurvives_of_link :
    Storable makeExample (ascii "t") (addFilesImpl [ascii "t"] (linkTree [ascii "a"])) ∧
      MetadataSurvives id makeExample (ascii "t") (linkTree [ascii "a"]) := by
  have hstorable : Storable makeExample (ascii "t")
      (addFilesImpl [ascii "t"] (linkTree [ascii "a"])) := by
    refine ⟨List.cons_ne_nil _ _, ?_, by decide, by decide⟩
    rintro leaf (_ | ⟨_, _ | ⟨_, h⟩⟩) target htarget
    · cases htarget
    · obtain rfl := Option.some.inj htarget
      exact ⟨by decide, by decide⟩
    · cases h
  exact ⟨hstorable, (metadataSurvives_iff id makeExample (ascii "t") (linkTree [ascii "a"])
    (linkTree_clean _).1 (linkTree_clean _).2).mpr hstorable⟩

/-- **A target of two hundred bytes is lost**, and the torrent with it: `lazy_bdecode` fails on
what was written, and the daemon exits. -/
theorem target_lost :
    (∀ leaf ∈ addFilesImpl [ascii "t"] (linkTree [List.replicate 200 97]), leaf.Clean) ∧
      (makeExample.torrent (ascii "t") (linkTree [List.replicate 200 97])).map
        (fun t => (lazyBdecode t.generate.bencode).isNone) = some true ∧
      ¬ MetadataSurvives id makeExample (ascii "t") (linkTree [List.replicate 200 97]) := by
  have hlost : (makeExample.torrent (ascii "t") (linkTree [List.replicate 200 97])).map
      (fun t => (lazyBdecode t.generate.bencode).isNone) = some true := by decide +kernel
  refine ⟨(linkTree_clean _).1, hlost, ?_⟩
  rintro ⟨t, content, -, list, ht, hcontent, -, -, hlist, -⟩
  rw [ht, Option.map_some, Option.some_inj, Option.isNone_iff_eq_none] at hlost
  obtain ⟨rfl, hlen⟩ := eq_of_writeBencode hcontent
  have hdecode : decodeBuffer id t.generate.bencode = .invalidBencoding := by
    rw [decodeBuffer, hlost]
  have hnone := gettor_ofBytes_eq_none hlen (Or.inr hdecode) 0 0
  rw [hlist 0 0] at hnone
  cases hnone

end InstantMirror
