import InstantMirror.Libtorrent.Codec
import InstantMirror.Libtorrent.CreateTorrent

/-!
# What is written into a torrent, and what is read from it

`create_torrent::generate` writes a dictionary for each file, and `extract_single_file`
reads one. What is read is repaired on the way: components that are no names of files are
dropped, long ones are cut, bytes that are no UTF-8 are converted, and a file whose path
another one has is renamed. A name that needs no repair is `InstantMirror.CleanName`, and
`InstantMirror.Leaf.Clean` a file whose names need none.

What remains is the target of a link, which goes through a buffer of 200 bytes
(`InstantMirror.Leaf.Kept`). A clean file whose target passes it is read as it was stored
(`InstantMirror.Leaf.extractSingleFile_entry`), and a list of such files with distinct paths
in its order (`InstantMirror.extractFiles_entries`). `InstantMirror.parseInfoSection_decoded`
is the whole section.
-/

namespace InstantMirror

/-! ### Names that are not repaired -/

theorem utf8Length_append {s : Bytes} (h : utf8Length s ≠ 0) (rest : Bytes) :
    utf8Length (s ++ rest) = utf8Length s ∧ utf8Length s ≤ s.length := by
  rcases s with _ | ⟨a, _ | ⟨b, _ | ⟨c, _ | ⟨d, s⟩⟩⟩⟩ <;>
    simp only [utf8Length, List.cons_append, List.nil_append, List.length_cons,
      List.length_nil] at h ⊢ <;> grind

/-- **A valid string in front is taken as it is.** -/
theorem verifyLoop_append {s : Bytes} (rest : Bytes) : ∀ {more : ℕ}, (verifyLoop more s).2 = true →
    more ≤ s.length → (verifyLoop more (s ++ rest)).2 = (verifyLoop 0 rest).2 := by
  induction s with
  | nil =>
    intro more h hle
    obtain rfl : more = 0 := by simpa using hle
    rfl
  | cons c s ih =>
    intro more h hle
    cases more with
    | succ more => exact ih h (by simpa using hle)
    | zero =>
      rw [verifyLoop] at h
      rw [List.cons_append, verifyLoop]
      rcases hlen : utf8Length (c :: s) with _ | more
      · simp [hlen] at h
      · obtain ⟨happ, hbound⟩ := utf8Length_append (s := c :: s) (by omega) rest
        rw [hlen] at h
        rw [← List.cons_append, happ, hlen]
        exact ih h (by simp only [List.length_cons] at hbound; omega)

/-- Conversion makes a string longer. -/
theorem length_verifyLoop (s : Bytes) : ∀ more, s.length ≤ (verifyLoop more s).1.length ∧
    ((verifyLoop more s).2 = false → s.length < (verifyLoop more s).1.length) := by
  induction s with
  | nil => intro more; cases more <;> simp [verifyLoop]
  | cons c s ih =>
    intro more
    cases more with
    | succ more => simpa [verifyLoop] using ih more
    | zero =>
      rw [verifyLoop]
      rcases hlen : utf8Length (c :: s) with _ | more
      · have hle := (ih 0).1
        simp only [convertToUtf8, List.length_append, List.length_cons, List.length_nil]
        exact ⟨by omega, fun _ => by omega⟩
      · simpa using ih more

theorem verifyLoop_of_eq {s : Bytes} (h : verifyEncoding s = s) : (verifyLoop 0 s).2 = true := by
  rw [verifyEncoding] at h
  split at h
  · assumption
  · rename_i hinvalid
    have hlt := (length_verifyLoop s 0).2 (by simpa using hinvalid)
    rw [h] at hlt
    exact absurd hlt (lt_irrefl _)

/-- **A name that is left as it is** by `sanitize_path`, `trim_path_element` and
`verify_encoding`. -/
structure CleanName (c : Bytes) : Prop where
  /-- It is the name of a file. -/
  slash_notMem : slash ∉ c
  /-- `sanitize_path` leaves it. -/
  sanitize : sanitizePath [c] = [c]
  /-- `trim_path_element` leaves it. -/
  trim : trimPathElement c = c
  /-- `verify_encoding` leaves it. -/
  encoding : verifyEncoding c = c

section CleanNames

variable {c : Bytes} {p : FsPath}

theorem CleanName.valid (h : CleanName c) : validPathElement c = true := by
  by_contra hinvalid
  have hnil : sanitizePath [c] = [] := by simp [sanitizePath, hinvalid]
  exact absurd (hnil.symm.trans h.sanitize) (by simp)

theorem CleanName.ne_nil (h : CleanName c) : c ≠ [] := by
  rintro rfl
  exact absurd h.valid (by decide)

theorem CleanName.ofString (h : CleanName c) : FsPath.ofString c = [c] := by
  rw [FsPath.ofString, components_of_notMem h.slash_notMem]
  simp [h.ne_nil]

/-- Components that are short enough. -/
theorem map_trimPathElement (h : ∀ c ∈ p, trimPathElement c = c) : p.map trimPathElement = p :=
  (List.map_congr_left h).trans (List.map_id p)

theorem sanitizePath_of_clean (h : ∀ c ∈ p, CleanName c) : sanitizePath p = p := by
  rw [sanitizePath, List.filter_eq_self.mpr fun c hc => (h c hc).valid]
  exact map_trimPathElement fun c hc => (h c hc).trim

theorem FsPath.string_singleton (c : Bytes) : FsPath.string [c] = c := by
  simp [FsPath.string, appendElement]

/-- What stands in a text is kept by `/=`. -/
theorem exists_foldl_appendElement (p : FsPath) :
    ∀ text, ∃ more, p.foldl appendElement text = text ++ more := by
  induction p with
  | nil => exact fun text => ⟨[], (List.append_nil text).symm⟩
  | cons c p ih =>
    intro text
    obtain ⟨more, hmore⟩ := ih (appendElement text c)
    rw [List.foldl_cons, hmore, appendElement]
    split
    · exact ⟨c ++ more, List.append_assoc ..⟩
    · exact ⟨slash :: c ++ more, List.append_assoc ..⟩

/-- **The first component ends at the first slash.** -/
theorem CleanName.exists_string_eq (h : CleanName c) (d : Bytes) (p : FsPath) :
    ∃ rest, FsPath.string (c :: d :: p) = c ++ slash :: rest := by
  have hlast : ¬ (c = [] ∨ c.getLast? = some slash) := by
    rintro (hnil | hslash)
    · exact h.ne_nil hnil
    · exact h.slash_notMem (List.mem_of_getLast? hslash)
  obtain ⟨more, hmore⟩ := exists_foldl_appendElement p (c ++ slash :: d)
  refine ⟨d ++ more, ?_⟩
  have hfirst : appendElement [] c = c := if_pos (Or.inl rfl)
  have hsecond : appendElement c d = c ++ slash :: d := if_neg hlast
  rw [FsPath.string, List.foldl_cons, List.foldl_cons, hfirst, hsecond, hmore,
    List.append_assoc, List.cons_append]

/-- **The text of a path is valid** if its components are. -/
theorem verifyLoop_foldl (h : ∀ c ∈ p, (verifyLoop 0 c).2 = true) :
    ∀ text, (verifyLoop 0 text).2 = true →
      (verifyLoop 0 (p.foldl appendElement text)).2 = true := by
  induction p with
  | nil => exact fun text htext => htext
  | cons c p ih =>
    intro text htext
    refine ih (fun c hc => h c (by simp [hc])) _ ?_
    have hc := h c (by simp)
    rw [appendElement]
    split
    · rw [verifyLoop_append c htext (by omega), hc]
    · rw [verifyLoop_append _ htext (by omega)]
      -- the slash is a character of its own
      exact hc

theorem FsPath.verifyEncoding_of_clean (h : ∀ c ∈ p, CleanName c) :
    FsPath.verifyEncoding p = p := by
  rw [FsPath.verifyEncoding, FsPath.string,
    verifyLoop_foldl (fun c hc => verifyLoop_of_eq (h c hc).encoding) [] rfl]
  rfl

/-- No component is longer than the text. -/
theorem length_le_foldl : ∀ text, text.length ≤ (p.foldl appendElement text).length ∧
    ∀ c ∈ p, c.length ≤ (p.foldl appendElement text).length := by
  induction p with
  | nil => simp
  | cons d p ih =>
    intro text
    obtain ⟨htext, hall⟩ := ih (appendElement text d)
    have happend : text.length + d.length ≤ (appendElement text d).length := by
      rw [appendElement]
      split <;> simp
    refine ⟨by rw [List.foldl_cons]; omega, fun c hc => ?_⟩
    rw [List.foldl_cons]
    rcases List.mem_cons.mp hc with rfl | hmem
    · omega
    · exact hall c hmem

/-- A target that fits into the buffer has no component to trim. -/
theorem trimPathElement_of_short (h : p.string.length < 200) : ∀ c ∈ p, trimPathElement c = c := by
  intro c hc
  have hle := (length_le_foldl []).2 c hc
  rw [← FsPath.string] at hle
  exact if_neg (by omega)

end CleanNames

/-! ### Numbers and lists of strings -/

/-- **An integer of 63 bits is read as it was written.** -/
theorem intValue_intText {n : ℤ} (hnonneg : 0 ≤ n) (hlt : n < 0x8000000000000000) :
    intValue (intText n) = n := by
  have htext : intText n = decimal n.natAbs := if_neg (by omega)
  obtain ⟨d, ds, hdec, hdigit, -⟩ := exists_decimal_eq_cons n.natAbs
  have hhead : (decimal n.natAbs).head? ≠ some 45 := by
    rw [hdec]
    rintro ⟨⟩
    cases hdigit
  have hparse : parseInt 101 (decimal n.natAbs) 0 = (n, some []) := by
    rw [← List.append_nil (decimal n.natAbs),
      parseInt_append (by decide) fun c hc => isDigit_of_mem_decimal hc, readDigits_decimal,
      parseInt, Int.natAbs_of_nonneg hnonneg]
  rw [htext, intValue, if_neg hhead, hparse]
  exact Int.bmod_eq_of_le (by omega) (by omega)

theorem Entry.decodedList_map_string (p : FsPath) :
    Entry.decodedList (p.map .string) = p.map .string := by
  induction p with
  | nil => rfl
  | cons c p ih => simp [Entry.decodedList, Entry.decoded, ih]

theorem stringElements_map_string (p : FsPath) : stringElements (p.map .string) = some p := by
  induction p with
  | nil => rfl
  | cons c p ih => simp [stringElements, ih]

/-- What is found in a dictionary is what was written under the key. -/
theorem Entry.dictFind_decoded (items : List (Bytes × Entry)) (name : Bytes) :
    (Entry.dict items).decoded.dictFind name = (items.lookup name).map Entry.decoded := by
  change (Entry.decodedItems items).lookup name = _
  induction items with
  | nil => rfl
  | cons item items ih =>
    obtain ⟨key, e⟩ := item
    rw [Entry.decodedItems, List.lookup_cons, List.lookup_cons]
    split
    · rfl
    · exact ih

/-! ### One file -/

/-- The item `attr` of a file. -/
def StoredFile.attrItem (f : StoredFile) : List (Bytes × Entry) :=
  if f.attr = [] then [] else [(ascii "attr", .string f.attr)]

/-- The item `symlink path` of a file. -/
def StoredFile.linkItem (f : StoredFile) : List (Bytes × Entry) :=
  if f.symlinkAttribute then [(ascii "symlink path", listEntry f.symlinkPath)] else []

/-- **The dictionary of one of several files.** -/
theorem StoredFile.entry_eq (f : StoredFile) : f.entry = .dict (f.attrItem ++
    [(ascii "length", .int f.size), (ascii "mtime", .int f.mtime),
      (ascii "path", listEntry f.path.tail)] ++ f.linkItem) := by
  simp only [StoredFile.entry, StoredFile.writeAttributes, StoredFile.attrItem,
    StoredFile.linkItem]
  split_ifs <;> rfl

/-- **A dictionary that says about a file what is to be said about it**, whichever kind of
torrent it belongs to. -/
structure StoredFile.Describes (f : StoredFile) (dict : LazyEntry) : Prop where
  /-- Its size. -/
  length : dict.dictFind (ascii "length") = some (.int (intText f.size))
  /-- Its time. -/
  mtime : dict.dictFind (ascii "mtime") = some (.int (intText f.mtime))
  /-- Its attributes, if it has any. -/
  attr : dict.dictFind (ascii "attr") = if f.attr = [] then none else some (.string f.attr)
  /-- Its target, if it is a link. -/
  symlinkPath : dict.dictFind (ascii "symlink path") =
    if f.symlinkAttribute then some (listEntry f.symlinkPath).decoded else none

section Items

variable {items : List (Bytes × Entry)}

/-- The other keys are found among the other items. -/
theorem StoredFile.lookup_items (f : StoredFile) {key : Bytes} (hattr : key ≠ ascii "attr")
    (hlink : key ≠ ascii "symlink path") :
    (f.attrItem ++ items ++ f.linkItem).lookup key = items.lookup key := by
  have hfront : f.attrItem.lookup key = none := by
    rw [StoredFile.attrItem]
    split_ifs
    · rfl
    · rw [List.lookup_cons, beq_false_of_ne hattr, List.lookup_nil]
  have hback : f.linkItem.lookup key = none := by
    rw [StoredFile.linkItem]
    split_ifs
    · rw [List.lookup_cons, beq_false_of_ne hlink, List.lookup_nil]
    · rfl
  rw [List.lookup_append, List.lookup_append, hfront, hback, Option.or_none, Option.none_or]

/-- **A size and a time between the two items** are all that is to be said. -/
theorem StoredFile.describes_items (f : StoredFile)
    (hlength : items.lookup (ascii "length") = some (.int f.size))
    (hmtime : items.lookup (ascii "mtime") = some (.int f.mtime))
    (hattr : items.lookup (ascii "attr") = none)
    (hlink : items.lookup (ascii "symlink path") = none) :
    f.Describes (Entry.dict (f.attrItem ++ items ++ f.linkItem)).decoded where
  length := by
    rw [Entry.dictFind_decoded, f.lookup_items (by decide) (by decide), hlength, Option.map_some,
      Entry.decoded]
  mtime := by
    rw [Entry.dictFind_decoded, f.lookup_items (by decide) (by decide), hmtime, Option.map_some,
      Entry.decoded]
  attr := by
    have hback : f.linkItem.lookup (ascii "attr") = none := by
      rw [StoredFile.linkItem]
      split_ifs <;> rfl
    rw [Entry.dictFind_decoded, List.lookup_append, List.lookup_append, hattr, hback,
      Option.or_none, Option.or_none, StoredFile.attrItem]
    split_ifs
    · rfl
    · simp [Entry.decoded]
  symlinkPath := by
    have hfront : f.attrItem.lookup (ascii "symlink path") = none := by
      rw [StoredFile.attrItem]
      split_ifs <;> rfl
    rw [Entry.dictFind_decoded, List.lookup_append, List.lookup_append, hlink, hfront,
      Option.none_or, Option.none_or, StoredFile.linkItem]
    split_ifs
    · simp
    · rfl

end Items

theorem StoredFile.describes_entry (f : StoredFile) : f.Describes f.entry.decoded := by
  rw [f.entry_eq]
  exact f.describes_items rfl rfl rfl rfl

/-- **A leaf whose metadata need no repair.** -/
structure Leaf.Clean (leaf : Leaf) : Prop where
  /-- The components of its path are left as they are. -/
  names : ∀ c ∈ leaf.path, CleanName c
  /-- It is no padding file. -/
  noPadding : findStr (ascii "_____padding_file_") leaf.path.string < 0
  /-- Its time is not negative. -/
  mtime_nonneg : 0 ≤ leaf.stat.mtime

/-- **A leaf whose target, if it is a link, passes the buffer.** -/
def Leaf.Kept (leaf : Leaf) : Prop :=
  ∀ target, leaf.target = some target → target ≠ [] ∧ target.string.length < 200

section Leaves

variable {leaf : Leaf} {dict : LazyEntry}

theorem Leaf.Clean.readMtime (h : leaf.Clean) (hdict : leaf.stored.Describes dict) :
    readMtime dict = leaf.stat.mtime := by
  have hvalue : intValue (intText leaf.stat.mtime) = leaf.stat.mtime :=
    intValue_intText h.mtime_nonneg leaf.stat.mtime_lt
  have hmtime : dict.dictFindIntValue (ascii "mtime") (-1) = leaf.stat.mtime := by
    rw [LazyEntry.dictFindIntValue, hdict.mtime]
    exact hvalue
  rw [InstantMirror.readMtime, hmtime, if_pos h.mtime_nonneg]

theorem Leaf.intValue_size (leaf : Leaf) : intValue (intText leaf.size) = leaf.size := by
  have := leaf.size_lt
  exact intValue_intText (by omega) (by omega)

theorem Leaf.Clean.markPadding {f : StoredFile} (h : leaf.Clean) (hf : f.path = leaf.path) :
    f.markPadding = f := by
  rw [StoredFile.markPadding, hf, if_pos h.noPadding]

/-- The list of a target that passed the buffer. -/
theorem Leaf.Kept.dictFindList (h : leaf.Kept) (hdict : leaf.stored.Describes dict)
    {target : FsPath} (htarget : leaf.target = some target) :
    dict.dictFindList (ascii "symlink path") = some (target.map .string) := by
  obtain ⟨hne, hshort⟩ := h target htarget
  have hstored : leaf.stored.symlinkPath = target := by
    rw [Leaf.stored, htarget]
    exact if_pos hshort
  rw [LazyEntry.dictFindList, hdict.symlinkPath, if_pos (by rw [Leaf.stored, htarget]; rfl),
    hstored, listEntry, if_neg hne, Entry.decoded, Entry.decodedList_map_string]

/-- **The attributes and the target of a leaf are read as they were written.** -/
theorem Leaf.Kept.readAttributes (h : leaf.Kept) (hdict : leaf.stored.Describes dict) :
    StoredFile.readAttributes dict
      ⟨leaf.path, leaf.size, leaf.stat.mtime, false, false, false, false, []⟩ = leaf.stored := by
  have hattr : (dict.dictFindString (ascii "attr")).getD [] = leaf.stored.attr := by
    rw [LazyEntry.dictFindString, hdict.attr]
    split_ifs with hnil
    · exact hnil.symm
    · rfl
  rw [StoredFile.readAttributes, hattr]
  rcases htarget : leaf.target with _ | target
  · have hlink : dict.dictFindList (ascii "symlink path") = none := by
      rw [LazyEntry.dictFindList, hdict.symlinkPath, if_neg (by simp [Leaf.stored, htarget])]
    rw [hlink]
    rcases hexec : leaf.stat.executable with _ | _ <;>
      simp [Leaf.stored, StoredFile.attr, htarget, hexec, StoredFile.setAttribute]
  · obtain ⟨-, hshort⟩ := h target htarget
    have helements :
        (target.map LazyEntry.string).map (trimPathElement ·.stringValue) = target := by
      rw [List.map_map]
      exact map_trimPathElement (trimPathElement_of_short hshort)
    have hsize : leaf.size = 0 := leaf.size_of_link (by simp [htarget])
    rw [h.dictFindList hdict htarget]
    simp only [helements]
    rcases hexec : leaf.stat.executable with _ | _ <;>
      simp [Leaf.stored, StoredFile.attr, htarget, hexec, StoredFile.setAttribute, hsize,
        getSymlinkPath, hshort]

/-- **A file is extracted as it was stored.** -/
theorem Leaf.extractSingleFile_entry (hclean : leaf.Clean) (hkept : leaf.Kept) {name : Bytes}
    {rest : FsPath} (hpath : leaf.path = name :: rest) (hrest : rest ≠ []) :
    extractSingleFile leaf.stored.entry.decoded name = some leaf.stored := by
  have hdict := leaf.stored.describes_entry
  have hutf8 : leaf.stored.entry.decoded.dictFindList (ascii "path.utf-8") = none := by
    rw [StoredFile.entry_eq, LazyEntry.dictFindList, Entry.dictFind_decoded,
      StoredFile.lookup_items _ (by decide) (by decide)]
    rfl
  have hlist : leaf.stored.entry.decoded.dictFindList (ascii "path") = some (rest.map .string) := by
    have hentry : listEntry leaf.stored.path.tail = .list (rest.map .string) := by
      rw [Leaf.stored, hpath]
      exact if_neg hrest
    have hfind : leaf.stored.entry.decoded.dictFind (ascii "path") =
        some (Entry.list (rest.map .string)).decoded := by
      rw [StoredFile.entry_eq, Entry.dictFind_decoded,
        StoredFile.lookup_items _ (by decide) (by decide), hentry]
      rfl
    rw [LazyEntry.dictFindList, hfind, Entry.decoded, Entry.decodedList_map_string]
  have hnames : ∀ c ∈ name :: rest, CleanName c := hpath ▸ hclean.names
  have hsanitized :
      sanitizePath (FsPath.ofString name ++ rest.map trimPathElement) = leaf.path := by
    rw [(hnames name (by simp)).ofString,
      map_trimPathElement fun c hc => (hnames c (by simp [hc])).trim, hpath]
    exact sanitizePath_of_clean hnames
  have hsize : intValue (intText leaf.stored.size) = leaf.size := leaf.intValue_size
  rw [extractSingleFile, hdict.length, hutf8, hlist]
  simp only [Option.or, stringElements_map_string, hsanitized, hclean.readMtime hdict, hsize,
    FsPath.verifyEncoding_of_clean hclean.names]
  rw [hclean.markPadding rfl, hkept.readAttributes hdict]

end Leaves

/-! ### All files -/

/-- **Paths that differ in more than case**, of any two of these files. -/
def Distinct (files : List StoredFile) : Prop :=
  files.Pairwise fun f g => stringEqualNoCase f.path.string g.path.string = false

theorem stringEqualNoCase_comm (s₁ s₂ : Bytes) :
    stringEqualNoCase s₁ s₂ = stringEqualNoCase s₂ s₁ := by
  simp only [stringEqualNoCase, eq_comm]

theorem renameDuplicate_of_distinct {target : List StoredFile} {e : StoredFile}
    (h : ∀ k ∈ target, stringEqualNoCase k.path.string e.path.string = false) :
    e.renameDuplicate target = e := by
  have hcount : target.countP (fun k => stringEqualNoCase e.path.string k.path.string) = 0 := by
    rw [List.countP_eq_zero]
    intro k hk
    simp [stringEqualNoCase_comm e.path.string, h k hk]
  rw [StoredFile.renameDuplicate, hcount]
  rfl

/-- **The files are extracted as they were stored**, in their order. -/
theorem extractFiles_entries {name : Bytes} {files : List StoredFile}
    (hfiles : ∀ f ∈ files, extractSingleFile f.entry.decoded name = some f) :
    ∀ target, Distinct (target ++ files) →
      extractFiles name (Entry.decodedList (files.map StoredFile.entry)) target =
        some (target ++ files) := by
  induction files with
  | nil =>
    intro target _
    simp [Entry.decodedList, extractFiles]
  | cons f files ih =>
    intro target hdistinct
    have hnew : ∀ k ∈ target, stringEqualNoCase k.path.string f.path.string = false :=
      fun k hk => (List.pairwise_append.mp hdistinct).2.2 k hk f (by simp)
    rw [List.map_cons, Entry.decodedList, extractFiles, hfiles f (by simp)]
    simp only [renameDuplicate_of_distinct hnew]
    rw [ih (fun g hg => hfiles g (by simp [hg])) _ (by simpa using hdistinct), List.append_assoc]
    rfl

/-! ### The info section -/

/-- **The dictionary of a torrent with a list of files.** -/
theorem CreateTorrent.info_of_multifile {t : CreateTorrent} (hmulti : t.multifile = true)
    (hprivate : t.isPrivate = false) : t.info = .dict
      [(ascii "files", .list (t.files.map StoredFile.entry)), (ascii "name", .string t.name),
        (ascii "piece length", .int t.pieceLength),
        (ascii "pieces", .string (t.pieceHash.flatMap Sha1Hash.bytes))] := by
  rw [CreateTorrent.info, hmulti, hprivate]
  rfl

/-- **The dictionary of a torrent that is a single file.** -/
theorem CreateTorrent.info_of_single {t : CreateTorrent} {f : StoredFile}
    (hmulti : t.multifile = false) (hprivate : t.isPrivate = false) (hfiles : t.files = [f]) :
    t.info = .dict (f.attrItem ++ [(ascii "length", .int f.size), (ascii "mtime", .int f.mtime),
      (ascii "name", .string t.name), (ascii "piece length", .int t.pieceLength),
      (ascii "pieces", .string (t.pieceHash.flatMap Sha1Hash.bytes))] ++ f.linkItem) := by
  rw [CreateTorrent.info, hmulti, hprivate, hfiles]
  simp only [StoredFile.writeAttributes, StoredFile.attrItem, StoredFile.linkItem]
  split_ifs <;> first | rfl | contradiction

section Info

variable {items : List (Bytes × Entry)} {name pieces : Bytes} {files : List StoredFile}

/-- A name that is clean is read as it was written. -/
theorem readName_of_clean (hutf8 : items.lookup (ascii "name.utf-8") = none)
    (hname : items.lookup (ascii "name") = some (.string name)) (hclean : CleanName name) :
    readName (Entry.dict items).decoded = some name := by
  have hno : (Entry.dict items).decoded.dictFindStringValue (ascii "name.utf-8") = [] := by
    rw [LazyEntry.dictFindStringValue, Entry.dictFind_decoded, hutf8]
    rfl
  have hyes : (Entry.dict items).decoded.dictFindStringValue (ascii "name") = name := by
    rw [LazyEntry.dictFindStringValue, Entry.dictFind_decoded, hname]
    rfl
  simp only [readName, hno, hyes, if_true, if_neg hclean.ne_nil, hclean.ofString, hclean.sanitize,
    FsPath.string_singleton, hclean.valid, hclean.encoding]

/-- **A dictionary with a name, files and as many hashes as pieces is a torrent.** -/
theorem parseInfoSection_decoded (sha1 : Bytes → Bytes)
    (hlength : items.lookup (ascii "piece length") = some (.int (256 * 1024)))
    (hutf8 : items.lookup (ascii "name.utf-8") = none)
    (hname : items.lookup (ascii "name") = some (.string name)) (hclean : CleanName name)
    (hfiles : readFiles (Entry.dict items).decoded name = some files)
    (hpieces : items.lookup (ascii "pieces") = some (.string pieces))
    (hcount : (pieces.length : ℤ) = wrap32 (numPieces files (256 * 1024) * 20)) :
    parseInfoSection sha1 (Entry.dict items).decoded =
      some ⟨sha1 (Entry.dict items).bencode, files.map StoredFile.fileEntry, 256 * 1024⟩ := by
  have hpieceLength : wrap32
      ((Entry.dict items).decoded.dictFindIntValue (ascii "piece length") (-1)) = 256 * 1024 := by
    rw [LazyEntry.dictFindIntValue, Entry.dictFind_decoded, hlength]
    decide
  have hcheck : checkPieces (Entry.dict items).decoded (numPieces files (256 * 1024)) = true := by
    rw [checkPieces, Entry.dictFind_decoded, hpieces]
    exact decide_eq_true hcount
  have hdata : (Entry.dict items).decoded =
      .dict (some (Entry.dict items).bencode) (Entry.decodedItems items) := by
    rw [Entry.decoded]
  rw [hdata, parseInfoSection]
  simp only [← hdata, hpieceLength, readName_of_clean hutf8 hname hclean, hfiles, hcheck]
  rfl

end Info

end InstantMirror
