import InstantMirror.Lib.CharRef
import InstantMirror.Lighttpd.Response
import InstantMirror.Rendering

/-!
# The text of a row

What `addToList` appends to a page: a row of a table, with the name of a file or directory in
two places – in the value of an attribute, behind the path of the page, and as the text of a
link. It is written there as it stands in the torrent.

The name is read again by others. The browser takes the row apart and finds an anchor; it
puts the characters in the place of the character references, asks for what the anchor then
refers to, and the web server cuts the request at `#` and `?` and decodes it.
`InstantMirror.LinkEncoded` says that the two get back what was written, and
`InstantMirror.linkEncoded_iff` for which names they do: those in which nothing has a meaning
in one of the two languages that they pass through.
-/

namespace InstantMirror

/-! ### The row -/

/-- The first cell of a row. -/
def rowIcon : RowType → Bytes
  | .directory =>
    ascii "<tr><td valign=\"top\"><img src=\"/icons/bc_folder.png\" alt=\"[DIR]\" " ++
      ascii "width=\"20\"height=\"22\"></td>"
  | .file =>
    ascii "<tr><td valign=\"top\"><img src=\"/icons/bc_document.png\" alt=\"[FILE]\" " ++
      ascii "width=\"20\"height=\"22\"></td>"

/-- The cells behind the link. -/
def rowCells (fileType : RowType) (timeBuf sizeBuf : Bytes) : Bytes :=
  match fileType with
  | .directory =>
    ascii "</td><td align=\"right\">  - </td>" ++
      ascii "<td align=\"right\">  - </td><td>&nbsp;</td></tr>\n"
  | .file =>
    ascii "</td><td align=\"right\"> " ++ timeBuf ++ ascii " </td><td align=\"right\"> " ++
      sizeBuf ++ ascii " </td><td>&nbsp;</td></tr>\n"

/-- The strings that are appended, with what the buffers hold. -/
def Row.text (r : Row) (timeBuf sizeBuf : Bytes) : Bytes :=
  rowIcon r.fileType ++ ascii "<td><a href=\"/" ++ r.baseurl ++ r.filename ++ ascii "\">" ++
    r.filename ++ ascii "</a>" ++ rowCells r.fileType timeBuf sizeBuf

/-- **`addToList`**: what is appended to `indexstr`, if the buffers hold the texts. -/
def addToList (r : Row) : Option Bytes :=
  if (sizeText r.size).length + 1 ≤ 10 then
    (timeText r.mtime).map fun timeBuf => r.text timeBuf (sizeText r.size)
  else none

/-! ### What becomes of the link -/

/-- The value of the first attribute `href`, in double quotes. -/
def hrefValue (html : Bytes) : Bytes :=
  (html.drop (findStr (ascii "href=\"") html + 6).toNat).takeWhile (· ≠ 34)

/-- What the web server makes of a URI: it is cut and decoded. -/
def uriPathOf (uri : Bytes) : Bytes :=
  bufferUrldecodePath (((cstr uri).takeWhile (· ≠ 35)).takeWhile (· ≠ 63))

/-- This is what `http_response_prepare` does. -/
theorem uriPathOf_requestUri (req : HttpRequest) :
    bufferUrldecodePath (splitUri req).pathRaw = uriPathOf req.requestUri := rfl

section Encoded

variable (names : Html.Names)

/-- **The link encodes the name**: the web server gets back what was written, and the browser
finds the anchor and no other. -/
structure LinkEncoded (r : Row) (html : Bytes) : Prop where
  /-- What the web server is asked for. -/
  path : uriPathOf (names.decode true (hrefValue html)) = ascii "/" ++ r.baseurl ++ r.filename
  /-- What the browser finds. -/
  anchor : Html.anchors (Html.tokens html) =
    [⟨[(ascii "href", ascii "/" ++ r.baseurl ++ r.filename)], r.filename.map .char⟩]
  /-- What the browser shows. -/
  text : (Html.anchors (Html.tokens html)).map (Html.Anchor.text names) = [r.filename]

/-- The bytes that end a link: NUL, `"`, `#` and `?`. -/
def linkEnds : Bytes := [0, 34, 35, 63]

theorem forall_linkEnds_iff {P : UInt8 → Prop} :
    (∀ c ∈ linkEnds, P c) ↔ P 0 ∧ P 34 ∧ P 35 ∧ P 63 := by
  simp [linkEnds]

/-- **The condition**: no NUL, `"`, `#` or `?`, no escape and no character reference in the
path; and no markup and no character reference in the name. -/
structure LinkPlain (r : Row) : Prop where
  /-- No byte ends the path. -/
  bytes : ∀ c ∈ linkEnds, c ∉ r.baseurl ++ r.filename
  /-- Nothing in the path is decoded by the web server. -/
  noEscape : NoEscape (ascii "/" ++ r.baseurl ++ r.filename)
  /-- Nothing in the path is decoded by the browser. -/
  noReference : names.NoReference true (ascii "/" ++ r.baseurl ++ r.filename)
  /-- Nothing in the name is a tag. -/
  noMarkup : Html.NoMarkup r.filename
  /-- Nothing in the name is decoded by the browser. -/
  shown : names.NoReference false r.filename

end Encoded

/-! ### The row taken apart -/

/-- What stands before the attribute `href`. -/
def rowHead (fileType : RowType) : Bytes := rowIcon fileType ++ ascii "<td><a "

/-- What the link refers to. -/
def Row.link (r : Row) : Bytes := ascii "/" ++ r.baseurl ++ r.filename

section Row

variable {r : Row} {html : Bytes}

/-- **The shape of a row**: the link, in quotes, and behind it the name, up to the end tag. -/
theorem Row.text_eq (r : Row) (timeBuf sizeBuf : Bytes) :
    r.text timeBuf sizeBuf = rowHead r.fileType ++ ascii "href=\"" ++ (r.link ++ 34 :: 62 ::
      (r.filename ++ 60 :: (ascii "/a>" ++ rowCells r.fileType timeBuf sizeBuf))) := by
  have hquote : ascii "\">" = [34, 62] := by decide
  have hend : ascii "</a>" = 60 :: ascii "/a>" := by decide
  have hopen : ascii "<td><a href=\"/" = ascii "<td><a " ++ ascii "href=\"" ++ ascii "/" := by
    decide
  rw [Row.text, rowHead, Row.link, hquote, hend, hopen]
  simp only [List.append_assoc, List.cons_append, List.nil_append]

theorem addToList_eq_some (h : addToList r = some html) :
    ∃ timeBuf, timeText r.mtime = some timeBuf ∧ html = r.text timeBuf (sizeText r.size) := by
  rw [addToList] at h
  split at h
  · obtain ⟨timeBuf, htime, heq⟩ := Option.map_eq_some_iff.mp h
    exact ⟨timeBuf, htime, heq.symm⟩
  · cases h

theorem hrefValue_eq (h : addToList r = some html) :
    hrefValue html = r.link.takeWhile (· ≠ 34) := by
  obtain ⟨timeBuf, -, rfl⟩ := addToList_eq_some h
  have hclosed : findStr (ascii "href=\"") (rowHead r.fileType ++ ascii "href=\"") =
      (rowHead r.fileType).length := by
    cases r.fileType <;> decide +kernel
  have hlen : ((rowHead r.fileType).length + 6 : ℤ).toNat =
      (rowHead r.fileType ++ ascii "href=\"").length := by
    rw [List.length_append]
    exact Int.toNat_natCast _
  rw [hrefValue, Row.text_eq, findStr_append_right hclosed, hlen, List.drop_left,
    takeWhile_ne_append_cons]

theorem uriPathOf_eq_cutAll (s : Bytes) :
    uriPathOf s = bufferUrldecodePath (cutAll [0, 35, 63] s) := rfl

theorem length_uriPathOf_le (s : Bytes) : (uriPathOf s).length ≤ s.length := by
  rw [uriPathOf_eq_cutAll]
  exact (length_bufferUrldecodePath_le _).trans (length_cutAll_le _ _)

/-- A path that is not made shorter has not been cut or decoded. -/
theorem plain_of_length_uriPathOf {s : Bytes} (h : s.length ≤ (uriPathOf s).length) :
    (∀ c ∈ ([0, 35, 63] : Bytes), c ∉ s) ∧ NoEscape s := by
  rw [uriPathOf_eq_cutAll] at h
  have hbytes := notMem_of_length_cutAll _ (h.trans (length_bufferUrldecodePath_le _))
  rw [cutAll_of_notMem _ hbytes, bufferUrldecodePath, cstr_of_notMem (hbytes 0 (by simp))] at h
  exact ⟨hbytes, noEscape_of_length_urldecodeLoop (le_antisymm (length_urldecodeLoop_le s) h)⟩

theorem uriPathOf_of_plain {s : Bytes} (hbytes : ∀ c ∈ ([0, 35, 63] : Bytes), c ∉ s)
    (hescape : NoEscape s) : uriPathOf s = s := by
  rw [uriPathOf_eq_cutAll, cutAll_of_notMem _ hbytes]
  exact (bufferUrldecodePath_eq_self_iff (hbytes 0 (by simp))).mpr hescape

/-- **A path is read, cut and decoded to itself** exactly if nothing in it ends it or is
decoded. -/
theorem uriPathOf_decode_iff {names : Html.Names} {s : Bytes} :
    uriPathOf (names.decode true (s.takeWhile (· ≠ 34))) = s ↔
      (∀ c ∈ linkEnds, c ∉ s) ∧ NoEscape s ∧ names.NoReference true s := by
  have hends : (∀ c ∈ linkEnds, c ∉ s) ↔ 34 ∉ s ∧ ∀ c ∈ ([0, 35, 63] : Bytes), c ∉ s := by
    simp [linkEnds, and_left_comm]
  rw [hends]
  constructor
  · intro h
    -- nothing of it makes a path longer, so nothing of it has made this one shorter
    have hlen := congrArg List.length h
    have hserver := length_uriPathOf_le (names.decode true (s.takeWhile (· ≠ 34)))
    have hbrowser := names.length_decode_le true (s.takeWhile (· ≠ 34))
    have hquote : s.takeWhile (· ≠ 34) = s :=
      (List.takeWhile_sublist _).eq_of_length_le (by omega)
    rw [hquote] at h hlen hbrowser
    obtain ⟨hbytes, hescape⟩ := plain_of_length_uriPathOf (hbrowser.trans hlen.ge)
    have hdecode : names.decode true s = s := (uriPathOf_of_plain hbytes hescape).symm.trans h
    rw [hdecode] at hbytes hescape
    exact ⟨⟨takeWhile_ne_eq_self_iff.mp hquote, hbytes⟩, hescape,
      Html.Names.decode_eq_self_iff.mp hdecode⟩
  · rintro ⟨⟨hquote, hbytes⟩, hescape, href⟩
    rw [takeWhile_ne_eq_self_iff.mpr hquote, href.decode_eq, uriPathOf_of_plain hbytes hescape]

/-! ### What the browser finds -/

/-- The tokens in front of the link. -/
def headTokens (fileType : RowType) : List Html.Token :=
  (Html.State.data.after (rowHead fileType)).2

theorem after_rowHead (fileType : RowType) :
    Html.State.data.after (rowHead fileType ++ ascii "href=\"") =
      (.value (some 34) ⟨false, Html.anchorName, []⟩ (ascii "href") [], headTokens fileType) := by
  cases fileType <;> decide +kernel

theorem opensAnchor_headTokens (fileType : RowType) :
    ∀ t ∈ headTokens fileType, t.opensAnchor = false := by
  cases fileType <;> decide +kernel

/-- The anchor, and what follows it. -/
theorem tokens_text (hquote : 34 ∉ r.link) (timeBuf sizeBuf : Bytes) :
    Html.tokens (r.text timeBuf sizeBuf) = headTokens r.fileType ++
      .startTag Html.anchorName [(ascii "href", r.link)] ::
        Html.run .data (r.filename ++ 60 :: (ascii "/a>" ++
          rowCells r.fileType timeBuf sizeBuf)) := by
  rw [Html.tokens, Row.text_eq, Html.run_append_of_after (after_rowHead r.fileType),
    Html.run_value hquote]
  rfl

/-- The end of the anchor. -/
theorem run_endTag (cells : Bytes) :
    Html.run .tagOpen (ascii "/a>" ++ cells) = .endTag Html.anchorName :: Html.run .data cells :=
  rfl

theorem notMem_twoDigits (n : ℕ) : 60 ∉ twoDigits n := by
  have hdigit : ∀ d, d < 10 → (60 : UInt8) ≠ UInt8.ofNat (48 + d) := by decide
  rw [twoDigits, List.mem_cons, List.mem_singleton]
  rintro (h | h)
  · exact hdigit _ (Nat.mod_lt _ (by omega)) h
  · exact hdigit _ (Nat.mod_lt _ (by omega)) h

/-- No date has a `<` in it. -/
theorem notMem_text (tm : Tm) : 60 ∉ tm.text := by
  have hmonth : ∀ mon, mon < 12 → 60 ∉ monthName mon := by decide
  have hmon := hmonth tm.mon tm.mon_lt
  have hyear : 60 ∉ intText tm.year := notMem_intText (by decide) (by decide) tm.year
  have hdash : 60 ∉ ascii "-" := by decide
  have hblank : 60 ∉ ascii " " := by decide
  have hcolon : 60 ∉ ascii ":" := by decide
  simp only [Tm.text, List.mem_append, notMem_twoDigits, hyear, hmon, hdash, hblank, hcolon,
    or_self, not_false_eq_true]

/-- The other cells have no anchors. -/
theorem anchors_rowCells (fileType : RowType) {timeBuf sizeBuf : Bytes} (htime : 60 ∉ timeBuf)
    (hsize : 60 ∉ sizeBuf) :
    Html.anchors (Html.run .data (rowCells fileType timeBuf sizeBuf)) = [] := by
  cases fileType with
  | directory =>
    rw [rowCells]
    decide +kernel
  | file =>
    have hfirst : Html.WithoutAnchors (ascii "</td><td align=\"right\"> ") := by decide +kernel
    have hnext : Html.WithoutAnchors (ascii " </td><td align=\"right\"> ") := by decide +kernel
    have hlast : Html.anchors (Html.run .data (ascii " </td><td>&nbsp;</td></tr>\n")) = [] := by
      decide +kernel
    simp only [rowCells, List.append_assoc]
    rw [hfirst.anchors_run, (Html.withoutAnchors_of_notMem htime).anchors_run, hnext.anchors_run,
      (Html.withoutAnchors_of_notMem hsize).anchors_run, hlast]

/-- **The browser finds the anchor and no other** exactly if there is no markup in the name. -/
theorem anchors_text_iff (hslash : slash ∉ r.filename) (hquote : 34 ∉ r.link)
    {timeBuf sizeBuf : Bytes} (htime : 60 ∉ timeBuf) (hsize : 60 ∉ sizeBuf) :
    Html.anchors (Html.tokens (r.text timeBuf sizeBuf)) =
        [⟨[(ascii "href", r.link)], r.filename.map .char⟩] ↔ Html.NoMarkup r.filename := by
  rw [tokens_text hquote, Html.anchors_append (opensAnchor_headTokens r.fileType)]
  constructor
  · intro h
    rw [Html.anchors, if_pos rfl] at h
    have hcontent : (Html.run .data (r.filename ++ 60 :: (ascii "/a>" ++
        rowCells r.fileType timeBuf sizeBuf))).takeWhile (· ≠ .endTag Html.anchorName) =
        r.filename.map .char := congrArg Html.Anchor.content (List.cons.inj h).1
    have hpre : r.filename.map .char <+: Html.run .data (r.filename ++ 60 :: (ascii "/a>" ++
        rowCells r.fileType timeBuf sizeBuf)) := by
      rw [← hcontent]
      exact List.takeWhile_prefix _
    exact Html.noMarkup_of_prefix hslash hpre
  · intro hmarkup
    rw [Html.run_data hmarkup, run_endTag, Html.anchors_startTag,
      anchors_rowCells r.fileType htime hsize]

/-- **The link encodes the name exactly if the name is plain.** -/
theorem linkEncoded_iff (names : Html.Names) {r : Row} {html : Bytes} (hslash : slash ∉ r.filename)
    (h : addToList r = some html) : LinkEncoded names r html ↔ LinkPlain names r := by
  have hpath : uriPathOf (names.decode true (hrefValue html)) = r.link ↔
      (∀ c ∈ linkEnds, c ∉ r.baseurl ++ r.filename) ∧ NoEscape r.link ∧
        names.NoReference true r.link := by
    rw [hrefValue_eq h, uriPathOf_decode_iff]
    have hslash : ∀ c ∈ linkEnds, c ∉ ascii "/" :=
      forall_linkEnds_iff.mpr ⟨by decide, by decide, by decide, by decide⟩
    refine and_congr_left fun _ => forall₂_congr fun c hc => ?_
    rw [Row.link, List.append_assoc, List.mem_append, or_iff_right (hslash c hc)]
  have hquote : (∀ c ∈ linkEnds, c ∉ r.baseurl ++ r.filename) → 34 ∉ r.link := by
    intro hbytes hmem
    rw [Row.link, List.append_assoc, List.mem_append] at hmem
    exact hmem.elim (by decide) (forall_linkEnds_iff.mp hbytes).2.1
  obtain ⟨timeBuf, htime, rfl⟩ := addToList_eq_some h
  obtain ⟨tm, -, rfl, -⟩ := timeText_eq_some_iff.mp htime
  have hanchor := fun hbytes => anchors_text_iff hslash (hquote hbytes) (notMem_text tm)
    (notMem_intText (by decide) (by decide) (r.size.bmod 0x100000000))
  have hshown : ∀ {l : List Html.Anchor}, l = [⟨[(ascii "href", r.link)], r.filename.map .char⟩] →
      (l.map (Html.Anchor.text names) = [r.filename] ↔ names.NoReference false r.filename) := by
    rintro l rfl
    rw [List.map_singleton, Html.Anchor.text_chars, List.singleton_inj,
      Html.Names.decode_eq_self_iff]
  constructor
  · rintro ⟨hlink, hone, htext⟩
    obtain ⟨hbytes, hescape, href⟩ := hpath.mp hlink
    exact ⟨hbytes, hescape, href, (hanchor hbytes).mp hone, (hshown hone).mp htext⟩
  · rintro ⟨hbytes, hescape, href, hmarkup, htext⟩
    have hone := (hanchor hbytes).mpr hmarkup
    exact ⟨hpath.mpr ⟨hbytes, hescape, href⟩, hone, (hshown hone).mpr htext⟩

end Row

/-- A file of the torrent that comes with the sources. -/
theorem linkEncoded_another :
    ∃ html, addToList ⟨.file, ascii "test/", ascii "another2", 2, 1⟩ = some html ∧
      LinkEncoded .markup ⟨.file, ascii "test/", ascii "another2", 2, 1⟩ html := by
  have hrow : (addToList ⟨.file, ascii "test/", ascii "another2", 2, 1⟩).isSome := by decide +kernel
  obtain ⟨html, hhtml⟩ := Option.isSome_iff_exists.mp hrow
  have hbytes := forall_linkEnds_iff (P := (· ∉ ascii "test/" ++ ascii "another2")).mpr
    ⟨by decide, by decide, by decide, by decide⟩
  have hescape : NoEscape (ascii "/" ++ ascii "test/" ++ ascii "another2") := by
    intro before h l after heq
    have hmem : (37 : UInt8) ∈ ascii "/" ++ ascii "test/" ++ ascii "another2" := heq ▸ by simp
    exact absurd hmem (by decide)
  exact ⟨html, hhtml, (linkEncoded_iff .markup (by decide) hhtml).mpr
    ⟨hbytes, hescape, Html.Names.noReference_of_notMem (by decide), by decide,
      Html.Names.noReference_of_notMem (by decide)⟩⟩

/-- What becomes of the link of a name. -/
def linkOf (names : Html.Names) (r : Row) : Option Bytes :=
  (addToList r).map fun html => uriPathOf (names.decode true (hrefValue html))

/-- **What becomes of other names**: a fragment is cut away, an escape and a character reference
are decoded, a quote ends the link, and a tag in the name is a tag in the page. -/
theorem link_not_encoded :
    linkOf .markup ⟨.file, ascii "n/", ascii "a#b", 0, 1⟩ = some (ascii "/n/a") ∧
      linkOf .markup ⟨.file, ascii "n/", ascii "a%20b", 0, 1⟩ = some (ascii "/n/a b") ∧
      linkOf .markup ⟨.file, ascii "n/", ascii "a&amp;b", 0, 1⟩ = some (ascii "/n/a&b") ∧
      linkOf .markup ⟨.directory, ascii "n/", ascii "a\"b", 0, 0⟩ = some (ascii "/n/a") ∧
      (addToList ⟨.directory, ascii "n/", ascii "<a>", 0, 0⟩).map
        (List.length ∘ Html.anchors ∘ Html.tokens) = some 2 ∧
      ∀ html, addToList ⟨.file, ascii "n/", ascii "a#b", 0, 1⟩ = some html →
        ¬ LinkEncoded .markup ⟨.file, ascii "n/", ascii "a#b", 0, 1⟩ html := by
  have hhash : linkOf .markup ⟨.file, ascii "n/", ascii "a#b", 0, 1⟩ = some (ascii "/n/a") := by
    decide +kernel
  refine ⟨hhash, by decide +kernel, by decide +kernel, by decide +kernel, by decide +kernel,
    fun html hhtml h => ?_⟩
  rw [linkOf, hhtml, Option.map_some, h.path] at hhash
  exact absurd hhash (by decide)

end InstantMirror
