import InstantMirror.Lighttpd.Answer

/-!
# Where an answer ends

If a connection is to be kept, the client has to find the end of each answer, for the next one comes
right behind it. The head that `http_response_write_header` writes says it: the length that
`connection_handle_write_prepare` has put among the headers is that of the write queue, and a client
that looks for it by its name finds this one and no other. So the client reads each answer that the
server makes itself as it was meant (`InstantMirror.readMessage_of_keepAlive`), and any number of
them, one after the other (`InstantMirror.readMessages_of_keepAlive`).
-/

namespace InstantMirror

/-! ### Headers -/

/-- **The value of the header with this name**, which is in small letters. -/
def headerValue (headers : List (Elem (Option Bytes))) (name : Bytes) : Option (Option Bytes) :=
  (headers.find? fun e => lower e.key = name).map Elem.value

/-- **Headers that can be written**: they have no end of a line in them, and no colon in a name. -/
structure Clean (headers : Arr (Option Bytes)) : Prop where
  /-- The array is well formed. -/
  ok : ArrOk headers
  /-- Each header has a place on a line. -/
  line : ∀ e ∈ headers.data, 13 ∉ e.key ∧ 58 ∉ e.key ∧ 13 ∉ e.value.getD []

/-- **A name that the server uses.** -/
structure IsName (key : Bytes) : Prop where
  /-- It can be compared. -/
  plain : PlainKey key
  /-- It has no end of a line in it. -/
  no_cr : 13 ∉ key
  /-- It has no colon in it. -/
  no_colon : 58 ∉ key

/-- A name is looked through byte by byte. -/
theorem isName_of_all (key : Bytes) (h : 13 ∉ key ∧ 58 ∉ key ∧
    (key.all fun b => !(decide (91 ≤ b) && decide (b ≤ 96))) = true) : IsName key :=
  ⟨plainKey_of_all h.2.2, h.1, h.2.1⟩

section Headers

variable {headers : Arr (Option Bytes)} {key value : Bytes}

theorem schar_injective {a b : UInt8} (h : schar a = schar b) : a = b := by
  rw [schar, schar] at h
  have ha := a.toNat_lt
  have hb := b.toNat_lt
  rw [← UInt8.toNat_inj]
  split_ifs at h <;> omega

/-- Keys are the same without regard to case if they are in small letters. -/
theorem foldKey_eq_iff (key key' : Bytes) :
    foldKey key = foldKey key' ↔ lower key = lower key' := by
  have hfold : ∀ key : Bytes, foldKey key = (lower key).map schar ++ [0] := by
    intro key
    simp [foldKey, lower, isUpper, schar]
  rw [hfold, hfold, List.append_left_inj]
  exact (List.map_injective_iff.mpr fun a b h => schar_injective h).eq_iff

theorem Entries.isSome_find_iff_headerValue (r : Entries (Option Bytes)) (key : Bytes) :
    (r.find key).isSome = (headerValue r.elems (lower key)).isSome := by
  simp only [Entries.find, headerValue, foldKey_eq_iff, Option.isSome_map]

/-- The value of a header is changed. -/
theorem headerValue_change (elems : List (Elem (Option Bytes))) (n : ℕ) (key name : Bytes)
    (value : Option Bytes) :
    headerValue (Entries.change ⟨elems, n⟩ key fun old => { old with value := value }).elems name =
      if name = lower key then (headerValue elems name).map fun _ => value
      else headerValue elems name := by
  rw [headerValue, headerValue, Entries.change, List.find?_map]
  dsimp only
  -- a change of values leaves the keys alone, so the same element is found
  have hkey : ((fun e : Elem (Option Bytes) => decide (lower e.key = name)) ∘ fun e =>
      if foldKey e.key = foldKey key then { e with value := value } else e) =
        fun e => decide (lower e.key = name) := by
    funext e
    simp only [Function.comp]
    split_ifs <;> rfl
  have hfound : ∀ e ∈ elems.find? fun e => lower e.key = name, lower e.key = name := by
    intro e he
    simpa using List.find?_some he
  rw [hkey, Option.map_map]
  split_ifs with hname
  · rw [Option.map_map]
    refine Option.map_congr fun e he => ?_
    rw [Function.comp, if_pos ((foldKey_eq_iff _ _).mpr ((hfound e he).trans hname))]
    rfl
  · refine Option.map_congr fun e he => ?_
    rw [Function.comp, if_neg fun h => hname ((hfound e he).symm.trans ((foldKey_eq_iff _ _).mp h))]

/-- A header is appended. -/
theorem headerValue_append {elems : List (Elem (Option Bytes))} {e : Elem (Option Bytes)}
    (hnone : headerValue elems (lower e.key) = none) (name : Bytes) :
    headerValue (elems ++ [e]) name =
      if name = lower e.key then some e.value else headerValue elems name := by
  rw [headerValue, List.find?_append]
  split_ifs with hname
  · subst hname
    rw [headerValue, Option.map_eq_none_iff] at hnone
    simp [hnone]
  · have hne : ¬ lower e.key = name := fun h => hname h.symm
    simp [headerValue, hne]

/-- **What an operation does to the headers.** -/
structure SetsHeader (headers headers' : Arr (Option Bytes)) (key : Bytes) (value : Option Bytes) :
    Prop where
  /-- They can still be written. -/
  clean : Clean headers'
  /-- There is one more at most. -/
  length_le : headers'.data.length ≤ headers.data.length + 1
  /-- The header has the value. -/
  value_eq : headerValue headers'.data (lower key) = some value
  /-- The others have theirs. -/
  others : ∀ name ≠ lower key, headerValue headers'.data name = headerValue headers.data name

/-- **`response_header_insert`** of a header that is not there. -/
theorem setsHeader_insert (h : Clean headers) (hkey : IsName key) (hvalue : 13 ∉ value)
    (hmax : headers.data.length < intMax) (hnone : headerValue headers.data (lower key) = none) :
    SetsHeader headers (responseHeaderInsert headers key value) key (some value) := by
  obtain ⟨hok, hentries⟩ : ArrOk (responseHeaderInsert headers key value) ∧
      entriesOf (responseHeaderInsert headers key value) =
        (entriesOf headers).insert dataResponseInsertDup ⟨some key, false, some value⟩ :=
    h.ok.arrayInsertKey hkey.plain hmax (some value)
  have hfind : ¬ (Entries.find ⟨headers.data, headers.uniqueNdx⟩ key).isSome = true := by
    rw [Entries.isSome_find_iff_headerValue, hnone]
    simp
  have hdata : (responseHeaderInsert headers key value).data =
      headers.data ++ [⟨key, false, some value⟩] := by
    have helems := congrArg Entries.elems hentries
    rw [Entries.insert, withUniqueKey] at helems
    dsimp only at helems
    rw [entriesOf, entriesOf, if_neg hfind] at helems
    exact helems
  refine ⟨⟨hok, fun e he => ?_⟩, ?_, ?_, fun name hname => ?_⟩
  · rw [hdata] at he
    rcases List.mem_append.mp he with he | he
    · exact h.line e he
    · rw [List.mem_singleton.mp he]
      exact ⟨hkey.no_cr, hkey.no_colon, hvalue⟩
  · rw [hdata, List.length_append, List.length_singleton]
  · rw [hdata, headerValue_append hnone, if_pos rfl]
  · rw [hdata, headerValue_append hnone, if_neg hname]

/-- The value of a header that is there is set. -/
theorem setsHeader_set (h : Clean headers) (hkey : IsName key) {value : Option Bytes}
    (hvalue : 13 ∉ value.getD []) (hmax : headers.data.length < intMax)
    (hsome : (headerValue headers.data (lower key)).isSome = true) :
    SetsHeader headers (arraySetKeyValue dataResponseInsertDup headers key value) key value := by
  obtain ⟨hok, hentries⟩ : ArrOk (arraySetKeyValue dataResponseInsertDup headers key value) ∧
      entriesOf (arraySetKeyValue dataResponseInsertDup headers key value) =
        (entriesOf headers).set dataResponseInsertDup key value :=
    h.ok.arraySetKeyValue hkey.plain hmax value
  have hfind : (Entries.find ⟨headers.data, headers.uniqueNdx⟩ key).isSome = true := by
    rw [Entries.isSome_find_iff_headerValue, hsome]
  have hdata : (arraySetKeyValue dataResponseInsertDup headers key value).data =
      (Entries.change ⟨headers.data, headers.uniqueNdx⟩ key
        fun old => { old with value := value }).elems := by
    have helems := congrArg Entries.elems hentries
    rw [Entries.set, entriesOf, entriesOf, if_pos hfind] at helems
    exact helems
  refine ⟨⟨hok, fun e he => ?_⟩, ?_, ?_, fun name hname => ?_⟩
  · rw [hdata] at he
    obtain ⟨e', he', rfl⟩ := List.mem_map.mp he
    obtain ⟨hcr, hcolon, hval⟩ := h.line e' he'
    split_ifs
    · exact ⟨hcr, hcolon, hvalue⟩
    · exact ⟨hcr, hcolon, hval⟩
  · rw [hdata, Entries.change, List.length_map]
    exact Nat.le_succ _
  · obtain ⟨old, hold⟩ := Option.isSome_iff_exists.mp hsome
    rw [hdata, headerValue_change, if_pos rfl, hold]
    rfl
  · rw [hdata, headerValue_change, if_neg hname]

/-- **`response_header_overwrite`.** -/
theorem setsHeader_overwrite (h : Clean headers) (hkey : IsName key) (hvalue : 13 ∉ value)
    (hnul : 0 ∉ value) (hmax : headers.data.length < intMax) :
    SetsHeader headers (responseHeaderOverwrite headers key value) key (some value) := by
  have hget := h.ok.arrayGetElement_eq hkey.plain
  rw [responseHeaderOverwrite, hget, Entries.isSome_find_iff_headerValue]
  split_ifs with hsome
  -- the value is copied as a C string, up to a NUL
  · have hcstr : cstr value = value := takeWhile_ne_eq_self_iff.mpr hnul
    rw [hcstr]
    exact setsHeader_set h hkey hvalue hmax hsome
  · have hnone : headerValue headers.data (lower key) = none := by simpa [entriesOf] using hsome
    exact setsHeader_insert h hkey hvalue hmax hnone

end Headers

/-! ### Lines -/

section Lines

variable {conf : AnswerConf} {status : ℕ} {elems : List (Elem (Option Bytes))} {name : Bytes}

/-- The names that a client looks for are not among those that are left out. -/
structure IsWanted (name : Bytes) : Prop where
  ne_nil : name ≠ []
  own : name.take 11 ≠ ascii "x-lighttpd-"
  sendfile : name ≠ ascii "x-sendfile"
  encoding : name ≠ ascii "content-encoding"
  date : name ≠ ascii "date"
  server : name ≠ ascii "server"

theorem lower_take (n : ℕ) (key : Bytes) : lower (key.take n) = (lower key).take n := by
  rw [lower, lower, List.map_take]

/-- A header with such a name is written. -/
theorem isWritten_of_isWanted {e : Elem (Option Bytes)} (hname : IsWanted (lower e.key))
    (hvalue : e.value.isSome = true) (status : ℕ) : isWritten status e = true := by
  have hkey : e.key ≠ [] := by
    intro h
    exact hname.ne_nil (by rw [h]; rfl)
  simp [isWritten, isShown, hvalue, hkey, lower_take, hname.own, hname.sendfile, hname.encoding]

theorem field?_append (name : Bytes) (lines lines' : List Bytes) :
    field? name (lines ++ lines') = (field? name lines).or (field? name lines') := by
  rw [field?, List.find?_append, Option.map_or]
  rfl

/-- A header is found among the lines of the headers. -/
theorem field?_map (helems : ∀ e ∈ elems, 58 ∉ e.key) (name : Bytes) :
    field? name (elems.map fun e => writeField e.key (e.value.getD [])) =
      (elems.find? fun e => lower e.key = name).map fun e =>
        fieldValue (writeField e.key (e.value.getD [])) := by
  induction elems with
  | nil => rfl
  | cons e elems ih =>
    obtain ⟨he, helems⟩ := List.forall_mem_cons.mp helems
    rw [List.map_cons, field?, List.find?_cons, List.find?_cons, fieldName_writeField he]
    cases decide (lower e.key = name) with
    | false => exact ih helems
    | true => rfl

/-- **A header is found by a client.** -/
theorem field?_headerLines {value : Bytes} (helems : ∀ e ∈ elems, 58 ∉ e.key)
    (hname : IsWanted name) (hvalue : headerValue elems name = some (some value))
    (hblank : value.head? ≠ some 32) (conf : AnswerConf) (status : ℕ) :
    field? name (headerLines conf status elems) = some value := by
  obtain ⟨e, he, heq⟩ := Option.map_eq_some_iff.mp hvalue
  obtain ⟨hkey, before, after, rfl, hbefore⟩ := List.find?_eq_some_iff_append.mp he
  have hlower : lower e.key = name := by simpa using hkey
  have hwritten : isWritten status e = true :=
    isWritten_of_isWanted (hlower ▸ hname) (by rw [heq]; rfl) status
  have hfind : ((before ++ e :: after).filter (isWritten status)).find?
      (fun e => lower e.key = name) = some e := by
    rw [List.find?_filter, List.find?_append, List.find?_eq_none.mpr]
    · simp [hwritten, hlower]
    · intro a ha
      have := hbefore a ha
      simp_all
  have hclean : ∀ e' ∈ (before ++ e :: after).filter (isWritten status), 58 ∉ e'.key :=
    fun e' he' => helems e' (List.mem_of_mem_filter he')
  rw [headerLines, List.append_assoc, field?_append, field?_map hclean, hfind, Option.map_some,
    Option.some_or, heq, Option.getD_some,
    fieldValue_writeField (helems e (by simp)) hblank]

/-- **A header that is not there is not found.** -/
theorem field?_headerLines_none (helems : ∀ e ∈ elems, 58 ∉ e.key) (hname : IsWanted name)
    (hnone : headerValue elems name = none) (conf : AnswerConf) (status : ℕ) :
    field? name (headerLines conf status elems) = none := by
  have hall : ∀ e ∈ elems, lower e.key ≠ name := by
    rw [headerValue, Option.map_eq_none_iff, List.find?_eq_none] at hnone
    simpa using hnone
  have hclean : ∀ e' ∈ elems.filter (isWritten status), 58 ∉ e'.key :=
    fun e' he' => helems e' (List.mem_of_mem_filter he')
  have hfind : (elems.filter (isWritten status)).find? (fun e => lower e.key = name) = none := by
    rw [List.find?_eq_none]
    intro e he
    simpa using hall e (List.mem_of_mem_filter he)
  -- the lines that are added behind the headers have other names
  have hline : ∀ key value : Bytes, 58 ∉ key → name ≠ lower key →
      field? name [writeField key value] = none := by
    intro key value hkey hne
    simp [field?, fieldName_writeField hkey, Ne.symm hne]
  have hdate : ∀ value, field? name [writeField (ascii "Date") value] = none := fun value =>
    hline _ value (by decide) hname.date
  have hserver : ∀ value, field? name [writeField (ascii "Server") value] = none := fun value =>
    hline _ value (by decide) hname.server
  rw [headerLines, field?_append, field?_append, field?_map hclean, hfind, Option.map_none,
    Option.none_or, Option.or_eq_none_iff]
  constructor
  · split_ifs
    · rfl
    · exact hdate _
  · split_ifs
    · rfl
    · rw [serverLine]
      split
      · exact hserver _
      · split_ifs
        · rfl
        · exact hserver _

/-- **What the head is made of has no end of a line in it.** -/
structure AnswerConf.Ok (files : Bytes → Bytes) (conf : AnswerConf) : Prop where
  /-- `ts_date_str`. -/
  date : 13 ∉ conf.tsDateStr
  /-- `PACKAGE_DESC`. -/
  package : 13 ∉ conf.packageDesc
  /-- `server_tag`. -/
  tag : ∀ tag ∈ conf.serverTag, 13 ∉ tag
  /-- A file has the size that is known of it, and a type. -/
  stat : ∀ path size contentType, conf.stat path = some (size, contentType) →
    size = (files path).length ∧ 13 ∉ contentType ∧ 0 ∉ contentType

theorem writeField_ok {key value : Bytes} (hkey : 13 ∉ key) (hvalue : 13 ∉ value) :
    writeField key value ≠ [] ∧ 13 ∉ writeField key value := by
  simp [writeField, hkey, hvalue]

theorem encodeHttpHeader_ok {s : Bytes} (hs : 13 ∉ s) : 13 ∉ encodeHttpHeader s := by
  intro h
  obtain ⟨c, hc, hmem⟩ := List.mem_flatMap.mp h
  split_ifs at hmem
  · exact absurd hmem (by decide)
  · exact hs (List.mem_singleton.mp hmem ▸ hc)

/-- **The lines of the headers can be told apart.** -/
theorem headerLines_ok {files : Bytes → Bytes} (hconf : conf.Ok files)
    (helems : ∀ e ∈ elems, 13 ∉ e.key ∧ 58 ∉ e.key ∧ 13 ∉ e.value.getD []) (status : ℕ) :
    ∀ l ∈ headerLines conf status elems, l ≠ [] ∧ 13 ∉ l := by
  intro l hl
  rw [headerLines, List.mem_append, List.mem_append] at hl
  rcases hl with (hl | hl) | hl
  · obtain ⟨e, he, rfl⟩ := List.mem_map.mp hl
    obtain ⟨hkey, -, hvalue⟩ := helems e (List.mem_of_mem_filter he)
    exact writeField_ok hkey hvalue
  · split_ifs at hl
    · exact absurd hl List.not_mem_nil
    · rw [List.mem_singleton.mp hl]
      exact writeField_ok (by decide) hconf.date
  · split_ifs at hl
    · exact absurd hl List.not_mem_nil
    · rw [serverLine] at hl
      split at hl
      · rw [List.mem_singleton.mp hl]
        exact writeField_ok (by decide) hconf.package
      · split_ifs at hl
        · exact absurd hl List.not_mem_nil
        · rw [List.mem_singleton.mp hl]
          exact writeField_ok (by decide) (encodeHttpHeader_ok (hconf.tag _ ‹_›))

theorem not_mem_getHttpStatusName (status : ℕ) : 13 ∉ getHttpStatusName status := by
  have hall : ∀ p ∈ httpStatusNames, 13 ∉ p.2 := by decide +kernel
  rw [getHttpStatusName]
  rcases hlookup : httpStatusNames.lookup status with _ | name
  · exact List.not_mem_nil
  · obtain ⟨before, after, hnames, -⟩ := List.lookup_eq_some_iff.mp hlookup
    exact hall (status, name) (hnames ▸ List.mem_append_right _ List.mem_cons_self)

/-- **The status is read as it was written.** -/
theorem statusLine_ok (a : HttpAnswer) :
    (statusLine a ≠ [] ∧ 13 ∉ statusLine a) ∧ statusOf (statusLine a) = some a.httpStatus := by
  obtain ⟨version, hlen, hcr, hline⟩ : ∃ version : Bytes, version.length = 9 ∧ 13 ∉ version ∧
      statusLine a =
        version ++ (decimal a.httpStatus ++ (32 :: getHttpStatusName a.httpStatus)) := by
    rw [statusLine]
    split_ifs
    · exact ⟨ascii "HTTP/1.1 ", by decide, by decide, by simp [ascii]⟩
    · exact ⟨ascii "HTTP/1.0 ", by decide, by decide, by simp [ascii]⟩
  have hdecimal : 13 ∉ decimal a.httpStatus := fun h =>
    absurd (isDigit_of_mem_decimal h) (by decide)
  have hspan := (span_decimal a.httpStatus (32 :: getHttpStatusName a.httpStatus)
    (fun c hc => Option.some.inj hc ▸ by decide)).1
  refine ⟨⟨?_, ?_⟩, ?_⟩
  · intro h
    rw [hline, List.append_eq_nil_iff] at h
    rw [h.1] at hlen
    cases hlen
  · rw [hline]
    simp [hcr, hdecimal, not_mem_getHttpStatusName]
  · rw [statusOf, hline, List.drop_left' hlen, hspan, readNumber_decimal]

/-- The head is written line by line. -/
theorem headText_eq (conf : AnswerConf) (a : HttpAnswer) : headText conf a =
    writeLines (statusLine a :: headerLines conf a.httpStatus a.headers.data) ++ crlf := by
  have hlines : ∀ (line : Bytes) (lines : List Bytes),
      line ++ lines.flatMap (crlf ++ ·) ++ crlf = writeLines (line :: lines) := by
    intro line lines
    induction lines generalizing line with
    | nil => simp [writeLines]
    | cons line' lines ih =>
      have := ih line'
      simp only [writeLines, List.flatMap_cons, List.append_assoc] at this ⊢
      rw [this]
  rw [headText, hlines]

end Lines

/-! ### From one stage to the next -/

section Stages

variable {files : Bytes → Bytes} {conf : AnswerConf} {a : HttpAnswer} {n : ℕ}

/-- **A chunk of which nothing has been sent.** -/
def OutChunk.Fresh (files : Bytes → Bytes) : OutChunk → Prop
  | .mem c => c.offset = 0
  | .file name start length offset => offset = 0 ∧ start + length ≤ (files name).length

/-- **The length of the queue** is that of what will be sent. -/
theorem length_unsent {q : List OutChunk} (hq : ∀ c ∈ q, c.Fresh files) :
    (unsent files q).length = writeQueueLength q := by
  induction q with
  | nil => rfl
  | cons c q ih =>
    obtain ⟨hc, hq⟩ := List.forall_mem_cons.mp hq
    have hcons : unsent files (c :: q) = c.data files ++ unsent files q := rfl
    rw [hcons, List.length_append, ih hq]
    rcases c with ⟨mem, offset⟩ | ⟨name, start, length, offset⟩
    · obtain rfl : offset = 0 := hc
      cases mem <;> simp [writeQueueLength, OutChunk.data, Chunk.data, Chunk.bytes, Chunk.used]
    · obtain ⟨rfl, hle⟩ : offset = 0 ∧ start + length ≤ (files name).length := hc
      simp only [writeQueueLength, OutChunk.data, Nat.add_zero, Nat.sub_zero, List.length_take,
        List.length_drop]
      omega

/-- **An answer that the server makes itself**, with room for so many headers: it is not sent in
chunks, no length is known yet, and nothing has been sent. -/
structure HttpAnswer.Sound (files : Bytes → Bytes) (n : ℕ) (a : HttpAnswer) : Prop where
  /-- It is not sent in chunks. -/
  chunked : a.chunked = false
  /-- No module has set the length. -/
  parsed : a.parsedContentLength = false
  /-- The status is that of an answer. -/
  status : a.httpStatus / 100 ≠ 1
  /-- The headers can be written. -/
  clean : Clean a.headers
  /-- There is room for more. -/
  room : a.headers.data.length + n ≤ intMax
  /-- No header says that it is sent in chunks. -/
  transfer : headerValue a.headers.data (ascii "transfer-encoding") = none
  /-- Nothing has been sent. -/
  queue : ∀ c ∈ a.writeQueue, c.Fresh files

theorem HttpAnswer.Sound.mono (h : a.Sound files (n + 1)) : a.Sound files n :=
  { h with room := by have := h.room; omega }

/-- A header is set. -/
theorem HttpAnswer.Sound.setHeader (h : a.Sound files (n + 1)) {headers : Arr (Option Bytes)}
    {key : Bytes} {value : Option Bytes} (hset : SetsHeader a.headers headers key value)
    (hkey : ascii "transfer-encoding" ≠ lower key) :
    HttpAnswer.Sound files n { a with headers := headers } :=
  { h with
    clean := hset.clean
    room := by
      have := h.room
      have := hset.length_le
      dsimp only
      omega
    transfer := (hset.others _ hkey).trans h.transfer }

theorem HttpAnswer.Sound.lt_intMax (h : a.Sound files (n + 1)) :
    a.headers.data.length < intMax := by
  have := h.room
  omega

/-- **`OPTIONS` is answered with `Allow`**, which must not be there before. -/
theorem HttpAnswer.Sound.checkMethod (h : a.Sound files (n + 1))
    (hallow : a.httpMethod = .options →
      headerValue a.headers.data (lower (ascii "Allow")) = none) :
    (checkMethod a).Sound files n := by
  rw [InstantMirror.checkMethod]
  split_ifs with _ hoptions
  · have hset : SetsHeader a.headers _ _ (some (ascii "OPTIONS, GET, HEAD, POST")) :=
      setsHeader_insert h.clean (isName_of_all (ascii "Allow") (by decide)) (by decide)
        h.lt_intMax (hallow hoptions)
    exact { h.setHeader hset (by decide) with
      chunked := rfl
      parsed := rfl
      status := show 200 / 100 ≠ 1 by decide
      queue := fun c hc => absurd hc List.not_mem_nil }
  · exact h.mono
  · exact h.mono
  · exact h.mono
  · exact { h.mono with status := show 501 / 100 ≠ 1 by decide }
  · exact h.mono

theorem HttpAnswer.Sound.checkStatus (h : a.Sound files n) : (checkStatus a).Sound files n := by
  rw [InstantMirror.checkStatus]
  split_ifs
  · exact { h with status := show 403 / 100 ≠ 1 by decide }
  · exact h

/-- The page of an error does not change the status. -/
theorem appendErrorPage_eq (conf : AnswerConf) (a : HttpAnswer) :
    (appendErrorPage conf a).httpStatus = a.httpStatus ∧
      (appendErrorPage conf a).httpMethod = a.httpMethod := by
  rw [appendErrorPage]
  split <;> exact ⟨rfl, rfl⟩

/-- The body does not change the status. -/
theorem prepareBody_eq (conf : AnswerConf) (a : HttpAnswer) :
    (prepareBody conf a).httpStatus = a.httpStatus ∧
      (prepareBody conf a).httpMethod = a.httpMethod := by
  rw [prepareBody]
  split_ifs
  · exact ⟨rfl, rfl⟩
  · exact ⟨rfl, rfl⟩
  · exact appendErrorPage_eq conf a

theorem HttpAnswer.Sound.appendErrorPage (hconf : conf.Ok files) (h : a.Sound files (n + 1)) :
    (appendErrorPage conf a).Sound files n := by
  rw [InstantMirror.appendErrorPage]
  rcases hfile : errorFile conf a.httpStatus with _ | ⟨path, size, contentType⟩
  · have hset : SetsHeader a.headers _ _ (some (ascii "text/html")) :=
      setsHeader_overwrite h.clean (isName_of_all (ascii "Content-Type") (by decide)) (by decide)
        (by decide) h.lt_intMax
    refine { h.setHeader hset (by decide) with queue := fun c hc => ?_ }
    rcases List.mem_append.mp hc with hc | hc
    · exact h.queue c hc
    · rw [List.mem_singleton.mp hc]
      rfl
  · obtain ⟨start, -, hstat⟩ := Option.bind_eq_some_iff.mp hfile
    obtain ⟨sce, hsce, heq⟩ := Option.map_eq_some_iff.mp hstat
    obtain ⟨rfl, rfl⟩ := Prod.mk.inj heq
    obtain ⟨hsize, hcr, hnul⟩ := hconf.stat _ _ _ hsce
    have hset := setsHeader_overwrite h.clean (isName_of_all (ascii "Content-Type") (by decide)) hcr
      hnul h.lt_intMax
    refine { h.setHeader hset (by decide) with queue := fun c hc => ?_ }
    dsimp only at hc
    rw [h.chunked, httpChunkAppendFile, beginChunk, endChunk, if_neg (by simp), if_neg (by simp),
      chunkqueueAppendFile] at hc
    split_ifs at hc
    · exact h.queue c hc
    · rcases List.mem_append.mp hc with hc | hc
      · exact h.queue c hc
      · rw [List.mem_singleton.mp hc]
        exact ⟨rfl, by omega⟩

/-- **The body**; there is none with some statuses. -/
theorem HttpAnswer.Sound.prepareBody (hconf : conf.Ok files) (h : a.Sound files (n + 1)) :
    (prepareBody conf a).Sound files n ∧
      ((prepareBody conf a).httpStatus = 204 ∨ (prepareBody conf a).httpStatus = 304 →
        (prepareBody conf a).writeQueue = []) := by
  rw [(prepareBody_eq conf a).1, InstantMirror.prepareBody]
  split_ifs with hnone hother
  · exact ⟨{ h.mono with
      chunked := rfl
      parsed := rfl
      queue := fun c hc => absurd hc List.not_mem_nil }, fun _ => rfl⟩
  · exact ⟨h.mono, fun hstatus => absurd (hstatus.imp_right Or.inr) hnone⟩
  · exact ⟨h.appendErrorPage hconf, fun hstatus => absurd (hstatus.imp_right Or.inr) hnone⟩

/-- **The length** of a body that is there. -/
theorem HttpAnswer.Sound.setLength (h : a.Sound files (n + 1)) :
    (setLength a).Sound files n ∧
      (a.httpStatus ≠ 204 → a.httpStatus ≠ 304 → a.httpMethod ≠ .head →
        headerValue (setLength a).headers.data (ascii "content-length") =
          some (some (decimal (writeQueueLength a.writeQueue)))) := by
  have hlengthName : IsName (ascii "Content-Length") := isName_of_all _ (by decide)
  have hunknown : ¬ (a.parsedContentLength || a.chunked) = true := by
    rw [h.parsed, h.chunked]
    exact Bool.false_ne_true
  -- a status that has no body needs no length
  have hsomeBody : a.httpStatus ≠ 204 → a.httpStatus ≠ 304 →
      ¬(a.httpStatus / 100 = 1 ∨ a.httpStatus = 204 ∨ a.httpStatus = 304) :=
    fun h204 h304 => not_or.mpr ⟨h.status, not_or.mpr ⟨h204, h304⟩⟩
  rw [InstantMirror.setLength, if_neg hunknown]
  split_ifs with hbodyless hsome hlength
  · have hname : (headerValue a.headers.data (lower (ascii "Content-Length"))).isSome = true := by
      rw [h.clean.ok.arrayGetElement_eq hlengthName.plain,
        Entries.isSome_find_iff_headerValue] at hsome
      exact hsome
    have hset : SetsHeader a.headers _ _ none :=
      setsHeader_set h.clean hlengthName List.not_mem_nil h.lt_intMax hname
    exact ⟨h.setHeader hset (by decide), fun h204 h304 _ => absurd hbodyless (hsomeBody h204 h304)⟩
  · exact ⟨h.mono, fun h204 h304 _ => absurd hbodyless (hsomeBody h204 h304)⟩
  · have hset := setsHeader_overwrite h.clean hlengthName (notMem_decimal (by decide) _)
      (notMem_decimal (by decide) (writeQueueLength a.writeQueue)) h.lt_intMax
    exact ⟨h.setHeader hset (by decide), fun _ _ _ => hset.value_eq⟩
  · exact ⟨h.mono, fun _ _ hhead => absurd (Or.inr hhead) hlength⟩

/-- **The headers are completed**: `Connection` says whether the connection is kept. -/
theorem HttpAnswer.Sound.completeHeaders (h : a.Sound files (n + 1)) (conf : AnswerConf) :
    (completeHeaders conf a).Sound files n ∧
      headerValue (completeHeaders conf a).headers.data (ascii "content-length") =
        headerValue a.headers.data (ascii "content-length") := by
  have hlimit : (limitRequests conf a).Sound files (n + 1) ∧
      (limitRequests conf a).headers = a.headers := by
    rw [limitRequests]
    split_ifs
    · exact ⟨{ h with }, rfl⟩
    · exact ⟨h, rfl⟩
  obtain ⟨hlimit, hsame⟩ := hlimit
  rw [← hsame]
  generalize hb : limitRequests conf a = b at hlimit ⊢
  have hconnection : (setConnection b).Sound files n ∧
      headerValue (setConnection b).headers.data (ascii "content-length") =
        headerValue b.headers.data (ascii "content-length") := by
    rw [setConnection]
    by_cases hsay : b.http11 = false ∨ b.keepAlive = false
    · rw [if_pos hsay]
      have hset : SetsHeader b.headers _ _
          (some (if b.keepAlive then ascii "keep-alive" else ascii "close")) :=
        setsHeader_overwrite hlimit.clean (isName_of_all (ascii "Connection") (by decide))
          (by cases b.keepAlive <;> decide) (by cases b.keepAlive <;> decide) hlimit.lt_intMax
      exact ⟨hlimit.setHeader hset (by decide), hset.others _ (by decide)⟩
    · rw [if_neg hsay]
      exact ⟨hlimit.mono, rfl⟩
  -- an answer that is not in chunks gets no further header
  have htransfer : InstantMirror.completeHeaders conf a = setConnection b := by
    rw [InstantMirror.completeHeaders, hb, setTransferEncoding, if_neg]
    rw [hconnection.1.chunked]
    exact Bool.false_ne_true
  rw [htransfer]
  exact hconnection

theorem httpMethod_prepareBody (conf : AnswerConf) (a : HttpAnswer) :
    (prepareBody conf (checkStatus (checkMethod a))).httpMethod = a.httpMethod := by
  have hstatus : ∀ b, (checkStatus b).httpMethod = b.httpMethod := by
    intro b
    rw [checkStatus]
    split_ifs <;> rfl
  rw [(prepareBody_eq conf _).2, hstatus, checkMethod]
  split_ifs <;> rfl

/-- What the headers do not change. -/
theorem completeHeaders_eq (conf : AnswerConf) (a : HttpAnswer) :
    (completeHeaders conf a).httpStatus = a.httpStatus ∧
      (completeHeaders conf a).writeQueue = a.writeQueue ∧
      ((completeHeaders conf a).keepAlive = true → a.keepAlive = true) := by
  have htransfer : ∀ b, (setTransferEncoding b).httpStatus = b.httpStatus ∧
      (setTransferEncoding b).writeQueue = b.writeQueue ∧
      (setTransferEncoding b).keepAlive = b.keepAlive := by
    intro b
    rw [setTransferEncoding]
    split_ifs <;> exact ⟨rfl, rfl, rfl⟩
  have hconnection : ∀ b, (setConnection b).httpStatus = b.httpStatus ∧
      (setConnection b).writeQueue = b.writeQueue ∧ (setConnection b).keepAlive = b.keepAlive := by
    intro b
    rw [setConnection]
    split_ifs <;> exact ⟨rfl, rfl, rfl⟩
  obtain ⟨h1, h2, h3⟩ := htransfer (setConnection (limitRequests conf a))
  obtain ⟨h4, h5, h6⟩ := hconnection (limitRequests conf a)
  rw [completeHeaders, h1, h2, h3, h4, h5, h6, limitRequests]
  split_ifs
  · exact ⟨rfl, rfl, fun h => h.elim⟩
  · exact ⟨rfl, rfl, id⟩

theorem setLength_eq (a : HttpAnswer) : (setLength a).httpStatus = a.httpStatus ∧
    (setLength a).writeQueue = a.writeQueue ∧ (setLength a).httpMethod = a.httpMethod := by
  rw [setLength]
  split_ifs <;> exact ⟨rfl, rfl, rfl⟩

theorem dropBody_eq (a : HttpAnswer) :
    (dropBody a).httpStatus = a.httpStatus ∧ (dropBody a).keepAlive = a.keepAlive := by
  rw [dropBody]
  split_ifs <;> exact ⟨rfl, rfl⟩

/-- A connection is not kept if the body is not there. -/
theorem fileFinished_of_keepAlive (hchunked : a.chunked = false)
    (hparsed : a.parsedContentLength = false)
    (hkeep : (completeHeaders conf (dropBody (prepareLength a))).keepAlive = true) :
    a.fileFinished = true := by
  by_contra hfinished
  have h := (completeHeaders_eq conf _).2.2 hkeep
  rw [(dropBody_eq _).2, prepareLength, if_neg hfinished, checkKeepAlive, hchunked, hparsed] at h
  simp at h

end Stages

/-! ### Reading answers -/

section Reading

variable {files : Bytes → Bytes} {conf : AnswerConf} {a : HttpAnswer}

theorem isWanted_contentLength : IsWanted (ascii "content-length") :=
  ⟨by decide, by decide, by decide, by decide, by decide, by decide⟩

theorem isWanted_transferEncoding : IsWanted (ascii "transfer-encoding") :=
  ⟨by decide, by decide, by decide, by decide, by decide, by decide⟩

/-- **A body whose length is among the headers is found.** -/
theorem readBody_of_length {headers : List (Elem (Option Bytes))} {status : ℕ}
    (hcolon : ∀ e ∈ headers, 58 ∉ e.key) (hstatus : bodyless false status = false) {body : Bytes}
    (htransfer : headerValue headers (ascii "transfer-encoding") = none)
    (hlength : headerValue headers (ascii "content-length") = some (some (decimal body.length)))
    (conf : AnswerConf) (rest : Bytes) :
    readBody false status (headerLines conf status headers) (body ++ rest) =
      some (body, rest) := by
  have hblank : (decimal body.length).head? ≠ some 32 := by
    intro h
    exact absurd (isDigit_of_mem_decimal (List.mem_of_mem_head? h)) (by decide)
  rw [readBody, hstatus, if_neg Bool.false_ne_true,
    field?_headerLines_none hcolon isWanted_transferEncoding htransfer, if_neg (by simp),
    field?_headerLines hcolon isWanted_contentLength hlength hblank, Option.bind_some,
    readNumber_decimal]
  simp

/-- **The body of an answer is found**, if it is there. -/
theorem readBody_completeHeaders (ha : a.Sound files 2)
    (hempty : a.httpStatus = 204 ∨ a.httpStatus = 304 → a.writeQueue = []) (conf : AnswerConf)
    (rest : Bytes) :
    let sent := completeHeaders conf (dropBody (setLength a))
    sent.Sound files 0 ∧
      readBody (decide (a.httpMethod = .head)) sent.httpStatus
        (headerLines conf sent.httpStatus sent.headers.data)
        (unsent files sent.writeQueue ++ rest) =
        some (if a.httpMethod = .head then [] else unsent files a.writeQueue, rest) := by
  obtain ⟨hlen, hvalue⟩ := ha.setLength
  obtain ⟨hstatus, hqueue, hmethod⟩ := setLength_eq a
  by_cases hhead : a.httpMethod = .head
  · -- there is no body behind the answer to `HEAD`
    have hdrop : dropBody (setLength a) =
        { setLength a with fileFinished := true, writeQueue := [], chunked := false } := by
      rw [dropBody, if_pos (hmethod.trans hhead)]
    have hsound : (dropBody (setLength a)).Sound files 1 := by
      rw [hdrop]
      exact { hlen with chunked := rfl, queue := fun c hc => absurd hc List.not_mem_nil }
    have hnone : (completeHeaders conf (dropBody (setLength a))).writeQueue = [] := by
      rw [(completeHeaders_eq conf _).2.1, hdrop]
    refine ⟨(hsound.completeHeaders conf).1, ?_⟩
    rw [readBody, if_pos (by simp [bodyless, hhead]), if_pos hhead, hnone]
    rfl
  · have hdrop : dropBody (setLength a) = setLength a := by
      rw [dropBody, if_neg (fun h => hhead (hmethod.symm.trans h))]
    obtain ⟨hsound, hlength⟩ := hlen.completeHeaders conf
    obtain ⟨hstatus', hqueue', -⟩ := completeHeaders_eq conf (setLength a)
    rw [hdrop]
    refine ⟨hsound, ?_⟩
    rw [hstatus', hqueue', hstatus, hqueue, if_neg hhead, decide_eq_false hhead]
    by_cases hnone : a.httpStatus = 204 ∨ a.httpStatus = 304
    · rw [hempty hnone, readBody, if_pos]
      · rfl
      · rcases hnone with h | h <;> simp [bodyless, h]
    · obtain ⟨h204, h304⟩ := not_or.mp hnone
      have hbody : bodyless false a.httpStatus = false := by
        simp [bodyless, ha.status, h204, h304]
      have hcount := length_unsent ha.queue
      refine readBody_of_length (fun e he => (hsound.clean.line e he).2.1) hbody hsound.transfer ?_
        conf rest
      rw [hlength, hvalue h204 h304 hhead, hcount]

/-- **What an answer is meant to be.** -/
def HttpAnswer.message (files : Bytes → Bytes) (conf : AnswerConf) (a : HttpAnswer) : Message :=
  let sent := connectionHandleWritePrepare conf a
  ⟨sent.httpStatus, headerLines conf sent.httpStatus sent.headers.data,
    if a.httpMethod = .head then []
    else unsent files (prepareBody conf (checkStatus (checkMethod a))).writeQueue⟩

/-- What is sent of an answer. -/
def HttpAnswer.wire (files : Bytes → Bytes) (conf : AnswerConf) (a : HttpAnswer) : Bytes :=
  unsent files (connectionHandleWritePrepare conf a).writeQueue

/-- **An answer on a connection that is kept is read as it was meant**, and what comes behind it is
left over. -/
theorem readMessage_of_keepAlive (hconf : conf.Ok files) (ha : a.Sound files 4)
    (hallow : a.httpMethod = .options →
      headerValue a.headers.data (lower (ascii "Allow")) = none)
    (hkeep : (connectionHandleWritePrepare conf a).keepAlive = true) (rest : Bytes) :
    readMessage (decide (a.httpMethod = .head)) (a.wire files conf ++ rest) =
      some (a.message files conf, rest) := by
  obtain ⟨hb, hempty⟩ := (ha.checkMethod hallow).checkStatus.prepareBody hconf
  have hmethod := httpMethod_prepareBody conf a
  rw [connectionHandleWritePrepare, httpResponseWriteHeader, prepareAnswer] at hkeep
  rw [HttpAnswer.wire, HttpAnswer.message, connectionHandleWritePrepare, httpResponseWriteHeader,
    prepareAnswer]
  generalize prepareBody conf (checkStatus (checkMethod a)) = b at *
  dsimp only at hkeep ⊢
  -- only a body that is all there has its length written; another one ends with the connection
  have hfinished := fileFinished_of_keepAlive hb.chunked hb.parsed hkeep
  rw [prepareLength, if_pos hfinished, ← hmethod]
  obtain ⟨hsent, hbody⟩ := readBody_completeHeaders hb hempty conf rest
  generalize completeHeaders conf (dropBody (setLength b)) = sent at *
  have hwire : unsent files (.mem ⟨some (headText conf sent), 0⟩ :: sent.writeQueue) =
      writeLines (statusLine sent :: headerLines conf sent.httpStatus sent.headers.data) ++
        (crlf ++ unsent files sent.writeQueue) := by
    rw [← List.append_assoc, ← headText_eq]
    rfl
  obtain ⟨hline, hstatus⟩ := statusLine_ok sent
  rw [hwire]
  exact readMessage_append
    (List.forall_mem_cons.mpr ⟨hline, headerLines_ok hconf hsent.clean.line _⟩) hstatus hbody

/-- **Answers on a connection that is kept are read one after the other**, each as it was meant. -/
theorem readMessages_of_keepAlive (files : Bytes → Bytes) (answers : List (AnswerConf × HttpAnswer))
    (hconf : ∀ p ∈ answers, p.1.Ok files) (hsound : ∀ p ∈ answers, p.2.Sound files 4)
    (hallow : ∀ p ∈ answers, p.2.httpMethod = .options →
      headerValue p.2.headers.data (lower (ascii "Allow")) = none)
    (hkeep : ∀ p ∈ answers, (connectionHandleWritePrepare p.1 p.2).keepAlive = true)
    (rest : Bytes) :
    readMessages (answers.map fun p => decide (p.2.httpMethod = .head))
        ((answers.map fun p => p.2.wire files p.1).flatten ++ rest) =
      some (answers.map fun p => p.2.message files p.1, rest) := by
  induction answers with
  | nil => rfl
  | cons p answers ih =>
    obtain ⟨hconf, hconfs⟩ := List.forall_mem_cons.mp hconf
    obtain ⟨hp, hsounds⟩ := List.forall_mem_cons.mp hsound
    obtain ⟨hallow, hallows⟩ := List.forall_mem_cons.mp hallow
    obtain ⟨hkeep, hkeeps⟩ := List.forall_mem_cons.mp hkeep
    rw [List.map_cons, List.map_cons, List.map_cons, List.flatten_cons, List.append_assoc,
      readMessages, readMessage_of_keepAlive hconf hp hallow hkeep, Option.bind_some,
      ih hconfs hsounds hallows hkeeps]
    rfl

/-- A server without pages of its own for errors. -/
def plainConf : AnswerConf where
  errorfile := none
  stat := fun _ => none
  maxKeepAliveRequests := 16
  serverTag := none
  packageDesc := ascii "lighttpd/1.4.23"
  tsDateStr := ascii "Thu, 01 Jan 1970 00:00:00 GMT"

/-- The answer to a request for a file of three bytes. -/
def threeBytesAnswer (method : HttpMethod) : HttpAnswer where
  mode := .direct
  httpMethod := method
  http11 := true
  uriPath := some (ascii "/a")
  requestCount := 1
  httpStatus := 200
  keepAlive := true
  responseKeepAlive := false
  parsedContentLength := false
  parsedConnection := false
  chunked := false
  fileFinished := true
  headers := arrayInit
  writeQueue := [.file [] 0 3 0]

/-- `GET` and `HEAD` of a file, one after the other. -/
theorem readMessages_of_keepAlive_threeBytes :
    let answers := [(plainConf, threeBytesAnswer .get), (plainConf, threeBytesAnswer .head)]
    answers.map (fun p => (p.2.message threeBytes p.1).body) = [[1, 2, 3], []] ∧
      readMessages [false, true]
          ((answers.map fun p => p.2.wire threeBytes p.1).flatten ++ [7]) =
        some (answers.map fun p => p.2.message threeBytes p.1, [7]) := by
  have hconf : plainConf.Ok threeBytes :=
    ⟨by decide, by decide, fun tag htag => absurd htag (by simp [plainConf]),
      fun _ _ _ h => absurd h (by simp [plainConf])⟩
  have hsound : ∀ method, (threeBytesAnswer method).Sound threeBytes 4 := fun method =>
    ⟨rfl, rfl, show 200 / 100 ≠ 1 by decide, ⟨arrOk_init, fun e he => absurd he List.not_mem_nil⟩,
      show 0 + 4 ≤ intMax by decide, rfl,
      by simp [threeBytesAnswer, OutChunk.Fresh, threeBytes]⟩
  refine ⟨rfl, readMessages_of_keepAlive threeBytes
    [(plainConf, threeBytesAnswer .get), (plainConf, threeBytesAnswer .head)] ?_ ?_ ?_ ?_ [7]⟩
  · simp [hconf]
  · simp [hsound]
  · simp [threeBytesAnswer]
  · simp only [List.mem_cons, List.not_mem_nil, or_false, forall_eq_or_imp, forall_eq]
    exact ⟨rfl, rfl⟩

end Reading

end InstantMirror
