import InstantMirror.Lighttpd.AnswerFraming
import InstantMirror.Lighttpd.Plugin
import InstantMirror.Lighttpd.Range

/-!
# Static files

`mod_staticfile_subrequest`: a file that no other module has taken is sent as it is. The headers
say what it is, when it was last changed and by which tag it can be known again; a client that has
it already is told so (`http_response_handle_cachable`), one that has asked for parts of it gets
them, and any other one gets the whole file.

A client that asks for a file, and not for parts of it, reads the bytes of the file with status 200;
only one that has named a tag or a date may read that the file has not changed, or that its
condition does not hold (`InstantMirror.readMessage_of_staticFile`).
-/

namespace InstantMirror

/-! ### The source -/

/-- **`stat_cache_entry`.** -/
structure StatCacheEntry where
  /-- `is_symlink`. -/
  isSymlink : Bool
  /-- `S_ISREG`. -/
  isReg : Bool
  /-- `st_size`. -/
  size : ℕ
  /-- `content_type`, if it is not empty. -/
  contentType : Option Bytes
  /-- `etag`, if it is not empty. -/
  etag : Option Bytes
  /-- What `strftime_cache_get` returns for `st_mtime`. -/
  lastModified : Bytes

/-- The configuration of the module, and what it reads of that of the connection. -/
structure StaticConf where
  /-- `exclude_ext`, without those whose `used == 0`. -/
  excludeExt : List Bytes
  /-- `follow_symlink`. -/
  followSymlink : Bool
  /-- `range_requests`. -/
  rangeRequests : Bool
  /-- `etags_used`, with `etag_flags`. -/
  etagsUsed : Bool
  /-- `stat_cache_get_entry`. -/
  stat : Bytes → Option StatCacheEntry
  /-- `strptime` and `mktime`. -/
  parseDate : Bytes → Option ℤ

/-- **What the module reads of the request.** -/
structure StaticRequest where
  /-- `physical.path`. -/
  physicalPath : Option Bytes
  /-- `physical.etag`. -/
  etag : Option Bytes
  /-- `http_if_none_match`. -/
  ifNoneMatch : Option Bytes
  /-- `http_if_modified_since`. -/
  ifModifiedSince : Option Bytes
  /-- `http_range`. -/
  httpRange : Option Bytes
  /-- The header `If-Range`. -/
  ifRange : Option Bytes

/-- `etag_is_equal`. -/
def etagIsEqual (etag : Option Bytes) (matching : Bytes) : Bool :=
  etag.any fun tag => tag ≠ [] && cstr tag = cstr matching

/-- A byte as an `int`, which is added to the hash. -/
def signExtend (c : UInt8) : UInt32 :=
  if c < 128 then c.toUInt32 else c.toUInt32 ||| 0xffffff00

/-- The hash of `etag_mutate`. -/
def etagHash (etag : Bytes) : UInt32 :=
  etag.foldl (fun h c => (h <<< 5) ^^^ (h >>> 27) ^^^ signExtend c) 0

/-- **`etag_mutate`.** -/
def etagMutate (etag : Bytes) : Bytes := ascii "\"" ++ decimal (etagHash etag).toNat ++ ascii "\""

/-- What the date of the client comes to. -/
inductive DateCheck where
  /-- The file has not changed since. -/
  | same : DateCheck
  /-- It has. -/
  | changed : DateCheck
  /-- It is no date. -/
  | malformed : DateCheck
deriving DecidableEq

/-- **`If-Modified-Since`**, up to a semicolon: the text of the date is compared first. -/
def checkDate (parseDate : Bytes → Option ℤ) (since mtime : Bytes) : DateCheck :=
  let date := (cstr since).takeWhile (· ≠ 59)
  if date <+: mtime then .same
  else if 30 ≤ date.length then .malformed
  else
    match parseDate date with
    | none => .malformed
    | some header => if header < (parseDate mtime).getD header then .changed else .same

/-- **`http_response_handle_cachable`**: the status, if the request is finished by it. -/
def httpResponseHandleCachable (parseDate : Bytes → Option ℤ) (method : HttpMethod)
    (etag : Option Bytes) (req : StaticRequest) (mtime : Bytes) : Option ℕ :=
  match req.ifNoneMatch, req.ifModifiedSince with
  | some matching, since =>
    if etagIsEqual etag matching then
      if method = .get ∨ method = .head then
        match since with
        | none => some 304
        | some since =>
          match checkDate parseDate since mtime with
          | .same => some 304
          | .changed => none
          | .malformed => some 412
      else some 412
    else none
  | none, some since => if checkDate parseDate since mtime = .same then some 304 else none
  | none, none => none

/-- `Content-Type`; a file of an unknown type is not to be kept by the client. -/
def setContentType (sce : StatCacheEntry) (a : HttpAnswer) : Bool × HttpAnswer :=
  if (arrayGetElement a.headers (ascii "Content-Type")).isSome then (true, a)
  else (sce.contentType.isSome, { a with
    headers := responseHeaderOverwrite a.headers (ascii "Content-Type")
      (sce.contentType.getD (ascii "application/octet-stream")) })

/-- `Accept-Ranges`. -/
def setAcceptRanges (conf : StaticConf) (a : HttpAnswer) : HttpAnswer :=
  if conf.rangeRequests then
    { a with headers := responseHeaderOverwrite a.headers (ascii "Accept-Ranges") (ascii "bytes") }
  else a

/-- `ETag`, and `physical.etag`. -/
def setEtag (conf : StaticConf) (sce : StatCacheEntry) (etag : Option Bytes) (a : HttpAnswer) :
    Option Bytes × HttpAnswer :=
  match sce.etag with
  | some tag =>
    if conf.etagsUsed ∧ (arrayGetElement a.headers (ascii "ETag")).isNone then
      (some (etagMutate tag), { a with
        headers := responseHeaderOverwrite a.headers (ascii "ETag") (etagMutate tag) })
    else (etag, a)
  | none => (etag, a)

/-- `Last-Modified`. -/
def setLastModified (sce : StatCacheEntry) (a : HttpAnswer) : Bytes × HttpAnswer :=
  match arrayGetElement a.headers (ascii "Last-Modified") with
  | some e => (e.value.getD [], a)
  | none => (sce.lastModified, { a with
      headers := responseHeaderOverwrite a.headers (ascii "Last-Modified") sce.lastModified })

/-- **Whether parts are sent**: not if the client has other parts of another file. -/
def doRangeRequest (conf : StaticConf) (req : StaticRequest) (etag mtime : Option Bytes) : Bool :=
  req.httpRange.isSome && conf.rangeRequests &&
    match req.ifRange with
    | none => true
    | some value =>
      if value.head? = some 34 then etag = some value else mtime = some value

/-- **Parts of the file** are queued. -/
def sendRange (path : Bytes) (size : ℕ) (range : Bytes) (a : HttpAnswer) : HttpAnswer :=
  let contentType := (arrayGetElement a.headers (ascii "Content-Type")).bind Elem.value
  let r := httpResponseParseRange path contentType size range
  let a := { a with fileFinished := true, writeQueue := a.writeQueue ++ r.queue }
  match r.header with
  | .error .malformed => a
  | .error .unsatisfiable => { a with httpStatus := 416 }
  | .ok (key, value) =>
    { a with
      httpStatus := 206
      headers := if key = ascii "Content-Type" then responseHeaderOverwrite a.headers key value
        else responseHeaderInsert a.headers key value }

/-- **The body**: parts of the file, or all of it. -/
def sendFileBody (conf : StaticConf) (path : Bytes) (sce : StatCacheEntry) (req : StaticRequest)
    (etag mtime : Option Bytes) (a : HttpAnswer) : HttpAnswer :=
  if doRangeRequest conf req etag mtime then sendRange path sce.size (req.httpRange.getD []) a
  else
    { a with
      writeQueue := httpChunkAppendFile a.chunked path 0 sce.size a.writeQueue
      httpStatus := 200
      fileFinished := true }

/-- **A regular file.** -/
def serveRegular (conf : StaticConf) (path : Bytes) (sce : StatCacheEntry) (req : StaticRequest)
    (a : HttpAnswer) : HttpAnswer :=
  let typed := setContentType sce a
  let a := setAcceptRanges conf typed.2
  if typed.1 then
    let tagged := setEtag conf sce req.etag a
    let dated := setLastModified sce tagged.2
    match httpResponseHandleCachable conf.parseDate a.httpMethod tagged.1 req dated.1 with
    | some status => { dated.2 with httpStatus := status }
    | none => sendFileBody conf path sce req tagged.1 (some dated.1) dated.2
  else sendFileBody conf path sce req req.etag none a

/-- **`mod_staticfile_subrequest`.** -/
def modStaticfileSubrequest (conf : StaticConf) (req : StaticRequest) (a : HttpAnswer) :
    HandlerT × HttpAnswer :=
  match req.physicalPath with
  | none => (.goOn, a)
  | some path =>
    if a.httpStatus ≠ 0 ∨ a.uriPath = none ∨ a.mode ≠ .direct then (.goOn, a)
    else if a.httpMethod ≠ .get ∧ a.httpMethod ≠ .post ∧ a.httpMethod ≠ .head then (.goOn, a)
    else if conf.excludeExt.any fun ext => ext.isSuffixOf path then (.goOn, a)
    else
      match conf.stat path with
      | none => (.finished, { a with httpStatus := 403 })
      | some sce =>
        if sce.isSymlink = true ∧ conf.followSymlink = false then
          (.finished, { a with httpStatus := 403 })
        else if sce.isReg = false then (.finished, { a with httpStatus := 404 })
        else (.finished, serveRegular conf path sce req a)

/-! ### The headers -/

section Headers

variable {files : Bytes → Bytes} {a : HttpAnswer} {n : ℕ} {conf : StaticConf} {path : Bytes}
  {sce : StatCacheEntry} {req : StaticRequest}

/-- **Only the headers have changed**, and they can still be written. -/
def HeadersChanged (files : Bytes → Bytes) (n : ℕ) (a a' : HttpAnswer) : Prop :=
  a'.Sound files n ∧ ∃ headers, a' = { a with headers := headers }

theorem HeadersChanged.refl (h : a.Sound files (n + 1)) : HeadersChanged files n a a :=
  ⟨h.mono, a.headers, rfl⟩

theorem HeadersChanged.trans {m : ℕ} {a' a'' : HttpAnswer} (h : HeadersChanged files m a a')
    (h' : HeadersChanged files n a' a'') : HeadersChanged files n a a'' := by
  obtain ⟨-, headers, rfl⟩ := h
  obtain ⟨hsound, headers', rfl⟩ := h'
  exact ⟨hsound, headers', rfl⟩

/-- A header is overwritten. -/
theorem HeadersChanged.overwrite (h : a.Sound files (n + 1)) {key value : Bytes}
    (hkey : IsName key) (htransfer : ascii "transfer-encoding" ≠ lower key)
    (hvalue : 13 ∉ value ∧ 0 ∉ value) : HeadersChanged files n a
      { a with headers := responseHeaderOverwrite a.headers key value } := by
  have hset := setsHeader_overwrite h.clean hkey hvalue.1 hvalue.2 h.lt_intMax
  exact ⟨h.setHeader hset htransfer, _, rfl⟩

/-- **What is known of the file is right**, and can be written on a line. -/
structure StatCacheEntry.Ok (files : Bytes → Bytes) (path : Bytes) (sce : StatCacheEntry) :
    Prop where
  /-- The size. -/
  size : sce.size = (files path).length
  /-- The type. -/
  contentType : ∀ t ∈ sce.contentType, 13 ∉ t ∧ 0 ∉ t
  /-- The date. -/
  lastModified : 13 ∉ sce.lastModified ∧ 0 ∉ sce.lastModified

theorem headersChanged_setContentType (hsce : sce.Ok files path) (h : a.Sound files (n + 1)) :
    HeadersChanged files n a (setContentType sce a).2 := by
  rw [setContentType]
  split_ifs
  · exact HeadersChanged.refl h
  · refine HeadersChanged.overwrite h (isName_of_all _ (by decide)) (by decide) ?_
    rcases htype : sce.contentType with _ | t
    · exact ⟨by decide, by decide⟩
    · exact hsce.contentType t htype

theorem headersChanged_setAcceptRanges (conf : StaticConf) (h : a.Sound files (n + 1)) :
    HeadersChanged files n a (setAcceptRanges conf a) := by
  rw [setAcceptRanges]
  split_ifs
  · exact HeadersChanged.overwrite h (isName_of_all _ (by decide)) (by decide)
      ⟨by decide, by decide⟩
  · exact HeadersChanged.refl h

theorem etagMutate_ok (tag : Bytes) : 13 ∉ etagMutate tag ∧ 0 ∉ etagMutate tag := by
  have hdigits : ∀ c, isDigit c = false → c ∉ decimal (etagHash tag).toNat :=
    fun c hc => notMem_decimal hc _
  simp [etagMutate, ascii, hdigits 13 (by decide), hdigits 0 (by decide)]

theorem headersChanged_setEtag (conf : StaticConf) (sce : StatCacheEntry) (etag : Option Bytes)
    (h : a.Sound files (n + 1)) : HeadersChanged files n a (setEtag conf sce etag a).2 := by
  rw [setEtag]
  split
  · split_ifs
    · exact HeadersChanged.overwrite h (isName_of_all _ (by decide)) (by decide)
        (etagMutate_ok _)
    · exact HeadersChanged.refl h
  · exact HeadersChanged.refl h

theorem headersChanged_setLastModified (hsce : sce.Ok files path) (h : a.Sound files (n + 1)) :
    HeadersChanged files n a (setLastModified sce a).2 := by
  rw [setLastModified]
  split
  · exact HeadersChanged.refl h
  · exact HeadersChanged.overwrite h (isName_of_all _ (by decide)) (by decide)
      hsce.lastModified

/-! ### The status -/

/-- **When a request is finished without the file.** -/
theorem httpResponseHandleCachable_cases {parseDate : Bytes → Option ℤ} {method : HttpMethod}
    {etag : Option Bytes} {mtime : Bytes} {status : ℕ}
    (h : httpResponseHandleCachable parseDate method etag req mtime = some status) :
    status = 304 ∧ (req.ifNoneMatch.isSome ∨ req.ifModifiedSince.isSome) ∨
      status = 412 ∧ req.ifNoneMatch.isSome := by
  rw [httpResponseHandleCachable] at h
  rcases hmatch : req.ifNoneMatch with _ | matching <;>
    rcases hsince : req.ifModifiedSince with _ | since <;>
    simp only [hmatch, hsince] at h
  · cases h
  · split_ifs at h
    exact Or.inl ⟨(Option.some.inj h).symm, Or.inr rfl⟩
  · split_ifs at h
    · exact Or.inl ⟨(Option.some.inj h).symm, Or.inl rfl⟩
    · exact Or.inr ⟨(Option.some.inj h).symm, rfl⟩
  · split_ifs at h
    · split at h
      · exact Or.inl ⟨(Option.some.inj h).symm, Or.inl rfl⟩
      · cases h
      · exact Or.inr ⟨(Option.some.inj h).symm, rfl⟩
    · exact Or.inr ⟨(Option.some.inj h).symm, rfl⟩

/-- The whole file is queued. -/
def wholeFile (path : Bytes) (sce : StatCacheEntry) (a : HttpAnswer) : HttpAnswer :=
  { a with
    writeQueue := httpChunkAppendFile a.chunked path 0 sce.size a.writeQueue
    httpStatus := 200
    fileFinished := true }

/-- **What becomes of a regular file**, if no parts of it are asked for: after the headers, it is
queued, or the client is told that it has it. -/
theorem serveRegular_cases (hsce : sce.Ok files path) (h : a.Sound files (n + 4))
    (hrange : req.httpRange = none ∨ conf.rangeRequests = false) :
    ∃ a', HeadersChanged files n a a' ∧
      (serveRegular conf path sce req a = wholeFile path sce a' ∨
        ∃ status, serveRegular conf path sce req a = { a' with httpStatus := status } ∧
          (status = 304 ∧ (req.ifNoneMatch.isSome ∨ req.ifModifiedSince.isSome) ∨
            status = 412 ∧ req.ifNoneMatch.isSome)) := by
  have hwhole : ∀ etag mtime b, sendFileBody conf path sce req etag mtime b =
      wholeFile path sce b := by
    intro etag mtime b
    rw [sendFileBody, if_neg, wholeFile]
    rcases hrange with hrange | hrange <;> simp [doRangeRequest, hrange]
  -- the four headers one after the other; each takes one place of the room for more
  have htyped := headersChanged_setContentType hsce h
  have haccept := htyped.trans (headersChanged_setAcceptRanges conf htyped.1)
  rw [serveRegular]
  dsimp only
  generalize setAcceptRanges conf (setContentType sce a).2 = b at haccept ⊢
  split_ifs
  · have htagged := haccept.trans
      (headersChanged_setEtag conf sce req.etag haccept.1)
    have hdated := htagged.trans (headersChanged_setLastModified hsce htagged.1)
    refine ⟨_, hdated, ?_⟩
    split
    · rename_i status hstatus
      exact Or.inr ⟨status, rfl, httpResponseHandleCachable_cases hstatus⟩
    · exact Or.inl (hwhole _ _ _)
  -- a file of an unknown type has no tag and no date, and is never said to be unchanged
  · exact ⟨b, ⟨haccept.1.mono.mono, haccept.2⟩, Or.inl (hwhole _ _ _)⟩

end Headers

/-! ### What the client reads -/

section Reading

variable {files : Bytes → Bytes} {a : HttpAnswer} {conf : AnswerConf}

/-- The status is known before the length is. -/
theorem httpStatus_connectionHandleWritePrepare (conf : AnswerConf) (a : HttpAnswer) :
    (connectionHandleWritePrepare conf a).httpStatus =
      (prepareBody conf (checkStatus (checkMethod a))).httpStatus := by
  rw [connectionHandleWritePrepare, httpResponseWriteHeader, prepareAnswer]
  generalize prepareBody conf (checkStatus (checkMethod a)) = b
  have hlength : (prepareLength b).httpStatus = b.httpStatus := by
    rw [prepareLength]
    split_ifs
    · exact (setLength_eq b).1
    · rfl
  exact ((completeHeaders_eq conf _).1.trans (dropBody_eq _).1).trans hlength

/-- The server answers a request for a file with the status that the module has set. -/
theorem checkStatus_checkMethod (hmethod : a.httpMethod = .get ∨ a.httpMethod = .post ∨
    a.httpMethod = .head) (hstatus : a.httpStatus ≠ 0) : checkStatus (checkMethod a) = a := by
  have hcheck : checkMethod a = a := by
    rw [checkMethod]
    rcases hmethod with h | h | h <;> simp [h, HttpMethod.known]
  rw [hcheck, checkStatus, if_neg hstatus]

/-- What an answer to a request for a file says. -/
theorem message_eq (files : Bytes → Bytes) (conf : AnswerConf) (a : HttpAnswer)
    (hmethod : a.httpMethod = .get ∨ a.httpMethod = .post ∨ a.httpMethod = .head)
    (hstatus : a.httpStatus ≠ 0) :
    (a.message files conf).status = (prepareBody conf a).httpStatus ∧
      (a.message files conf).body =
        if a.httpMethod = .head then [] else unsent files (prepareBody conf a).writeQueue := by
  have hcheck := checkStatus_checkMethod hmethod hstatus
  refine ⟨?_, ?_⟩
  · rw [HttpAnswer.message, httpStatus_connectionHandleWritePrepare, hcheck]
  · rw [HttpAnswer.message, hcheck]

/-- With status 200, what is in the queue is sent. -/
theorem prepareBody_of_ok (hstatus : a.httpStatus = 200) : prepareBody conf a = a := by
  rw [prepareBody, if_neg (by omega), if_pos (by omega)]

/-- With status 304, nothing is sent. -/
theorem prepareBody_of_notModified (conf : AnswerConf) (a : HttpAnswer)
    (hstatus : a.httpStatus = 304) :
    (prepareBody conf a).httpStatus = 304 ∧ (prepareBody conf a).writeQueue = [] := by
  rw [prepareBody, if_pos (by omega)]
  exact ⟨hstatus, rfl⟩

/-- The whole file will be sent. -/
theorem HttpAnswer.Sound.wholeFile {n : ℕ} {path : Bytes} {sce : StatCacheEntry}
    (hsce : sce.Ok files path) (h : a.Sound files n) (hqueue : a.writeQueue = []) :
    (wholeFile path sce a).Sound files n ∧
      unsent files (wholeFile path sce a).writeQueue = files path := by
  have hfile : (InstantMirror.wholeFile path sce a).writeQueue =
      if sce.size = 0 then [] else [.file path 0 sce.size 0] := by
    rw [InstantMirror.wholeFile, httpChunkAppendFile, h.chunked, hqueue, beginChunk, endChunk,
      if_neg (by simp), if_neg (by simp), chunkqueueAppendFile, List.nil_append]
  refine ⟨{ h with
    status := show 200 / 100 ≠ 1 by decide
    queue := fun c hc => ?_ }, ?_⟩
  · rw [hfile] at hc
    split_ifs at hc
    · exact absurd hc List.not_mem_nil
    · rw [List.mem_singleton.mp hc]
      exact ⟨rfl, by rw [hsce.size, Nat.zero_add]⟩
  · rw [hfile]
    split_ifs with hsize
    · exact (List.eq_nil_of_length_eq_zero (hsce.size.symm.trans hsize)).symm
    · simp [unsent, OutChunk.data, hsce.size]

/-- The client is told that it has the file, or that its condition does not hold. -/
theorem HttpAnswer.Sound.setStatus {n status : ℕ} (h : a.Sound files n)
    (hstatus : status / 100 ≠ 1) : HttpAnswer.Sound files n { a with httpStatus := status } :=
  { h with status := hstatus }

/-- **A request that the module answers with a file.** -/
structure IsFileRequest (conf : StaticConf) (req : StaticRequest) (path : Bytes)
    (sce : StatCacheEntry) (a : HttpAnswer) : Prop where
  /-- No other module has taken it. -/
  direct : a.mode = .direct
  /-- Nobody has answered it. -/
  status : a.httpStatus = 0
  /-- There is nothing to send yet. -/
  queue : a.writeQueue = []
  /-- It has a path. -/
  uri : a.uriPath.isSome = true
  /-- The method is one of the three. -/
  method : a.httpMethod = .get ∨ a.httpMethod = .post ∨ a.httpMethod = .head
  /-- The path of the file. -/
  path_eq : req.physicalPath = some path
  /-- The file is not for a program to run. -/
  exclude : (conf.excludeExt.any fun ext => ext.isSuffixOf path) = false
  /-- It is there. -/
  stat : conf.stat path = some sce
  /-- It is a regular one. -/
  reg : sce.isReg = true
  /-- It may be reached over a link. -/
  symlink : sce.isSymlink = false ∨ conf.followSymlink = true

theorem IsFileRequest.subrequest {sconf : StaticConf} {req : StaticRequest} {path : Bytes}
    {sce : StatCacheEntry} (h : IsFileRequest sconf req path sce a) :
    modStaticfileSubrequest sconf req a = (.finished, serveRegular sconf path sce req a) := by
  have htaken : ¬(a.httpStatus ≠ 0 ∨ a.uriPath = none ∨ a.mode ≠ .direct) := by
    simp [h.status, h.direct, Option.isSome_iff_ne_none.mp h.uri]
  have hmethod : ¬(a.httpMethod ≠ .get ∧ a.httpMethod ≠ .post ∧ a.httpMethod ≠ .head) := by
    rcases h.method with hm | hm | hm <;> simp [hm]
  have hallowed : ¬(sce.isSymlink = true ∧ sconf.followSymlink = false) := by
    rcases h.symlink with hs | hs <;> simp [hs]
  simp only [modStaticfileSubrequest, h.path_eq, h.stat, h.exclude, h.reg, if_neg htaken,
    if_neg hmethod, if_neg hallowed, Bool.false_eq_true, Bool.true_eq_false, if_false]

/-- **A client that asks for a file, and not for parts of it**, over a connection that is kept,
reads the bytes of the file; or it has asked whether the file has changed, and reads that it has
not, or that the condition does not hold. -/
theorem readMessage_of_staticFile {sconf : StaticConf} {req : StaticRequest} {path : Bytes}
    {sce : StatCacheEntry} (hconf : conf.Ok files) (hsce : sce.Ok files path)
    (ha : a.Sound files 8) (hreq : IsFileRequest sconf req path sce a)
    (hrange : req.httpRange = none ∨ sconf.rangeRequests = false)
    (hkeep : (connectionHandleWritePrepare conf
      (modStaticfileSubrequest sconf req a).2).keepAlive = true) (rest : Bytes) :
    ∃ m, readMessage (decide (a.httpMethod = .head))
        ((modStaticfileSubrequest sconf req a).2.wire files conf ++ rest) = some (m, rest) ∧
      (m.status = 200 ∧ m.body = (if a.httpMethod = .head then [] else files path) ∨
        m.status = 304 ∧ m.body = [] ∧
          (req.ifNoneMatch.isSome ∨ req.ifModifiedSince.isSome) ∨
        m.status = 412 ∧ req.ifNoneMatch.isSome) := by
  rw [hreq.subrequest] at hkeep ⊢
  dsimp only at hkeep ⊢
  obtain ⟨a', ⟨hsound, headers, ha'⟩, hcase⟩ := serveRegular_cases hsce ha hrange
  have hmethod : a'.httpMethod = a.httpMethod := by rw [ha']
  have hqueue : a'.writeQueue = [] := by rw [ha']; exact hreq.queue
  have hmethods := hreq.method
  -- from here on only the answer with its headers matters, not how the module came to it
  rw [← hmethod] at hmethods ⊢
  have hoptions : a'.httpMethod ≠ .options := by
    rcases hmethods with h | h | h <;> simp [h]
  generalize serveRegular sconf path sce req a = sent at *
  rcases hcase with rfl | ⟨status, rfl, hwhy⟩
  · obtain ⟨hwhole, hfile⟩ := hsound.wholeFile hsce hqueue
    refine ⟨_, readMessage_of_keepAlive hconf hwhole (fun h => absurd h hoptions) hkeep rest,
      Or.inl ?_⟩
    obtain ⟨hstatus, hbody⟩ := message_eq files conf (wholeFile path sce a') hmethods
      (show 200 ≠ 0 by decide)
    rw [prepareBody_of_ok rfl] at hstatus hbody
    rw [hfile] at hbody
    exact ⟨hstatus, hbody⟩
  · have htold : status = 304 ∨ status = 412 := hwhy.imp And.left And.left
    have hset := hsound.setStatus (show status / 100 ≠ 1 by omega)
    refine ⟨_, readMessage_of_keepAlive hconf hset (fun h => absurd h hoptions) hkeep rest,
      Or.inr ?_⟩
    obtain ⟨hstatus, hbody⟩ := message_eq files conf { a' with httpStatus := status } hmethods
      (show status ≠ 0 by omega)
    rcases hwhy with ⟨rfl, hasked⟩ | ⟨rfl, hasked⟩
    -- 304: whatever was queued is dropped
    · obtain ⟨hsame, hempty⟩ := prepareBody_of_notModified conf { a' with httpStatus := 304 } rfl
      rw [hempty] at hbody
      exact Or.inl ⟨hstatus.trans hsame, hbody.trans (ite_self _), hasked⟩
    -- 412: the body is the page of an error, of which nothing is said here
    · exact Or.inr ⟨hstatus.trans (prepareBody_eq conf _).1, hasked⟩

/-- What is known of a file of three bytes. -/
def threeBytesEntry : StatCacheEntry where
  isSymlink := false
  isReg := true
  size := 3
  contentType := some (ascii "text/plain")
  etag := some (ascii "7")
  lastModified := ascii "Thu, 01 Jan 1970 00:00:00 GMT"

/-- A server with that file. -/
def threeBytesServer : StaticConf where
  excludeExt := [ascii ".php"]
  followSymlink := true
  rangeRequests := true
  etagsUsed := true
  stat := fun _ => some threeBytesEntry
  parseDate := fun _ => none

/-- A request for it, from a client that may have one with a tag. -/
def threeBytesRequest (tag : Option Bytes) : StaticRequest where
  physicalPath := some (ascii "/a")
  etag := none
  ifNoneMatch := tag
  ifModifiedSince := none
  httpRange := none
  ifRange := none

/-- The answer when the module is called. -/
def unanswered : HttpAnswer :=
  { threeBytesAnswer .get with httpStatus := 0, fileFinished := false, writeQueue := [] }

/-- The file is read by a client that does not have it. -/
theorem readMessage_of_staticFile_threeBytes :
    let sent := (modStaticfileSubrequest threeBytesServer (threeBytesRequest none) unanswered).2
    ∃ m, readMessage false (sent.wire threeBytes plainConf ++ [7]) = some (m, [7]) ∧
      m.status = 200 ∧ m.body = [1, 2, 3] := by
  have hconf : plainConf.Ok threeBytes :=
    ⟨by decide, by decide, fun tag htag => absurd htag (by simp [plainConf]),
      fun _ _ _ h => absurd h (by simp [plainConf])⟩
  have hsce : threeBytesEntry.Ok threeBytes (ascii "/a") :=
    ⟨rfl, fun t ht => by rw [← Option.some.inj ht]; decide, by decide⟩
  have hsound : unanswered.Sound threeBytes 8 :=
    ⟨rfl, rfl, show 0 / 100 ≠ 1 by decide,
      ⟨arrOk_init, fun e he => absurd he List.not_mem_nil⟩, show 0 + 8 ≤ intMax by decide, rfl,
      fun c hc => absurd hc List.not_mem_nil⟩
  have hreq : IsFileRequest threeBytesServer (threeBytesRequest none) (ascii "/a")
      threeBytesEntry unanswered :=
    ⟨rfl, rfl, rfl, rfl, Or.inl rfl, rfl, by decide, rfl, rfl, Or.inl rfl⟩
  obtain ⟨m, hread, ⟨hstatus, hbody⟩ | ⟨-, -, hasked⟩ | ⟨-, hasked⟩⟩ :=
    readMessage_of_staticFile hconf hsce hsound hreq (Or.inl rfl) rfl [7]
  · exact ⟨m, hread, hstatus, hbody⟩
  · rcases hasked with hasked | hasked <;> cases hasked
  · cases hasked

end Reading

end InstantMirror
