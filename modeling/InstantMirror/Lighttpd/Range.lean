import InstantMirror.Lib.HttpMessage
import InstantMirror.Lighttpd.WriteQueue

/-!
# Parts of a file

`http_response_parse_range`: a client may ask for parts of a file, `5-9`, `5-` or `-9`, with commas
between them if they are more than one. Each part is queued as a stretch of the file; with more
than one part, and already with a comma, each has a small header of its own in front.

The text is taken apart with `strchr` and `strtoll`, which skips blanks, takes a sign and stops
where the digits do. Whatever the text is, no stretch is queued that is not in the file
(`InstantMirror.httpResponseParseRange_counted`), also if the function fails in the end; and each
list of parts that the file has is understood as it was meant
(`InstantMirror.httpResponseParseRange_rangeText`).
-/

namespace InstantMirror

/-! ### Numbers -/

/-- `isspace`. -/
def isSpace (c : UInt8) : Bool := c = 32 || (9 ≤ c && c ≤ 13)

/-- `LLONG_MAX`. -/
def llongMax : ℤ := 9223372036854775807

/-- **`strtoll`**, in base 10: the value, and what is left of the text. -/
def strtoll (s : Bytes) : ℤ × Bytes :=
  let t := s.dropWhile isSpace
  let u := if t.head? = some 45 ∨ t.head? = some 43 then t.drop 1 else t
  if u.takeWhile isDigit = [] then (0, s)
  else
    let v := readDigits 0 (u.takeWhile isDigit)
    (if t.head? = some 45 then max (-v) (-llongMax - 1) else min v llongMax, u.dropWhile isDigit)

/-! ### One part -/

/-- What is wrong with a part. -/
inductive RangeError where
  /-- It is not one. -/
  | malformed : RangeError
  /-- The file does not have it: the status is 416. -/
  | unsatisfiable : RangeError
deriving DecidableEq

/-- What comes after a part: nothing, or a comma and the next one. -/
def separator : Bytes → Option (Bool × Bytes)
  | [] => some (false, [])
  | c :: rest => if c = 44 then some (true, rest) else none

/-- A part that was read: where it starts, where it stops, whether there is a comma behind it, and
what comes then. -/
structure RangePart where
  /-- `start`. -/
  start : ℤ
  /-- `end`. -/
  stop : ℤ
  /-- Whether there is a comma. -/
  comma : Bool
  /-- What comes then. -/
  rest : Bytes

/-- The end of a part. -/
def endPart (start stop : ℤ) (err : Bytes) : Except RangeError RangePart :=
  match separator err with
  | some (comma, rest) => .ok ⟨start, stop, comma, rest⟩
  | none => .error .malformed

/-- **One part is read.** -/
def readPart (size : ℤ) (s : Bytes) : Except RangeError RangePart :=
  let minus := s.dropWhile (· ≠ 45)
  if s = minus then
    -- -<stop>
    if (strtoll s).1 = 0 then .error .unsatisfiable
    else endPart (size + (strtoll s).1) (size - 1) (strtoll s).2
  else if (strtoll s).2 ≠ minus then .error .malformed
  else if minus.drop 1 = [] ∨ (minus.drop 1).head? = some 44 then
    -- <start>-
    endPart (strtoll s).1 (size - 1) (minus.drop 1)
  else if (strtoll (minus.drop 1)).1 < (strtoll s).1 then .error .malformed
  else
    -- <start>-<stop>
    endPart (strtoll s).1 (strtoll (minus.drop 1)).1 (strtoll (minus.drop 1)).2

/-- **The part in the file**, if there is one. -/
def clampPart (size : ℤ) (p : RangePart) : Except RangeError RangePart :=
  if size - 1 < max p.start 0 then .error .unsatisfiable
  else .ok { p with start := max p.start 0, stop := min p.stop (size - 1) }

/-- **The next part.** -/
def nextPart (size : ℤ) (s : Bytes) : Except RangeError RangePart :=
  (readPart size s).bind (clampPart size)

/-! ### The whole text -/

/-- What the function has done so far. -/
structure RangeState where
  /-- `start`. -/
  start : ℤ
  /-- `end`. -/
  stop : ℤ
  /-- `multipart`. -/
  multipart : Bool
  /-- What was queued. -/
  queue : List OutChunk
  /-- `response.content_length`. -/
  contentLength : ℤ
  /-- What went wrong. -/
  error : Option RangeError

/-- `boundary`. -/
def boundary : Bytes := ascii "fkj49sn38dcn3"

/-- `start-end/size`. -/
def contentRange (start stop size : ℤ) : Bytes :=
  intText start ++ ascii "-" ++ intText stop ++ ascii "/" ++ intText size

/-- The header of a part. -/
def partHeader (contentType : Option Bytes) (start stop size : ℤ) : Bytes :=
  crlf ++ ascii "--" ++ boundary ++ crlf ++ ascii "Content-Range: bytes " ++
    contentRange start stop size ++ crlf ++ ascii "Content-Type: " ++ contentType.getD [] ++ crlf ++
    crlf

/-- The header of a part is queued, if there may be more than one part. -/
def appendHeader (contentType : Option Bytes) (size : ℕ) (p : RangePart) (st : RangeState) :
    RangeState :=
  if st.multipart then
    { st with
      queue := st.queue ++ [.mem ⟨some (partHeader contentType p.start p.stop size), 0⟩]
      contentLength := st.contentLength + (partHeader contentType p.start p.stop size).length }
  else st

/-- A stretch of the file is queued. -/
def appendStretch (path : Bytes) (p : RangePart) (st : RangeState) : RangeState :=
  { st with
    start := p.start
    stop := p.stop
    queue := chunkqueueAppendFile path p.start.toNat (p.stop - p.start + 1).toNat st.queue
    contentLength := st.contentLength + (p.stop - p.start + 1) }

/-- **A part is queued.** -/
def appendPart (path : Bytes) (contentType : Option Bytes) (size : ℕ) (p : RangePart)
    (st : RangeState) : RangeState :=
  appendStretch path p
    (appendHeader contentType size p { st with multipart := st.multipart || p.comma })

/-- **The loop**; each round takes something off the text, so that it ends with it. -/
def rangeLoop (path : Bytes) (contentType : Option Bytes) (size : ℕ) :
    ℕ → Bytes → RangeState → RangeState
  | 0, _, st => st
  | fuel + 1, s, st =>
    if 45 ∉ s then st
    else
      match nextPart size s with
      | .error e => { st with error := some e }
      | .ok p => rangeLoop path contentType size fuel p.rest (appendPart path contentType size p st)

/-- The end of the parts. -/
def boundaryEnd : Bytes := crlf ++ ascii "--" ++ boundary ++ ascii "--" ++ crlf

/-- The end is queued, if there is more than one part. -/
def appendEnd (st : RangeState) : RangeState :=
  if st.multipart then
    { st with
      queue := st.queue ++ [.mem ⟨some boundaryEnd, 0⟩]
      contentLength := st.contentLength + boundaryEnd.length }
  else st

/-- The header that is set at the end. -/
def rangeHeader (size : ℕ) (st : RangeState) : Bytes × Bytes :=
  if st.multipart then
    (ascii "Content-Type", ascii "multipart/byteranges; boundary=" ++ boundary)
  else (ascii "Content-Range", ascii "bytes " ++ contentRange st.start st.stop size)

/-- What comes of it. -/
structure RangeAnswer where
  /-- The queue. -/
  queue : List OutChunk
  /-- `response.content_length`. -/
  contentLength : ℤ
  /-- `Content-Type` or `Content-Range`, if nothing went wrong. -/
  header : Except RangeError (Bytes × Bytes)

/-- **`http_response_parse_range`**, of `httpRange`; there is nothing in the queue before. -/
def httpResponseParseRange (path : Bytes) (contentType : Option Bytes) (size : ℕ)
    (httpRange : Bytes) : RangeAnswer :=
  let st := rangeLoop path contentType size httpRange.length httpRange
    ⟨0, size - 1, false, [], 0, none⟩
  match st.error with
  | some e => ⟨st.queue, st.contentLength, .error e⟩
  | none => ⟨(appendEnd st).queue, (appendEnd st).contentLength, .ok (rangeHeader size st)⟩

/-! ### No stretch is outside the file -/

section InFile

variable {s : Bytes} {p : RangePart}

theorem readDigits_nonneg {digits : Bytes} (hdigits : ∀ c ∈ digits, isDigit c = true) {v : ℤ}
    (hv : 0 ≤ v) : 0 ≤ readDigits v digits := by
  induction digits generalizing v with
  | nil => exact hv
  | cons c digits ih =>
    obtain ⟨hc, hdigits⟩ := List.forall_mem_cons.mp hdigits
    have hvalue : 0 ≤ digitValue c := by
      simp only [isDigit, Bool.and_eq_true, decide_eq_true_eq, UInt8.le_iff_toNat_le,
        UInt8.reduceToNat] at hc
      have hmod : (c.toNat : ℤ).bmod 256 = c.toNat := Int.bmod_eq_of_le (by omega) (by omega)
      have heq : digitValue c = c.toNat - 48 := congrArg (· - 48) hmod
      omega
    rw [readDigits, List.foldl_cons]
    exact ih hdigits (by omega)

theorem dropWhile_minus (h : (s.dropWhile isSpace).head? = some 45) :
    s.dropWhile (· ≠ 45) = s.dropWhile isSpace := by
  induction s with
  | nil => rfl
  | cons c s ih =>
    rw [List.dropWhile_cons] at h ⊢
    by_cases hc : isSpace c = true
    · have hne : c ≠ 45 := by
        rintro rfl
        exact absurd hc (by decide)
      rw [if_pos hc] at h
      rw [if_pos (by simpa using hne), List.dropWhile_cons, if_pos hc, ih h]
    · rw [if_neg hc] at h
      obtain rfl : c = 45 := by simpa using h
      rw [if_neg (by simp), List.dropWhile_cons, if_neg hc]

/-- A number that ends at the first minus sign is not negative. -/
theorem strtoll_nonneg (herr : (strtoll s).2 = s.dropWhile (· ≠ 45)) : 0 ≤ (strtoll s).1 := by
  have hread : ∀ u : Bytes, 0 ≤ readDigits 0 (u.takeWhile isDigit) := fun u =>
    readDigits_nonneg (fun c hc => List.mem_takeWhile_imp hc) (Int.le_refl 0)
  by_cases hminus : (s.dropWhile isSpace).head? = some 45
  · -- the first minus sign is that of the number, which ends behind it
    rw [dropWhile_minus hminus] at herr
    rw [strtoll, if_pos (Or.inl hminus)] at herr ⊢
    split_ifs at herr ⊢ with hdigits
    · exact Int.le_refl 0
    · have hlen := congrArg List.length herr
      have hle := (List.dropWhile_sublist isDigit (l := (s.dropWhile isSpace).drop 1)).length_le
      rw [List.length_drop] at hle
      obtain ⟨t, ht⟩ := List.head?_eq_some_iff.mp hminus
      rw [ht] at hlen hle
      simp only [List.length_cons] at hlen hle
      omega
  · rw [strtoll]
    dsimp only
    split_ifs
    · exact Int.le_refl 0
    · exact Int.le_min.mpr ⟨hread _, by decide⟩
    · exact Int.le_refl 0
    · exact Int.le_min.mpr ⟨hread _, by decide⟩

theorem endPart_eq_ok {start stop : ℤ} {err : Bytes} (h : endPart start stop err = .ok p) :
    p.start = start ∧ p.stop = stop := by
  rw [endPart] at h
  rcases err with _ | ⟨c, err⟩
  · obtain rfl := Except.ok.inj h
    exact ⟨rfl, rfl⟩
  · rw [separator] at h
    split_ifs at h with hcomma
    obtain rfl := Except.ok.inj h
    exact ⟨rfl, rfl⟩

/-- **A part that was read** does not stop before it starts. -/
theorem start_le_stop_of_readPart {size : ℕ} (h : readPart size s = .ok p) :
    max p.start 0 ≤ p.stop ∨ p.stop = size - 1 := by
  rw [readPart] at h
  split_ifs at h with hfirst hzero herr hopen hlt
  · exact Or.inr (endPart_eq_ok h).2
  · exact Or.inr (endPart_eq_ok h).2
  · obtain ⟨hstart, hstop⟩ := endPart_eq_ok h
    have := strtoll_nonneg (not_not.mp herr)
    exact Or.inl (by omega)

/-- **A part is in the file.** -/
theorem nextPart_eq_ok {size : ℕ} (h : nextPart size s = .ok p) :
    0 ≤ p.start ∧ p.start ≤ p.stop ∧ p.stop < size := by
  rw [nextPart] at h
  rcases hread : readPart size s with e | p'
  · rw [hread] at h
    cases h
  · rw [hread, Except.bind, clampPart] at h
    split_ifs at h with hout
    obtain rfl := Except.ok.inj h
    have hle := start_le_stop_of_readPart hread
    dsimp only
    omega

variable (files : Bytes → Bytes) {st : RangeState}

/-- **What was queued**: each chunk can be sent, and the bytes were counted. -/
structure Counted (queue : List OutChunk) (contentLength : ℤ) : Prop where
  /-- Each chunk can be sent. -/
  ok : ∀ c ∈ queue, c.Ok files
  /-- The bytes were counted. -/
  length : contentLength = (unsent files queue).length

variable {files} {queue : List OutChunk} {contentLength : ℤ}

theorem Counted.append (h : Counted files queue contentLength) {c : OutChunk} (hc : c.Ok files) :
    Counted files (queue ++ [c]) (contentLength + (c.data files).length) := by
  constructor
  · intro c' hmem
    rcases List.mem_append.mp hmem with hmem | hmem
    · exact h.ok c' hmem
    · exact List.mem_singleton.mp hmem ▸ hc
  · have hdata : unsent files [c] = c.data files := by simp [unsent]
    rw [unsent_append, hdata, List.length_append, h.length, Int.natCast_add]

/-- A piece of memory is queued. -/
theorem Counted.append_mem (h : Counted files queue contentLength) (text : Bytes) :
    Counted files (queue ++ [.mem ⟨some text, 0⟩]) (contentLength + text.length) :=
  h.append (c := .mem ⟨some text, 0⟩) (Nat.zero_le _)

/-- A stretch of the file is queued. -/
theorem Counted.append_file (h : Counted files queue contentLength) {path : Bytes}
    (hstart : 0 ≤ p.start) (hle : p.start ≤ p.stop) (hstop : p.stop < (files path).length) :
    Counted files (chunkqueueAppendFile path p.start.toNat (p.stop - p.start + 1).toNat queue)
      (contentLength + (p.stop - p.start + 1)) := by
  have hok : OutChunk.Ok files (.file path p.start.toNat (p.stop - p.start + 1).toNat 0) :=
    ⟨by omega, by omega⟩
  have hlength : (p.stop - p.start + 1).toNat =
      (OutChunk.data files (.file path p.start.toNat (p.stop - p.start + 1).toNat 0)).length := by
    rw [hok.length_data, Nat.sub_zero]
  rw [chunkqueueAppendFile, if_neg (by omega)]
  have happend := h.append hok
  rwa [← hlength, Int.toNat_of_nonneg (by omega)] at happend

/-- **A part is queued.** -/
theorem Counted.appendPart (h : Counted files st.queue st.contentLength) (path : Bytes)
    (contentType : Option Bytes) (hnext : nextPart (files path).length s = .ok p) :
    Counted files (appendPart path contentType (files path).length p st).queue
      (appendPart path contentType (files path).length p st).contentLength := by
  obtain ⟨hstart, hle, hstop⟩ := nextPart_eq_ok hnext
  refine Counted.append_file ?_ hstart hle hstop
  rw [appendHeader]
  split_ifs
  · exact h.append_mem _
  · exact h

/-- **The loop.** -/
theorem Counted.rangeLoop (path : Bytes) (contentType : Option Bytes) (fuel : ℕ) (s : Bytes)
    (h : Counted files st.queue st.contentLength) :
    Counted files (rangeLoop path contentType (files path).length fuel s st).queue
      (rangeLoop path contentType (files path).length fuel s st).contentLength := by
  induction fuel generalizing s st with
  | zero => exact h
  | succ fuel ih =>
    rw [InstantMirror.rangeLoop]
    split_ifs
    · rcases hnext : nextPart (files path).length s with e | p
      · exact h
      · exact ih _ (h.appendPart path contentType hnext)
    · exact h

/-- **No stretch is queued that is not in the file**, whatever the client has sent, and also if that
is refused in the end; and the length of the content is that of what is queued. -/
theorem httpResponseParseRange_counted (files : Bytes → Bytes) (path : Bytes)
    (contentType : Option Bytes) (httpRange : Bytes) :
    let a := httpResponseParseRange path contentType (files path).length httpRange
    (∀ c ∈ a.queue, c.Ok files) ∧ a.contentLength = (unsent files a.queue).length := by
  have hloop : Counted files _ _ := @Counted.rangeLoop files
    ⟨0, (files path).length - 1, false, [], 0, none⟩ path contentType httpRange.length httpRange
    ⟨by simp, rfl⟩
  rw [httpResponseParseRange]
  split
  · exact ⟨hloop.ok, hloop.length⟩
  · rw [appendEnd]
    split_ifs
    · exact ⟨(hloop.append_mem boundaryEnd).ok, (hloop.append_mem boundaryEnd).length⟩
    · exact ⟨hloop.ok, hloop.length⟩

end InFile

/-! ### What a client asks for -/

/-- **A part**, as a client asks for it. -/
inductive RangeSpec where
  /-- From one position to another one. -/
  | fromTo (a b : ℕ) : RangeSpec
  /-- From a position on. -/
  | fromOn (a : ℕ) : RangeSpec
  /-- So many bytes at the end. -/
  | suffix (n : ℕ) : RangeSpec

namespace RangeSpec

/-- How it is written. -/
def text : RangeSpec → Bytes
  | fromTo a b => decimal a ++ 45 :: decimal b
  | fromOn a => decimal a ++ [45]
  | suffix n => 45 :: decimal n

/-- A file of this size has something of it. -/
def Satisfiable (size : ℕ) : RangeSpec → Prop
  | fromTo a b => a ≤ b ∧ a < size
  | fromOn a => a < size
  | suffix n => 0 < n ∧ 0 < size

/-- What it is of a file. -/
def bytes (data : Bytes) : RangeSpec → Bytes
  | fromTo a b => (data.take (b + 1)).drop a
  | fromOn a => data.drop a
  | suffix n => data.drop (data.length - n)

/-- Where it starts. -/
def start (size : ℕ) : RangeSpec → ℕ
  | fromTo a _ => a
  | fromOn a => a
  | suffix n => size - n

/-- Where it stops. -/
def stop (size : ℕ) : RangeSpec → ℕ
  | fromTo _ b => min b (size - 1)
  | fromOn _ => size - 1
  | suffix _ => size - 1

end RangeSpec

/-- How several parts are written. -/
def rangeText (specs : List RangeSpec) : Bytes := [44].intercalate (specs.map RangeSpec.text)

/-- What is sent for a part; `multipart` is whether it has a header. -/
def partBytes (contentType : Option Bytes) (data : Bytes) (multipart : Bool) (r : RangeSpec) :
    Bytes :=
  (if multipart then
    partHeader contentType (r.start data.length) (r.stop data.length) data.length
  else []) ++ r.bytes data

/-- **The body of the answer**: the one part, or each part with its header. -/
def rangeBody (contentType : Option Bytes) (data : Bytes) : List RangeSpec → Bytes
  | [r] => r.bytes data
  | specs => (specs.map (partBytes contentType data true)).flatten ++ boundaryEnd

/-- The header that goes with it. -/
def rangeField (size : ℕ) : List RangeSpec → Bytes × Bytes
  | [r] => (ascii "Content-Range", ascii "bytes " ++ contentRange (r.start size) (r.stop size) size)
  | _ => (ascii "Content-Type", ascii "multipart/byteranges; boundary=" ++ boundary)

section Understood

theorem not_isSpace_of_isDigit {c : UInt8} (h : isDigit c = true) : ¬ isSpace c = true := by
  simp only [isDigit, isSpace, Bool.and_eq_true, Bool.or_eq_true, decide_eq_true_eq,
    UInt8.le_iff_toNat_le, UInt8.reduceToNat, ← UInt8.toNat_inj] at h ⊢
  omega

theorem strtoll_decimal (n : ℕ) (rest : Bytes) (hrest : ∀ c ∈ rest.head?, isDigit c = false) :
    strtoll (decimal n ++ rest) = (min (n : ℤ) llongMax, rest) := by
  obtain ⟨htake, hdrop⟩ := span_decimal n rest hrest
  obtain ⟨d, ds, hds, hd, -, -⟩ := exists_decimal_eq_cons n
  have hspace : (decimal n ++ rest).dropWhile isSpace = decimal n ++ rest := by
    rw [hds, List.cons_append, List.dropWhile_cons, if_neg (not_isSpace_of_isDigit hd)]
  have hhead : ∀ c, isDigit c = false → (decimal n ++ rest).head? ≠ some c := by
    rintro c hc heq
    rw [hds, List.cons_append, List.head?_cons] at heq
    exact Bool.false_ne_true (hc.symm.trans (Option.some.inj heq ▸ hd))
  have hminus := hhead 45 (by decide)
  have hplus := hhead 43 (by decide)
  rw [strtoll, hspace]
  dsimp only
  rw [if_neg (not_or.mpr ⟨hminus, hplus⟩), htake, hdrop, if_neg (decimal_ne_nil n), if_neg hminus,
    readDigits_decimal]

theorem strtoll_minus (n : ℕ) (rest : Bytes) (hrest : ∀ c ∈ rest.head?, isDigit c = false) :
    strtoll (45 :: (decimal n ++ rest)) = (max (-(n : ℤ)) (-llongMax - 1), rest) := by
  obtain ⟨htake, hdrop⟩ := span_decimal n rest hrest
  have hspace : (45 :: (decimal n ++ rest)).dropWhile isSpace = 45 :: (decimal n ++ rest) := by
    rw [List.dropWhile_cons, if_neg (by decide)]
  rw [strtoll, hspace]
  dsimp only
  rw [List.head?_cons, if_pos (Or.inl rfl), List.drop_succ_cons, List.drop_zero, htake, hdrop,
    if_neg (decimal_ne_nil n), if_pos rfl, readDigits_decimal]

variable {err rest : Bytes} {comma : Bool}

theorem separator_eq_some (h : separator err = some (comma, rest)) :
    (err = [] ∨ err.head? = some 44) ∧ ∀ c ∈ err.head?, isDigit c = false := by
  rcases err with _ | ⟨c, err⟩
  · exact ⟨Or.inl rfl, fun c hc => absurd hc (by simp)⟩
  · rw [separator] at h
    split_ifs at h with hcomma
    subst hcomma
    exact ⟨Or.inr rfl, fun c hc => Option.some.inj hc ▸ by decide⟩

theorem endPart_eq (h : separator err = some (comma, rest)) (start stop : ℤ) :
    endPart start stop err = .ok ⟨start, stop, comma, rest⟩ := by
  rw [endPart, h]

/-- The first minus sign is behind the first number. -/
theorem dropWhile_decimal (n : ℕ) (rest : Bytes) :
    (decimal n ++ 45 :: rest).dropWhile (· ≠ 45) = 45 :: rest := by
  have hdigits : ∀ c ∈ decimal n, decide (c ≠ 45) = true := by
    intro c hc
    rw [decide_eq_true_eq]
    rintro rfl
    exact absurd (isDigit_of_mem_decimal hc) (by decide)
  rw [List.dropWhile_append_of_pos hdigits, List.dropWhile_cons, if_neg (by simp)]

theorem decimal_append_ne (n : ℕ) (s : Bytes) : decimal n ++ s ≠ s := by
  intro h
  exact decimal_ne_nil n (List.append_left_eq_self.mp h)

theorem readPart_fromOn (size : ℤ) (a : ℕ) (hsep : separator err = some (comma, rest)) :
    readPart size (decimal a ++ 45 :: err) =
      .ok ⟨min (a : ℤ) llongMax, size - 1, comma, rest⟩ := by
  have hnum := strtoll_decimal a (45 :: err) (fun c hc => Option.some.inj hc ▸ by decide)
  rw [readPart, dropWhile_decimal, if_neg (decimal_append_ne a _), hnum]
  dsimp only
  rw [if_neg (not_not.mpr rfl), List.drop_succ_cons, List.drop_zero,
    if_pos (separator_eq_some hsep).1, endPart_eq hsep]

theorem readPart_fromTo (size : ℤ) {a b : ℕ} (hab : a ≤ b)
    (hsep : separator err = some (comma, rest)) :
    readPart size (decimal a ++ 45 :: (decimal b ++ err)) =
      .ok ⟨min (a : ℤ) llongMax, min (b : ℤ) llongMax, comma, rest⟩ := by
  have hfirst := strtoll_decimal a (45 :: (decimal b ++ err))
    (fun c hc => Option.some.inj hc ▸ by decide)
  have hsecond := strtoll_decimal b err (separator_eq_some hsep).2
  have hopen : ¬ (decimal b ++ err = [] ∨ (decimal b ++ err).head? = some 44) := by
    obtain ⟨d, ds, hds, hd, -, -⟩ := exists_decimal_eq_cons b
    rw [hds, List.cons_append, List.head?_cons]
    rintro (h | h)
    · cases h
    · obtain rfl := Option.some.inj h
      exact absurd hd (by decide)
  rw [readPart, dropWhile_decimal, if_neg (decimal_append_ne a _), hfirst]
  dsimp only
  rw [if_neg (not_not.mpr rfl), List.drop_succ_cons, List.drop_zero, if_neg hopen, hsecond,
    if_neg (by dsimp only; omega), endPart_eq hsep]

theorem readPart_suffix (size : ℤ) {n : ℕ} (hn : 0 < n)
    (hsep : separator err = some (comma, rest)) :
    readPart size (45 :: (decimal n ++ err)) =
      .ok ⟨size + max (-(n : ℤ)) (-llongMax - 1), size - 1, comma, rest⟩ := by
  have hminus : (45 :: (decimal n ++ err)).dropWhile (· ≠ 45) = 45 :: (decimal n ++ err) := by
    rw [List.dropWhile_cons, if_neg (by simp)]
  have hzero : ¬ max (-(n : ℤ)) (-llongMax - 1) = 0 := by
    rw [llongMax]
    omega
  rw [readPart, hminus, if_pos rfl, strtoll_minus n err (separator_eq_some hsep).2, if_neg hzero,
    endPart_eq hsep]

/-- **A part is understood**, whatever comes behind it. -/
theorem nextPart_text {size : ℕ} (hsize : size ≤ llongMax) {r : RangeSpec}
    (hr : r.Satisfiable size) (hsep : separator err = some (comma, rest)) :
    nextPart size (r.text ++ err) = .ok ⟨r.start size, r.stop size, comma, rest⟩ := by
  rcases r with ⟨a, b⟩ | a | n
  · obtain ⟨hab, ha⟩ := hr
    rw [RangeSpec.text, List.append_assoc, List.cons_append, nextPart, readPart_fromTo _ hab hsep,
      Except.bind, clampPart, if_neg (by dsimp only; omega)]
    dsimp only [RangeSpec.start, RangeSpec.stop]
    congr 2 <;> omega
  · have ha : a < size := hr
    rw [RangeSpec.text, List.append_assoc, List.singleton_append, nextPart,
      readPart_fromOn _ a hsep, Except.bind, clampPart, if_neg (by dsimp only; omega)]
    dsimp only [RangeSpec.start, RangeSpec.stop]
    congr 2 <;> omega
  · obtain ⟨hn, hpos⟩ := hr
    rw [RangeSpec.text, List.cons_append, nextPart, readPart_suffix _ hn hsep,
      Except.bind, clampPart, if_neg (by dsimp only; rw [llongMax]; omega)]
    dsimp only [RangeSpec.start, RangeSpec.stop]
    rw [llongMax] at hsize ⊢
    congr 2 <;> omega

/-! ### The answer -/

/-- **The stretch that is queued for a part has its bytes.** -/
theorem data_of_satisfiable {files : Bytes → Bytes} {path : Bytes} {r : RangeSpec}
    (hr : r.Satisfiable (files path).length) :
    OutChunk.data files (.file path (r.start (files path).length)
      (r.stop (files path).length - r.start (files path).length + 1) 0) = r.bytes (files path) := by
  simp only [OutChunk.data, Nat.add_zero, Nat.sub_zero]
  rcases r with ⟨a, b⟩ | a | n
  · obtain ⟨hab, ha⟩ := hr
    rw [RangeSpec.bytes, RangeSpec.start, RangeSpec.stop, List.drop_take, List.take_eq_take_iff,
      List.length_drop]
    omega
  · have ha : a < (files path).length := hr
    rw [RangeSpec.bytes, RangeSpec.start, RangeSpec.stop, List.take_of_length_le]
    rw [List.length_drop]
    omega
  · rw [RangeSpec.bytes, RangeSpec.start, RangeSpec.stop, List.take_of_length_le]
    rw [List.length_drop]
    omega

theorem RangeSpec.start_le_stop {size : ℕ} {r : RangeSpec} (hr : r.Satisfiable size) :
    r.start size ≤ r.stop size := by
  rcases r with ⟨a, b⟩ | a | n
  · obtain ⟨hab, ha⟩ := hr
    exact Nat.le_min.mpr ⟨hab, Nat.le_sub_one_of_lt ha⟩
  · exact Nat.le_sub_one_of_lt hr
  · exact Nat.sub_le_sub_left hr.1 size

theorem unsent_appendPart {files : Bytes → Bytes} {path : Bytes} (contentType : Option Bytes)
    {r : RangeSpec} (hr : r.Satisfiable (files path).length) (comma : Bool) (rest : Bytes)
    (st : RangeState) :
    unsent files (appendPart path contentType (files path).length
        ⟨r.start (files path).length, r.stop (files path).length, comma, rest⟩ st).queue =
      unsent files st.queue ++
        partBytes contentType (files path) (st.multipart || comma) r := by
  have hle := RangeSpec.start_le_stop hr
  have hlength : ((r.stop (files path).length : ℤ) - r.start (files path).length + 1).toNat =
      r.stop (files path).length - r.start (files path).length + 1 := by omega
  have hstretch : unsent files [.file path (r.start (files path).length)
      (r.stop (files path).length - r.start (files path).length + 1) 0] = r.bytes (files path) := by
    rw [← data_of_satisfiable hr]
    simp [unsent]
  rw [appendPart, appendStretch]
  dsimp only
  rw [hlength, Int.toNat_natCast, chunkqueueAppendFile, if_neg (Nat.succ_ne_zero _), unsent_append,
    hstretch, partBytes, ← List.append_assoc]
  congr 1
  rw [appendHeader]
  dsimp only
  split_ifs
  · rw [unsent_append]
    simp [unsent, OutChunk.data, Chunk.data, Chunk.bytes]
  · rw [List.append_nil]

@[simp]
theorem appendPart_error (path : Bytes) (contentType : Option Bytes) (size : ℕ) (p : RangePart)
    (st : RangeState) : (appendPart path contentType size p st).error = st.error := by
  rw [appendPart, appendStretch, appendHeader]
  split_ifs <;> rfl

@[simp]
theorem appendPart_multipart (path : Bytes) (contentType : Option Bytes) (size : ℕ) (p : RangePart)
    (st : RangeState) :
    (appendPart path contentType size p st).multipart = (st.multipart || p.comma) := by
  rw [appendPart, appendStretch, appendHeader]
  split_ifs <;> rfl

/-- **The loop goes through all parts.** -/
structure ReadAll (files : Bytes → Bytes) (path : Bytes) (contentType : Option Bytes)
    (specs : List RangeSpec) (st st' : RangeState) : Prop where
  /-- Nothing goes wrong. -/
  error : st'.error = st.error
  /-- There is more than one part if there was a comma. -/
  multipart : st'.multipart = (st.multipart || decide (1 < specs.length))
  /-- The parts have been queued. -/
  queue : unsent files st'.queue = unsent files st.queue ++
    (specs.map (partBytes contentType (files path) st'.multipart)).flatten
  /-- The last one was the last one. -/
  last : ∀ r ∈ specs.getLast?, st'.start = r.start (files path).length ∧
    st'.stop = r.stop (files path).length

theorem rangeLoop_nil (path : Bytes) (contentType : Option Bytes) (size fuel : ℕ)
    (st : RangeState) : rangeLoop path contentType size fuel [] st = st := by
  cases fuel <;> simp [rangeLoop]

theorem minus_mem_text (r : RangeSpec) : 45 ∈ r.text := by
  rcases r with ⟨a, b⟩ | a | n <;> simp [RangeSpec.text]

/-- One round of the loop. -/
theorem rangeLoop_text {size : ℕ} (hsize : size ≤ llongMax) {r : RangeSpec}
    (hr : r.Satisfiable size) (hsep : separator err = some (comma, rest)) (path : Bytes)
    (contentType : Option Bytes) (fuel : ℕ) (st : RangeState) :
    rangeLoop path contentType size (fuel + 1) (r.text ++ err) st =
      rangeLoop path contentType size fuel rest
        (appendPart path contentType size ⟨r.start size, r.stop size, comma, rest⟩ st) := by
  have hminus : ¬ 45 ∉ r.text ++ err := not_not.mpr (List.mem_append_left _ (minus_mem_text r))
  rw [rangeLoop, if_neg hminus, nextPart_text hsize hr hsep]

theorem rangeText_cons_cons (r r' : RangeSpec) (specs : List RangeSpec) :
    rangeText (r :: r' :: specs) = r.text ++ 44 :: rangeText (r' :: specs) := by
  simp [rangeText, List.intercalate_cons_cons]

theorem readAll_rangeLoop {files : Bytes → Bytes} {path : Bytes}
    (hsize : (files path).length ≤ llongMax) (contentType : Option Bytes) {r : RangeSpec}
    {specs : List RangeSpec} (hspecs : ∀ r' ∈ r :: specs, r'.Satisfiable (files path).length)
    {fuel : ℕ} (hfuel : (rangeText (r :: specs)).length ≤ fuel) (st : RangeState) :
    ReadAll files path contentType (r :: specs) st
      (rangeLoop path contentType (files path).length fuel (rangeText (r :: specs)) st) := by
  induction specs generalizing r fuel st with
  | nil =>
    have hr : r.Satisfiable (files path).length := hspecs r List.mem_cons_self
    have htext : rangeText [r] = r.text ++ [] := by simp [rangeText]
    have hpos := List.length_pos_of_mem (minus_mem_text r)
    rw [htext] at hfuel ⊢
    obtain ⟨fuel, rfl⟩ : ∃ n, fuel = n + 1 := ⟨fuel - 1, by simp at hfuel; omega⟩
    rw [rangeLoop_text hsize hr (show separator [] = some (false, []) from rfl), rangeLoop_nil]
    refine ⟨by simp, by simp, ?_, ?_⟩
    · rw [unsent_appendPart contentType hr]
      simp
    · rintro r' hr'
      obtain rfl : r = r' := by simpa using hr'
      exact ⟨rfl, rfl⟩
  | cons r' specs ih =>
    obtain ⟨hr, hspecs⟩ := List.forall_mem_cons.mp hspecs
    have hpos := List.length_pos_of_mem (minus_mem_text r)
    rw [rangeText_cons_cons] at hfuel ⊢
    rw [List.length_append, List.length_cons] at hfuel
    obtain ⟨fuel, rfl⟩ : ∃ n, fuel = n + 1 := ⟨fuel - 1, by omega⟩
    rw [rangeLoop_text hsize hr (show separator (44 :: rangeText (r' :: specs)) =
      some (true, rangeText (r' :: specs)) from rfl)]
    generalize happend : appendPart path contentType (files path).length
      ⟨r.start (files path).length, r.stop (files path).length, true, rangeText (r' :: specs)⟩ st =
      st₁
    have herror : st₁.error = st.error := by rw [← happend, appendPart_error]
    have hmultipart : st₁.multipart = true := by
      rw [← happend, appendPart_multipart, Bool.or_true]
    have hqueue : unsent files st₁.queue =
        unsent files st.queue ++ partBytes contentType (files path) true r := by
      rw [← happend, unsent_appendPart contentType hr, Bool.or_true]
    obtain ⟨herror', hmultipart', hqueue', hlast⟩ :=
      ih hspecs (show (rangeText (r' :: specs)).length ≤ fuel by omega) st₁
    rw [hmultipart, Bool.true_or] at hmultipart'
    refine ⟨herror'.trans herror, by simp [hmultipart'], ?_, ?_⟩
    · rw [hqueue', hqueue, hmultipart', List.append_assoc]
      rfl
    · rwa [List.getLast?_cons_cons]

end Understood

/-- **Each list of parts is answered as it was meant**: the body is the part, or the parts with
their headers, and the header of the answer goes with it. -/
theorem httpResponseParseRange_rangeText (files : Bytes → Bytes) (path : Bytes)
    (contentType : Option Bytes) (specs : List RangeSpec)
    (hsize : (files path).length ≤ llongMax) (hne : specs ≠ [])
    (hspecs : ∀ r ∈ specs, r.Satisfiable (files path).length) :
    let a := httpResponseParseRange path contentType (files path).length (rangeText specs)
    unsent files a.queue = rangeBody contentType (files path) specs ∧
      a.header = .ok (rangeField (files path).length specs) := by
  obtain ⟨r, specs, rfl⟩ := List.exists_cons_of_ne_nil hne
  obtain ⟨herror, hmultipart, hqueue, hlast⟩ := readAll_rangeLoop hsize contentType hspecs
    (Nat.le_refl _) ⟨0, (files path).length - 1, false, [], 0, none⟩
  rw [httpResponseParseRange]
  generalize rangeLoop path contentType (files path).length (rangeText (r :: specs)).length
    (rangeText (r :: specs)) ⟨0, (files path).length - 1, false, [], 0, none⟩ = st at *
  rw [herror]
  dsimp only
  rcases specs with _ | ⟨r', specs⟩
  · obtain ⟨hstart, hstop⟩ := hlast r rfl
    have hone : ¬ st.multipart = true := by simp [hmultipart]
    rw [appendEnd, if_neg hone, rangeHeader, if_neg hone, hqueue, hstart, hstop]
    simp [unsent, partBytes, hmultipart, rangeBody, rangeField]
  · have hmany : st.multipart = true := by simp [hmultipart]
    rw [appendEnd, if_pos hmany, rangeHeader, if_pos hmany, unsent_append, hqueue, hmany]
    simp [unsent, rangeBody, rangeField, OutChunk.data, Chunk.data, Chunk.bytes]

/-- Five bytes in a file; the client asks for the first two and the last one. -/
def fiveBytes : Bytes → Bytes := fun _ => [1, 2, 3, 4, 5]

theorem httpResponseParseRange_rangeText_fiveBytes :
    rangeText [.fromTo 0 1, .suffix 1] = ascii "0-1,-1" ∧
      let a := httpResponseParseRange [] none 5 (rangeText [.fromTo 0 1, .suffix 1])
      unsent fiveBytes a.queue = rangeBody none (fiveBytes []) [.fromTo 0 1, .suffix 1] ∧
        a.header = .ok (rangeField 5 [.fromTo 0 1, .suffix 1]) :=
  ⟨by decide, httpResponseParseRange_rangeText fiveBytes [] none [.fromTo 0 1, .suffix 1]
    (by decide) (by simp) (by simp [RangeSpec.Satisfiable, fiveBytes])⟩

end InstantMirror
