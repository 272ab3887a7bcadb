import InstantMirror.Lib.Decimal

/-!
# Messages as a client reads them

A client that has asked for something over HTTP reads lines up to an empty one, and has then to
find out where the answer ends, since another one may come behind it: there is no body if it has
asked with `HEAD`, or if the status says so; otherwise the body is in chunks, each with its size in
front, or it is as long as a field of the head says (`InstantMirror.readMessage`).

The lemmas say what is read of a head that was written line by line
(`InstantMirror.readLines_append`), of a body in chunks (`InstantMirror.dechunk_append`), and of a
whole message; whatever comes behind it is left over, so that messages can be read one after the
other.
-/

namespace InstantMirror

/-! ### Lines -/

/-- `"\r\n"`. -/
def crlf : Bytes := [13, 10]

/-- A line, and what comes behind it. -/
def readLine : Bytes → Option (Bytes × Bytes)
  | [] => none
  | c :: s =>
    if c = 13 ∧ s.head? = some 10 then some ([], s.drop 1)
    else (readLine s).map fun p => (c :: p.1, p.2)

/-- The lines up to an empty one, and what comes behind that. -/
def readLines : ℕ → Bytes → Option (List Bytes × Bytes)
  | 0, _ => none
  | fuel + 1, s =>
    match readLine s with
    | none => none
    | some ([], rest) => some ([], rest)
    | some (line, rest) => (readLines fuel rest).map fun p => (line :: p.1, p.2)

/-- Lines as they are written. -/
def writeLines (lines : List Bytes) : Bytes := lines.flatMap (· ++ crlf)

theorem readLine_append {line : Bytes} (hline : 13 ∉ line) (rest : Bytes) :
    readLine (line ++ (crlf ++ rest)) = some (line, rest) := by
  induction line with
  | nil => rfl
  | cons c line ih =>
    obtain ⟨hc, hline⟩ := List.ne_and_not_mem_of_not_mem_cons hline
    rw [List.cons_append, readLine, if_neg (fun h => hc h.1.symm), ih hline]
    rfl

/-- **A head is read as it was written.** -/
theorem readLines_append {lines : List Bytes} (hlines : ∀ l ∈ lines, l ≠ [] ∧ 13 ∉ l) {fuel : ℕ}
    (hfuel : lines.length < fuel) (rest : Bytes) :
    readLines fuel (writeLines lines ++ (crlf ++ rest)) = some (lines, rest) := by
  induction lines generalizing fuel with
  | nil =>
    obtain ⟨fuel, rfl⟩ : ∃ n, fuel = n + 1 := ⟨fuel - 1, by simp at hfuel; omega⟩
    rfl
  | cons line lines ih =>
    obtain ⟨⟨hne, hcr⟩, hrest⟩ := List.forall_mem_cons.mp hlines
    rw [List.length_cons] at hfuel
    obtain ⟨fuel, rfl⟩ : ∃ n, fuel = n + 1 := ⟨fuel - 1, by omega⟩
    obtain ⟨c, line, rfl⟩ := List.exists_cons_of_ne_nil hne
    have hread := readLine_append hcr (writeLines lines ++ (crlf ++ rest))
    rw [readLines, writeLines, List.flatMap_cons, List.append_assoc, List.append_assoc,
      ← writeLines, hread]
    dsimp only
    rw [ih hrest (by omega)]
    rfl

theorem length_le_writeLines (lines : List Bytes) : lines.length ≤ (writeLines lines).length := by
  induction lines with
  | nil => exact Nat.le_refl 0
  | cons line lines ih =>
    simp only [writeLines, List.flatMap_cons, List.length_append, List.length_cons, crlf,
      List.length_nil] at ih ⊢
    omega

/-! ### Fields -/

/-- A text in small letters. -/
def lower (s : Bytes) : Bytes := s.map fun c => if 65 ≤ c ∧ c ≤ 90 then c ||| 32 else c

/-- The name of a field, in small letters. -/
def fieldName (line : Bytes) : Bytes := lower (line.takeWhile (· ≠ 58))

/-- The value of a field, without the blanks in front of it. -/
def fieldValue (line : Bytes) : Bytes := ((line.dropWhile (· ≠ 58)).drop 1).dropWhile (· = 32)

/-- **The first field with this name**, which is given in small letters. -/
def field? (name : Bytes) (lines : List Bytes) : Option Bytes :=
  (lines.find? fun line => fieldName line = name).map fieldValue

/-- A field as it is written. -/
def writeField (name value : Bytes) : Bytes := name ++ (58 :: 32 :: value)

theorem takeWhile_writeField {name : Bytes} (hname : 58 ∉ name) (value : Bytes) :
    (writeField name value).takeWhile (· ≠ 58) = name ∧
      (writeField name value).dropWhile (· ≠ 58) = 58 :: 32 :: value := by
  have hall : ∀ c ∈ name, decide (c ≠ 58) = true := by
    intro c hc
    rw [decide_eq_true_eq]
    rintro rfl
    exact hname hc
  rw [writeField, List.takeWhile_append_of_pos hall, List.dropWhile_append_of_pos hall]
  simp

theorem fieldName_writeField {name : Bytes} (hname : 58 ∉ name) (value : Bytes) :
    fieldName (writeField name value) = lower name := by
  rw [fieldName, (takeWhile_writeField hname value).1]

theorem fieldValue_writeField {name : Bytes} (hname : 58 ∉ name) {value : Bytes}
    (hvalue : value.head? ≠ some 32) : fieldValue (writeField name value) = value := by
  rw [fieldValue, (takeWhile_writeField hname value).2, List.drop_succ_cons, List.drop_zero,
    List.dropWhile_cons, if_pos (by decide)]
  rcases value with _ | ⟨c, value⟩
  · rfl
  · rw [List.dropWhile_cons, if_neg (by simpa using hvalue)]

/-! ### Numbers -/

/-- A number in digits. -/
def readNumber (s : Bytes) : Option ℕ :=
  if s ≠ [] ∧ s.all isDigit then some (readDigits 0 s).toNat else none

theorem readNumber_decimal (n : ℕ) : readNumber (decimal n) = some n := by
  have hall : (decimal n).all isDigit = true :=
    List.all_eq_true.mpr fun c hc => isDigit_of_mem_decimal hc
  rw [readNumber, if_pos ⟨decimal_ne_nil n, hall⟩, readDigits_decimal, Int.toNat_natCast]

/-- The digits of a number end where it ends. -/
theorem span_decimal (n : ℕ) (rest : Bytes) (hrest : ∀ c ∈ rest.head?, isDigit c = false) :
    (decimal n ++ rest).takeWhile isDigit = decimal n ∧
      (decimal n ++ rest).dropWhile isDigit = rest := by
  have hdigits : ∀ c ∈ decimal n, isDigit c = true := fun c hc => isDigit_of_mem_decimal hc
  rw [List.takeWhile_append_of_pos hdigits, List.dropWhile_append_of_pos hdigits]
  rcases rest with _ | ⟨c, rest⟩
  · exact ⟨List.append_nil _, rfl⟩
  · have hc : isDigit c = false := hrest c rfl
    rw [List.takeWhile_cons, List.dropWhile_cons, hc]
    exact ⟨List.append_nil _, rfl⟩

/-- The value of a hexadecimal digit. -/
def hexValue (c : UInt8) : Option ℕ :=
  if 48 ≤ c ∧ c ≤ 57 then some (c.toNat - 48)
  else if 97 ≤ c ∧ c ≤ 102 then some (c.toNat - 87)
  else if 65 ≤ c ∧ c ≤ 70 then some (c.toNat - 55)
  else none

/-- A number in hexadecimal digits, `val` being what was read before it. -/
def hexNumber : ℕ → Bytes → Option ℕ
  | val, [] => some val
  | val, c :: s => (hexValue c).bind fun d => hexNumber (16 * val + d) s

theorem hexNumber_append (s t : Bytes) (val : ℕ) :
    hexNumber val (s ++ t) = (hexNumber val s).bind fun v => hexNumber v t := by
  induction s generalizing val with
  | nil => rfl
  | cons c s ih =>
    rw [List.cons_append, hexNumber, hexNumber]
    cases hexValue c with
    | none => rfl
    | some d => exact ih _

/-! ### Chunks -/

/-- **A body in chunks**, and what comes behind it. -/
def dechunk : ℕ → Bytes → Option (Bytes × Bytes)
  | 0, _ => none
  | fuel + 1, s =>
    match readLine s with
    | none => none
    | some (line, rest) =>
      match (if line = [] then none else hexNumber 0 line) with
      | none => none
      | some 0 => (readLines (fuel + 1) rest).map fun p => ([], p.2)
      | some (n + 1) =>
        if (rest.drop (n + 1)).take 2 = crlf then
          (dechunk fuel (rest.drop (n + 3))).map fun p => (rest.take (n + 1) ++ p.1, p.2)
        else none

/-- **A chunk as it may be written**: a line with its size, its bytes, and the end of a line. -/
structure IsChunk (data text : Bytes) : Prop where
  /-- There is something in it. -/
  ne_nil : data ≠ []
  /-- How it is written. -/
  text : ∃ size, text = size ++ crlf ++ data ++ crlf ∧ size ≠ [] ∧ 13 ∉ size ∧
    hexNumber 0 size = some data.length

/-- One chunk is read. -/
theorem dechunk_cons {data text : Bytes} (h : IsChunk data text) (fuel : ℕ) (rest : Bytes) :
    dechunk (fuel + 1) (text ++ rest) =
      (dechunk fuel rest).map fun p => (data ++ p.1, p.2) := by
  obtain ⟨size, rfl, hne, hcr, hsize⟩ := h.text
  obtain ⟨n, hn⟩ : ∃ n, data.length = n + 1 :=
    ⟨data.length - 1, by have := List.length_pos_iff.mpr h.ne_nil; omega⟩
  have hread := readLine_append hcr (data ++ (crlf ++ rest))
  have hdata : (data ++ (crlf ++ rest)).take (n + 1) = data := by
    rw [← hn, List.take_left]
  have hdrop : (data ++ (crlf ++ rest)).drop (n + 1) = crlf ++ rest := by
    rw [← hn, List.drop_left]
  have hdrop' : (data ++ (crlf ++ rest)).drop (n + 3) = rest := by
    rw [show n + 3 = n + 1 + 2 by omega, ← List.drop_drop, hdrop]
    rfl
  simp only [List.append_assoc] at hread ⊢
  rw [dechunk, hread]
  dsimp only
  rw [if_neg hne, hsize, hn]
  dsimp only
  rw [hdrop, hdrop', hdata]
  rfl

theorem dechunk_of_lt {chunks : List (Bytes × Bytes)} (hchunks : ∀ p ∈ chunks, IsChunk p.1 p.2)
    {fuel : ℕ} (hfuel : chunks.length < fuel) (rest : Bytes) :
    dechunk fuel ((chunks.map Prod.snd).flatten ++ (48 :: (crlf ++ (crlf ++ rest)))) =
      some ((chunks.map Prod.fst).flatten, rest) := by
  induction chunks generalizing fuel with
  | nil =>
    obtain ⟨fuel, rfl⟩ : ∃ n, fuel = n + 1 := ⟨fuel - 1, by simp at hfuel; omega⟩
    rfl
  | cons p chunks ih =>
    obtain ⟨hp, hchunks⟩ := List.forall_mem_cons.mp hchunks
    rw [List.length_cons] at hfuel
    obtain ⟨fuel, rfl⟩ : ∃ n, fuel = n + 1 := ⟨fuel - 1, by omega⟩
    rw [List.map_cons, List.flatten_cons, List.append_assoc, dechunk_cons hp,
      ih hchunks (by omega)]
    rfl

theorem length_le_of_isChunk {chunks : List (Bytes × Bytes)}
    (hchunks : ∀ p ∈ chunks, IsChunk p.1 p.2) :
    chunks.length ≤ (chunks.map Prod.snd).flatten.length := by
  induction chunks with
  | nil => exact Nat.le_refl 0
  | cons p chunks ih =>
    obtain ⟨hp, hchunks⟩ := List.forall_mem_cons.mp hchunks
    obtain ⟨size, htext, hne, -⟩ := hp.text
    have hpos := List.length_pos_iff.mpr hne
    have := ih hchunks
    rw [List.map_cons, List.flatten_cons, List.length_append, List.length_cons, htext]
    simp only [List.length_append]
    omega

/-- **Chunks are read as they were written**, up to the one without bytes. -/
theorem dechunk_append {chunks : List (Bytes × Bytes)} (hchunks : ∀ p ∈ chunks, IsChunk p.1 p.2)
    {s rest : Bytes}
    (hs : s = (chunks.map Prod.snd).flatten ++ (48 :: (crlf ++ (crlf ++ rest)))) :
    dechunk (s.length + 1) s = some ((chunks.map Prod.fst).flatten, rest) := by
  -- the length of the text is fuel enough: each chunk has a byte at least
  have hle := length_le_of_isChunk hchunks
  have hlen := congrArg List.length hs
  rw [List.length_append] at hlen
  have hread := dechunk_of_lt hchunks (show chunks.length < s.length + 1 by omega) rest
  rwa [← hs] at hread

/-! ### Messages -/

/-- **A message.** -/
structure Message where
  /-- The status. -/
  status : ℕ
  /-- The fields of the head. -/
  fields : List Bytes
  /-- The body. -/
  body : Bytes

/-- There is no body behind such a head. -/
def bodyless (head : Bool) (status : ℕ) : Bool :=
  head || status / 100 = 1 || status = 204 || status = 304

/-- The status in a line such as `HTTP/1.1 200 OK`. -/
def statusOf (line : Bytes) : Option ℕ := readNumber ((line.drop 9).takeWhile isDigit)

/-- **The body**, and what comes behind it. -/
def readBody (head : Bool) (status : ℕ) (fields : List Bytes) (s : Bytes) :
    Option (Bytes × Bytes) :=
  if bodyless head status then some ([], s)
  else if field? (ascii "transfer-encoding") fields = some (ascii "chunked") then
    dechunk (s.length + 1) s
  else
    match (field? (ascii "content-length") fields).bind readNumber with
    | none => none
    | some n => if n ≤ s.length then some (s.take n, s.drop n) else none

/-- **A message is read**; `head` is whether the client has asked with `HEAD`. There is none if the
bytes are not one, or if it goes on to the end of the connection. -/
def readMessage (head : Bool) (s : Bytes) : Option (Message × Bytes) :=
  match readLines (s.length + 1) s with
  | some (line :: fields, rest) =>
    (statusOf line).bind fun status =>
      (readBody head status fields rest).map fun p => (⟨status, fields, p.1⟩, p.2)
  | _ => none

/-- **One message after the other.** -/
def readMessages : List Bool → Bytes → Option (List Message × Bytes)
  | [], s => some ([], s)
  | head :: heads, s =>
    (readMessage head s).bind fun p =>
      (readMessages heads p.2).map fun q => (p.1 :: q.1, q.2)

/-- **A message is read as it was written**, if its body is. -/
theorem readMessage_append {line : Bytes} {fields : List Bytes} {head : Bool} {status : ℕ}
    (hlines : ∀ l ∈ line :: fields, l ≠ [] ∧ 13 ∉ l) (hstatus : statusOf line = some status)
    {body text rest : Bytes}
    (hbody : readBody head status fields (text ++ rest) = some (body, rest)) :
    readMessage head (writeLines (line :: fields) ++ (crlf ++ text) ++ rest) =
      some (⟨status, fields, body⟩, rest) := by
  have hfuel : (line :: fields).length <
      (writeLines (line :: fields) ++ (crlf ++ text) ++ rest).length + 1 := by
    have := length_le_writeLines (line :: fields)
    simp only [List.length_append]
    omega
  have hread := readLines_append hlines hfuel (text ++ rest)
  rw [readMessage]
  simp only [List.append_assoc] at hread ⊢
  rw [hread]
  dsimp only
  rw [hstatus, Option.bind_some, hbody]
  rfl

end InstantMirror
