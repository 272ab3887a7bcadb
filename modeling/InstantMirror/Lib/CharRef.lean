import Mathlib.Data.List.MinMax
import Mathlib.Data.Nat.Digits.Defs
import InstantMirror.Lib.Html

/-!
# Character references

In the text of a page and in the values of attributes, a `&` may begin a *character
reference*: the browser puts a character in the place of its number (`&#38;`, `&#x26;`) or of
its name (`&amp;`). This file reads the references (`InstantMirror.Html.Names.decode`), in the two
ways that HTML has: a name that no `;` ends is a reference in a text, but not in a value where a
letter, a digit or `=` follows it.

Which names there are is a parameter, `InstantMirror.Html.Names`. All that is asked of it is that
no name is shorter than what it stands for – in UTF-8 this is so for all the names of HTML but
two, `nGt` and `nLt`. A text then is never longer when it has been read, and it is read as it
is written exactly if there is no reference in it
(`InstantMirror.Html.Names.decode_eq_self_iff`).
-/

namespace InstantMirror

namespace Html

/-! ### Numbers -/

/-- The value of a digit, in any base up to sixteen; other bytes have the value sixteen. -/
def digitValue (c : UInt8) : ℕ :=
  if 48 ≤ c ∧ c ≤ 57 then c.toNat - 48
  else if 65 ≤ c ∧ c ≤ 70 then c.toNat - 55
  else if 97 ≤ c ∧ c ≤ 102 then c.toNat - 87
  else 16

/-- The number that is written with these digits. -/
def digitsValue (base : ℕ) (digits : Bytes) : ℕ :=
  Nat.ofDigits base (digits.reverse.map digitValue)

/-- The characters that the numbers from 128 to 159 stand for, as in windows-1252. -/
def replacements : List (ℕ × ℕ) :=
  [(0x80, 0x20AC), (0x82, 0x201A), (0x83, 0x192), (0x84, 0x201E), (0x85, 0x2026), (0x86, 0x2020),
    (0x87, 0x2021), (0x88, 0x2C6), (0x89, 0x2030), (0x8A, 0x160), (0x8B, 0x2039), (0x8C, 0x152),
    (0x8E, 0x17D), (0x91, 0x2018), (0x92, 0x2019), (0x93, 0x201C), (0x94, 0x201D), (0x95, 0x2022),
    (0x96, 0x2013), (0x97, 0x2014), (0x98, 0x2DC), (0x99, 0x2122), (0x9A, 0x161), (0x9B, 0x203A),
    (0x9C, 0x153), (0x9E, 0x17E), (0x9F, 0x178)]

/-- The character with a number. There is none with the number 0, and none where Unicode has
no character. -/
def codeChar (code : ℕ) : Char :=
  match replacements.find? (·.1 = code) with
  | some replacement => Char.ofNat replacement.2
  | none => Char.ofNat (if code = 0 ∨ ¬ code.isValidChar then 0xFFFD else code)

/-- The bytes of a `;`, if there is one. -/
def semicolon (s : Bytes) : ℕ := if s.head? = some 59 then 1 else 0

/-- A number in this base, in front of `s`: the character in UTF-8, and how many bytes have been
read, those before the number included. -/
def numberIn (base before : ℕ) (s : Bytes) : Option (Bytes × ℕ) :=
  let digits := s.takeWhile (digitValue · < base)
  if digits = [] then none
  else some (String.utf8EncodeChar (codeChar (digitsValue base digits)),
    before + digits.length + semicolon (s.dropWhile (digitValue · < base)))

/-- **A reference by number**, behind the `&`. -/
def numeric : Bytes → Option (Bytes × ℕ)
  | 35 :: 120 :: s => numberIn 16 2 s
  | 35 :: 88 :: s => numberIn 16 2 s
  | 35 :: s => numberIn 10 1 s
  | _ => none

section Numbers

variable {base before n : ℕ} {s text : Bytes}

theorem digitsValue_lt (hbase : 1 < base) {digits : Bytes}
    (h : ∀ c ∈ digits, digitValue c < base) : digitsValue base digits < base ^ digits.length := by
  have hlt := Nat.ofDigits_lt_base_pow_length (b := base) (l := digits.reverse.map digitValue) hbase
    (by simpa using h)
  rwa [List.length_map, List.length_reverse] at hlt

theorem utf8Size_ofNat_le {code : ℕ} (h : code < 0x10000) : (Char.ofNat code).utf8Size ≤ 3 := by
  have hval : (Char.ofNat code).toNat < 0x10000 := by
    by_cases hvalid : code.isValidChar
    · rw [Char.ofNat, dif_pos hvalid]
      exact h
    · rw [Char.ofNat, dif_neg hvalid]
      decide
  have hfour : (Char.ofNat code).utf8Size ≠ 4 := by
    rw [Ne, Char.utf8Size_eq_four_iff, UInt32.lt_iff_toNat_lt]
    exact Nat.not_lt.mpr (Nat.le_of_lt_succ hval)
  have := Char.utf8Size_le_four (Char.ofNat code)
  omega

/-- **Four bytes are for numbers of five digits.** -/
theorem utf8Size_codeChar_le {code : ℕ} (h : code < 0x10000) : (codeChar code).utf8Size ≤ 3 := by
  have htable : ∀ p ∈ replacements, p.2 < 0x10000 := by decide
  rw [codeChar]
  split
  · next replacement hfind =>
    exact utf8Size_ofNat_le (htable _ (List.mem_of_find?_eq_some hfind))
  · refine utf8Size_ofNat_le ?_
    split_ifs <;> omega

/-- A number takes no fewer bytes than its character, together with `&#`; and where it takes as
many, the character is not a `&`. -/
theorem length_codeChar (hbase : 1 < base) (hsixteen : base ≤ 16) {digits : Bytes}
    (hdigits : ∀ c ∈ digits, digitValue c < base) (hne : digits ≠ []) :
    let text := String.utf8EncodeChar (codeChar (digitsValue base digits))
    text.length ≤ digits.length + 2 ∧
      (text.length = digits.length + 2 → text.head? ≠ some 38) := by
  intro text
  have hvalue := digitsValue_lt hbase hdigits
  have hpos := List.length_pos_iff.mpr hne
  have hlen : text.length = (codeChar (digitsValue base digits)).utf8Size :=
    String.length_utf8EncodeChar _
  have hfour := Char.utf8Size_le_four (codeChar (digitsValue base digits))
  rcases Nat.lt_or_ge digits.length 5 with hfew | hmany
  · have hlt : digitsValue base digits < 0x10000 :=
      calc digitsValue base digits < base ^ digits.length := hvalue
        _ ≤ 16 ^ digits.length := Nat.pow_le_pow_left hsixteen _
        _ ≤ 16 ^ 4 := Nat.pow_le_pow_right (by decide) (by omega)
    have hthree := utf8Size_codeChar_le hlt
    refine ⟨by omega, fun heq => ?_⟩
    -- there is one digit only, of a control character
    have hone : digits.length = 1 := by omega
    rw [hone, pow_one] at hvalue
    have hsmall : ∀ code, code < 16 → (String.utf8EncodeChar (codeChar code)).head? ≠ some 38 := by
      decide
    exact hsmall _ (hvalue.trans_le hsixteen)
  · exact ⟨by omega, by omega⟩

/-- What is known of a reference that stands in front of `s`, behind the `&`: it does not
reach behind `s`, and it is not shorter than its text, nor the same. -/
structure Refers (s text : Bytes) (n : ℕ) : Prop where
  /-- It does not reach behind `s`. -/
  le_length : n ≤ s.length
  /-- It is not shorter than its text. -/
  length_le : text.length ≤ n + 1
  /-- It does not stand for itself. -/
  ne_self : text ≠ 38 :: s.take n

theorem semicolon_le_length (s : Bytes) : semicolon s ≤ s.length := by
  rw [semicolon]
  cases s with
  | nil => exact Nat.le_refl _
  | cons c s => split_ifs <;> simp

theorem refers_of_numberIn (hbase : 1 < base) (hsixteen : base ≤ 16) (front : Bytes)
    (hfront : front ≠ []) (h : numberIn base front.length s = some (text, n)) :
    Refers (front ++ s) text n := by
  rw [numberIn] at h
  set digits := s.takeWhile (digitValue · < base)
  set rest := s.dropWhile (digitValue · < base)
  have hdigits : ∀ c ∈ digits, digitValue c < base := fun c hc => by
    simpa using List.mem_takeWhile_imp hc
  have hwhole : digits.length + rest.length = s.length := by
    rw [← List.length_append, List.takeWhile_append_dropWhile]
  have hsemicolon := semicolon_le_length rest
  have hbefore := List.length_pos_iff.mpr hfront
  split_ifs at h with hnil
  obtain ⟨rfl, rfl⟩ := Prod.mk.inj (Option.some.inj h)
  obtain ⟨hlen, hhead⟩ := length_codeChar hbase hsixteen hdigits hnil
  have hreach : front.length + digits.length + semicolon rest ≤ (front ++ s).length := by
    rw [List.length_append]
    omega
  refine ⟨hreach, by omega, fun hself => ?_⟩
  have hsize := congrArg List.length hself
  rw [List.length_cons, List.length_take, Nat.min_eq_left hreach] at hsize
  exact hhead (by omega) (by rw [hself]; rfl)

theorem refers_of_numeric (h : numeric s = some (text, n)) : Refers s text n := by
  rw [numeric.eq_def] at h
  split at h
  · exact refers_of_numberIn (by decide) (by decide) [35, 120] (by simp) h
  · exact refers_of_numberIn (by decide) (by decide) [35, 88] (by simp) h
  · exact refers_of_numberIn (by decide) (by decide) [35] (by simp) h
  · cases h

end Numbers

/-! ### Names -/

/-- **The names of characters**, each with the text it stands for; a name that has to end with a
`;` has it as its last byte. -/
structure Names where
  /-- The names, and what they stand for. -/
  entries : List (Bytes × Bytes)
  /-- No name is shorter than what it stands for, together with the `&`. -/
  length_le : ∀ e ∈ entries, e.2.length ≤ e.1.length + 1
  /-- No name stands for itself. -/
  ne_self : ∀ e ∈ entries, e.2 ≠ 38 :: e.1

/-- A letter or a digit. -/
def isAlnum (c : UInt8) : Bool := isAlpha c || (48 ≤ c && c ≤ 57)

namespace Names

variable (names : Names) (inValue : Bool)

/-- **A reference by name**, behind the `&`: the longest name that stands there. In a value, one
without `;` is none if it seems to go on. -/
def named (s : Bytes) : Option (Bytes × ℕ) :=
  ((names.entries.filter (·.1.isPrefixOf s)).argmax (·.1.length)).bind fun e =>
    if inValue ∧ e.1.getLast? ≠ some 59 ∧
        (s.drop e.1.length).head?.any (fun c => c = 61 || isAlnum c) then none
    else some (e.2, e.1.length)

/-- **A reference**, behind the `&`. -/
def reference (s : Bytes) : Option (Bytes × ℕ) :=
  if s.head? = some 35 then numeric s else names.named inValue s

variable {names inValue} {s text : Bytes} {n : ℕ}

theorem refers_of_named (h : names.named inValue s = some (text, n)) : Refers s text n := by
  obtain ⟨e, hmax, he⟩ := Option.bind_eq_some_iff.mp h
  obtain ⟨hmem, hstands⟩ := List.mem_filter.mp (List.argmax_mem hmax)
  obtain ⟨rest, rfl⟩ := List.isPrefixOf_iff_prefix.mp hstands
  split_ifs at he
  obtain ⟨rfl, rfl⟩ := Prod.mk.inj (Option.some.inj he)
  refine ⟨by simp, names.length_le e hmem, ?_⟩
  rw [List.take_left]
  exact names.ne_self e hmem

theorem refers_of_reference (h : names.reference inValue s = some (text, n)) :
    Refers s text n := by
  rw [reference] at h
  split_ifs at h
  · exact refers_of_numeric h
  · exact refers_of_named h

/-! ### Reading -/

variable (names inValue)

/-- What is read behind the first `skip` bytes. -/
def decodeFrom : ℕ → Bytes → Bytes
  | _, [] => []
  | skip + 1, _ :: s => decodeFrom skip s
  | 0, c :: s =>
    match if c = 38 then names.reference inValue s else none with
    | some (text, n) => text ++ decodeFrom n s
    | none => c :: decodeFrom 0 s

/-- **A text, or a value, as it is read**, with a character in the place of each reference. -/
def decode (s : Bytes) : Bytes := names.decodeFrom inValue 0 s

/-- **No `&` begins a reference.** -/
def NoReference (s : Bytes) : Prop :=
  ∀ before after, s = before ++ 38 :: after → names.reference inValue after = none

variable {names inValue}

theorem NoReference.tail {c : UInt8} (h : names.NoReference inValue (c :: s)) :
    names.NoReference inValue s :=
  fun before after he => h (c :: before) after (by rw [he, List.cons_append])

theorem noReference_of_notMem (h : 38 ∉ s) : names.NoReference inValue s :=
  fun before after he => absurd (he ▸ by simp) h

theorem decodeFrom_eq_decode (skip : ℕ) (s : Bytes) :
    names.decodeFrom inValue skip s = names.decode inValue (s.drop skip) := by
  induction s generalizing skip with
  | nil => rw [List.drop_nil, decode, decodeFrom, decodeFrom]
  | cons c s ih =>
    cases skip with
    | zero => rfl
    | succ skip => exact ih skip

/-- A reference is read. -/
theorem decode_of_reference (h : names.reference inValue s = some (text, n)) :
    names.decode inValue (38 :: s) = text ++ names.decode inValue (s.drop n) := by
  rw [decode, decodeFrom, if_pos rfl, h, ← decodeFrom_eq_decode]

/-- Any other byte stands for itself. -/
theorem decode_cons {c : UInt8} (h : c = 38 → names.reference inValue s = none) :
    names.decode inValue (c :: s) = c :: names.decode inValue s := by
  have hnone : (if c = 38 then names.reference inValue s else none) = none := by
    split_ifs with hc
    · exact h hc
    · rfl
  rw [decode, decodeFrom, hnone, decode]

/-- **The two ways a text goes on.** -/
theorem reference_cases (names : Names) (inValue : Bool) (c : UInt8) (s : Bytes) :
    (c = 38 ∧ ∃ text n, names.reference inValue s = some (text, n)) ∨
      (c = 38 → names.reference inValue s = none) := by
  by_cases hc : c = 38
  · cases h : names.reference inValue s with
    | none => exact .inr fun _ => rfl
    | some p => exact .inl ⟨hc, p.1, p.2, rfl⟩
  · exact .inr fun he => absurd he hc

/-- Reading does not make a text longer. -/
theorem length_decode_le (names : Names) (inValue : Bool) (s : Bytes) :
    (names.decode inValue s).length ≤ s.length := by
  induction h : s.length using Nat.strong_induction_on generalizing s with
  | _ m ih =>
    cases s with
    | nil => exact Nat.zero_le _
    | cons c s =>
      rw [List.length_cons] at h
      rcases reference_cases names inValue c s with ⟨rfl, text, n, href⟩ | hnone
      · obtain ⟨hle, hlen, -⟩ := refers_of_reference href
        have hrest := ih _ (by rw [List.length_drop]; omega) (s.drop n) rfl
        rw [List.length_drop] at hrest
        rw [decode_of_reference href, List.length_append]
        omega
      · have hrest := ih _ (by omega) s rfl
        rw [decode_cons hnone, List.length_cons]
        omega

/-- A text without references is read as it is written. -/
theorem NoReference.decode_eq (h : names.NoReference inValue s) : names.decode inValue s = s := by
  induction s with
  | nil => rfl
  | cons c s ih => rw [decode_cons fun hc => h [] s (by rw [hc]; rfl), ih h.tail]

theorem noReference_of_decode_eq (h : names.decode inValue s = s) :
    names.NoReference inValue s := by
  induction s with
  | nil => exact noReference_of_notMem List.not_mem_nil
  | cons c s ih =>
    rcases reference_cases names inValue c s with ⟨rfl, text, n, href⟩ | hnone
    · -- the text stands where the reference stood, and is as long
      obtain ⟨hle, hlen, hne⟩ := refers_of_reference href
      rw [decode_of_reference href] at h
      have hrest := names.length_decode_le inValue (s.drop n)
      have hsize := congrArg List.length h
      rw [List.length_append, List.length_cons] at hsize
      rw [List.length_drop] at hrest
      have htext := congrArg (List.take (n + 1)) h
      rw [List.take_left' (by omega), List.take_succ_cons] at htext
      exact absurd htext hne
    · rw [decode_cons hnone] at h
      intro before after he
      cases before with
      | nil =>
        obtain ⟨hc, rfl⟩ := List.cons.inj he
        exact hnone hc
      | cons d before => exact ih (List.cons.inj h).2 before after (List.cons.inj he).2

/-- **A text is read as it is written exactly if there is no reference in it.** -/
theorem decode_eq_self_iff : names.decode inValue s = s ↔ names.NoReference inValue s :=
  ⟨noReference_of_decode_eq, NoReference.decode_eq⟩

/-- The names of the characters that HTML is written with. -/
def markup : Names where
  entries := [(ascii "amp;", ascii "&"), (ascii "amp", ascii "&"), (ascii "lt;", ascii "<"),
    (ascii "lt", ascii "<"), (ascii "gt;", ascii ">"), (ascii "gt", ascii ">"),
    (ascii "quot;", ascii "\""), (ascii "quot", ascii "\""), (ascii "apos;", ascii "'")]
  length_le := by decide
  ne_self := by decide

end Names

/-! ### The text of an anchor -/

/-- The character that the token is. -/
def Token.char? : Token → Option UInt8
  | .char c => some c
  | _ => none

/-- **The text of an anchor**, as it is read. -/
def Anchor.text (names : Names) (a : Anchor) : Bytes :=
  names.decode false (a.content.filterMap Token.char?)

theorem Anchor.text_chars (names : Names) (attrs : List (Bytes × Bytes)) (s : Bytes) :
    Anchor.text names ⟨attrs, s.map .char⟩ = names.decode false s := by
  have hchars : (s.map Token.char).filterMap Token.char? = s := by
    rw [List.filterMap_map]
    exact List.filterMap_some
  rw [Anchor.text, hchars]

end Html

end InstantMirror
