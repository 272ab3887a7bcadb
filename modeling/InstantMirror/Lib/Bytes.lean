import Mathlib.Data.List.Basic
import Mathlib.Data.List.TakeWhile

/-!
# Byte strings, and the two ways C and C++ look at them

A program that mixes C buffers with C++ strings sees the same bytes in two ways.
A C string is whatever stands in memory up to the first NUL
(`InstantMirror.cstr`); a C++ string is a sequence of known length, taken apart
with `find`, `rfind` and `substr`. This file has both, over lists of bytes.

The positions `find` and `rfind` return are kept as *integers*, with `-1` for
“not found”: programs store them in an `int` and then compare them with `0` or
with `-1`, and which of the two they compare with is often the whole story. For
the same reason `InstantMirror.rfind` takes its starting position as an integer:
a negative one, converted to `size_t`, is a position past the end of every
string, and the search then starts at the last byte.
-/

namespace InstantMirror

/-- A string of bytes. -/
abbrev Bytes : Type := List UInt8

/-- The bytes of an ASCII literal. -/
def ascii (s : String) : Bytes := s.toList.map fun c => UInt8.ofNat c.toNat

/-- The byte `/`. -/
def slash : UInt8 := 47

/-! ### C strings -/

/-- **The C string at the start of a piece of memory**: the bytes up to the first
NUL. Memory that ends without one is read to its end. -/
def cstr (mem : Bytes) : Bytes := mem.takeWhile (· ≠ 0)

@[simp] theorem cstr_nil : cstr [] = [] := rfl

@[simp] theorem cstr_zero (t : Bytes) : cstr (0 :: t) = [] := rfl

/-- A string is cut at a byte unless the byte does not occur in it. -/
theorem takeWhile_ne_eq_self_iff {s : Bytes} {c : UInt8} :
    s.takeWhile (· ≠ c) = s ↔ c ∉ s := by
  rw [List.takeWhile_eq_self_iff]
  constructor
  · exact fun h hmem => by simpa using h c hmem
  · intro h d hd
    simpa using fun heq : d = c => h (heq ▸ hd)

/-- A string cut at each of these bytes, one after the other. -/
def cutAll (ends s : Bytes) : Bytes := ends.foldl (fun s c => s.takeWhile (· ≠ c)) s

theorem length_cutAll_le (ends : Bytes) : ∀ s, (cutAll ends s).length ≤ s.length := by
  induction ends with
  | nil => exact fun _ => Nat.le_refl _
  | cons c ends ih => exact fun s => (ih _).trans (List.takeWhile_sublist _).length_le

/-- **A string that is not made shorter is not cut.** -/
theorem notMem_of_length_cutAll (ends : Bytes) : ∀ {s : Bytes},
    s.length ≤ (cutAll ends s).length → ∀ c ∈ ends, c ∉ s := by
  induction ends with
  | nil => exact fun _ _ hc => absurd hc List.not_mem_nil
  | cons c ends ih =>
    intro s hlen
    have hle : s.length ≤ (s.takeWhile (· ≠ c)).length := hlen.trans (length_cutAll_le ends _)
    have hsame : s.takeWhile (· ≠ c) = s := (List.takeWhile_sublist _).eq_of_length_le hle
    have hlen : s.length ≤ (cutAll ends (s.takeWhile (· ≠ c))).length := hlen
    rw [hsame] at hlen
    exact List.forall_mem_cons.mpr ⟨takeWhile_ne_eq_self_iff.mp hsame, ih hlen⟩

theorem cutAll_of_notMem {s : Bytes} (ends : Bytes) (h : ∀ c ∈ ends, c ∉ s) :
    cutAll ends s = s := by
  induction ends with
  | nil => rfl
  | cons c ends ih =>
    obtain ⟨hc, hends⟩ := List.forall_mem_cons.mp h
    rw [cutAll, List.foldl_cons, takeWhile_ne_eq_self_iff.mpr hc]
    exact ih hends

/-- What stands behind a byte does not matter where a string is cut at the byte. -/
theorem takeWhile_ne_append_cons (s t : Bytes) (c : UInt8) :
    (s ++ c :: t).takeWhile (· ≠ c) = s.takeWhile (· ≠ c) := by
  induction s with
  | nil => simp
  | cons d s ih =>
    by_cases hd : d = c
    · simp [hd]
    · simpa [hd] using ih

theorem zero_notMem_cstr (mem : Bytes) : (0 : UInt8) ∉ cstr mem := by
  intro h
  have := List.mem_takeWhile_imp h
  simp at this

/-- Bytes other than NUL at the start of the memory belong to the string. -/
theorem cstr_append_of_notMem {s : Bytes} (hs : (0 : UInt8) ∉ s) (t : Bytes) :
    cstr (s ++ t) = s ++ cstr t := by
  refine List.takeWhile_append_of_pos fun c hc => ?_
  have hne : c ≠ 0 := fun he => hs (he ▸ hc)
  simpa using hne

/-- A string is read back from the memory that holds it with its NUL, whatever
comes after. -/
theorem cstr_append_zero {s : Bytes} (hs : (0 : UInt8) ∉ s) (t : Bytes) :
    cstr (s ++ 0 :: t) = s := by
  rw [cstr_append_of_notMem hs, cstr_zero, List.append_nil]

theorem cstr_of_notMem {s : Bytes} (hs : (0 : UInt8) ∉ s) : cstr s = s :=
  takeWhile_ne_eq_self_iff.mpr hs

/-- **A NUL cuts off the rest of the memory**: once one has been read, what
follows does not matter. -/
theorem cstr_append_of_mem {s : Bytes} (hs : (0 : UInt8) ∈ s) (t : Bytes) :
    cstr (s ++ t) = cstr s := by
  induction s with
  | nil => simp at hs
  | cons c s ih =>
    rcases eq_or_ne c 0 with rfl | hc
    · rfl
    · have hs' : (0 : UInt8) ∈ s := (List.mem_cons.mp hs).resolve_left hc.symm
      simpa [cstr, hc] using ih hs'

/-! ### Positions in a C++ string -/

/-- `s.find(c)` stored in an `int`: the first position of the byte, or `-1`. -/
def find (s : Bytes) (c : UInt8) : ℤ := if c ∈ s then (s.idxOf c : ℤ) else -1

/-- `s.find(pat)` stored in an `int`: the first position at which the pattern
stands, or `-1`. -/
def findStr (pat : Bytes) : Bytes → ℤ
  | [] => if pat = [] then 0 else -1
  | c :: s =>
    if pat.isPrefixOf (c :: s) then 0
    else if findStr pat s < 0 then -1 else findStr pat s + 1

/-- The part of the string a backward search from `pos` looks at: everything up
to `pos`, and the whole string where `pos` is negative. -/
def upTo (s : Bytes) (pos : ℤ) : Bytes := if pos < 0 then s else s.take (pos.toNat + 1)

/-- `s.rfind(c, pos)` stored in an `int`: the last position of the byte at or
before `pos`, or `-1`. -/
def rfind (s : Bytes) (c : UInt8) (pos : ℤ) : ℤ :=
  if c ∈ upTo s pos then (upTo s pos).length - 1 - (upTo s pos).reverse.idxOf c else -1

/-- `s.substr(0, n)`: a negative count, converted to `size_t`, takes everything. -/
def substrTo (s : Bytes) (n : ℤ) : Bytes := if n < 0 then s else s.take n.toNat

/-- `s.substr(n)`, for a position that is not negative. -/
def substrFrom (s : Bytes) (n : ℤ) : Bytes := s.drop n.toNat

theorem find_of_notMem {s : Bytes} {c : UInt8} (h : c ∉ s) : find s c = -1 := if_neg h

/-- The first position of a byte that does not occur before it. -/
theorem find_append_cons {a : Bytes} {c : UInt8} (ha : c ∉ a) (b : Bytes) :
    find (a ++ c :: b) c = a.length := by
  rw [find, if_pos (by simp), List.idxOf_append_of_notMem ha]
  simp

/-- **A string is cut in two at a byte it contains**, and the part before does
not contain it. -/
theorem exists_split {s : Bytes} {c : UInt8} (h : c ∈ s) :
    ∃ a b, s = a ++ c :: b ∧ c ∉ a := by
  obtain ⟨a, b, rfl, ha⟩ := List.eq_append_cons_of_mem h
  exact ⟨a, b, rfl, ha⟩

/-- **The shapes of a path**: without a slash, starting with one, or a nonempty first
component and the rest. -/
theorem path_cases (s : Bytes) :
    (slash ∉ s ∧ find s slash = -1) ∨ (∃ b, s = slash :: b ∧ find s slash = 0) ∨
      ∃ a b, s = a ++ slash :: b ∧ slash ∉ a ∧ a ≠ [] ∧ find s slash = a.length := by
  by_cases h : slash ∈ s
  · obtain ⟨a, b, rfl, ha⟩ := exists_split h
    cases a with
    | nil => exact Or.inr (Or.inl ⟨b, rfl, by simpa using find_append_cons ha b⟩)
    | cons c a => exact Or.inr (Or.inr ⟨c :: a, b, rfl, ha, by simp, find_append_cons ha b⟩)
  · exact Or.inl ⟨h, find_of_notMem h⟩

/-- A string is found at the start exactly where it stands there. -/
theorem findStr_eq_zero_iff {pat s : Bytes} : findStr pat s = 0 ↔ pat <+: s := by
  rw [← List.isPrefixOf_iff_prefix]
  cases s with
  | nil => cases pat <;> simp [findStr, List.isPrefixOf]
  | cons c s =>
    rw [findStr]
    split_ifs with h₁ h₂
    · simp [h₁]
    · simp [h₁]
    · exact iff_of_false (by omega) h₁

/-- Where a string is found does not depend on what follows. -/
theorem findStr_append_right {pat a : Bytes} (h : findStr pat (a ++ pat) = a.length) (t : Bytes) :
    findStr pat (a ++ pat ++ t) = a.length := by
  induction a with
  | nil => exact findStr_eq_zero_iff.mpr (List.prefix_append pat t)
  | cons c a ih =>
    have hne : ¬ pat <+: c :: (a ++ pat) := by
      rw [← findStr_eq_zero_iff, ← List.cons_append, h, List.length_cons]
      omega
    have hne' : ¬ pat <+: c :: (a ++ pat ++ t) := fun hpre =>
      hne (List.prefix_of_prefix_length_le hpre (List.prefix_append (c :: (a ++ pat)) t)
        (by simp only [List.length_cons, List.length_append]; omega))
    have hfind : findStr pat (a ++ pat) = a.length := by
      rw [List.cons_append, findStr, if_neg (by rwa [List.isPrefixOf_iff_prefix]),
        List.length_cons] at h
      split at h <;> omega
    rw [List.cons_append, List.cons_append, findStr, if_neg (by rwa [List.isPrefixOf_iff_prefix]),
      ih hfind, if_neg (by omega), List.length_cons]
    omega

theorem substrTo_length_append (a b : Bytes) : substrTo (a ++ b) a.length = a := by
  rw [substrTo, if_neg (by omega)]
  simp

theorem substrFrom_length_append (a b : Bytes) (c : UInt8) :
    substrFrom (a ++ c :: b) (a.length + 1) = b := by
  have h : ((a.length : ℤ) + 1).toNat = a.length + 1 := by omega
  rw [substrFrom, h, List.drop_append]
  simp

/-- A backward search looks at an initial segment of the string. -/
theorem upTo_eq_take (s : Bytes) (pos : ℤ) : ∃ m, upTo s pos = s.take m := by
  rw [upTo]
  split
  · exact ⟨s.length, by simp⟩
  · exact ⟨_, rfl⟩

/-- **A backward search stops at an occurrence**: the position it returns, when
it returns one, holds the byte it looked for. -/
theorem rfind_spec {s : Bytes} {c : UInt8} {pos : ℤ} (h : rfind s c pos ≠ -1) :
    0 ≤ rfind s c pos ∧ s[(rfind s c pos).toNat]? = some c := by
  obtain ⟨m, hm⟩ := upTo_eq_take s pos
  have hmem : c ∈ upTo s pos := by
    by_contra hc
    exact h (if_neg hc)
  have hlt : (upTo s pos).reverse.idxOf c < (upTo s pos).length := by
    simpa using List.idxOf_lt_length_of_mem (List.mem_reverse.mpr hmem)
  have hval : rfind s c pos =
      (((upTo s pos).length - 1 - (upTo s pos).reverse.idxOf c : ℕ) : ℤ) := by
    rw [rfind, if_pos hmem]
    omega
  rw [hval, Int.toNat_natCast]
  refine ⟨Int.natCast_nonneg _, ?_⟩
  have hrev : (upTo s pos).reverse[(upTo s pos).reverse.idxOf c]? = some c := by
    rw [List.getElem?_eq_getElem (by simpa using hlt)]
    exact congrArg some (List.getElem_idxOf _)
  rw [List.getElem?_reverse hlt] at hrev
  rw [hm] at hrev hlt ⊢
  rw [List.getElem?_take_of_lt (by rw [List.length_take] at hlt ⊢; omega)] at hrev
  exact hrev

/-- What a backward search looks at when it starts at the end of a part. -/
theorem upTo_append {a : Bytes} (ha : a ≠ []) (b : Bytes) : upTo (a ++ b) (a.length - 1) = a := by
  have hpos := List.length_pos_iff.mpr ha
  have hlen : ((a.length : ℤ) - 1).toNat + 1 = a.length := by omega
  rw [upTo, if_neg (by omega), hlen, List.take_left]

theorem upTo_of_neg {pos : ℤ} (hpos : pos < 0) (s : Bytes) : upTo s pos = s := if_pos hpos

theorem rfind_of_notMem {s : Bytes} {c : UInt8} {pos : ℤ} (h : c ∉ upTo s pos) :
    rfind s c pos = -1 := if_neg h

/-- The last occurrence of a byte in the part a backward search looks at. -/
theorem rfind_of_upTo {s a b : Bytes} {c : UInt8} {pos : ℤ} (hup : upTo s pos = a ++ c :: b)
    (hb : c ∉ b) : rfind s c pos = a.length := by
  have hidx : (a ++ c :: b).reverse.idxOf c = b.length := by
    rw [List.reverse_append, List.reverse_cons, List.append_assoc,
      List.idxOf_append_of_notMem (by simpa using hb)]
    simp
  rw [rfind, hup, if_pos (by simp), hidx]
  simp only [List.length_append, List.length_cons]
  omega

/-- A string that contains a byte is cut at the last occurrence. -/
theorem exists_split_last {s : Bytes} {c : UInt8} (h : c ∈ s) :
    ∃ a b, s = a ++ c :: b ∧ c ∉ b := by
  obtain ⟨a, b, hs, ha⟩ := exists_split (List.mem_reverse.mpr h)
  refine ⟨b.reverse, a.reverse, ?_, by simpa using ha⟩
  simpa using congrArg List.reverse hs

/-- A backward search does not go past an occurrence. -/
theorem le_rfind {s a b : Bytes} {c : UInt8} {pos : ℤ} (hup : upTo s pos = a ++ c :: b) :
    (a.length : ℤ) ≤ rfind s c pos := by
  by_cases hb : c ∈ b
  · obtain ⟨b₁, b₂, rfl, hb₂⟩ := exists_split_last hb
    rw [← List.cons_append, ← List.append_assoc] at hup
    rw [rfind_of_upTo hup hb₂, List.length_append]
    omega
  · exact Int.le_of_eq (rfind_of_upTo hup hb).symm

end InstantMirror
