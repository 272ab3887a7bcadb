import Mathlib.Algebra.Ring.Nat
import InstantMirror.Lib.Bytes

/-!
# Numbers in decimal

The text `printf` writes for an integer: digits, most significant first, and a minus sign
in front of a negative number. Read from the left again, the digits are the number
(`InstantMirror.readDigits_decimal`).
-/

namespace InstantMirror

/-- The decimal digits of a number. -/
def decimal (n : ℕ) : Bytes := (Nat.toDigits 10 n).map fun c => UInt8.ofNat c.toNat

/-- An integer in decimal. -/
def intText (n : ℤ) : Bytes := if n < 0 then 45 :: decimal n.natAbs else decimal n.natAbs

/-- `is_digit`. -/
def isDigit (c : UInt8) : Bool := 48 ≤ c && c ≤ 57

/-- `c - '0'`, for a `char` that is signed. -/
def digitValue (c : UInt8) : ℤ := (c.toNat : ℤ).bmod 256 - 48

/-- **The value of a string of digits** that is read from the left, `val` being what was
read before it. -/
def readDigits (val : ℤ) (s : Bytes) : ℤ := s.foldl (fun val c => val * 10 + digitValue c) val

theorem length_decimal_le_iff {n k : ℕ} (hk : 0 < k) : (decimal n).length ≤ k ↔ n < 10 ^ k := by
  rw [decimal, List.length_map]
  exact Nat.length_toDigits_le_iff (by omega) hk

/-- How long the text of an integer is, the minus sign included. -/
theorem length_intText_le_iff {n : ℤ} {k : ℕ} (hk : 0 < k) :
    (intText n).length ≤ k + 1 ↔ -(10 ^ k : ℕ) < n ∧ n < (10 ^ (k + 1) : ℕ) := by
  rw [intText]
  split
  · rename_i hneg
    rw [List.length_cons, Nat.add_le_add_iff_right, length_decimal_le_iff hk]
    have hpos : (0 : ℤ) < (10 ^ (k + 1) : ℕ) := by exact_mod_cast Nat.pow_pos (by omega)
    omega
  · rename_i hneg
    rw [length_decimal_le_iff (by omega)]
    have hpos : (0 : ℤ) < (10 ^ k : ℕ) := by exact_mod_cast Nat.pow_pos (by omega)
    omega

/-! ### The digits read again -/

theorem decimal_ne_nil (n : ℕ) : decimal n ≠ [] := by
  simp [decimal, Nat.toDigits_ne_nil]

/-- A digit as a byte. -/
theorem toNat_digit {d : Char} (h : d.isDigit = true) :
    (UInt8.ofNat d.toNat).toNat = d.toNat ∧ 48 ≤ d.toNat ∧ d.toNat ≤ 57 := by
  obtain ⟨hlow, hhigh⟩ : 48 ≤ d.toNat ∧ d.toNat ≤ 57 := Char.isDigit_iff_toNat.mp h
  have hlt : d.toNat < UInt8.size := Nat.lt_of_le_of_lt hhigh (by decide)
  exact ⟨UInt8.toNat_ofNat_of_lt' hlt, hlow, hhigh⟩

theorem isDigit_of_mem_decimal {n : ℕ} {c : UInt8} (h : c ∈ decimal n) : isDigit c = true := by
  obtain ⟨d, hd, rfl⟩ := List.mem_map.mp h
  obtain ⟨hbyte, hlow, hhigh⟩ := toNat_digit (Nat.isDigit_of_mem_toDigits (by omega) le_rfl hd)
  simp only [isDigit, Bool.and_eq_true, decide_eq_true_eq, UInt8.le_iff_toNat_le, hbyte]
  exact ⟨hlow, hhigh⟩

theorem notMem_decimal {c : UInt8} (hdigit : isDigit c = false) (n : ℕ) : c ∉ decimal n :=
  fun hmem => Bool.false_ne_true (hdigit.symm.trans (isDigit_of_mem_decimal hmem))

/-- A text of an integer is made of digits and a minus sign. -/
theorem notMem_intText {c : UInt8} (hdigit : isDigit c = false) (hminus : c ≠ 45) (n : ℤ) :
    c ∉ intText n := by
  have hdecimal := notMem_decimal hdigit n.natAbs
  rw [intText]
  split
  · exact fun hmem => (List.mem_cons.mp hmem).elim hminus hdecimal
  · exact hdecimal

theorem digitValue_digit {d : Char} (h : d.isDigit = true) :
    digitValue (UInt8.ofNat d.toNat) = ((d.toNat - 48 : ℕ) : ℤ) := by
  obtain ⟨hbyte, hlow, hhigh⟩ := toNat_digit h
  have hmod : (d.toNat : ℤ).bmod 256 = d.toNat := Int.bmod_eq_of_le (by omega) (by omega)
  calc digitValue (UInt8.ofNat d.toNat)
      = ((UInt8.ofNat d.toNat).toNat : ℤ).bmod 256 - 48 := rfl
    _ = (d.toNat : ℤ) - 48 := by rw [hbyte, hmod]
    _ = ((d.toNat - 48 : ℕ) : ℤ) := (Int.ofNat_sub hlow).symm

/-- Reading bytes is reading characters. -/
theorem readDigits_map {s : List Char} (hs : ∀ d ∈ s, d.isDigit = true) (val : ℕ) :
    readDigits val (s.map fun d => UInt8.ofNat d.toNat) = Nat.ofDigitChars 10 s val := by
  induction s generalizing val with
  | nil => simp [readDigits]
  | cons d s ih =>
    have hrest := ih (fun c hc => hs c (List.mem_cons_of_mem d hc)) (10 * val + (d.toNat - 48))
    have hval : (val : ℤ) * 10 + digitValue (UInt8.ofNat d.toNat)
        = ((10 * val + (d.toNat - 48) : ℕ) : ℤ) := by
      have := digitValue_digit (hs d List.mem_cons_self)
      omega
    rw [readDigits, ← hval] at hrest
    rw [Nat.ofDigitChars_cons, readDigits, List.map_cons, List.foldl_cons, hrest]
    rfl

/-- **The digits of a number are read as the number.** -/
theorem readDigits_decimal (n : ℕ) : readDigits 0 (decimal n) = n := by
  have h := readDigits_map (s := Nat.toDigits 10 n)
    (fun d hd => Nat.isDigit_of_mem_toDigits (by omega) le_rfl hd) 0
  rwa [Nat.ofDigitChars_ten_toDigits] at h

/-- The first digit, and what the others make of it. -/
theorem exists_decimal_eq_cons (n : ℕ) : ∃ d ds, decimal n = d :: ds ∧ isDigit d = true ∧
    (∀ c ∈ ds, isDigit c = true) ∧ readDigits (digitValue d) ds = n := by
  obtain ⟨d, ds, hds⟩ := List.exists_cons_of_ne_nil (decimal_ne_nil n)
  have hdigit : ∀ c ∈ d :: ds, isDigit c = true := fun c hc =>
    isDigit_of_mem_decimal (n := n) (hds ▸ hc)
  refine ⟨d, ds, hds, hdigit d (by simp), fun c hc => hdigit c (by simp [hc]), ?_⟩
  have hread := readDigits_decimal n
  rwa [hds, readDigits, List.foldl_cons, Int.zero_mul, Int.zero_add] at hread

end InstantMirror
