import Mathlib.Algebra.Order.Ring.Int

/-!
# Searching by halving steps

A search in a sorted row of `n` elements that does not keep an interval but only a position and a
step. The step is a power of two, and halved each time; the position is moved by the whole step
towards the element that is looked for, and may leave the row on either side. The last step is `0`.

This finds the element if it is there (`InstantMirror.halvingSearch_eq_some`), and stops at the
place where it belongs, or right before it, if it is not
(`InstantMirror.halvingSearch_eq_none`). In both cases the distance that is left is less than what
the steps that are left add up to.
-/

namespace InstantMirror

/-- On which side of a position the element is: before the row it is to the right, and behind it to
the left. -/
def side (n : ℕ) (probe : ℕ → Ordering) (pos : ℤ) : Ordering :=
  if pos < 0 then .gt else if n ≤ pos then .lt else probe pos.toNat

/-- **The search**: `probe p` says how the element compares with the one at `p`, and the step is
half of `2 ^ k`. It ends with the place of the element, if it was found, and its last position. -/
def halvingSearch (n : ℕ) (probe : ℕ → Ordering) : ℕ → ℤ → Option ℕ × ℤ
  | 0, pos =>
    match side n probe pos with
    | .eq => (some pos.toNat, pos)
    | _ => (none, pos)
  | k + 1, pos =>
    match side n probe pos with
    | .eq => (some pos.toNat, pos)
    | .lt => halvingSearch n probe k (pos - 2 ^ k)
    | .gt => halvingSearch n probe k (pos + 2 ^ k)

variable {n r : ℕ} (probe : ℕ → Ordering)

/-- **An element that is there is found.** -/
theorem halvingSearch_eq_some (hr : r < n) (hlow : ∀ p < r, probe p = .gt) (heq : probe r = .eq)
    (hhigh : ∀ p, r < p → p < n → probe p = .lt) (k : ℕ) (pos : ℤ)
    (hleft : (r : ℤ) < pos + 2 ^ k) (hright : pos < r + 2 ^ k) :
    halvingSearch n probe k pos = (some r, (r : ℤ)) := by
  have hhere : side n probe r = .eq := by
    rw [side, if_neg (by omega), if_neg (by omega), Int.toNat_natCast, heq]
  have hbefore : ∀ pos : ℤ, pos < r → side n probe pos = .gt := by
    intro pos hpos
    rw [side]
    split_ifs with hneg hout
    · rfl
    · omega
    · exact hlow _ (by omega)
  have hafter : ∀ pos : ℤ, r < pos → side n probe pos = .lt := by
    intro pos hpos
    rw [side, if_neg (by omega)]
    split_ifs with hout
    · rfl
    · exact hhigh _ (by omega) (by omega)
  induction k generalizing pos with
  | zero =>
    obtain rfl : pos = r := by
      rw [pow_zero] at hleft hright
      omega
    rw [halvingSearch, hhere, Int.toNat_natCast]
  | succ k ih =>
    rw [pow_succ] at hleft hright
    rcases lt_trichotomy pos r with hlt | rfl | hgt
    · rw [halvingSearch, hbefore pos hlt]
      exact ih _ (by omega) (by omega)
    · rw [halvingSearch, hhere, Int.toNat_natCast]
    · rw [halvingSearch, hafter pos hgt]
      exact ih _ (by omega) (by omega)

/-- **The search stops where an element belongs** that is not there, or right before it. -/
theorem halvingSearch_eq_none (hr : r ≤ n) (hlow : ∀ p < r, probe p = .gt)
    (hhigh : ∀ p, r ≤ p → p < n → probe p = .lt) (k : ℕ) (pos : ℤ)
    (hleft : (r : ℤ) ≤ pos + 2 ^ k) (hright : pos < r + 2 ^ k) :
    ∃ last : ℤ, halvingSearch n probe k pos = (none, last) ∧ (last = r ∨ last = r - 1) := by
  have hbefore : ∀ pos : ℤ, pos < r → side n probe pos = .gt := by
    intro pos hpos
    rw [side]
    split_ifs with hneg hout
    · rfl
    · omega
    · exact hlow _ (by omega)
  have hafter : ∀ pos : ℤ, r ≤ pos → side n probe pos = .lt := by
    intro pos hpos
    rw [side, if_neg (by omega)]
    split_ifs with hout
    · rfl
    · exact hhigh _ (by omega) (by omega)
  induction k generalizing pos with
  | zero =>
    rw [pow_zero] at hleft hright
    refine ⟨pos, ?_, by omega⟩
    rcases lt_or_ge pos r with hlt | hge
    · rw [halvingSearch, hbefore pos hlt]
    · rw [halvingSearch, hafter pos hge]
  | succ k ih =>
    rw [pow_succ] at hleft hright
    rcases lt_or_ge pos r with hlt | hge
    · rw [halvingSearch, hbefore pos hlt]
      exact ih _ (by omega) (by omega)
    · rw [halvingSearch, hafter pos hge]
      exact ih _ (by omega) (by omega)

/-- What holds up to some place of the row and not from there on. -/
theorem exists_cut {P : ℕ → Prop} (n : ℕ) (hP : ∀ i j, i < j → j < n → P j → P i) :
    ∃ r ≤ n, (∀ p < r, P p) ∧ ∀ p, r ≤ p → p < n → ¬ P p := by
  induction n with
  | zero => exact ⟨0, Nat.le_refl 0, by omega, by omega⟩
  | succ n ih =>
    by_cases hn : P n
    · refine ⟨n + 1, Nat.le_refl _, fun p hp => ?_, by omega⟩
      rcases Nat.lt_succ_iff_lt_or_eq.mp hp with hlt | rfl
      · exact hP p n hlt (Nat.lt_succ_self n) hn
      · exact hn
    · obtain ⟨r, hr, hlow, hhigh⟩ := ih fun i j hij hj => hP i j hij (Nat.lt_succ_of_lt hj)
      refine ⟨r, Nat.le_succ_of_le hr, hlow, fun p hp hlt => ?_⟩
      rcases Nat.lt_succ_iff_lt_or_eq.mp hlt with hlt | rfl
      · exact hhigh p hp hlt
      · exact hn

end InstantMirror
