import Mathlib.Data.List.Basic

/-!
# An address space cut into segments

Segments of given sizes lie behind one another and make one space of addresses. An address is a
place in one of them (`InstantMirror.locateFrom`), and a stretch of addresses is a list of slices
(`InstantMirror.slicesFrom`): segments without a part in the stretch have no slice, the others
one. Read one after another, the slices are the stretch: this is an inductive predicate
(`InstantMirror.Cuts`, `InstantMirror.cuts_slicesFrom`), so that what a program does slice by
slice is followed by induction.

The number of the first segment is a parameter of the recursive functions.
-/

namespace InstantMirror

/-- How many addresses segments of these sizes have together. -/
def extent : List ℕ → ℕ
  | [] => 0
  | size :: sizes => size + extent sizes

@[simp] theorem extent_nil : extent [] = 0 := rfl

@[simp] theorem extent_cons (size : ℕ) (sizes : List ℕ) :
    extent (size :: sizes) = size + extent sizes := rfl

theorem extent_append (sizes sizes' : List ℕ) :
    extent (sizes ++ sizes') = extent sizes + extent sizes' := by
  induction sizes with
  | nil => simp
  | cons size sizes ih => simp [ih, Nat.add_assoc]

/-- The rest of a list from an element on. -/
theorem of_drop_eq_cons {α : Type*} {l rest : List α} {i : ℕ} {a : α}
    (h : l.drop i = a :: rest) : l.drop (i + 1) = rest ∧ l[i]? = some a := by
  constructor
  · rw [← List.drop_drop, h]
    rfl
  · have hhead := congrArg List.head? h
    rwa [List.head?_drop, List.head?_cons] at hhead

theorem extent_take_succ {sizes : List ℕ} {i size : ℕ} (h : sizes[i]? = some size) :
    extent (sizes.take (i + 1)) = extent (sizes.take i) + size := by
  rw [List.take_add_one, h, extent_append]
  rfl

/-- **A part of one segment.** -/
structure Slice where
  /-- The number of the segment. -/
  index : ℕ
  /-- Where the part starts in the segment. -/
  offset : ℕ
  /-- How long it is. -/
  size : ℕ
deriving DecidableEq

/-! ### Places and slices -/

/-- **The place of an address**: the number of the segment, and the offset there. -/
def locateFrom (i : ℕ) : List ℕ → ℕ → Option (ℕ × ℕ)
  | [], _ => none
  | size :: sizes, pos =>
    if pos < size then some (i, pos) else locateFrom (i + 1) sizes (pos - size)

/-- **The slices of the stretch** of `n` addresses from `start` on. -/
def slicesFrom (i : ℕ) : List ℕ → ℕ → ℕ → List Slice
  | [], _, _ => []
  | size :: sizes, start, n =>
    if n = 0 then []
    else if size ≤ start then slicesFrom (i + 1) sizes (start - size) n
    else ⟨i, start, min n (size - start)⟩ ::
      slicesFrom (i + 1) sizes 0 (n - min n (size - start))

section Slices

variable {i start n size : ℕ} {sizes : List ℕ}

@[simp] theorem slicesFrom_zero (i : ℕ) (sizes : List ℕ) (start : ℕ) :
    slicesFrom i sizes start 0 = [] := by
  cases sizes <;> simp [slicesFrom]

theorem slicesFrom_of_le (hn : n ≠ 0) (h : size ≤ start) :
    slicesFrom i (size :: sizes) start n = slicesFrom (i + 1) sizes (start - size) n := by
  rw [slicesFrom, if_neg hn, if_pos h]

theorem slicesFrom_of_lt (hn : n ≠ 0) (h : start < size) :
    slicesFrom i (size :: sizes) start n = ⟨i, start, min n (size - start)⟩ ::
      slicesFrom (i + 1) sizes 0 (n - min n (size - start)) := by
  rw [slicesFrom, if_neg hn, if_neg (Nat.not_le.mpr h)]

/-- What starts behind the first segments has no slice there. -/
theorem slicesFrom_drop : ∀ (i : ℕ) {sizes : List ℕ} {k start n : ℕ},
    extent (sizes.take i) ≤ start → slicesFrom k sizes start n =
      slicesFrom (k + i) (sizes.drop i) (start - extent (sizes.take i)) n := by
  intro i
  induction i with
  | zero => exact fun _ => rfl
  | succ i ih =>
    intro sizes k start n h
    by_cases hn : n = 0
    · rw [hn, slicesFrom_zero, slicesFrom_zero]
    cases sizes with
    | nil => simp [slicesFrom]
    | cons size sizes =>
      rw [List.take_succ_cons, extent_cons] at h ⊢
      rw [slicesFrom_of_le hn (by omega), ih (by omega), List.drop_succ_cons,
        show k + 1 + i = k + (i + 1) by omega,
        show start - size - extent (sizes.take i) = start - (size + extent (sizes.take i)) by omega]

/-- The place of an address that is this far in a segment. -/
theorem locateFrom_extent_add {pos : ℕ} (hlt : pos < size) : ∀ {k i : ℕ} {sizes : List ℕ},
    sizes[k]? = some size →
      locateFrom i sizes (extent (sizes.take k) + pos) = some (i + k, pos) := by
  intro k
  induction k with
  | zero =>
    intro i sizes hsize
    obtain ⟨rest, rfl⟩ := List.head?_eq_some_iff.mp (List.head?_eq_getElem?.trans hsize)
    rw [List.take_zero, extent_nil, Nat.zero_add, locateFrom, if_pos hlt]
    rfl
  | succ k ih =>
    intro i sizes hsize
    cases sizes with
    | nil => cases hsize
    | cons first sizes =>
      rw [List.getElem?_cons_succ] at hsize
      rw [List.take_succ_cons, extent_cons, locateFrom, if_neg (by omega),
        show first + extent (sizes.take k) + pos - first = extent (sizes.take k) + pos by omega,
        ih hsize, Nat.add_assoc, Nat.add_comm 1 k]

/-- Every address has a place. -/
theorem exists_locateFrom : ∀ {sizes : List ℕ} {i pos : ℕ}, pos < extent sizes →
    ∃ place, locateFrom i sizes pos = some place := by
  intro sizes
  induction sizes with
  | nil => exact fun h => absurd h (Nat.not_lt_zero _)
  | cons size sizes ih =>
    intro i pos h
    rw [extent_cons] at h
    rw [locateFrom]
    split_ifs with hlt
    · exact ⟨(i, pos), rfl⟩
    · exact ih (by omega)

theorem locateFrom_drop_eq_some {all : List ℕ} {place : ℕ × ℕ} : ∀ {sizes : List ℕ} {i pos : ℕ},
    all.drop i = sizes → locateFrom i sizes pos = some place → ∃ size,
      all[place.1]? = some size ∧ place.2 < size ∧
        extent (all.take i) + pos = extent (all.take place.1) + place.2 := by
  intro sizes
  induction sizes with
  | nil => exact fun _ h => by cases h
  | cons size sizes ih =>
    intro i pos hdrop h
    obtain ⟨hdrop', hsize⟩ := of_drop_eq_cons hdrop
    rw [locateFrom] at h
    split_ifs at h with hlt
    · obtain rfl := Option.some.inj h
      exact ⟨size, hsize, hlt, rfl⟩
    · obtain ⟨size', hplace, hlt', heq⟩ := ih hdrop' h
      rw [extent_take_succ hsize] at heq
      exact ⟨size', hplace, hlt', by omega⟩

/-- **The place of an address is in a segment**, and the address behind those before it. -/
theorem locateFrom_eq_some {pos : ℕ} {place : ℕ × ℕ} (h : locateFrom 0 sizes pos = some place) :
    ∃ size, sizes[place.1]? = some size ∧ place.2 < size ∧
      pos = extent (sizes.take place.1) + place.2 := by
  obtain ⟨size, hsize, hlt, heq⟩ := locateFrom_drop_eq_some List.drop_zero h
  rw [List.take_zero, extent_nil, Nat.zero_add] at heq
  exact ⟨size, hsize, hlt, heq⟩

end Slices

/-! ### What the slices are -/

/-- **These slices are the stretch**: each is a part of its segment, has an address, and starts
where the one before it ends. -/
inductive Cuts (sizes : List ℕ) : ℕ → ℕ → List Slice → Prop
  | nil (start : ℕ) : Cuts sizes start 0 []
  | cons {sl : Slice} {slices : List Slice} {size n : ℕ} (hsize : sizes[sl.index]? = some size)
      (hpos : 0 < sl.size) (hle : sl.offset + sl.size ≤ size)
      (hrest : Cuts sizes (extent (sizes.take sl.index) + sl.offset + sl.size) n slices) :
      Cuts sizes (extent (sizes.take sl.index) + sl.offset) (sl.size + n) (sl :: slices)

theorem cuts_slicesFrom_drop {all : List ℕ} : ∀ {sizes : List ℕ} {i start n : ℕ},
    all.drop i = sizes → start + n ≤ extent sizes →
      Cuts all (extent (all.take i) + start) n (slicesFrom i sizes start n) := by
  intro sizes
  induction sizes with
  | nil =>
    intro i start n _ h
    have hn : n = 0 := by rw [extent_nil] at h; omega
    rw [hn, slicesFrom_zero]
    exact Cuts.nil _
  | cons size sizes ih =>
    intro i start n hdrop h
    rw [extent_cons] at h
    obtain ⟨hdrop', hsize⟩ := of_drop_eq_cons hdrop
    have hextent := extent_take_succ hsize
    by_cases hn : n = 0
    · rw [hn, slicesFrom_zero]
      exact Cuts.nil _
    by_cases hle : size ≤ start
    · have hlater := ih hdrop' (show start - size + n ≤ extent sizes by omega)
      rw [hextent, show extent (all.take i) + size + (start - size) =
        extent (all.take i) + start by omega] at hlater
      rwa [slicesFrom_of_le hn hle]
    · rw [Nat.not_le] at hle
      rw [slicesFrom_of_lt hn hle]
      generalize hm : min n (size - start) = m
      have hlater : Cuts all (extent (all.take i) + start + m) (n - m)
          (slicesFrom (i + 1) sizes 0 (n - m)) := by
        -- the stretch ends here, or this segment does
        rcases Nat.eq_zero_or_pos (n - m) with hzero | hleft
        · rw [hzero, slicesFrom_zero]
          exact Cuts.nil _
        · have hlater := ih hdrop' (show 0 + (n - m) ≤ extent sizes by omega)
          rwa [hextent, show extent (all.take i) + size + 0 =
            extent (all.take i) + start + m by omega] at hlater
      have hcuts := @Cuts.cons all ⟨i, start, m⟩ _ _ _ hsize (by simp only; omega)
        (by simp only; omega) hlater
      rwa [show m + (n - m) = n by omega] at hcuts

/-- **The slices of a stretch are the stretch.** -/
theorem cuts_slicesFrom {sizes : List ℕ} {start n : ℕ} (h : start + n ≤ extent sizes) :
    Cuts sizes start n (slicesFrom 0 sizes start n) := by
  have hcuts := cuts_slicesFrom_drop (i := 0) List.drop_zero h
  rwa [List.take_zero, extent_nil, Nat.zero_add] at hcuts

section Cuts

variable {sizes : List ℕ} {start n : ℕ} {slices : List Slice}

/-- The addresses of a slice. -/
def Slice.positions (sizes : List ℕ) (sl : Slice) : List ℕ :=
  List.range' (extent (sizes.take sl.index) + sl.offset) sl.size

/-- Read one after another, the slices give one address after another. -/
theorem Cuts.flatMap_positions (h : Cuts sizes start n slices) :
    slices.flatMap (Slice.positions sizes) = List.range' start n := by
  induction h with
  | nil => rfl
  | cons hsize hpos hle hrest ih =>
    rw [List.flatMap_cons, ih, Slice.positions, List.range'_append_1]

/-- Each slice is a part of its segment. -/
theorem Cuts.bounds (h : Cuts sizes start n slices) : ∀ sl ∈ slices,
    ∃ size, sizes[sl.index]? = some size ∧ 0 < sl.size ∧ sl.offset + sl.size ≤ size := by
  induction h with
  | nil => exact fun sl hsl => absurd hsl List.not_mem_nil
  | cons hsize hpos hle hrest ih =>
    intro sl hsl
    rcases List.mem_cons.mp hsl with rfl | hsl
    · exact ⟨_, hsize, hpos, hle⟩
    · exact ih sl hsl

end Cuts

end InstantMirror
