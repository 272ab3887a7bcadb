import Mathlib.Data.List.Destutter

/-!
# A list with its repetitions left out

A loop that remembers only the last thing it has reported reports a thing again when
another one came in between. `InstantMirror.collapse` is such a loop: some elements have a
key, the others are reported in any case, and an element whose key is the last one
reported is left out.

What is reported is a sublist, no element without a key is lost, and every key is reported
at least once. It is reported at most once exactly if no key comes back after another one
(`InstantMirror.nodup_collapse_iff`).
-/

namespace InstantMirror

variable {α κ : Type*} [DecidableEq κ]

/-! ### Keys alone -/

/-- Every element is left, if only repetitions are taken out. -/
theorem mem_destutter'_ne {l : List κ} {a k : κ} :
    k ∈ l.destutter' (· ≠ ·) a ↔ k ∈ a :: l := by
  induction l generalizing a with
  | nil => simp
  | cons b l ih =>
    rw [List.destutter'_cons]
    split_ifs with hne
    · simp [ih]
    · rw [ih, not_not.mp hne]
      simp

omit [DecidableEq κ] in
/-- A repetition does not matter for what comes back after something else. -/
theorem sublist_cons_cons_self {a j k : κ} (hne : k ≠ j) {l : List κ} :
    [k, j, k].Sublist (a :: a :: l) ↔ [k, j, k].Sublist (a :: l) := by
  refine ⟨fun h => ?_, fun h => h.cons a⟩
  cases h with
  | cons _ h => exact h
  | cons_cons _ h =>
    cases h with
    | cons _ h => exact h.cons_cons _
    | cons_cons _ h => exact absurd rfl hne

/-- **Nothing is left twice exactly if nothing comes back after something else.** -/
theorem nodup_destutter'_iff {l : List κ} {a : κ} :
    (l.destutter' (· ≠ ·) a).Nodup ↔ ∀ k j, k ≠ j → ¬ [k, j, k].Sublist (a :: l) := by
  induction l generalizing a with
  | nil => simp
  | cons b l ih =>
    rw [List.destutter'_cons]
    split_ifs with hne
    · rw [List.nodup_cons, mem_destutter'_ne, ih]
      constructor
      · rintro ⟨hnot, hrest⟩ k j hkj hsub
        cases hsub with
        | cons _ h => exact hrest k j hkj h
        | cons_cons _ h => exact hnot (h.subset (by simp))
      · intro h
        refine ⟨fun hmem => ?_, fun k j hkj hsub => h k j hkj (hsub.cons a)⟩
        have hlater : a ∈ l := (List.mem_cons.mp hmem).resolve_left hne
        exact h a b hne (((List.singleton_sublist.mpr hlater).cons_cons b).cons_cons a)
    · rw [ih, ← not_not.mp hne]
      exact forall_congr' fun k => forall_congr' fun j =>
        imp_congr_right fun hkj => not_congr (sublist_cons_cons_self hkj).symm

/-! ### Elements with keys -/

/-- **The loop**: `last` is the key that was reported last. -/
def collapse (key : α → Option κ) (last : κ) : List α → List α
  | [] => []
  | a :: l =>
    if key a = some last then collapse key last l
    else a :: collapse key ((key a).getD last) l

section Collapse

variable {key : α → Option κ} {last k : κ} {l : List α} {a : α}

theorem collapse_sublist : ∀ {last : κ}, (collapse key last l).Sublist l := by
  induction l with
  | nil => exact fun {_} => List.Sublist.refl _
  | cons a l ih =>
    intro last
    rw [collapse]
    split_ifs
    · exact ih.cons a
    · exact ih.cons_cons a

/-- What has no key is reported. -/
theorem mem_collapse_of_key_eq_none (hkey : key a = none) (ha : a ∈ l) :
    a ∈ collapse key last l := by
  induction l generalizing last with
  | nil => cases ha
  | cons b l ih =>
    rw [collapse]
    rcases List.mem_cons.mp ha with rfl | ha
    · simp [hkey]
    · split_ifs
      · exact ih ha
      · exact List.mem_cons_of_mem b (ih ha)

/-- The keys that are reported are those of the list, without the repetitions. -/
theorem filterMap_collapse :
    last :: (collapse key last l).filterMap key = (l.filterMap key).destutter' (· ≠ ·) last := by
  induction l generalizing last with
  | nil => rfl
  | cons a l ih =>
    rw [collapse]
    rcases hkey : key a with _ | k
    · rw [if_neg (by simp), List.filterMap_cons_none hkey, List.filterMap_cons_none hkey,
        Option.getD_none, ih]
    · rw [List.filterMap_cons_some hkey]
      by_cases hrep : last = k
      · rw [if_pos (by rw [hrep]), List.destutter'_cons_neg _ (not_not.mpr hrep), ih]
      · rw [if_neg (by simpa [eq_comm] using hrep), List.filterMap_cons_some hkey,
          Option.getD_some, List.destutter'_cons_pos _ hrep, ih]

/-- **Every key is reported**, unless it was the last one before. -/
theorem exists_mem_collapse (ha : a ∈ l) (hkey : key a = some k) (hne : k ≠ last) :
    ∃ b ∈ collapse key last l, key b = some k := by
  have hmem : k ∈ last :: (collapse key last l).filterMap key := by
    rw [filterMap_collapse, mem_destutter'_ne]
    exact List.mem_cons_of_mem _ (List.mem_filterMap.mpr ⟨a, ha, hkey⟩)
  exact List.mem_filterMap.mp ((List.mem_cons.mp hmem).resolve_left hne)

omit [DecidableEq κ] in
/-- Keys in a row are those of elements in a row. -/
theorem exists_sublist_of_filterMap {keys : List κ} (h : keys.Sublist (l.filterMap key)) :
    ∃ m : List α, m.Sublist l ∧ m.map key = keys.map some := by
  induction l generalizing keys with
  | nil =>
    obtain rfl := List.sublist_nil.mp h
    exact ⟨[], List.Sublist.refl _, rfl⟩
  | cons a l ih =>
    rcases hkey : key a with _ | k
    · rw [List.filterMap_cons_none hkey] at h
      obtain ⟨m, hsub, hmap⟩ := ih h
      exact ⟨m, hsub.cons a, hmap⟩
    · rw [List.filterMap_cons_some hkey] at h
      cases h with
      | cons _ h =>
        obtain ⟨m, hsub, hmap⟩ := ih h
        exact ⟨m, hsub.cons a, hmap⟩
      | cons_cons _ h =>
        obtain ⟨m, hsub, hmap⟩ := ih h
        exact ⟨a :: m, hsub.cons_cons a, by rw [List.map_cons, hkey, hmap, List.map_cons]⟩

omit [DecidableEq κ] in
/-- Three keys in a row are those of three elements in a row. -/
theorem sublist_filterMap_three {i j k : κ} : [i, j, k].Sublist (l.filterMap key) ↔
    ∃ a b c, [a, b, c].Sublist l ∧ key a = some i ∧ key b = some j ∧ key c = some k := by
  constructor
  · intro h
    obtain ⟨m, hsub, hmap⟩ := exists_sublist_of_filterMap h
    obtain ⟨a, m, rfl, ha, hmap⟩ := List.map_eq_cons_iff.mp hmap
    obtain ⟨b, m, rfl, hb, hmap⟩ := List.map_eq_cons_iff.mp hmap
    obtain ⟨c, m, rfl, hc, hmap⟩ := List.map_eq_cons_iff.mp hmap
    obtain rfl := List.map_eq_nil_iff.mp hmap
    exact ⟨a, b, c, hsub, ha, hb, hc⟩
  · rintro ⟨a, b, c, hsub, ha, hb, hc⟩
    simpa [ha, hb, hc] using hsub.filterMap key

/-- **Every key is reported once exactly if none comes back after another one.** -/
theorem nodup_collapse_iff (hlast : ∀ a ∈ l, key a ≠ some last) :
    ((collapse key last l).filterMap key).Nodup ↔ ∀ a b c i j, [a, b, c].Sublist l → i ≠ j →
      ¬ (key a = some i ∧ key b = some j ∧ key c = some i) := by
  have hnot : last ∉ l.filterMap key := fun h => by
    obtain ⟨a, ha, hkey⟩ := List.mem_filterMap.mp h
    exact hlast a ha hkey
  have hfirst : last ∉ (collapse key last l).filterMap key := fun h =>
    hnot ((collapse_sublist.filterMap key).subset h)
  have hall : ((collapse key last l).filterMap key).Nodup ↔
      ((l.filterMap key).destutter' (· ≠ ·) last).Nodup := by
    rw [← filterMap_collapse, List.nodup_cons]
    exact (and_iff_right hfirst).symm
  rw [hall, nodup_destutter'_iff]
  constructor
  · rintro h a b c i j hsub hij ⟨ha, hb, hc⟩
    exact h i j hij ((sublist_filterMap_three.mpr ⟨a, b, c, hsub, ha, hb, hc⟩).cons last)
  · intro h i j hij hsub
    cases hsub with
    | cons _ hsub =>
      obtain ⟨a, b, c, hsub, ha, hb, hc⟩ := sublist_filterMap_three.mp hsub
      exact h a b c i j hsub hij ⟨ha, hb, hc⟩
    | cons_cons _ hsub => exact hnot (hsub.subset (by simp))

end Collapse

end InstantMirror
