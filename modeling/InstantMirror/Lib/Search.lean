import Mathlib.Data.List.Infix

/-!
# Searching a stream that comes in parts

Where a pattern begins in a list (`InstantMirror.firstIn`), and the same search over a stream that
has been cut into parts, where each place is judged by what is in its part and in the next one
(`InstantMirror.searchParts`). The second finds what the first does, as long as no part between two
others is shorter than the pattern by more than one element
(`InstantMirror.searchParts_eq`): a pattern that goes over three parts is not seen.
-/

namespace InstantMirror

variable {α : Type*} [DecidableEq α] {pat next part rest : List α}

/-- **Where the pattern begins** in a part, with what comes after the part. -/
def firstIn (pat next : List α) : List α → Option ℕ
  | [] => none
  | a :: part => if pat <+: a :: part ++ next then some 0 else (firstIn pat next part).map (· + 1)

/-- **The same, part by part**: only the next part is looked at. -/
def searchParts (pat : List α) : List (List α) → Option ℕ
  | [] => none
  | part :: parts =>
    match firstIn pat (parts.head?.getD []) part with
    | some i => some i
    | none => (searchParts pat parts).map (part.length + ·)

/-- **No part between two others is too short.** -/
def LongParts (pat : List α) : List (List α) → Prop
  | [] => True
  | [_] => True
  | _ :: part :: parts =>
    (parts ≠ [] → pat.length ≤ part.length + 1) ∧ LongParts pat (part :: parts)

theorem firstIn_append (pat part rest : List α) : firstIn pat [] (part ++ rest) =
    (firstIn pat rest part).or ((firstIn pat [] rest).map (part.length + ·)) := by
  induction part with
  | nil => rcases h : firstIn pat [] rest with _ | i <;> simp [firstIn, h]
  | cons a part ih =>
    rw [List.cons_append, firstIn, firstIn, List.append_nil, List.cons_append, ih]
    split_ifs
    · rfl
    · rcases firstIn pat rest part with _ | i
      · rcases firstIn pat [] rest with _ | j
        · rfl
        · simp only [Option.map_none, Option.none_or, Option.map_some, List.length_cons,
            Option.some.injEq]
          omega
      · rfl

omit [DecidableEq α] in
/-- What is seen of a place does not depend on what is too far away. -/
theorem prefix_append_iff (hpart : part ≠ []) (hnext : rest ≠ [] → pat.length ≤ next.length + 1) :
    pat <+: part ++ (next ++ rest) ↔ pat <+: part ++ next := by
  constructor
  · intro h
    rcases eq_or_ne rest [] with rfl | hrest
    · rwa [List.append_nil] at h
    · refine List.prefix_of_prefix_length_le h
        (List.append_assoc part next rest ▸ List.prefix_append _ _) ?_
      have := List.length_pos_iff.mpr hpart
      have := hnext hrest
      rw [List.length_append]
      omega
  · intro h
    exact h.trans (List.append_assoc part next rest ▸ List.prefix_append _ _)

theorem firstIn_congr (hnext : rest ≠ [] → pat.length ≤ next.length + 1) (part : List α) :
    firstIn pat (next ++ rest) part = firstIn pat next part := by
  induction part with
  | nil => rfl
  | cons a part ih =>
    rw [firstIn, firstIn, ih]
    simp only [prefix_append_iff (List.cons_ne_nil a part) hnext]

/-- **The search in parts finds the pattern where it first begins.** -/
theorem searchParts_eq : ∀ {parts : List (List α)}, LongParts pat parts →
    searchParts pat parts = firstIn pat [] parts.flatten := by
  intro parts
  induction parts with
  | nil => exact fun _ => rfl
  | cons part parts ih =>
    intro h
    rw [List.flatten_cons, firstIn_append, searchParts]
    rcases parts with _ | ⟨next, parts⟩
    · rcases hfirst : firstIn pat [] part with _ | i <;> simp [hfirst, searchParts, firstIn]
    · rw [ih h.2, List.head?_cons, Option.getD_some, List.flatten_cons,
        firstIn_congr (fun hne => h.1 (by rintro rfl; exact hne rfl))]
      cases firstIn pat next part <;> rfl

/-- The place that is found. -/
theorem firstIn_eq_some {s : List α} {p : ℕ} (h : firstIn pat next s = some p) :
    p < s.length ∧ pat <+: s.drop p ++ next ∧ ∀ q < p, ¬ pat <+: s.drop q ++ next := by
  induction s generalizing p with
  | nil => cases h
  | cons a s ih =>
    rw [firstIn] at h
    split_ifs at h with hhere
    · obtain rfl := Option.some.inj h
      exact ⟨Nat.succ_pos _, hhere, fun q hq => absurd hq (Nat.not_lt_zero q)⟩
    · obtain ⟨i, hi, rfl⟩ := Option.map_eq_some_iff.mp h
      obtain ⟨hlt, hpat, hfirst⟩ := ih hi
      refine ⟨Nat.succ_lt_succ hlt, hpat, fun q hq => ?_⟩
      rcases q with _ | q
      · exact hhere
      · exact hfirst q (Nat.lt_of_succ_lt_succ hq)

end InstantMirror
