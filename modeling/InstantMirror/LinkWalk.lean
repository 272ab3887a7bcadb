import InstantMirror.Lib.Path
import InstantMirror.Symlink

/-!
# The loop that resolves a link, component by component

`InstantMirror.linkStep` works on positions in a string. Read as components, its
round is this: the first component, other than the last, that ends in two dots is
taken away, and with it

* the *two* components before it, if it is `..` – the link's own name and one
  directory, when it is the first `..` of the target;
* the *one* component before it, if something stands before the two dots.

Where there are not that many components, the round does one of two things. It
finds no second slash and gives up, and what is left is the result, dots and all;
or one of the two searches for a slash is started at a negative position, which
`size_t` turns into the end of the string, and then the round cuts *behind* the dots
and inserts the rest of the path once more: the same dots are found again in the
next round, and the loop never ends (`InstantMirror.linkStep_wraps`).

`InstantMirror.walk` is the loop on components, with the ones passed over on a
stack, and `InstantMirror.walked_walk` says that it is the loop on strings. What
remains is to count: `InstantMirror.loopEnds_iff`.
-/

namespace InstantMirror

/-! ### What the loop comes to -/

/-- What the loop makes of a string: components that it ends with, or `none` where it does
not end. -/
def Walked (s : Bytes) : Option (List Bytes) → Prop
  | some comps => ∃ fuel, resolveLink fuel s = some (joined comps)
  | none => ∀ fuel, resolveLink fuel s = none

/-- One round more. -/
theorem Walked.step {s s' : Bytes} {o : Option (List Bytes)} (hstep : linkStep s = some s')
    (h : Walked s' o) : Walked s o := by
  cases o with
  | some comps =>
    obtain ⟨fuel, hfuel⟩ := h
    exact ⟨fuel + 1, by rw [resolveLink, hstep]; exact hfuel⟩
  | none =>
    rintro (_ | fuel)
    · rfl
    · rw [resolveLink, hstep]
      exact h fuel

theorem walked_of_stop {comps : List Bytes} (hstop : linkStep (joined comps) = none) :
    Walked (joined comps) (some comps) :=
  ⟨1, by rw [resolveLink, hstop]⟩

/-- **Going round for ever**: every round leads to another string of the same kind. -/
theorem walked_none {P : Bytes → Prop} (hround : ∀ s, P s → ∃ s', linkStep s = some s' ∧ P s')
    {s : Bytes} (hs : P s) : Walked s none := by
  intro fuel
  induction fuel generalizing s with
  | zero => rfl
  | succ fuel ih =>
    obtain ⟨s', hstep, hs'⟩ := hround s hs
    rw [resolveLink, hstep]
    exact ih hs'

/-! ### One round -/

/-- Components that the loop passes over. -/
def Passed (comps : List Bytes) : Prop := ∀ c ∈ comps, slash ∉ c ∧ ¬ dotdot <:+ c

theorem findStr_dirText {dirs : List Bytes} (hdirs : Passed dirs) (rest : Bytes) :
    findStr (ascii "../") (dirText dirs ++ rest) =
      if findStr (ascii "../") rest < 0 then -1
      else findStr (ascii "../") rest + (dirText dirs).length := by
  induction dirs with
  | nil =>
    split
    · rename_i hneg
      have hge : ∀ s : Bytes, -1 ≤ findStr (ascii "../") s := by
        intro s
        induction s with
        | nil => decide
        | cons c s ih =>
          rw [findStr]
          split_ifs <;> omega
      have := hge rest
      simp only [dirText_nil, List.nil_append]
      omega
    · simp
  | cons c dirs ih =>
    obtain ⟨hslash, hdots⟩ := hdirs c (by simp)
    have ih := ih fun d hd => hdirs d (by simp [hd])
    rw [dirText_cons, List.append_assoc, List.cons_append, findStr_parent_append hslash hdots, ih]
    split
    · rfl
    · rw [if_neg (by omega)]
      simp only [List.length_append, List.length_cons]
      push_cast
      omega

section Rounds

variable {dirs : List Bytes} {name own dir top s tail : Bytes}

/-- **The round, with the positions known**: where the dots are, and the slash that each of
the two searches finds. -/
theorem linkStep_of_rfind (hdirs : Passed dirs) (hname : slash ∉ name)
    (hs : s = dirText dirs ++ (name ++ dotdot ++ slash :: tail)) {i j : ℤ}
    (hi : rfind s slash ((dirText dirs ++ name).length - 2) = i) (hj : rfind s slash (i - 1) = j) :
    linkStep s = if j = -1 then none else some (substrTo s (j + 1) ++ tail) := by
  have hfind : findStr (ascii "../") s = (dirText dirs ++ name).length := by
    rw [hs, findStr_dirText hdirs, findStr_parent hname, if_neg (by omega), List.length_append]
    push_cast
    omega
  have hdrop : substrFrom s ((dirText dirs ++ name).length + 3) = tail := by
    have hlen : (((dirText dirs ++ name).length : ℤ) + 3).toNat =
        (dirText dirs ++ name ++ dotdot ++ [slash]).length := by
      simp only [List.length_append, List.length_singleton]
      have : dotdot.length = 2 := rfl
      omega
    rw [substrFrom, hlen, hs]
    simp
  rw [linkStep]
  simp only [hfind, hi, hj, hdrop]
  rw [if_neg (by omega)]

/-- A search from the end of a component finds the slash before it. -/
theorem rfind_dirText (hown : slash ∉ own) (rest : Bytes)
    (hs : s = dirText (dirs ++ [dir]) ++ own ++ rest) {pos : ℤ}
    (hpos : pos = (dirText (dirs ++ [dir]) ++ own).length - 1) :
    rfind s slash pos = (dirText dirs ++ dir).length := by
  have hne : dirText (dirs ++ [dir]) ++ own ≠ [] := by simp
  refine rfind_of_upTo (b := own) ?_ hown
  rw [hs, hpos, upTo_append hne]
  simp

/-- The same in the first component: there is no slash before it. -/
theorem rfind_first (hown : slash ∉ own) (hne : own ≠ []) (rest : Bytes) (hs : s = own ++ rest)
    {pos : ℤ} (hpos : pos = own.length - 1) : rfind s slash pos = -1 := by
  rw [hs, hpos]
  exact rfind_of_notMem (by rwa [upTo_append hne])

/-- Cutting right behind a component. -/
theorem substrTo_dirText (rest : Bytes) (hs : s = dirText (dirs ++ [dir]) ++ rest) :
    substrTo s ((dirText dirs ++ dir).length + 1) = dirText (dirs ++ [dir]) := by
  have hlen : ((dirText dirs ++ dir).length : ℤ) + 1 = (dirText (dirs ++ [dir])).length := by
    simp
    omega
  rw [hlen, hs, substrTo_length_append]

/-! The rounds that take components away: two for `..`, one for a component that only ends
in two dots. -/

theorem linkStep_two (hdirs : Passed (dirs ++ [dir, own])) (hne : dirs ≠ [])
    (hs : s = dirText (dirs ++ [dir, own]) ++ (dotdot ++ slash :: tail)) :
    linkStep s = some (dirText dirs ++ tail) := by
  obtain ⟨dirs, top, rfl⟩ := (List.eq_nil_or_concat' dirs).resolve_left hne
  have hi : rfind s slash ((dirText (dirs ++ [top] ++ [dir, own]) ++ []).length - 2) =
      (dirText (dirs ++ [top]) ++ dir).length :=
    rfind_dirText (hdirs own (by simp)).1 (slash :: (dotdot ++ slash :: tail)) (by simp [hs])
      (by simp; omega)
  have hj : rfind s slash ((dirText (dirs ++ [top]) ++ dir).length - 1) =
      (dirText dirs ++ top).length :=
    rfind_dirText (hdirs dir (by simp)).1 (slash :: (own ++ slash :: (dotdot ++ slash :: tail)))
      (by simp [hs]) rfl
  rw [linkStep_of_rfind hdirs (by simp) (by simpa using hs) hi hj, if_neg (by omega),
    substrTo_dirText (dirText [dir, own] ++ (dotdot ++ slash :: tail)) (by simp [hs])]

theorem linkStep_one (hdirs : Passed (dirs ++ [own])) (hne : dirs ≠ []) (hname : slash ∉ name)
    (hname₀ : name ≠ []) (hs : s = dirText (dirs ++ [own]) ++ (name ++ dotdot ++ slash :: tail)) :
    linkStep s = some (dirText dirs ++ tail) := by
  obtain ⟨dirs, top, rfl⟩ := (List.eq_nil_or_concat' dirs).resolve_left hne
  obtain ⟨name', c, rfl⟩ := (List.eq_nil_or_concat' name).resolve_left hname₀
  have hname' : slash ∉ name' := fun h => hname (by simp [h])
  have hi : rfind s slash ((dirText (dirs ++ [top] ++ [own]) ++ name' ++ [c]).length - 2) =
      (dirText (dirs ++ [top]) ++ own).length :=
    rfind_dirText hname' ([c] ++ dotdot ++ slash :: tail) (by simp [hs]) (by simp; omega)
  have hj : rfind s slash ((dirText (dirs ++ [top]) ++ own).length - 1) =
      (dirText dirs ++ top).length :=
    rfind_dirText (hdirs own (by simp)).1 (slash :: (name' ++ [c] ++ dotdot ++ slash :: tail))
      (by simp [hs]) rfl
  rw [linkStep_of_rfind hdirs hname hs (by rwa [← List.append_assoc]) hj, if_neg (by omega),
    substrTo_dirText (dirText [own] ++ (name' ++ [c] ++ dotdot ++ slash :: tail)) (by simp [hs])]

/-! The rounds that give up: no component is left but the first one. -/

theorem linkStep_two_stop (hdirs : Passed [dir, own]) (hne : dir ≠ [])
    (hs : s = dirText [dir, own] ++ (dotdot ++ slash :: tail)) : linkStep s = none := by
  have hi : rfind s slash ((dirText [dir, own] ++ []).length - 2) = (dirText [] ++ dir).length :=
    rfind_dirText (hdirs own (by simp)).1 (slash :: (dotdot ++ slash :: tail)) (by simp [hs])
      (by simp; omega)
  have hj : rfind s slash ((dirText [] ++ dir).length - 1) = -1 :=
    rfind_first (hdirs dir (by simp)).1 hne (slash :: (own ++ slash :: (dotdot ++ slash :: tail)))
      (by simp [hs]) rfl
  rw [linkStep_of_rfind hdirs (by simp) (by simpa using hs) hi hj, if_pos rfl]

theorem linkStep_one_stop (hdirs : Passed [own]) (hne : own ≠ []) (hname : slash ∉ name)
    (hname₀ : name ≠ []) (hs : s = dirText [own] ++ (name ++ dotdot ++ slash :: tail)) :
    linkStep s = none := by
  obtain ⟨name', c, rfl⟩ := (List.eq_nil_or_concat' name).resolve_left hname₀
  have hname' : slash ∉ name' := fun h => hname (by simp [h])
  have hi : rfind s slash ((dirText [own] ++ name' ++ [c]).length - 2) =
      (dirText [] ++ own).length :=
    rfind_dirText hname' ([c] ++ dotdot ++ slash :: tail) (by simp [hs]) (by simp; omega)
  have hj : rfind s slash ((dirText [] ++ own).length - 1) = -1 :=
    rfind_first (hdirs own (by simp)).1 hne (slash :: (name' ++ [c] ++ dotdot ++ slash :: tail))
      (by simp [hs]) rfl
  rw [linkStep_of_rfind hdirs hname hs (by rwa [← List.append_assoc]) hj, if_pos rfl]

/-! The rounds that never end. -/

/-- **A search that wraps around cuts behind the dots.** The second search starts at a
negative position, or behind the dots because the first one did. -/
theorem linkStep_wraps (hdirs : Passed dirs) (hname : slash ∉ name)
    (hs : s = dirText dirs ++ (name ++ dotdot ++ slash :: tail))
    (hwrap : rfind s slash ((dirText dirs ++ name).length - 2) ≤ 0 ∨
      ((dirText dirs ++ name ++ dotdot ++ [slash]).length : ℤ) ≤
        rfind s slash ((dirText dirs ++ name).length - 2)) :
    ∃ m, linkStep s =
      some (dirText dirs ++ (name ++ dotdot ++ slash :: (tail.take m ++ tail))) := by
  have hs' : s = (dirText dirs ++ name ++ dotdot) ++ slash :: tail := by simp [hs]
  -- the second search looks at the slash behind the dots
  obtain ⟨rest, hup⟩ : ∃ rest, upTo s
      (rfind s slash ((dirText dirs ++ name).length - 2) - 1) =
        (dirText dirs ++ name ++ dotdot) ++ slash :: rest := by
    generalize rfind s slash ((dirText dirs ++ name).length - 2) = i at hwrap
    rcases hwrap with hi | hi
    · exact ⟨tail, by rw [upTo_of_neg (by omega), hs']⟩
    · refine ⟨tail.take ((i - 1).toNat + 1 -
        (dirText dirs ++ name ++ dotdot ++ [slash]).length), ?_⟩
      rw [upTo, if_neg (by simp at hi; omega), hs', List.append_cons, List.take_append,
        List.take_of_length_le (by omega)]
      simp
  have hle := le_rfind hup
  have h := linkStep_of_rfind hdirs hname hs rfl rfl
  generalize rfind s slash (rfind s slash ((dirText dirs ++ name).length - 2) - 1) = j at hle h
  refine ⟨(j + 1).toNat - (dirText dirs ++ name ++ dotdot ++ [slash]).length, ?_⟩
  rw [h, if_neg (by omega), substrTo, if_neg (by omega), hs', List.append_cons, List.take_append,
    List.take_of_length_le (by simp at hle ⊢; omega)]
  simp

/-- Dots that are found again in every round. -/
theorem walked_of_wraps {Q : Bytes → Prop} (hdirs : Passed dirs) (hname : slash ∉ name)
    (hQ : ∀ tail m, Q tail → Q (tail.take m ++ tail))
    (hwrap : ∀ s tail, Q tail → s = dirText dirs ++ (name ++ dotdot ++ slash :: tail) →
      rfind s slash ((dirText dirs ++ name).length - 2) ≤ 0 ∨
        ((dirText dirs ++ name ++ dotdot ++ [slash]).length : ℤ) ≤
          rfind s slash ((dirText dirs ++ name).length - 2))
    (htail : Q tail) : Walked (dirText dirs ++ (name ++ dotdot ++ slash :: tail)) none := by
  refine walked_none (P := fun s => ∃ tail, Q tail ∧
    s = dirText dirs ++ (name ++ dotdot ++ slash :: tail)) ?_ ⟨tail, htail, rfl⟩
  rintro s ⟨tail, htail, hs⟩
  obtain ⟨m, hstep⟩ := linkStep_wraps hdirs hname hs (hwrap s tail htail hs)
  exact ⟨_, hstep, _, hQ tail m htail, rfl⟩

/-- A first search that wraps around finds a slash behind the dots, if there is one. -/
theorem le_rfind_of_mem (htail : slash ∈ tail)
    (hs : s = dirText dirs ++ (name ++ dotdot ++ slash :: tail)) {pos : ℤ} (hpos : pos < 0) :
    ((dirText dirs ++ name ++ dotdot ++ [slash]).length : ℤ) ≤ rfind s slash pos := by
  obtain ⟨a, b, rfl, -⟩ := exists_split htail
  have hup : upTo s pos = dirText dirs ++ name ++ dotdot ++ [slash] ++ a ++ slash :: b := by
    rw [upTo_of_neg hpos, hs]
    simp
  have hle := le_rfind hup
  rw [List.length_append] at hle
  omega

theorem mem_take_append (tail : Bytes) (m : ℕ) (htail : slash ∈ tail) :
    slash ∈ tail.take m ++ tail := List.mem_append_right _ htail

/-- `..` right behind the first component. -/
theorem walked_two_first (hown : Passed [own]) (hne : own ≠ []) (tail : Bytes) :
    Walked (dirText [own] ++ (dotdot ++ slash :: tail)) none := by
  refine @walked_of_wraps [own] [] tail (fun _ => True) hown (by simp) (fun _ _ _ => trivial)
    (fun s tail _ hs => Or.inl ?_) trivial
  rw [rfind_first (hown own (by simp)).1 hne (slash :: (dotdot ++ slash :: tail)) (by simp [hs])
    (by simp; omega)]
  omega

/-- `..` behind one directory, in a path that starts with a slash. -/
theorem walked_two_rooted (hown : Passed [[], own]) (tail : Bytes) :
    Walked (dirText [[], own] ++ (dotdot ++ slash :: tail)) none := by
  refine @walked_of_wraps [[], own] [] tail (fun _ => True) hown (by simp) (fun _ _ _ => trivial)
    (fun s tail _ hs => Or.inl ?_) trivial
  rw [@rfind_dirText [] own [] s (hown own (by simp)).1 (slash :: (dotdot ++ slash :: tail))
    (by simp [hs]) _ (by simp; omega)]
  simp

/-- A component that only ends in two dots, right behind the slash such a path starts
with. -/
theorem walked_one_rooted (hname : slash ∉ name) (hname₀ : name ≠ []) (tail : Bytes) :
    Walked (dirText [[]] ++ (name ++ dotdot ++ slash :: tail)) none := by
  refine walked_of_wraps (Q := fun _ => True) (by simp [Passed, dotdot]) hname
    (fun _ _ _ => trivial) (fun s tail _ hs => Or.inl ?_) trivial
  obtain ⟨name', c, rfl⟩ := (List.eq_nil_or_concat' name).resolve_left hname₀
  rw [@rfind_dirText [] name' [] s (fun h => hname (by simp [h])) ([c] ++ dotdot ++ slash :: tail)
    (by simp [hs]) _ (by simp; omega)]
  simp

/-- `..` right behind that slash, with another slash in the rest. -/
theorem walked_two_root (htail : slash ∈ tail) :
    Walked (dirText [[]] ++ (dotdot ++ slash :: tail)) none :=
  @walked_of_wraps [[]] [] tail (slash ∈ ·) (by simp [Passed, dotdot]) (by simp) mem_take_append
    (fun s tail htail hs => Or.inr (le_rfind_of_mem htail hs (by simp))) htail

/-- `..` right behind that slash, and nothing but a name in the rest. -/
theorem linkStep_two_root (htail : slash ∉ tail)
    (hs : s = dirText [[]] ++ (dotdot ++ slash :: tail)) :
    linkStep s = some (dirText [[]] ++ tail) := by
  have hi : rfind s slash ((dirText [[]] ++ []).length - 2) = 3 := by
    refine rfind_of_upTo (a := slash :: dotdot) (b := tail) ?_ htail
    rw [upTo_of_neg (by simp), hs]
    simp
  have hj : rfind s slash (3 - 1) = 0 := by
    refine rfind_of_upTo (a := []) (b := dotdot) ?_ (by decide)
    rw [hs]
    rfl
  rw [@linkStep_of_rfind [[]] [] s tail (by simp [Passed, dotdot]) (by simp) (by simpa using hs)
    _ _ hi hj, if_neg (by omega), hs]
  rfl

/-- A first component that ends in two dots, with another slash in the rest. -/
theorem walked_of_first (hname : slash ∉ name) (htail : slash ∈ tail) :
    Walked (name ++ dotdot ++ slash :: tail) none := by
  refine @walked_of_wraps [] name tail (slash ∈ ·) (by simp [Passed]) hname mem_take_append
    (fun s tail htail hs => ?_) htail
  rcases List.eq_nil_or_concat' name with rfl | ⟨name', c, rfl⟩
  · exact Or.inr (le_rfind_of_mem htail hs (by simp))
  rcases eq_or_ne name' [] with rfl | hne
  · exact Or.inr (le_rfind_of_mem htail hs (by simp))
  · left
    rw [rfind_first (fun h => hname (by simp [h])) hne ([c] ++ dotdot ++ slash :: tail)
      (by simp [hs]) (by simp; omega)]
    omega

end Rounds

/-! ### The loop on components -/

/-- **The loop, on components**: the first one, those passed over – the last of them on top
of the stack – and those that are left. `none` where the loop does not end. -/
def walk (first : Bytes) : List Bytes → List Bytes → Option (List Bytes)
  | stack, c :: d :: rest =>
    if c = dotdot then
      match stack with
      | [] => if first = [] ∧ rest = [] then some [first, d] else none
      | [own] => if first = [] then none else some (first :: own :: c :: d :: rest)
      | _ :: _ :: stack => walk first stack (d :: rest)
    else if dotdot <:+ c then
      match stack with
      | [] => if first = [] then none else some (first :: c :: d :: rest)
      | _ :: stack => walk first stack (d :: rest)
    else walk first (c :: stack) (d :: rest)
  | stack, rest => some (first :: stack.reverse ++ rest)

section Walk

variable {first c d name own dir : Bytes} {stack rest : List Bytes}

theorem walk_last (first : Bytes) (stack : List Bytes) (c : Bytes) :
    walk first stack [c] = some (first :: stack.reverse ++ [c]) := by
  simp [walk]

theorem walk_pass (hdots : ¬ dotdot <:+ c) :
    walk first stack (c :: d :: rest) = walk first (c :: stack) (d :: rest) := by
  have hne : c ≠ dotdot := fun h => hdots (h ▸ List.suffix_refl _)
  simp only [walk, if_neg hne, if_neg hdots]

theorem walk_two : walk first (own :: dir :: stack) (dotdot :: d :: rest) =
    walk first stack (d :: rest) := by
  rw [walk, if_pos rfl]

theorem walk_two_one : walk first [own] (dotdot :: d :: rest) =
    if first = [] then none else some (first :: own :: dotdot :: d :: rest) := by
  rw [walk, if_pos rfl]

theorem walk_two_nil : walk first [] (dotdot :: d :: rest) =
    if first = [] ∧ rest = [] then some [first, d] else none := by
  rw [walk, if_pos rfl]

theorem append_dotdot_ne (hne : name ≠ []) : name ++ dotdot ≠ dotdot := by
  intro h
  exact hne (List.append_left_eq_self.mp h)

theorem walk_one (hne : name ≠ []) : walk first (own :: stack) ((name ++ dotdot) :: d :: rest) =
    walk first stack (d :: rest) := by
  simp only [walk, if_neg (append_dotdot_ne hne), if_pos (List.suffix_append name dotdot)]

theorem walk_one_nil (hne : name ≠ []) : walk first [] ((name ++ dotdot) :: d :: rest) =
    if first = [] then none else some (first :: (name ++ dotdot) :: d :: rest) := by
  rw [walk, if_neg (append_dotdot_ne hne), if_pos (List.suffix_append name dotdot)]

/-- The loop adds no components. -/
theorem walk_subset {comps : List Bytes} (h : walk first stack rest = some comps) :
    comps ≠ [] ∧ comps ⊆ first :: (stack ++ rest) := by
  fun_induction walk first stack rest with
  | case2 | case3 | case6 => cases h
  | _ => grind

/-- A stack that is passed over stands behind the first component. -/
theorem Passed.reverse (hfirst : Passed [first]) (hstack : Passed stack) :
    Passed (first :: stack.reverse) := by
  intro c hc
  rcases List.mem_cons.mp hc with rfl | hc
  · exact hfirst c (by simp)
  · exact hstack c (by simpa using hc)

/-- The string with a component and more before its end. -/
theorem joined_walk (dirs : List Bytes) (c d : Bytes) (rest : List Bytes) :
    joined (dirs ++ c :: d :: rest) = dirText dirs ++ (c ++ slash :: joined (d :: rest)) := by
  rw [joined_append (by simp), joined_cons (by simp)]

/-- **`..`, on strings and on components.** -/
theorem walked_two (hfirst : Passed [first]) (hstack : Passed stack)
    (hrest : ∀ e ∈ d :: rest, slash ∉ e)
    (hleft : ∀ stack, Passed stack → Walked (dirText (first :: stack.reverse) ++ joined (d :: rest))
      (walk first stack (d :: rest))) :
    Walked (joined (first :: stack.reverse ++ dotdot :: d :: rest))
      (walk first stack (dotdot :: d :: rest)) := by
  have hpassed := hfirst.reverse hstack
  rcases stack with _ | ⟨own, _ | ⟨dir, stack⟩⟩
  · rw [walk_two_nil]
    by_cases hf : first = []
    · subst hf
      rcases rest with _ | ⟨e, rest⟩
      · have hstep := @linkStep_two_root _ (joined [d]) (by simpa using hrest)
          (joined_walk [[]] _ _ _)
        rw [if_pos ⟨rfl, rfl⟩]
        exact Walked.step hstep (by simpa [walk_last] using hleft [] (by simp [Passed]))
      · rw [if_neg (by simp)]
        have hmem : slash ∈ joined (d :: e :: rest) := by simp [joined_cons]
        rw [joined_walk]
        exact walked_two_root hmem
    · rw [if_neg (fun h => hf h.1)]
      rw [joined_walk]
      exact walked_two_first hfirst hf _
  · rw [walk_two_one]
    by_cases hf : first = []
    · subst hf
      rw [joined_walk, if_pos rfl]
      exact walked_two_rooted hpassed _
    · rw [if_neg hf]
      exact walked_of_stop (linkStep_two_stop hpassed hf (joined_walk [first, own] _ _ _))
  · rw [walk_two]
    have hsplit : first :: (own :: dir :: stack).reverse =
        (first :: stack.reverse) ++ [dir, own] := by simp
    rw [hsplit] at hpassed ⊢
    exact Walked.step (linkStep_two hpassed (by simp) (joined_walk _ _ _ _))
      (hleft stack fun e he => hstack e (by simp [he]))

/-- **A component that only ends in two dots, on strings and on components.** -/
theorem walked_one (hfirst : Passed [first]) (hstack : Passed stack) (hname : slash ∉ name)
    (hname₀ : name ≠ [])
    (hleft : ∀ stack, Passed stack → Walked (dirText (first :: stack.reverse) ++ joined (d :: rest))
      (walk first stack (d :: rest))) :
    Walked (joined (first :: stack.reverse ++ (name ++ dotdot) :: d :: rest))
      (walk first stack ((name ++ dotdot) :: d :: rest)) := by
  have hpassed := hfirst.reverse hstack
  rcases stack with _ | ⟨own, stack⟩
  · rw [walk_one_nil hname₀]
    by_cases hf : first = []
    · subst hf
      rw [joined_walk, if_pos rfl]
      exact walked_one_rooted hname hname₀ _
    · rw [if_neg hf]
      exact walked_of_stop
        (linkStep_one_stop hfirst hf hname hname₀ (joined_walk [first] _ _ _))
  · rw [walk_one hname₀]
    have hsplit : first :: (own :: stack).reverse = (first :: stack.reverse) ++ [own] := by simp
    rw [hsplit] at hpassed ⊢
    exact Walked.step (linkStep_one hpassed (by simp) hname hname₀ (joined_walk _ _ _ _))
      (hleft stack fun e he => hstack e (by simp [he]))

/-- **The loop on strings is the loop on components.** -/
theorem walked_walk (hfirst : Passed [first]) : ∀ {rest stack : List Bytes}, rest ≠ [] →
    Passed stack → (∀ c ∈ rest, slash ∉ c) →
    Walked (joined (first :: stack.reverse ++ rest)) (walk first stack rest) := by
  intro rest
  induction rest with
  | nil => exact fun hne => absurd rfl hne
  | cons c tl ih =>
    intro stack _ hstack hrest
    have hc : slash ∉ c := hrest c (by simp)
    rcases tl with _ | ⟨d, rest⟩
    · -- the last component is never looked at
      have hfind : findStr (ascii "../") (joined (first :: stack.reverse ++ [c])) = -1 := by
        rw [joined_append (by simp), joined_singleton, findStr_dirText (hfirst.reverse hstack),
          findStr_parent_of_notMem hc]
        rfl
      rw [walk_last]
      exact walked_of_stop (by rw [linkStep]; exact if_pos hfind)
    have hrest' : ∀ e ∈ d :: rest, slash ∉ e := fun e he => hrest e (List.mem_cons_of_mem c he)
    have hleft : ∀ stack, Passed stack →
        Walked (dirText (first :: stack.reverse) ++ joined (d :: rest))
          (walk first stack (d :: rest)) := by
      intro stack hstack
      rw [← joined_append (by simp)]
      exact ih (by simp) hstack hrest'
    by_cases hdots : dotdot <:+ c
    · obtain ⟨name, rfl⟩ := hdots
      by_cases hname : name = []
      · subst hname
        exact walked_two hfirst hstack hrest' hleft
      · exact walked_one hfirst hstack (fun h => hc (by simp [h])) hname hleft
    · rw [walk_pass hdots]
      have hstack' : Passed (c :: stack) := by
        intro e he
        rcases List.mem_cons.mp he with rfl | he
        · exact ⟨hc, hdots⟩
        · exact hstack e he
      simpa using ih (by simp) hstack' hrest'

/-- **The loop on a path**, by its components: there must be three of them at least. -/
theorem walked_components {path second third : Bytes} {more : List Bytes}
    (hcomps : components path = first :: second :: third :: more) :
    Walked path (if dotdot <:+ first then none else walk first [] (second :: third :: more)) := by
  have hslash : ∀ c ∈ first :: second :: third :: more, slash ∉ c := fun c hc =>
    slash_notMem_of_mem_components (hcomps ▸ hc)
  rw [← joined_components path, hcomps]
  by_cases hdots : dotdot <:+ first
  · rw [if_pos hdots, joined_cons (by simp)]
    obtain ⟨name, rfl⟩ := hdots
    have hname := hslash (name ++ dotdot) (by simp)
    refine walked_of_first (fun h => hname (List.mem_append_left _ h)) ?_
    rw [joined_cons (by simp)]
    simp
  · rw [if_neg hdots]
    have hfirst : Passed [first] := by simpa [Passed] using ⟨hslash first (by simp), hdots⟩
    exact walked_walk hfirst (by simp) (by simp [Passed])
      fun c hc => hslash c (List.mem_cons_of_mem _ hc)

/-- What the loop does is one of the two. -/
theorem Walked.isSome_iff {s : Bytes} {o : Option (List Bytes)} (h : Walked s o) :
    (∃ fuel, (resolveLink fuel s).isSome) ↔ o.isSome := by
  cases o with
  | some comps =>
    obtain ⟨fuel, hfuel⟩ := h
    simpa using ⟨fuel, by simp [hfuel]⟩
  | none =>
    have hnone : ∀ fuel, resolveLink fuel s = none := h
    simp [hnone]

/-! ### When the loop ends -/

/-- **The loop of `getTorrent` ends** on this path of a link and this target. -/
def LoopEnds (path target : Bytes) : Prop :=
  ∃ fuel, (resolveLink fuel (path ++ slash :: target)).isSome

/-- **Counting components.** The loop ends on these components, with so many passed over
between them and the first one: a component that ends in two dots takes one of those away
and `..` takes two, and the last component is not looked at. With none passed over, a mere
ending is given up, and `..` is met for ever; with one, `..` is given up. In a path that
starts with a slash (`rooted`) nothing is ever given up: the loop then ends in none of these
cases but one, that of a single name behind `/../`. -/
def Ends (rooted : Prop) : ℕ → List Bytes → Prop
  | passed, c :: d :: rest =>
    if c = dotdot then
      match passed with
      | 0 => rooted ∧ rest = []
      | 1 => ¬ rooted
      | passed + 2 => Ends rooted passed (d :: rest)
    else if dotdot <:+ c then
      match passed with
      | 0 => ¬ rooted
      | passed + 1 => Ends rooted passed (d :: rest)
    else Ends rooted (passed + 1) (d :: rest)
  | _, _ => True

/-- The same of a whole path: its first component must not end in two dots. -/
def CountsOut (path : Bytes) : Prop :=
  ∃ first rest, components path = first :: rest ∧ ¬ dotdot <:+ first ∧ Ends (first = []) 0 rest

theorem walk_isSome_iff : ∀ {rest stack : List Bytes},
    (walk first stack rest).isSome ↔ Ends (first = []) stack.length rest := by
  intro rest
  induction rest with
  | nil => simp [walk, Ends]
  | cons c tl ih =>
    intro stack
    rcases tl with _ | ⟨d, rest⟩
    · simp [walk, Ends]
    by_cases hdots : dotdot <:+ c
    · obtain ⟨name, rfl⟩ := hdots
      by_cases hname : name = []
      · subst hname
        rcases stack with _ | ⟨own, _ | ⟨dir, stack⟩⟩
        · rw [List.nil_append, walk_two_nil]
          by_cases h : first = [] ∧ rest = [] <;> simp [h, Ends]
        · rw [List.nil_append, walk_two_one]
          by_cases h : first = [] <;> simp [h, Ends]
        · rw [List.nil_append, walk_two, ih]
          simp [Ends]
      · rcases stack with _ | ⟨own, stack⟩
        · rw [walk_one_nil hname]
          by_cases h : first = [] <;> simp [h, Ends, hname]
        · rw [walk_one hname, ih]
          simp [Ends, hname]
    · have hne : c ≠ dotdot := fun h => hdots (h ▸ List.suffix_refl _)
      rw [walk_pass hdots, ih]
      simp [Ends, hne, hdots]

/-- A path with a slash, and a target behind it, have three components at least. -/
theorem components_of_mem {path : Bytes} (h : slash ∈ path) (target : Bytes) :
    ∃ first second third more,
      components (path ++ slash :: target) = first :: second :: third :: more := by
  obtain ⟨a, b, rfl, ha⟩ := exists_split h
  rw [components_append, components_append_slash ha]
  obtain ⟨second, more, hmore⟩ := List.exists_cons_of_ne_nil (components_ne_nil b)
  obtain ⟨third, more', hmore'⟩ := List.exists_cons_of_ne_nil (components_ne_nil target)
  rw [hmore, hmore']
  rcases more with _ | ⟨fourth, more⟩
  · exact ⟨a, second, third, more', rfl⟩
  · exact ⟨a, second, fourth, more ++ third :: more', rfl⟩

/-- **The loop ends exactly where the count says so.** -/
theorem loopEnds_iff {path : Bytes} (hpath : slash ∈ path) (target : Bytes) :
    LoopEnds path target ↔ CountsOut (path ++ slash :: target) := by
  obtain ⟨first, second, third, more, hcomps⟩ := components_of_mem hpath target
  have hcount : CountsOut (path ++ slash :: target) ↔
      ¬ dotdot <:+ first ∧ Ends (first = []) 0 (second :: third :: more) := by
    simp [CountsOut, hcomps]
  rw [LoopEnds, (walked_components hcomps).isSome_iff, hcount]
  by_cases hdots : dotdot <:+ first
  · simp [hdots]
  · simp [hdots, walk_isSome_iff]

end Walk

/-- One directory up from a link two directories deep. -/
theorem loopEnds_up : LoopEnds (ascii "n/a/link") (ascii "../b") :=
  (loopEnds_iff (by decide) (ascii "../b")).mpr
    ⟨ascii "n", [ascii "a", ascii "link", dotdot, ascii "b"], by decide, by decide,
      (@walk_isSome_iff (ascii "n") [ascii "a", ascii "link", dotdot, ascii "b"] []).mp (by decide)⟩

/-- **The loop does not end** when the target leads one more directory up. -/
theorem loop_endless : ¬ LoopEnds (ascii "n/a/link") (ascii "../../b") := by
  have hwalk := @walked_components (ascii "n") (ascii "n/a/link" ++ slash :: ascii "../../b")
    (ascii "a") (ascii "link") [dotdot, dotdot, ascii "b"] (by decide)
  rw [LoopEnds, hwalk.isSome_iff]
  decide

end InstantMirror
