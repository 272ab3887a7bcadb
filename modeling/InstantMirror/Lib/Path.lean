import Mathlib.Data.List.Induction
import InstantMirror.Lib.Bytes

/-!
# Paths, lexically

A path is a string of bytes cut at its slashes. What file it names, as far as that
can be said without asking the file system, is the list of components that is left
when empty components and `.` are dropped and each `..` takes away the component
before it (`InstantMirror.normalise`). A leading `..` has nothing to take away and
stays, so paths relative to a working directory normalise as well.

Two paths that go through the same names lead to the same file, whatever the file system is;
then nothing but empty components and `.` may be dropped (`InstantMirror.pathNames`), and from
which directory it starts has to be said (`InstantMirror.absolutePath`).

Programs that look for `"../"` in the string instead find the first component, other
than the last, that *ends* in two dots (`InstantMirror.findStr_parent`).
-/

namespace InstantMirror

/-- The component `.`. -/
def dot : Bytes := [46]

/-- The component `..`. -/
def dotdot : Bytes := [46, 46]

/-- The components of a path, empty ones included. -/
def components (path : Bytes) : List Bytes := path.splitOn slash

/-- A component ends at its slash. -/
theorem components_append_slash {comp : Bytes} (hslash : slash ∉ comp) (rest : Bytes) :
    components (comp ++ slash :: rest) = comp :: components rest := by
  rw [components, List.splitOn_append_cons_self, List.splitOn_eq_singleton hslash]
  rfl

/-- A slash separates components. -/
theorem components_append (path rest : Bytes) :
    components (path ++ slash :: rest) = components path ++ components rest :=
  List.splitOn_append_cons_self path rest

theorem components_ne_nil (path : Bytes) : components path ≠ [] := List.splitOn_ne_nil slash path

theorem components_of_notMem {comp : Bytes} (hslash : slash ∉ comp) : components comp = [comp] :=
  List.splitOn_eq_singleton hslash

/-- **No component contains a slash.** -/
theorem slash_notMem_of_mem_components : ∀ {path comp : Bytes}, comp ∈ components path →
    slash ∉ comp := by
  intro path
  induction hlen : path.length using Nat.strong_induction_on generalizing path with
  | _ n ih =>
    intro comp hcomp
    by_cases hs : slash ∈ path
    · obtain ⟨a, b, rfl, ha⟩ := exists_split hs
      rw [components_append_slash ha] at hcomp
      rcases List.mem_cons.mp hcomp with rfl | hb
      · exact ha
      · exact ih b.length (by simp at hlen; omega) rfl hb
    · rw [components_of_notMem hs, List.mem_singleton] at hcomp
      rwa [hcomp]

/-! ### Components put together again -/

/-- Components, with a slash between each and the next. -/
def joined (comps : List Bytes) : Bytes := [slash].intercalate comps

/-- Components, with a slash behind each. -/
def dirText (comps : List Bytes) : Bytes := comps.flatMap (· ++ [slash])

theorem joined_components (path : Bytes) : joined (components path) = path :=
  List.intercalate_splitOn slash

theorem components_joined {comps : List Bytes} (hslash : ∀ c ∈ comps, slash ∉ c)
    (hne : comps ≠ []) : components (joined comps) = comps :=
  List.splitOn_intercalate slash hslash hne

@[simp] theorem joined_singleton (c : Bytes) : joined [c] = c := List.intercalate_singleton

theorem joined_cons {comps : List Bytes} (hne : comps ≠ []) (c : Bytes) :
    joined (c :: comps) = c ++ slash :: joined comps := by
  simp [joined, List.intercalate_cons_of_ne_nil hne]

@[simp] theorem dirText_nil : dirText [] = [] := rfl

@[simp] theorem dirText_cons (c : Bytes) (comps : List Bytes) :
    dirText (c :: comps) = c ++ slash :: dirText comps := by
  simp [dirText]

@[simp] theorem dirText_append (comps comps' : List Bytes) :
    dirText (comps ++ comps') = dirText comps ++ dirText comps' := by
  simp [dirText]

/-- The components of the directories come first. -/
theorem joined_append {rest : List Bytes} (hne : rest ≠ []) (dirs : List Bytes) :
    joined (dirs ++ rest) = dirText dirs ++ joined rest := by
  induction dirs with
  | nil => rfl
  | cons c dirs ih =>
    rw [List.cons_append, joined_cons (by simp [hne]), ih]
    simp

/-- Behind the last component, there is one slash more. -/
theorem joined_append_slash {dirs : List Bytes} (hne : dirs ≠ []) :
    joined dirs ++ [slash] = dirText dirs := by
  obtain ⟨dirs, c, rfl⟩ := (List.eq_nil_or_concat' dirs).resolve_left hne
  rw [joined_append (by simp), joined_singleton, dirText_append, dirText_cons, dirText_nil,
    List.append_assoc]

/-! ### Looking for `../` -/

/-- `"../"` as bytes. -/
theorem ascii_parent : ascii "../" = dotdot ++ [slash] := rfl

/-- It stands only where the third byte is a slash. -/
theorem not_isPrefixOf_parent {s : Bytes} (h : s[2]? ≠ some slash) :
    (ascii "../").isPrefixOf s = false := by
  rw [Bool.eq_false_iff, Ne, List.isPrefixOf_iff_prefix]
  rintro ⟨rest, rfl⟩
  exact h rfl

/-- There is none in a component. -/
theorem findStr_parent_of_notMem : ∀ {comp : Bytes}, slash ∉ comp → findStr (ascii "../") comp = -1
  | [], _ => rfl
  | c :: comp, h => by
    have hno : (ascii "../").isPrefixOf (c :: comp) = false :=
      not_isPrefixOf_parent fun hat => h (List.mem_of_getElem? hat)
    have ih := findStr_parent_of_notMem fun hmem : slash ∈ comp => h (List.mem_cons_of_mem c hmem)
    rw [findStr, hno, ih]
    rfl

/-- **The first one is found at the end of a component**, if this is the first component
that ends in two dots. -/
theorem findStr_parent : ∀ {name : Bytes}, slash ∉ name → ∀ rest,
    findStr (ascii "../") (name ++ dotdot ++ slash :: rest) = name.length
  | [], _, rest => by simp [findStr, ascii_parent, dotdot]
  | c :: name, h, rest => by
    have hno : (ascii "../").isPrefixOf (c :: name ++ dotdot ++ slash :: rest) = false := by
      -- the third byte is a dot, or lies in the name
      refine not_isPrefixOf_parent fun hat => ?_
      rcases name with _ | ⟨d, _ | ⟨e, name⟩⟩
      · cases hat
      · cases hat
      · obtain rfl : e = slash := Option.some.inj hat
        exact h (by simp)
    have ih := findStr_parent (fun hmem : slash ∈ name => h (List.mem_cons_of_mem c hmem)) rest
    rw [List.cons_append, List.cons_append] at hno ⊢
    rw [findStr, hno, ih, if_neg (by simp), if_neg (by omega), List.length_cons]
    omega

/-- A component that does not end in two dots is passed over. -/
theorem findStr_parent_append : ∀ {comp : Bytes}, slash ∉ comp → ¬ dotdot <:+ comp → ∀ rest,
    findStr (ascii "../") (comp ++ slash :: rest) =
      if findStr (ascii "../") rest < 0 then -1
      else findStr (ascii "../") rest + comp.length + 1
  | [], _, _, rest => by
    have hno : (ascii "../").isPrefixOf (slash :: rest) = false := rfl
    rw [List.nil_append, findStr, hno]
    simp
  | c :: comp, h, hdots, rest => by
    have hno : (ascii "../").isPrefixOf (c :: (comp ++ slash :: rest)) = false := by
      rcases comp with _ | ⟨d, _ | ⟨e, comp⟩⟩
      · rw [Bool.eq_false_iff, Ne, List.isPrefixOf_iff_prefix]
        simp [ascii_parent, dotdot, slash]
      · rw [Bool.eq_false_iff, Ne, List.isPrefixOf_iff_prefix]
        intro hpre
        have hcd : c = 46 ∧ d = 46 := by
          simpa [ascii_parent, dotdot, slash, eq_comm] using hpre
        exact hdots (by simp [hcd, dotdot])
      · refine not_isPrefixOf_parent fun hat => ?_
        obtain rfl : e = slash := Option.some.inj hat
        exact h (by simp)
    have ih := findStr_parent_append (fun hmem : slash ∈ comp => h (List.mem_cons_of_mem c hmem))
      (fun hsuf => hdots (hsuf.trans (List.suffix_cons c comp))) rest
    rw [List.cons_append, findStr, hno, ih]
    simp only [Bool.false_eq_true, if_false, List.length_cons]
    split
    · rfl
    · rw [if_neg (by omega)]
      push_cast
      omega

/-! ### Where a path leads -/

/-- The names a path leads through: empty components and `.` lead nowhere. -/
def pathNames (path : Bytes) : List Bytes := (components path).filter fun c => c ≠ [] ∧ c ≠ dot

@[simp] theorem pathNames_nil : pathNames [] = [] := rfl

/-- **A slash separates the names.** -/
theorem pathNames_append (path rest : Bytes) :
    pathNames (path ++ slash :: rest) = pathNames path ++ pathNames rest := by
  rw [pathNames, components_append, List.filter_append]
  rfl

/-- **Where a path leads from a working directory**: the names it goes through, from the root
on. -/
def absolutePath (cwd : List Bytes) (path : Bytes) : List Bytes :=
  if path.head? = some slash then pathNames path else cwd ++ pathNames path

/-! ### Normal forms -/

/-- One component more, on a stack whose top is the last component so far. -/
def pushComponent (stack : List Bytes) (c : Bytes) : List Bytes :=
  if c = [] ∨ c = dot then stack
  else if c = dotdot then
    match stack with
    | [] => [dotdot]
    | top :: rest => if top = dotdot then dotdot :: stack else rest
  else c :: stack

/-- A component that names something: not empty, not `.` and not `..`. -/
def Named (c : Bytes) : Prop := c ≠ [] ∧ c ≠ dot ∧ c ≠ dotdot

instance (c : Bytes) : Decidable (Named c) := inferInstanceAs (Decidable (_ ∧ _))

theorem pushComponent_of_named {c : Bytes} (hc : Named c) (stack : List Bytes) :
    pushComponent stack c = c :: stack := by
  simp [pushComponent, hc.1, hc.2.1, hc.2.2]

/-- `..` takes the last component away, if it is not `..` itself. -/
theorem pushComponent_dotdot {top : Bytes} (htop : top ≠ dotdot) (stack : List Bytes) :
    pushComponent (top :: stack) dotdot = stack := by
  rw [pushComponent, if_neg (by decide), if_pos rfl]
  exact if_neg htop

/-- **The file a path names, lexically.** -/
def normalise (path : Bytes) : List Bytes := ((components path).foldl pushComponent []).reverse

theorem foldl_pushComponent_of_named {comps : List Bytes} (hcomps : ∀ c ∈ comps, Named c)
    (stack : List Bytes) : comps.foldl pushComponent stack = comps.reverse ++ stack := by
  induction comps generalizing stack with
  | nil => rfl
  | cons c comps ih =>
    rw [List.foldl_cons, pushComponent_of_named (hcomps c List.mem_cons_self),
      ih fun c' hc' => hcomps c' (List.mem_cons_of_mem c hc')]
    simp

/-- Where `..` finds nothing to take away, it stays. -/
theorem foldl_pushComponent_replicate (k j : ℕ) :
    (List.replicate k dotdot).foldl pushComponent (List.replicate j dotdot) =
      List.replicate (j + k) dotdot := by
  induction k generalizing j with
  | zero => rfl
  | succ k ih =>
    have hpush : pushComponent (List.replicate j dotdot) dotdot =
        List.replicate (j + 1) dotdot := by
      cases j with
      | zero => rfl
      | succ j => rfl
    rw [List.replicate_succ, List.foldl_cons, hpush, ih, Nat.add_assoc, Nat.add_comm 1]

/-- **Normal forms**: first the `..` that are left, then names. -/
theorem exists_foldl_pushComponent (comps : List Bytes) : ∃ k names, (∀ c ∈ names, Named c) ∧
    comps.foldl pushComponent [] = (List.replicate k dotdot ++ names).reverse := by
  induction comps using List.reverseRecOn with
  | nil => exact ⟨0, [], by simp, rfl⟩
  | append_singleton comps c ih =>
    obtain ⟨k, names, hnames, heq⟩ := ih
    rw [List.foldl_append, List.foldl_cons, List.foldl_nil, heq]
    by_cases hdrop : c = [] ∨ c = dot
    · exact ⟨k, names, hnames, if_pos hdrop⟩
    by_cases hup : c = dotdot
    · subst hup
      rcases List.eq_nil_or_concat' names with rfl | ⟨names, top, rfl⟩
      · refine ⟨k + 1, [], by simp, ?_⟩
        have hpush := foldl_pushComponent_replicate 1 k
        simpa using hpush
      · refine ⟨k, names, fun c hc => hnames c (List.mem_append_left _ hc), ?_⟩
        rw [← List.append_assoc, List.reverse_append, List.reverse_singleton,
          List.singleton_append, pushComponent_dotdot (hnames top (by simp)).2.2]
    · rw [not_or] at hdrop
      have hc : Named c := ⟨hdrop.1, hdrop.2, hup⟩
      refine ⟨k, names ++ [c], fun c' hc' => ?_, ?_⟩
      · rcases List.mem_append.mp hc' with hc' | hc'
        · exact hnames c' hc'
        · rwa [List.mem_singleton.mp hc']
      · rw [pushComponent_of_named hc]
        simp

/-- What one component does: nothing to any stack; or it is put on top; or it takes away a name. -/
theorem pushComponent_cases (stack : List Bytes) (c : Bytes) :
    (∀ s, pushComponent s c = s) ∨ pushComponent stack c = c :: stack ∨
      ∃ top rest, stack = top :: rest ∧ top ≠ dotdot ∧ c = dotdot ∧
        pushComponent stack c = rest := by
  by_cases hdrop : c = [] ∨ c = dot
  · exact Or.inl fun s => if_pos hdrop
  by_cases hup : c = dotdot
  · subst hup
    rcases stack with _ | ⟨top, rest⟩
    · exact Or.inr (Or.inl rfl)
    by_cases htop : top = dotdot
    · subst htop
      exact Or.inr (Or.inl rfl)
    · exact Or.inr (Or.inr ⟨top, rest, rfl, htop, rfl, pushComponent_dotdot htop rest⟩)
  · rw [not_or] at hdrop
    exact Or.inr (Or.inl (pushComponent_of_named ⟨hdrop.1, hdrop.2, hup⟩ stack))

/-- **Components may be normalised first.** -/
theorem foldl_pushComponent_normalise (path : Bytes) (stack : List Bytes) :
    (normalise path).foldl pushComponent stack = (components path).foldl pushComponent stack := by
  rw [normalise]
  induction components path using List.reverseRecOn with
  | nil => rfl
  | append_singleton comps c ih =>
    rw [List.foldl_append, List.foldl_append, List.foldl_cons, List.foldl_nil, List.foldl_cons,
      List.foldl_nil, ← ih]
    rcases pushComponent_cases (comps.foldl pushComponent []) c with
      hdrop | hpush | ⟨top, rest, hstack, htop, rfl, hpush⟩
    · rw [hdrop, hdrop]
    · rw [hpush, List.reverse_cons, List.foldl_append]
      rfl
    · -- what is taken away is a name, and had been put on top of the other stack as well
      obtain ⟨k, names, hnames, heq⟩ := exists_foldl_pushComponent comps
      have hnamed : Named top := by
        have hmem : top ∈ List.replicate k dotdot ++ names := by
          rw [← List.mem_reverse, ← heq, hstack]
          exact List.mem_cons_self
        rcases List.mem_append.mp hmem with hmem | hmem
        · exact absurd (List.eq_of_mem_replicate hmem) htop
        · exact hnames top hmem
      rw [hpush, hstack, List.reverse_cons, List.foldl_append, List.foldl_cons, List.foldl_nil,
        pushComponent_of_named hnamed, pushComponent_dotdot htop]

/-- A path below a directory. -/
theorem normalise_append (dir path : Bytes) : normalise (dir ++ slash :: path) =
    ((normalise path).foldl pushComponent (normalise dir).reverse).reverse := by
  rw [foldl_pushComponent_normalise, normalise, normalise, components_append, List.foldl_append,
    List.reverse_reverse]

theorem exists_normalise (path : Bytes) : ∃ k names, (∀ c ∈ names, Named c) ∧
    normalise path = List.replicate k dotdot ++ names := by
  obtain ⟨k, names, hnames, heq⟩ := exists_foldl_pushComponent (components path)
  exact ⟨k, names, hnames, by rw [normalise, heq, List.reverse_reverse]⟩

/-- A path of names is its own normal form. -/
theorem normalise_joined {comps : List Bytes} (hne : comps ≠ [])
    (hcomps : ∀ c ∈ comps, Named c ∧ slash ∉ c) : normalise (joined comps) = comps := by
  rw [normalise, components_joined (fun c hc => (hcomps c hc).2) hne,
    foldl_pushComponent_of_named fun c hc => (hcomps c hc).1]
  simp

end InstantMirror
