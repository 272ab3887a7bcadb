import InstantMirror.LinkWalk

/-!
# Where a link leads, and where it should lead

The target of a link is relative to the directory that contains the link. Resolved
as a file system resolves it (`InstantMirror.lexical`), each `..` of the target takes
one directory away. The loop of `getTorrent` works on the path of the link *with* its
own name and the target behind it, and drops two components for each `..`: that is
right for one `..`, which drops the own name and one directory, and wrong for none,
which keeps the own name, and for two, which drop a directory too many.

`InstantMirror.link_resolution` says what remains: the target has exactly one `..`, not
at its end; in front of it, where the own name is in the way, the components must be
such that it does not matter which of them is dropped; and nothing that is looked at
may merely end in two dots. The count behind it is `InstantMirror.walk_count`.
-/

namespace InstantMirror

/-! ### The resolution of a file system -/

/-- The target, component by component, on a stack whose top is the last directory; `none`
where nothing would be left, not even the name of the torrent. -/
def lexicalFrom (stack : List Bytes) : List Bytes → Option (List Bytes)
  | [] => some stack.reverse
  | c :: target =>
    if pushComponent stack c = [] then none else lexicalFrom (pushComponent stack c) target

/-- **The lexical resolution of a target** against a directory of the torrent, given by its
components from the name of the torrent on; `none` where it leaves the torrent. -/
def lexical (dirs target : List Bytes) : Option (List Bytes) := lexicalFrom dirs.reverse target

/-- **A path of a torrent**, as the directories and the own name: no component is empty, `.`
or `..`, and there is no NUL in it. -/
structure LinkPath (path : Bytes) (dirs : List Bytes) (own : Bytes) : Prop where
  /-- The components of the path. -/
  split : components path = dirs ++ [own]
  /-- There is a directory, that of the torrent. -/
  nested : dirs ≠ []
  /-- Each component names something. -/
  plain : ∀ c ∈ dirs ++ [own], Named c
  /-- The path is a C string. -/
  text : (0 : UInt8) ∉ path

/-- **The call on the target of a link**: `getTorrent`, called on the link, calls itself on
this path. -/
def PassesOn (path target next : Bytes) : Prop :=
  ∃ fuel, (resolveLink fuel (path ++ slash :: target)).map cstr = some next

/-- **The condition on a link and the components of its target.** -/
structure TargetOk (dirs : List Bytes) (own : Bytes) (target : List Bytes) : Prop where
  /-- No component of the link's path ends in two dots. -/
  path_dots : ∀ c ∈ dirs ++ [own], ¬ dotdot <:+ c
  /-- The target has one `..`, with something behind it. In front of it, no component ends in
  two dots, and all but the last are the own name of the link. Behind it, no component but the
  last ends in two dots, unless the first one does and only the name of the torrent is left
  there. -/
  one_up : ∃ A B, target = A ++ dotdot :: B ∧ B ≠ [] ∧ (∀ c ∈ A ++ B, Named c) ∧
    (∀ c ∈ A, ¬ dotdot <:+ c) ∧ (∀ c ∈ A.dropLast, c = own) ∧
    ((∀ c ∈ B.dropLast, ¬ dotdot <:+ c) ∨
      (dirs.length + A.length = 2 ∧ ∃ b, B.head? = some b ∧ dotdot <:+ b))

/-! ### The lexical resolution, computed -/

section Lexical

variable {stack dirs A B target expected : List Bytes} {c : Bytes}

theorem lexicalFrom_named (hc : Named c) :
    lexicalFrom stack (c :: target) = lexicalFrom (c :: stack) target := by
  rw [lexicalFrom, pushComponent_of_named hc, if_neg (by simp)]

theorem lexicalFrom_append (hA : ∀ c ∈ A, Named c) :
    lexicalFrom stack (A ++ target) = lexicalFrom (A.reverse ++ stack) target := by
  induction A generalizing stack with
  | nil => rfl
  | cons c A ih =>
    rw [List.cons_append, lexicalFrom_named (hA c (by simp)), ih fun d hd => hA d (by simp [hd])]
    simp

/-- `..` needs a directory besides the name of the torrent. -/
theorem lexicalFrom_dotdot (hne : stack ≠ []) (hstack : ∀ c ∈ stack, Named c)
    (h : lexicalFrom stack (dotdot :: target) = some expected) :
    ∃ top below rest, stack = top :: below :: rest ∧
      lexicalFrom (below :: rest) target = some expected := by
  rcases stack with _ | ⟨top, _ | ⟨below, rest⟩⟩
  · exact absurd rfl hne
  · rw [lexicalFrom, pushComponent_dotdot (hstack top (by simp)).2.2, if_pos rfl] at h
    cases h
  · rw [lexicalFrom, pushComponent_dotdot (hstack top (by simp)).2.2, if_neg (by simp)] at h
    exact ⟨top, below, rest, rfl, h⟩

/-- The resolution adds no components. -/
theorem lexicalFrom_subset (hne : stack ≠ []) (h : lexicalFrom stack target = some expected) :
    expected ≠ [] ∧ expected ⊆ stack ++ target := by
  induction target generalizing stack with
  | nil =>
    obtain rfl := Option.some.inj h
    simp [hne, List.subset_def]
  | cons c target ih =>
    have hpush : pushComponent stack c ⊆ c :: stack := by
      unfold pushComponent
      split_ifs <;> grind
    rw [lexicalFrom] at h
    split at h
    · cases h
    · rename_i hpush₀
      obtain ⟨hexp, hsub⟩ := ih hpush₀ h
      refine ⟨hexp, fun d hd => ?_⟩
      rcases List.mem_append.mp (hsub hd) with hd | hd
      · rcases List.mem_cons.mp (hpush hd) with rfl | hd <;> simp [*]
      · simp [hd]

/-- **Counting, for the file system**: each `..` takes away itself and one directory. What is
left names something. -/
theorem lexicalFrom_count (hne : stack ≠ []) (hstack : ∀ c ∈ stack, Named c)
    (htarget : ∀ c ∈ target, c ≠ [] ∧ c ≠ dot) (h : lexicalFrom stack target = some expected) :
    expected.length + 2 * target.count dotdot = stack.length + target.length ∧
      ∀ c ∈ expected, Named c := by
  induction target generalizing stack with
  | nil =>
    obtain rfl := Option.some.inj h
    simpa using hstack
  | cons c target ih =>
    have htarget' : ∀ c ∈ target, c ≠ [] ∧ c ≠ dot := fun d hd => htarget d (by simp [hd])
    by_cases hdd : c = dotdot
    · subst hdd
      obtain ⟨top, below, rest, rfl, h'⟩ := lexicalFrom_dotdot hne hstack h
      obtain ⟨hlen, hexp⟩ := @ih (below :: rest) (by simp)
        (fun d hd => hstack d (List.mem_cons_of_mem top hd)) htarget' h'
      refine ⟨?_, hexp⟩
      simp only [List.count_cons_self, List.length_cons] at hlen ⊢
      omega
    · have hc : Named c := ⟨(htarget c (by simp)).1, (htarget c (by simp)).2, hdd⟩
      rw [lexicalFrom_named hc] at h
      obtain ⟨hlen, hexp⟩ := ih (by simp)
        (fun d hd => (List.mem_cons.mp hd).elim (fun h => h ▸ hc) (hstack d)) htarget' h
      refine ⟨?_, hexp⟩
      rw [List.count_cons_of_ne hdd]
      simp only [List.length_cons] at hlen ⊢
      omega

/-- With one `..`, the last directory before it goes. -/
theorem lexical_one_up (hne : dirs ≠ []) (hdirs : ∀ c ∈ dirs, Named c) (hA : ∀ c ∈ A, Named c)
    (hB : ∀ c ∈ B, Named c) (h : lexical dirs (A ++ dotdot :: B) = some expected) :
    2 ≤ dirs.length + A.length ∧ expected = (dirs ++ A).dropLast ++ B := by
  rw [lexical, lexicalFrom_append hA] at h
  obtain ⟨top, below, rest, hstack, h⟩ := lexicalFrom_dotdot (by simp [hne])
    (fun c hc => by
      rcases List.mem_append.mp hc with hc | hc
      · exact hA c (by simpa using hc)
      · exact hdirs c (by simpa using hc)) h
  have hall : dirs ++ A = (below :: rest).reverse ++ [top] := by
    simpa using congrArg List.reverse hstack
  constructor
  · have hlen := congrArg List.length hall
    simp only [List.length_append, List.length_reverse, List.length_cons] at hlen
    omega
  · have hB' := @lexicalFrom_append (below :: rest) B [] hB
    rw [List.append_nil] at hB'
    rw [hB', lexicalFrom] at h
    rw [hall, List.dropLast_concat, ← Option.some.inj h]
    simp

end Lexical

/-! ### The loop, counted -/

section Count

variable {first : Bytes} {stack pre rest comps : List Bytes}

/-- Components that do not end in two dots are passed over. -/
theorem walk_append (hpre : ∀ c ∈ pre, ¬ dotdot <:+ c) (hrest : rest ≠ []) :
    walk first stack (pre ++ rest) = walk first (pre.reverse ++ stack) rest := by
  induction pre generalizing stack with
  | nil => rfl
  | cons c pre ih =>
    obtain ⟨d, more, hmore⟩ := List.exists_cons_of_ne_nil (l := pre ++ rest) (by simp [hrest])
    rw [List.cons_append, hmore, walk_pass (hpre c (by simp)), ← hmore,
      ih fun d hd => hpre d (by simp [hd])]
    simp

/-- No component before the last `..` merely ends in two dots. -/
def DotsBehind (rest : List Bytes) : Prop :=
  ∀ pre B, rest = pre ++ dotdot :: B → ∀ c ∈ pre, c ≠ dotdot → ¬ dotdot <:+ c

theorem dotsBehind_of_notMem (h : dotdot ∉ rest) : DotsBehind rest :=
  fun _ _ hsplit => absurd (hsplit ▸ by simp) h

theorem DotsBehind.cons {c : Bytes} (h : DotsBehind rest) (hc : c ≠ dotdot → ¬ dotdot <:+ c) :
    DotsBehind (c :: rest) := by
  intro pre B hsplit e he hne
  rcases pre with _ | ⟨x, pre⟩
  · simp at he
  obtain ⟨rfl, hsplit'⟩ := List.cons.inj hsplit
  rcases List.mem_cons.mp he with rfl | he
  · exact hc hne
  · exact h pre B hsplit' e he hne

/-- **Counting, for the loop.** If nothing is given up at a `..`, each `..` takes away itself
and two components, and each of the others that is taken away takes one with it. -/
theorem walk_count (hfirst : first ≠ []) (hcomps : dotdot ∉ comps) :
    ∀ {rest stack : List Bytes}, rest ≠ [] → walk first stack rest = some comps →
      ∃ f, comps.length + 3 * rest.count dotdot + 2 * f = 1 + stack.length + rest.length ∧
        (f = 0 → DotsBehind rest) := by
  intro rest
  induction rest with
  | nil => exact fun hne => absurd rfl hne
  | cons c tl ih =>
    intro stack _ h
    -- what is kept as it is holds no `..`
    have hkept : dotdot ∉ c :: tl → comps = first :: stack.reverse ++ c :: tl →
        ∃ f, comps.length + 3 * (c :: tl).count dotdot + 2 * f = 1 + stack.length +
          (c :: tl).length ∧ (f = 0 → DotsBehind (c :: tl)) := by
      intro hno hsame
      refine ⟨0, ?_, fun _ => dotsBehind_of_notMem hno⟩
      rw [List.count_eq_zero.mpr hno, hsame]
      simp only [List.length_append, List.length_cons, List.length_reverse]
      omega
    rcases tl with _ | ⟨d, rest⟩
    · rw [walk_last] at h
      obtain rfl := Option.some.inj h
      exact hkept (fun hmem => hcomps (List.mem_append_right _ hmem)) rfl
    have ih := fun {stack : List Bytes} => @ih stack (by simp)
    by_cases hdots : dotdot <:+ c
    · obtain ⟨name, rfl⟩ := hdots
      by_cases hname : name = []
      · subst hname
        rw [List.nil_append] at h ⊢
        rcases stack with _ | ⟨own, _ | ⟨dir, stack⟩⟩
        · rw [walk_two_nil, if_neg (fun h => hfirst h.1)] at h
          cases h
        · rw [walk_two_one, if_neg hfirst] at h
          exact absurd (Option.some.inj h ▸ by simp) hcomps
        · rw [walk_two] at h
          obtain ⟨f, hlen, hf⟩ := ih h
          refine ⟨f, ?_, fun hf0 => (hf hf0).cons fun hne => absurd rfl hne⟩
          simp only [List.count_cons_self, List.length_cons] at hlen ⊢
          omega
      · rcases stack with _ | ⟨own, stack⟩
        · rw [walk_one_nil hname, if_neg hfirst] at h
          obtain rfl := Option.some.inj h
          exact hkept (fun hmem => hcomps (List.mem_cons_of_mem _ hmem)) rfl
        · rw [walk_one hname] at h
          obtain ⟨f, hlen, -⟩ := ih h
          refine ⟨f + 1, ?_, by simp⟩
          rw [List.count_cons_of_ne (append_dotdot_ne hname)]
          simp only [List.length_cons] at hlen ⊢
          omega
    · have hne : c ≠ dotdot := fun he => hdots (he ▸ List.suffix_refl _)
      rw [walk_pass hdots] at h
      obtain ⟨f, hlen, hf⟩ := ih h
      refine ⟨f, ?_, fun hf0 => (hf hf0).cons fun _ => hdots⟩
      rw [List.count_cons_of_ne hne]
      simp only [List.length_cons] at hlen ⊢
      omega

/-- One `..`, with at least two components passed over. -/
theorem walk_one_up {B : List Bytes} (hpre : ∀ c ∈ pre, ¬ dotdot <:+ c) (hlen : 2 ≤ pre.length)
    (hB : B ≠ []) :
    walk first [] (pre ++ dotdot :: B) = walk first pre.dropLast.dropLast.reverse B := by
  obtain ⟨pre, own, rfl⟩ := (List.eq_nil_or_concat' pre).resolve_left (by rintro rfl; simp at hlen)
  obtain ⟨pre, dir, rfl⟩ := (List.eq_nil_or_concat' pre).resolve_left (by rintro rfl; simp at hlen)
  obtain ⟨d, B, rfl⟩ := List.exists_cons_of_ne_nil hB
  rw [walk_append hpre (by simp)]
  simpa using walk_two

/-- The components that the loop leaves alone: none but the last ends in two dots, or the
first one does and is given up. -/
def LeftAlone (stack rest : List Bytes) : Prop :=
  (∀ c ∈ rest.dropLast, ¬ dotdot <:+ c) ∨
    (stack = [] ∧ ∃ b, rest.head? = some b ∧ dotdot <:+ b)

/-- Without `..`, the loop keeps all components only where it leaves them alone. -/
theorem leftAlone_of_walk (hfirst : first ≠ []) (hcomps : dotdot ∉ comps) (hno : dotdot ∉ rest)
    (hne : rest ≠ []) (h : walk first stack rest = some comps)
    (hlen : comps.length = 1 + stack.length + rest.length) : LeftAlone stack rest := by
  induction rest generalizing stack with
  | nil => exact absurd rfl hne
  | cons c tl ih =>
    rcases tl with _ | ⟨d, rest⟩
    · exact Or.inl (by simp)
    have hno' : dotdot ∉ d :: rest := fun hmem => hno (List.mem_cons_of_mem c hmem)
    by_cases hdots : dotdot <:+ c
    · rcases stack with _ | ⟨own, stack⟩
      · exact Or.inr ⟨rfl, c, rfl, hdots⟩
      -- one component was taken away, which is missing in the end
      obtain ⟨name, rfl⟩ := hdots
      have hname : name ≠ [] := fun h => hno (by simp [h])
      rw [walk_one hname] at h
      obtain ⟨f, hlen', -⟩ := walk_count hfirst hcomps (by simp) h
      simp only [List.length_cons] at hlen hlen'
      omega
    · rw [walk_pass hdots] at h
      rcases ih hno' (by simp) h (by simp only [List.length_cons] at hlen ⊢; omega) with
        hleft | ⟨hnil, -⟩
      · refine Or.inl fun e he => ?_
        rcases List.mem_cons.mp he with rfl | he
        · exact hdots
        · exact hleft e he
      · cases hnil

/-- What the loop leaves alone is kept. -/
theorem walk_of_leftAlone (hfirst : first ≠ []) (hno : dotdot ∉ rest) (hne : rest ≠ [])
    (h : LeftAlone stack rest) : walk first stack rest = some (first :: stack.reverse ++ rest) := by
  rcases h with hdots | ⟨rfl, b, hb, hdots⟩
  · obtain ⟨init, last, rfl⟩ := (List.eq_nil_or_concat' rest).resolve_left hne
    rw [walk_append (by simpa using hdots) (by simp), walk_last]
    simp
  · rcases rest with _ | ⟨c, _ | ⟨d, rest⟩⟩
    · exact absurd rfl hne
    · rw [walk_last]
    · obtain rfl : c = b := by simpa using hb
      obtain ⟨name, rfl⟩ := hdots
      have hname : name ≠ [] := fun h => hno (by simp [h])
      rw [walk_one_nil hname, if_neg hfirst]
      rfl

end Count

/-! ### The two compared -/

section Compare

variable {path target own name : Bytes} {dirs expected : List Bytes}

/-- The components of the path of a link with its target behind it. -/
theorem LinkPath.components_append (hlink : LinkPath path (name :: dirs) own) (target : Bytes) :
    components (path ++ slash :: target) = name :: (dirs ++ own :: components target) := by
  rw [InstantMirror.components_append, hlink.split]
  simp

/-- What is passed on is what the loop comes to, with nothing cut off: the loop adds no bytes,
and so no NUL. -/
theorem LinkPath.passesOn_iff_resolveLink (hlink : LinkPath path (name :: dirs) own)
    (htarget : (0 : UInt8) ∉ target) (next : Bytes) :
    PassesOn path target next ↔
      ∃ fuel, resolveLink fuel (path ++ slash :: target) = some next := by
  have hnul : (0 : UInt8) ∉ path ++ slash :: target := by
    simpa [slash] using ⟨hlink.text, htarget⟩
  refine exists_congr fun fuel => ?_
  rcases hres : resolveLink fuel (path ++ slash :: target) with _ | next'
  · simp
  · have : (0 : UInt8) ∉ next' := fun h => hnul (resolveLink_subset hres h)
    simp [cstr_of_notMem this]

/-- **What is passed on, by components**, if the name of the torrent does not end in two dots;
otherwise nothing is. -/
theorem LinkPath.passesOn_iff (hlink : LinkPath path (name :: dirs) own)
    (htarget : (0 : UInt8) ∉ target) (hexp : ∀ c ∈ expected, slash ∉ c) (hne : expected ≠ []) :
    PassesOn path target (joined expected) ↔ ¬ dotdot <:+ name ∧
      walk name [] (dirs ++ own :: components target) = some expected := by
  have hcomps := hlink.components_append target
  obtain ⟨second, third, more, hrest⟩ : ∃ second third more,
      dirs ++ own :: components target = second :: third :: more := by
    obtain ⟨third, more, hmore⟩ := List.exists_cons_of_ne_nil (components_ne_nil target)
    rcases dirs with _ | ⟨dir, dirs⟩
    · exact ⟨own, third, more, by simp [hmore]⟩
    · rcases dirs with _ | ⟨dir', dirs⟩
      · exact ⟨dir, own, components target, rfl⟩
      · exact ⟨dir, dir', dirs ++ own :: components target, rfl⟩
  rw [hrest] at hcomps ⊢
  have hwalked := walked_components hcomps
  rw [hlink.passesOn_iff_resolveLink htarget]
  by_cases hdots : dotdot <:+ name
  · rw [if_pos hdots] at hwalked
    have hnone : ∀ fuel, resolveLink fuel (path ++ slash :: target) = none := hwalked
    simp [hnone, hdots]
  rw [if_neg hdots] at hwalked
  rcases hwalk : walk name [] (second :: third :: more) with _ | comps
  · rw [hwalk] at hwalked
    have hnone : ∀ fuel, resolveLink fuel (path ++ slash :: target) = none := hwalked
    simp [hnone]
  rw [hwalk] at hwalked
  obtain ⟨fuel, hfuel⟩ := hwalked
  obtain ⟨hcomps₀, hsub⟩ := walk_subset hwalk
  have hslash : ∀ c ∈ comps, slash ∉ c := fun c hc =>
    slash_notMem_of_mem_components (hcomps ▸ hsub hc)
  constructor
  · rintro ⟨fuel', hfuel'⟩
    refine ⟨hdots, ?_⟩
    rw [← components_joined hslash hcomps₀, resolveLink_unique hfuel hfuel',
      components_joined hexp hne]
  · rintro ⟨-, hsame⟩
    rw [← Option.some.inj hsame]
    exact ⟨fuel, hfuel⟩

/-- Dropping the last component instead of the one put in front changes nothing if all are
that one. -/
theorem dropLast_cons_eq_iff {o : Bytes} {A : List Bytes} :
    (o :: A).dropLast = A ↔ ∀ c ∈ A, c = o := by
  induction A generalizing o with
  | nil => simp
  | cons a A ih =>
    rw [List.dropLast_cons_of_ne_nil (by simp), List.cons.injEq, List.forall_mem_cons, eq_comm]
    refine and_congr_right fun h => ?_
    rw [← h]
    exact ih

/-- **The loop and the file system drop the same components** in front of the one `..` if all
but the last of those in the target are the own name of the link. -/
theorem dropped_eq_iff {A : List Bytes} (hlen : 2 ≤ (name :: dirs).length + A.length) :
    name :: (dirs ++ own :: A).dropLast.dropLast = (name :: dirs ++ A).dropLast ↔
      ∀ c ∈ A.dropLast, c = own := by
  rcases List.eq_nil_or_concat' A with rfl | ⟨A, a, rfl⟩
  · obtain ⟨dirs, dir, rfl⟩ := (List.eq_nil_or_concat' dirs).resolve_left
      (by rintro rfl; simp at hlen)
    have hr : (name :: (dirs ++ [dir])).dropLast = name :: dirs := by
      rw [← List.cons_append, List.dropLast_concat]
    simp [hr]
  · have hl : (dirs ++ own :: (A ++ [a])).dropLast.dropLast = dirs ++ (own :: A).dropLast := by
      rw [← List.cons_append, ← List.append_assoc, List.dropLast_concat,
        List.dropLast_append_of_ne_nil (by simp)]
    have hr : (name :: dirs ++ (A ++ [a])).dropLast = name :: dirs ++ A := by
      rw [← List.append_assoc, List.dropLast_concat]
    rw [hl, hr, List.dropLast_concat, ← dropLast_cons_eq_iff]
    simp

/-- What is left of the path in front of the `..`, in numbers. -/
theorem leftAlone_iff {A B : List Bytes} (hlen : 2 ≤ (name :: dirs).length + A.length) :
    LeftAlone (dirs ++ own :: A).dropLast.dropLast.reverse B ↔
      (∀ c ∈ B.dropLast, ¬ dotdot <:+ c) ∨
        ((name :: dirs).length + A.length = 2 ∧ ∃ b, B.head? = some b ∧ dotdot <:+ b) := by
  have hnil : (dirs ++ own :: A).dropLast.dropLast.reverse = [] ↔
      (name :: dirs).length + A.length = 2 := by
    rw [← List.length_eq_zero_iff]
    simp only [List.length_reverse, List.length_dropLast, List.length_append, List.length_cons]
      at hlen ⊢
    omega
  rw [LeftAlone, hnil]

/-- **The loop comes to what the file system comes to**, for a target with one `..`. -/
theorem walk_one_up_iff {A B : List Bytes} (hname : name ≠ [])
    (hpre : ∀ c ∈ dirs ++ own :: A, ¬ dotdot <:+ c) (hdirs : dotdot ∉ name :: dirs)
    (hA : dotdot ∉ A) (hB : dotdot ∉ B) (hne : B ≠ [])
    (hlen : 2 ≤ (name :: dirs).length + A.length) :
    walk name [] (dirs ++ own :: (A ++ dotdot :: B)) = some ((name :: dirs ++ A).dropLast ++ B) ↔
      (∀ c ∈ A.dropLast, c = own) ∧ LeftAlone (dirs ++ own :: A).dropLast.dropLast.reverse B := by
  have hassoc : dirs ++ own :: (A ++ dotdot :: B) = (dirs ++ own :: A) ++ dotdot :: B := by simp
  rw [hassoc, walk_one_up hpre (by simp at hlen ⊢; omega) hne, ← dropped_eq_iff hlen]
  constructor
  · intro hwalk
    have hexpected : dotdot ∉ (name :: dirs ++ A).dropLast ++ B := by
      intro hmem
      rcases List.mem_append.mp hmem with hmem | hmem
      · exact (List.mem_append.mp (List.dropLast_subset _ hmem)).elim hdirs hA
      · exact hB hmem
    have halone := leftAlone_of_walk hname hexpected hB hne hwalk (by
      simp only [List.length_append, List.length_dropLast, List.length_reverse, List.length_cons]
        at hlen ⊢
      omega)
    rw [walk_of_leftAlone hname hB hne halone, List.reverse_reverse] at hwalk
    exact ⟨List.append_cancel_right (Option.some.inj hwalk), halone⟩
  · rintro ⟨hsame, halone⟩
    rw [walk_of_leftAlone hname hB hne halone, List.reverse_reverse, hsame]

/-- What is expected has components without slashes. -/
theorem slash_notMem_of_lexical (hlink : LinkPath path dirs own)
    (hinside : lexical dirs (components target) = some expected) :
    expected ≠ [] ∧ ∀ c ∈ expected, slash ∉ c := by
  obtain ⟨hne, hsub⟩ := lexicalFrom_subset (by simpa using hlink.nested) hinside
  refine ⟨hne, fun c hc => ?_⟩
  rcases List.mem_append.mp (hsub hc) with hc | hc
  · refine @slash_notMem_of_mem_components path c ?_
    rw [hlink.split]
    exact List.mem_append_left _ (by simpa using hc)
  · exact slash_notMem_of_mem_components hc

/-- The condition suffices. -/
theorem passesOn_of_targetOk (hlink : LinkPath path dirs own) (htarget : (0 : UInt8) ∉ target)
    (hinside : lexical dirs (components target) = some expected)
    (hok : TargetOk dirs own (components target)) : PassesOn path target (joined expected) := by
  obtain ⟨hne, hslash⟩ := slash_notMem_of_lexical hlink hinside
  obtain ⟨name, dirs, rfl⟩ := List.exists_cons_of_ne_nil hlink.nested
  obtain ⟨A, B, hT, hB, hnamed, hA, hown, hleft⟩ := hok.one_up
  rw [hT] at hinside
  obtain ⟨hlen, hexp⟩ := lexical_one_up hlink.nested
    (fun c hc => hlink.plain c (List.mem_append_left _ hc))
    (fun c hc => hnamed c (by simp [hc])) (fun c hc => hnamed c (by simp [hc])) hinside
  rw [hlink.passesOn_iff htarget hslash hne, hT]
  refine ⟨hok.path_dots name (by simp), ?_⟩
  have hpre : ∀ c ∈ dirs ++ own :: A, ¬ dotdot <:+ c := by
    intro c hc
    rcases List.mem_append.mp hc with hc | hc
    · exact hok.path_dots c (by simp [hc])
    · rcases List.mem_cons.mp hc with rfl | hc
      · exact hok.path_dots c (by simp)
      · exact hA c hc
  have hpath₀ : dotdot ∉ name :: dirs := fun h =>
    (hlink.plain dotdot (List.mem_append_left _ h)).2.2 rfl
  have hA₀ : dotdot ∉ A := fun h => (hnamed dotdot (by simp [h])).2.2 rfl
  have hB₀ : dotdot ∉ B := fun h => (hnamed dotdot (by simp [h])).2.2 rfl
  rw [hexp]
  exact (walk_one_up_iff (hlink.plain name (by simp)).1 hpre hpath₀ hA₀ hB₀ hB hlen).mpr
    ⟨hown, (leftAlone_iff hlen).mpr hleft⟩

/-- **A target that the loop resolves as the file system does has one `..`**: with any other
number of them, the two do not leave the same number of components. -/
theorem exists_one_up {T : List Bytes} (hlink : LinkPath path (name :: dirs) own)
    (hdotless : ∀ c ∈ T, c ≠ [] ∧ c ≠ dot) (hinside : lexical (name :: dirs) T = some expected)
    (hwalk : walk name [] (dirs ++ own :: T) = some expected) :
    ∃ A B, T = A ++ dotdot :: B ∧ B ≠ [] ∧ (∀ c ∈ A ++ B, Named c) ∧
      ∀ c ∈ dirs ++ own :: A, ¬ dotdot <:+ c := by
  have hpath₀ : dotdot ∉ dirs ++ [own] := fun h => (hlink.plain dotdot (by simp_all)).2.2 rfl
  obtain ⟨hlex, hexp⟩ := lexicalFrom_count (by simp)
    (fun c hc => hlink.plain c (List.mem_append_left _ (List.mem_reverse.mp hc))) hdotless hinside
  have hexp₀ : dotdot ∉ expected := fun h => (hexp dotdot h).2.2 rfl
  obtain ⟨f, hcount, hclean⟩ := walk_count (hlink.plain name (by simp)).1 hexp₀ (by simp) hwalk
  have hsame : (dirs ++ own :: T).count dotdot = T.count dotdot := by
    rw [List.append_cons, List.count_append, List.count_eq_zero.mpr hpath₀, Nat.zero_add]
  simp only [hsame, List.length_append, List.length_cons, List.length_nil, List.length_reverse]
    at hcount hlex
  have hone : T.count dotdot = 1 := by omega
  obtain ⟨A, B, rfl⟩ := List.append_of_mem (List.count_pos_iff.mp (hone ▸ Nat.one_pos))
  rw [List.count_append, List.count_cons_self] at hone
  have hA₀ : dotdot ∉ A := List.count_eq_zero.mp (by omega)
  have hB₀ : dotdot ∉ B := List.count_eq_zero.mp (by omega)
  have hassoc : dirs ++ own :: (A ++ dotdot :: B) = (dirs ++ own :: A) ++ dotdot :: B := by simp
  have hpre : ∀ c ∈ dirs ++ own :: A, ¬ dotdot <:+ c := by
    refine fun c hc => hclean (by omega) (dirs ++ own :: A) B hassoc c hc ?_
    rintro rfl
    rw [List.append_cons] at hc
    exact (List.mem_append.mp hc).elim hpath₀ hA₀
  refine ⟨A, B, rfl, ?_, fun c hc => ?_, hpre⟩
  · rintro rfl
    rw [hassoc, walk_append hpre (by simp), walk_last] at hwalk
    exact hexp₀ (Option.some.inj hwalk ▸ by simp)
  · have hc' : c ∈ A ++ dotdot :: B := by
      simp only [List.mem_append, List.mem_cons] at hc ⊢
      tauto
    refine ⟨(hdotless c hc').1, (hdotless c hc').2, ?_⟩
    rintro rfl
    exact (List.mem_append.mp hc).elim hA₀ hB₀

/-- The condition is necessary if no component of the target is empty or `.`. -/
theorem targetOk_of_passesOn (hlink : LinkPath path dirs own) (htarget : (0 : UInt8) ∉ target)
    (hinside : lexical dirs (components target) = some expected)
    (hdotless : ∀ c ∈ components target, c ≠ [] ∧ c ≠ dot)
    (hpass : PassesOn path target (joined expected)) : TargetOk dirs own (components target) := by
  obtain ⟨hne, hslash⟩ := slash_notMem_of_lexical hlink hinside
  obtain ⟨name, dirs, rfl⟩ := List.exists_cons_of_ne_nil hlink.nested
  obtain ⟨hname, hwalk⟩ := (hlink.passesOn_iff htarget hslash hne).mp hpass
  obtain ⟨A, B, hT, hB, hnamed, hpre⟩ := exists_one_up hlink hdotless hinside hwalk
  rw [hT] at hwalk hinside ⊢
  obtain ⟨hlen, hexpected⟩ := lexical_one_up hlink.nested
    (fun c hc => hlink.plain c (List.mem_append_left _ hc))
    (fun c hc => hnamed c (List.mem_append_left _ hc))
    (fun c hc => hnamed c (List.mem_append_right _ hc)) hinside
  have hpath₀ : dotdot ∉ name :: dirs := fun h =>
    (hlink.plain dotdot (List.mem_append_left _ h)).2.2 rfl
  have hA₀ : dotdot ∉ A := fun h => (hnamed dotdot (by simp [h])).2.2 rfl
  have hB₀ : dotdot ∉ B := fun h => (hnamed dotdot (by simp [h])).2.2 rfl
  rw [hexpected] at hwalk
  obtain ⟨hown, halone⟩ :=
    (walk_one_up_iff (hlink.plain name (by simp)).1 hpre hpath₀ hA₀ hB₀ hB hlen).mp hwalk
  refine ⟨fun c hc => ?_, A, B, rfl, hB, hnamed, fun c hc => hpre c (by simp [hc]), hown,
    (leftAlone_iff hlen).mp halone⟩
  rw [List.cons_append] at hc
  rcases List.mem_cons.mp hc with rfl | hc
  · exact hname
  · refine hpre c ?_
    simp only [List.mem_append, List.mem_cons, List.not_mem_nil, or_false] at hc ⊢
    tauto

/-- **Where a link leads is where it should lead**, for every target that meets the condition,
and, unless some component of the target is empty or `.`, only for those. -/
theorem link_resolution (hlink : LinkPath path dirs own) (htarget : (0 : UInt8) ∉ target)
    (hinside : lexical dirs (components target) = some expected) :
    (TargetOk dirs own (components target) → PassesOn path target (joined expected)) ∧
      ((∀ c ∈ components target, c ≠ [] ∧ c ≠ dot) → PassesOn path target (joined expected) →
        TargetOk dirs own (components target)) :=
  ⟨passesOn_of_targetOk hlink htarget hinside, targetOk_of_passesOn hlink htarget hinside⟩

end Compare

/-- One directory up from a link two directories deep. -/
theorem link_resolution_up : PassesOn (ascii "n/a/link") (ascii "../b") (ascii "n/b") := by
  have hlink : LinkPath (ascii "n/a/link") [ascii "n", ascii "a"] (ascii "link") :=
    ⟨by decide, by decide, by decide, by decide⟩
  exact (@link_resolution (ascii "n/a/link") (ascii "../b") (ascii "link") [ascii "n", ascii "a"]
    [ascii "n", ascii "b"] hlink (by decide) (by decide)).1
    ⟨by decide, [], [ascii "b"], by decide, by decide, by decide, by decide, by decide,
      Or.inl (by decide)⟩

/-- **A link to its neighbour is not resolved**: the path passed on still has the own name of
the link in it. -/
theorem link_unresolved :
    lexical [ascii "n"] (components (ascii "b")) = some [ascii "n", ascii "b"] ∧
      PassesOn (ascii "n/link") (ascii "b") (ascii "n/link/b") ∧
      ¬ PassesOn (ascii "n/link") (ascii "b") (joined [ascii "n", ascii "b"]) := by
  have hlink : LinkPath (ascii "n/link") [ascii "n"] (ascii "link") :=
    ⟨by decide, by decide, by decide, by decide⟩
  refine ⟨by decide, ⟨1, by decide⟩, ?_⟩
  rw [hlink.passesOn_iff (by decide) (by decide) (by decide)]
  decide

end InstantMirror
