import Mathlib.Data.List.Nodup
import InstantMirror.Libtorrent.CreateTorrent

/-!
# Scanning a tree with links

`add_files_impl` decides by `is_directory` whether it descends, and that test follows
symbolic links; what it records about a file, on the other hand, comes from `lstat`. Here it
is modelled on a file system in which the two differ: inodes
(`InstantMirror.FileSystem`), of which the directories contain others, without cycles, and
the links lead to others, wherever those are. A run that follows links need not end, so it
has fuel.

What a scan should do is said by the real tree (`InstantMirror.FileSystem.Stands`): a path
that is not filtered stands for something, through directories only. A scan is exact
(`InstantMirror.ScanExact`) if it ends, and has an entry for each such path that is no
directory, one and no others, a link being recorded as a link. It is, exactly if no link that
it comes to leads to a directory (`InstantMirror.scanExact_iff`). Otherwise the link has no
entry, its place being taken by what is found behind it; and if it leads back up the tree,
there is no end to that.

Where the scan ends, it is the scan of the tree that `is_directory` sees
(`InstantMirror.addFilesLinked_of_shows`).
-/

namespace InstantMirror

/-! ### File systems -/

/-- **What stands at an inode.** -/
inductive FsNode (ι : Type) where
  /-- A regular file. -/
  | regular (stat : Stat) (size : ℕ) (size_lt : size < 0x8000000000000000) : FsNode ι
  /-- A symbolic link: its target, and what it leads to in the end, if anything. -/
  | symlink (stat : Stat) (target : FsPath) (leadsTo : Option ι) : FsNode ι
  /-- A directory, in the order it is read. -/
  | directory (children : List (Bytes × ι)) : FsNode ι

/-- **A file system**: directories contain one another without cycles, and name what they
contain. -/
structure FileSystem (ι : Type) where
  /-- What stands at each inode. -/
  node : ι → FsNode ι
  /-- The names in a directory are distinct. -/
  names : ∀ {i children}, node i = .directory children → (children.map Prod.fst).Nodup
  /-- The directories form a tree. -/
  wf : WellFounded fun j i => ∃ children name, node i = .directory children ∧ (name, j) ∈ children

section Scan

variable {ι : Type} (fs : FileSystem ι)

namespace FileSystem

/-- `is_directory(f)`, and what a `directory_iterator` then finds: links are followed. -/
def entries (i : ι) : Option (List (Bytes × ι)) :=
  match fs.node i with
  | .directory children => some children
  | .symlink _ _ (some j) =>
    match fs.node j with
    | .directory children => some children
    | _ => none
  | _ => none

theorem linkSize_lt : (0 : ℕ) < 0x8000000000000000 := by decide

theorem size_of_target (target : FsPath) : some target ≠ none → (0 : ℕ) = 0 := fun _ => rfl

theorem size_of_noTarget (size : ℕ) : (none : Option FsPath) ≠ none → size = 0 :=
  fun h => absurd rfl h

/-- What is recorded of a path that is no directory: links are not followed, and have size
`0`. -/
def leaf (l : FsPath) (i : ι) : Option Leaf :=
  match fs.node i with
  | .regular stat size size_lt => some ⟨l, stat, size, none, size_lt, size_of_noTarget size⟩
  | .symlink stat target _ => some ⟨l, stat, 0, some target, linkSize_lt, size_of_target target⟩
  | .directory _ => none

end FileSystem

/-- The loop over a directory. -/
def collect (f : Bytes → ι → Option (List Leaf)) : List (Bytes × ι) → Option (List Leaf)
  | [] => some []
  | (name, j) :: children =>
    (f name j).bind fun leaves => (collect f children).map (leaves ++ ·)

/-- **`add_files_impl`**; `none` where it has not come to an end. -/
def addFilesLinked : ℕ → FsPath → ι → Option (List Leaf)
  | 0, _, _ => none
  | fuel + 1, l, i =>
    if scanned l then
      match fs.entries i with
      | some children => collect (fun name j => addFilesLinked fuel (l ++ [name]) j) children
      | none => some (fs.leaf l i).toList
    else some []

/-! ### What a scan should do -/

/-- **A path stands for an inode**, through directories only, and nothing on the way is
filtered. -/
inductive FileSystem.Stands : FsPath → ι → FsPath → ι → Prop where
  /-- The tree itself. -/
  | here {l : FsPath} {i : ι} (h : scanned l = true) : FileSystem.Stands l i l i
  /-- What is inside a directory. -/
  | inside {l q : FsPath} {i j k : ι} {children : List (Bytes × ι)} {name : Bytes}
    (h : scanned l = true) (hdir : fs.node i = .directory children)
    (hmem : (name, j) ∈ children) (hq : FileSystem.Stands (l ++ [name]) j q k) :
    FileSystem.Stands l i q k

/-- **The scan is exact**: it ends, and there is one entry for each path that stands for
something else than a directory, and no other. -/
def ScanExact (l : FsPath) (i : ι) : Prop :=
  ∃ leaves, (∃ fuel₀, ∀ fuel ≥ fuel₀, addFilesLinked fs fuel l i = some leaves) ∧
    (leaves.map Leaf.path).Nodup ∧
    ∀ leaf, leaf ∈ leaves ↔ ∃ j, fs.Stands l i leaf.path j ∧ fs.leaf leaf.path j = some leaf

/-- A link that leads to a directory. -/
def FileSystem.LinkToDirectory (i : ι) : Prop :=
  ∃ stat target j children, fs.node i = .symlink stat target (some j) ∧
    fs.node j = .directory children

/-! ### The entries of a scan -/

variable {fs} {fuel : ℕ} {l q : FsPath} {i j k : ι} {children : List (Bytes × ι)}
  {leaves : List Leaf} {leaf : Leaf}

/-- What is collected comes from one of the children. -/
theorem mem_collect {f : Bytes → ι → Option (List Leaf)} (h : collect f children = some leaves) :
    leaf ∈ leaves ↔
      ∃ name j some', (name, j) ∈ children ∧ f name j = some some' ∧ leaf ∈ some' := by
  induction children generalizing leaves with
  | nil =>
    obtain rfl := Option.some.inj h
    simp
  | cons child children ih =>
    obtain ⟨name, j⟩ := child
    obtain ⟨first, hfirst, h⟩ := Option.bind_eq_some_iff.mp h
    obtain ⟨rest, hrest, rfl⟩ := Option.map_eq_some_iff.mp h
    rw [List.mem_append, ih hrest]
    constructor
    · rintro (hmem | ⟨name', j', some', hmem, hf, hleaf⟩)
      · exact ⟨name, j, first, List.mem_cons_self, hfirst, hmem⟩
      · exact ⟨name', j', some', List.mem_cons_of_mem _ hmem, hf, hleaf⟩
    · rintro ⟨name', j', some', hmem, hf, hleaf⟩
      rcases List.mem_cons.mp hmem with heq | hmem
      · obtain ⟨rfl, rfl⟩ := Prod.mk.inj heq
        rw [hfirst] at hf
        obtain rfl := Option.some.inj hf
        exact Or.inl hleaf
      · exact Or.inr ⟨name', j', some', hmem, hf, hleaf⟩

theorem collect_mono {f g : Bytes → ι → Option (List Leaf)}
    (hfg : ∀ name j leaves, f name j = some leaves → g name j = some leaves)
    (h : collect f children = some leaves) : collect g children = some leaves := by
  induction children generalizing leaves with
  | nil => exact h
  | cons child children ih =>
    obtain ⟨first, hfirst, h⟩ := Option.bind_eq_some_iff.mp h
    obtain ⟨rest, hrest, rfl⟩ := Option.map_eq_some_iff.mp h
    rw [collect, hfg _ _ _ hfirst, Option.bind_some, ih hrest, Option.map_some]

/-- **A scan that has ended does not change with more fuel.** -/
theorem addFilesLinked_mono {fuel' : ℕ} (hle : fuel ≤ fuel')
    (h : addFilesLinked fs fuel l i = some leaves) :
    addFilesLinked fs fuel' l i = some leaves := by
  induction fuel generalizing fuel' l i leaves with
  | zero => cases h
  | succ fuel ih =>
    obtain ⟨fuel', rfl⟩ := Nat.exists_eq_add_of_le' (le_trans (Nat.le_add_left 1 _) hle)
    rw [addFilesLinked] at h ⊢
    split at h
    · rename_i hl
      rw [if_pos hl]
      split at h
      · exact collect_mono (fun _ _ _ => ih (Nat.le_of_succ_le_succ hle)) h
      · exact h
    · rename_i hl
      rw [if_neg hl]
      exact h

theorem FileSystem.entries_of_directory (h : fs.node i = .directory children) :
    fs.entries i = some children := by
  rw [FileSystem.entries, h]

theorem FileSystem.path_leaf (h : fs.leaf l i = some leaf) : leaf.path = l := by
  rw [FileSystem.leaf] at h
  split at h
  · rw [← Option.some.inj h]
  · rw [← Option.some.inj h]
  · cases h

/-- The entries of a scan lie below the path that is scanned. -/
theorem below_of_mem (h : addFilesLinked fs fuel l i = some leaves) (hleaf : leaf ∈ leaves) :
    l <+: leaf.path := by
  induction fuel generalizing l i leaves with
  | zero => cases h
  | succ fuel ih =>
    rw [addFilesLinked] at h
    split at h
    · split at h
      · obtain ⟨name, j, some', -, hf, hmem⟩ := (mem_collect h).mp hleaf
        exact (List.prefix_append l [name]).trans (ih hf hmem)
      · obtain rfl := Option.some.inj h
        exact FileSystem.path_leaf (Option.mem_toList.mp hleaf) ▸ List.prefix_refl _
    · obtain rfl := Option.some.inj h
      simp at hleaf

/-- **What is taken for a directory has no entry.** -/
theorem ne_of_mem_of_entries (h : addFilesLinked fs fuel l i = some leaves)
    (hdir : fs.entries i = some children) (hleaf : leaf ∈ leaves) : leaf.path ≠ l := by
  cases fuel with
  | zero => cases h
  | succ fuel =>
    rw [addFilesLinked, hdir] at h
    split at h
    · obtain ⟨name, j, some', -, hf, hmem⟩ := (mem_collect h).mp hleaf
      intro heq
      have hlen := (below_of_mem hf hmem).length_le
      rw [heq, List.length_append, List.length_singleton] at hlen
      omega
    · obtain rfl := Option.some.inj h
      simp at hleaf

theorem FileSystem.Stands.starts (h : fs.Stands l i q j) : l <+: q := by
  induction h with
  | here _ => exact List.prefix_refl _
  | inside _ _ _ _ ih => exact (List.prefix_append _ _).trans ih

/-- Two paths that go on from one directory go on with the same name. -/
theorem name_eq_of_below {name name' : Bytes} {q : FsPath} (h : l ++ [name] <+: q)
    (h' : l ++ [name'] <+: q) : name = name' := by
  have heq := List.prefix_of_prefix_length_le h h' (by simp)
  have hlist := heq.eq_of_length (by simp)
  simpa using hlist

/-- A name stands for one thing. -/
theorem FileSystem.eq_of_mem (hdir : fs.node i = .directory children) {name : Bytes}
    (hj : (name, j) ∈ children) (hk : (name, k) ∈ children) : j = k := by
  have hinj := List.inj_on_of_nodup_map (fs.names hdir) hj hk rfl
  exact (Prod.mk.inj hinj).2

/-- **Nothing that is taken for a directory has an entry**, wherever it stands. -/
theorem ne_of_stands (hstands : fs.Stands l i q j) (hdir : fs.entries j = some children)
    (h : addFilesLinked fs fuel l i = some leaves) (hleaf : leaf ∈ leaves) : leaf.path ≠ q := by
  induction hstands generalizing fuel leaves with
  | here _ => exact ne_of_mem_of_entries h hdir hleaf
  | inside hl hnode hmem hq ih =>
    cases fuel with
    | zero => cases h
    | succ fuel =>
      rw [addFilesLinked, if_pos hl, FileSystem.entries_of_directory hnode] at h
      obtain ⟨name', j', some', hmem', hf, hleaf'⟩ := (mem_collect h).mp hleaf
      rintro rfl
      obtain rfl := name_eq_of_below hq.starts (below_of_mem hf hleaf')
      obtain rfl := FileSystem.eq_of_mem hnode hmem hmem'
      exact ih hdir hf hleaf' rfl

/-! ### Exact scans -/

/-- The loop over a directory ends if the scans of all children do, and their entries do not
mix. -/
theorem exists_collect {f : ℕ → Bytes → ι → Option (List Leaf)}
    (hbelow : ∀ {fuel name j leaves leaf}, f fuel name j = some leaves → leaf ∈ leaves →
      l ++ [name] <+: leaf.path)
    (hnames : (children.map Prod.fst).Nodup)
    (hends : ∀ name j, (name, j) ∈ children → ∃ leaves, (∃ fuel₀, ∀ fuel ≥ fuel₀,
      f fuel name j = some leaves) ∧ (leaves.map Leaf.path).Nodup) :
    ∃ leaves, (∃ fuel₀, ∀ fuel ≥ fuel₀, collect (f fuel) children = some leaves) ∧
      (leaves.map Leaf.path).Nodup := by
  induction children with
  | nil => exact ⟨[], ⟨0, fun _ _ => rfl⟩, List.nodup_nil⟩
  | cons child children ih =>
    obtain ⟨name, j⟩ := child
    rw [List.map_cons, List.nodup_cons] at hnames
    obtain ⟨first, ⟨fuel₁, hfirst⟩, hnodup⟩ := hends name j List.mem_cons_self
    obtain ⟨rest, ⟨fuel₂, hrest⟩, hnodup'⟩ := ih hnames.2 fun name' j' hmem =>
      hends name' j' (List.mem_cons_of_mem _ hmem)
    refine ⟨first ++ rest, ⟨max fuel₁ fuel₂, fun fuel hfuel => ?_⟩, ?_⟩
    · rw [collect, hfirst fuel (le_trans (le_max_left _ _) hfuel), Option.bind_some,
        hrest fuel (le_trans (le_max_right _ _) hfuel), Option.map_some]
    · rw [List.map_append]
      refine hnodup.append hnodup' fun q hq hq' => ?_
      obtain ⟨leaf, hleaf, rfl⟩ := List.mem_map.mp hq
      obtain ⟨leaf', hleaf', heq⟩ := List.mem_map.mp hq'
      -- the two would stand behind the same name
      obtain ⟨name', j', some', hmem, hf, hsome⟩ := (mem_collect (hrest fuel₂ le_rfl)).mp hleaf'
      obtain rfl := name_eq_of_below (hbelow (hfirst fuel₁ le_rfl) hleaf) (heq ▸ hbelow hf hsome)
      exact hnames.1 (List.mem_map.mpr ⟨_, hmem, rfl⟩)

/-- What is filtered has no entries. -/
theorem scanExact_of_filtered (hl : scanned l = false) : ScanExact fs l i := by
  refine ⟨[], ⟨1, fun fuel hfuel => ?_⟩, List.nodup_nil, fun leaf => ?_⟩
  · obtain ⟨fuel, rfl⟩ := Nat.exists_eq_add_of_le' hfuel
    rw [addFilesLinked, if_neg (by simp [hl])]
  · refine iff_of_false List.not_mem_nil ?_
    rintro ⟨j, hstands, -⟩
    rcases hstands with h | ⟨h, -, -, -⟩ <;> rw [hl] at h <;> cases h

/-- What is taken for no directory has one entry. -/
theorem scanExact_of_leaf (hl : scanned l = true) (hnone : fs.entries i = none) :
    ScanExact fs l i := by
  obtain ⟨leaf, hleaf⟩ : ∃ leaf, fs.leaf l i = some leaf := by
    rw [FileSystem.leaf]
    rcases hnode : fs.node i with _ | _ | children
    · exact ⟨_, rfl⟩
    · exact ⟨_, rfl⟩
    · rw [FileSystem.entries_of_directory hnode] at hnone
      cases hnone
  refine ⟨[leaf], ⟨1, fun fuel hfuel => ?_⟩, by simp, fun leaf' => ?_⟩
  · obtain ⟨fuel, rfl⟩ := Nat.exists_eq_add_of_le' hfuel
    rw [addFilesLinked, if_pos hl, hnone, hleaf]
    rfl
  · rw [List.mem_singleton]
    constructor
    · rintro rfl
      rw [FileSystem.path_leaf hleaf]
      exact ⟨i, .here hl, hleaf⟩
    · rintro ⟨j, hstands, hleaf'⟩
      generalize hq : leaf'.path = q at hstands hleaf'
      rcases hstands with _ | ⟨-, hdir, -, -⟩
      · exact Option.some.inj (hleaf'.symm.trans hleaf)
      · rw [FileSystem.entries_of_directory hdir] at hnone
        cases hnone

/-- A directory has the entries of what it contains. -/
theorem scanExact_of_directory (hl : scanned l = true) (hdir : fs.node i = .directory children)
    (hchildren : ∀ name j, (name, j) ∈ children → ScanExact fs (l ++ [name]) j) :
    ScanExact fs l i := by
  obtain ⟨leaves, ⟨fuel₀, hcollect⟩, hnodup⟩ := exists_collect
    (f := fun fuel name j => addFilesLinked fs fuel (l ++ [name]) j) (l := l)
    (fun h hleaf => below_of_mem h hleaf) (fs.names hdir) (fun name j hmem => by
      obtain ⟨leaves, hends, hnodup, -⟩ := hchildren name j hmem
      exact ⟨leaves, hends, hnodup⟩)
  refine ⟨leaves, ⟨fuel₀ + 1, fun fuel hfuel => ?_⟩, hnodup, fun leaf => ?_⟩
  · obtain ⟨fuel, rfl⟩ := Nat.exists_eq_add_of_le' (le_trans (Nat.le_add_left 1 _) hfuel)
    rw [addFilesLinked, if_pos hl, FileSystem.entries_of_directory hdir]
    exact hcollect fuel (Nat.le_of_succ_le_succ hfuel)
  · constructor
    · intro hleaf
      obtain ⟨name, j, found, hmem, hf, hfound⟩ := (mem_collect (hcollect fuel₀ le_rfl)).mp hleaf
      obtain ⟨leaves', ⟨fuel₁, hends⟩, -, hexact⟩ := hchildren name j hmem
      have heq := (addFilesLinked_mono (le_max_left _ fuel₁) hf).symm.trans
        (hends _ (le_max_right fuel₀ _))
      obtain rfl := Option.some.inj heq
      obtain ⟨k, hstands, hk⟩ := (hexact leaf).mp hfound
      exact ⟨k, .inside hl hdir hmem hstands, hk⟩
    · rintro ⟨k, hstands, hk⟩
      generalize hq : leaf.path = q at hstands hk
      rcases hstands with _ | ⟨-, hdir', hmem, hstands⟩
      · rw [FileSystem.leaf, hdir] at hk
        cases hk
      · obtain rfl := FsNode.directory.inj (hdir'.symm.trans hdir)
        obtain ⟨leaves', ⟨fuel₁, hends⟩, -, hexact⟩ := hchildren _ _ hmem
        subst hq
        exact (mem_collect (hcollect _ (le_max_left _ fuel₁))).mpr
          ⟨_, _, leaves', hmem, hends _ (le_max_right fuel₀ _), (hexact leaf).mpr ⟨k, hstands, hk⟩⟩

/-- **A scan that comes to no link to a directory** ends, and is exact. -/
theorem scanExact_of_noLinks (i : ι) : ∀ l : FsPath,
    (∀ q j, fs.Stands l i q j → ¬ fs.LinkToDirectory j) → ScanExact fs l i := by
  induction i using fs.wf.induction with
  | _ i ih =>
    intro l hlinks
    cases hl : scanned l with
    | false => exact scanExact_of_filtered hl
    | true =>
      rcases hnode : fs.node i with ⟨stat, size, size_lt⟩ | ⟨stat, target, leadsTo⟩ | children
      · exact scanExact_of_leaf hl (by rw [FileSystem.entries, hnode])
      · refine scanExact_of_leaf hl ?_
        have hno := hlinks l i (.here hl)
        rw [FileSystem.entries, hnode]
        rcases leadsTo with _ | k
        · rfl
        · rcases hk : fs.node k with _ | _ | children
          · simp [hk]
          · simp [hk]
          · exact absurd ⟨stat, target, k, children, hnode, hk⟩ hno
      · refine scanExact_of_directory hl hnode fun name j hmem => ?_
        exact ih j ⟨children, name, hnode, hmem⟩ (l ++ [name]) fun q k hstands =>
          hlinks q k (.inside hl hnode hmem hstands)

/-- **A link to a directory has no entry**, though it stands somewhere. -/
theorem not_scanExact_of_link (hstands : fs.Stands l i q j) (hlink : fs.LinkToDirectory j) :
    ¬ ScanExact fs l i := by
  obtain ⟨stat, target, k, children, hlink, hdir⟩ := hlink
  rintro ⟨leaves, ⟨fuel, hscan⟩, -, hleaves⟩
  have hentries : fs.entries j = some children := by rw [FileSystem.entries, hlink]; simp [hdir]
  have hleaf :
      fs.leaf q j = some ⟨q, stat, 0, some target, FileSystem.linkSize_lt, fun _ => rfl⟩ := by
    rw [FileSystem.leaf, hlink]
  have hmem := (hleaves ⟨q, _, _, _, _, _⟩).mpr ⟨j, hstands, hleaf⟩
  exact ne_of_stands hstands hentries (hscan fuel le_rfl) hmem rfl

/-- **When a scan is exact**: it comes to no link that leads to a directory. -/
theorem scanExact_iff (fs : FileSystem ι) (l : FsPath) (i : ι) :
    ScanExact fs l i ↔ ∀ q j, fs.Stands l i q j → ¬ fs.LinkToDirectory j :=
  ⟨fun h _ _ hstands hlink => not_scanExact_of_link hstands hlink h, scanExact_of_noLinks i l⟩

/-! ### What `is_directory` sees -/

mutual

/-- **The tree that `is_directory` sees** from an inode. -/
def Shows (fs : FileSystem ι) (i : ι) : Tree → Prop
  | .regular stat size size_lt => fs.node i = .regular stat size size_lt
  | .symlink stat target =>
    fs.entries i = none ∧ ∃ leadsTo, fs.node i = .symlink stat target leadsTo
  | .directory trees => ∃ children, fs.entries i = some children ∧ ShowsAll fs children trees

/-- What it sees in a directory. -/
def ShowsAll (fs : FileSystem ι) : List (Bytes × ι) → List (Bytes × Tree) → Prop
  | [], [] => True
  | (name, j) :: children, (name', tree) :: trees =>
    name = name' ∧ Shows fs j tree ∧ ShowsAll fs children trees
  | _, _ => False

end

mutual

/-- **A scan of a tree that `is_directory` sees** adds what the scan of that tree adds. -/
theorem addFilesLinked_of_shows : ∀ (l : FsPath) (i : ι) (tree : Tree), Shows fs i tree →
    ∃ fuel, addFilesLinked fs fuel l i = some (addFilesImpl l tree)
  | l, i, .regular stat size size_lt, h => by
    have hnode : fs.node i = .regular stat size size_lt := h
    refine ⟨1, ?_⟩
    rw [addFilesLinked, addFilesImpl, FileSystem.entries, FileSystem.leaf, hnode]
    split <;> rfl
  | l, i, .symlink stat target, h => by
    obtain ⟨hnone, leadsTo, hnode⟩ := h
    refine ⟨1, ?_⟩
    rw [addFilesLinked, addFilesImpl, hnone, FileSystem.leaf, hnode]
    split <;> rfl
  | l, i, .directory trees, h => by
    obtain ⟨children, hdir, hall⟩ := h
    obtain ⟨fuel, hfuel⟩ := collect_of_showsAll l children trees hall
    refine ⟨fuel + 1, ?_⟩
    rw [addFilesLinked, addFilesImpl, hdir]
    split
    · exact hfuel
    · rfl

/-- The same of the loop over a directory. -/
theorem collect_of_showsAll : ∀ (l : FsPath) (children : List (Bytes × ι))
    (trees : List (Bytes × Tree)), ShowsAll fs children trees → ∃ fuel, collect
      (fun name j => addFilesLinked fs fuel (l ++ [name]) j) children = some (addChildren l trees)
  | l, [], [], _ => ⟨0, rfl⟩
  | l, (name, j) :: children, (name', tree) :: trees, h => by
    obtain ⟨rfl, hj, hall⟩ := h
    obtain ⟨fuel₁, hfirst⟩ := addFilesLinked_of_shows (l ++ [name]) j tree hj
    obtain ⟨fuel₂, hrest⟩ := collect_of_showsAll l children trees hall
    refine ⟨max fuel₁ fuel₂, ?_⟩
    rw [collect, addChildren, addFilesLinked_mono (le_max_left _ _) hfirst, Option.bind_some,
      collect_mono (fun _ _ _ => addFilesLinked_mono (le_max_right _ _)) hrest, Option.map_some]
  | l, [], _ :: _, h => h.elim
  | l, _ :: _, [], h => h.elim

end

end Scan

/-! ### Links that lead to a directory -/

/-- What `lstat` says about files that were never changed. -/
def untouched (executable : Bool) : Stat :=
  ⟨0, executable, Int.natCast_pos.mpr FileSystem.linkSize_lt⟩

/-- A directory with a subdirectory `d`, in which there is a file `f`, and a link `l` to `d`. -/
def besideLink : FileSystem ℕ where
  node
    | 0 => .directory [([100], 1), ([108], 2)]
    | 1 => .directory [([102], 3)]
    | 2 => .symlink (untouched true) [[100]] (some 1)
    | _ => .regular (untouched false) 5 (by decide)
  names := by
    intro i children h
    split at h <;> cases h <;> decide
  wf := by
    refine Subrelation.wf ?_ (measure fun i => 4 - i).wf
    rintro j i ⟨children, name, h, hmem⟩
    show 4 - j < 4 - i
    split at h <;> cases h
    · rcases List.mem_pair.mp hmem with h | h <;> cases h <;> decide
    · cases List.mem_singleton.mp hmem
      decide

/-- A directory with a link `l` to itself. -/
def upwardLink : FileSystem ℕ where
  node
    | 0 => .directory [([108], 1)]
    | _ => .symlink (untouched true) [dot] (some 0)
  names := by
    intro i children h
    split at h <;> cases h
    decide
  wf := by
    refine Subrelation.wf ?_ (measure fun i => 1 - i).wf
    rintro j i ⟨children, name, h, hmem⟩
    show 1 - j < 1 - i
    split at h <;> cases h
    cases List.mem_singleton.mp hmem
    decide

/-- **The file is added twice**, the second time through the link. -/
theorem besideLink_scan :
    (∀ fuel ≥ 3, (addFilesLinked besideLink fuel [[110]] 0).map (·.map Leaf.path) =
      some [[[110], [100], [102]], [[110], [108], [102]]]) ∧
      ¬ ScanExact besideLink [[110]] 0 := by
  constructor
  · intro fuel hfuel
    obtain ⟨leaves, hleaves, hpaths⟩ := Option.map_eq_some_iff.mp (show
      (addFilesLinked besideLink 3 [[110]] 0).map (·.map Leaf.path) =
        some [[[110], [100], [102]], [[110], [108], [102]]] from rfl)
    rw [addFilesLinked_mono hfuel hleaves, Option.map_some, hpaths]
  · have hdir : besideLink.node 0 = .directory [([100], 1), ([108], 2)] := rfl
    refine not_scanExact_of_link (q := [[110], [108]]) (j := 2)
      (.inside (by decide) hdir (List.mem_cons_of_mem _ List.mem_cons_self) (.here (by decide))) ?_
    exact ⟨_, _, 1, _, rfl, rfl⟩

/-- **The scan never ends**: it finds the link in the directory the link leads to. -/
theorem upwardLink_scan : (∀ fuel, addFilesLinked upwardLink fuel [[110]] 0 = none) ∧
    ¬ ScanExact upwardLink [[110]] 0 := by
  constructor
  · -- from the link on, the scan is in the same place again and again
    have hloop : ∀ fuel l i, scanned l = true → addFilesLinked upwardLink fuel l i = none := by
      intro fuel
      induction fuel with
      | zero => exact fun _ _ _ => rfl
      | succ fuel ih =>
        intro l i hl
        have hentries : upwardLink.entries i = some [([108], 1)] := by
          rcases i with _ | i <;> rfl
        have hchild : scanned (l ++ [[108]]) = true := by
          rw [scanned, List.getLast?_concat]
          decide
        rw [addFilesLinked, if_pos hl, hentries]
        simp only [collect]
        rw [ih _ _ hchild, Option.bind_none]
    exact fun fuel => hloop fuel _ _ (by decide)
  · have hdir : upwardLink.node 0 = .directory [([108], 1)] := rfl
    refine not_scanExact_of_link (q := [[110], [108]]) (j := 1)
      (.inside (by decide) hdir List.mem_cons_self (.here (by decide))) ?_
    exact ⟨_, _, 0, _, rfl, rfl⟩

end InstantMirror
