import InstantMirror.Torrent

/-!
# The status of the mirrored torrent

`torrentStatus` of `torrentStatus.cpp`: one object for the whole daemon, holding
one flag per file of one torrent, *downloaded or not*. Two of its methods build
the array of flags: `init` from nothing, and `snapshotMigration` from the flags of
an earlier `.torrent` file, matching old files with new ones by path and
modification time.

The array is a C array, so reads and writes are modelled with what lies around
it. A read outside finds whatever the surroundings hold: that is the parameter
`outside`, which may also decline (`none`), and then the run has no further
meaning. A write outside never has one.

The two loops of `snapshotMigration` count their indices from `1` while they walk
the files from the first; `InstantMirror.migrateOuter_spec` says exactly which
flags come out of that, and `InstantMirror.migratesExactly_iff` when they are the
right ones: never, unless there is no old file at all, since the outer loop always
reads one flag past the end.
-/

namespace InstantMirror

/-! ### Arrays of flags -/

/-- What reading the byte at index `i`, outside the array, finds; `none` where the
read has no meaning. -/
abbrev Outside : Type := ℤ → Option Bool

/-- `fileStatus[i]`, read. -/
def flagAt (outside : Outside) (flags : List Bool) (i : ℤ) : Option Bool :=
  if 0 ≤ i ∧ i < flags.length then flags[i.toNat]? else outside i

/-- `fileStatus[i] = true`; `none` outside the array. -/
def setFlag (flags : List Bool) (i : ℤ) : Option (List Bool) :=
  if 0 ≤ i ∧ i < flags.length then some (flags.set i.toNat true) else none

/-- Inside the array, what is outside does not matter. -/
theorem flagAt_of_lt {flags : List Bool} {k : ℕ} (h : k < flags.length) (outside : Outside) :
    flagAt outside flags k = flags[k]? := by
  rw [flagAt, if_pos (by omega), Int.toNat_natCast]

/-- Reading inside the array. -/
theorem flagAt_natCast (outside : Outside) {flags : List Bool} {k : ℕ} {b : Bool}
    (h : flags[k]? = some b) : flagAt outside flags k = some b := by
  obtain ⟨hk, -⟩ := List.getElem?_eq_some_iff.mp h
  rw [flagAt_of_lt hk, h]

theorem setFlag_eq_some {flags flags' : List Bool} {k : ℕ} (h : setFlag flags k = some flags') :
    k < flags.length ∧ flags' = flags.set k true := by
  rw [setFlag] at h
  split at h
  · rename_i hk
    refine ⟨by omega, ?_⟩
    simpa using (Option.some.inj h).symm
  · cases h

/-- The flags set after setting one more. -/
theorem getElem?_set_true {flags : List Bool} {k : ℕ} (hk : k < flags.length) (n : ℕ) :
    (flags.set k true)[n]? = some true ↔ flags[n]? = some true ∨ n = k := by
  rcases eq_or_ne k n with rfl | hne
  · simp [List.getElem?_set_self hk]
  · rw [List.getElem?_set_ne hne]
    exact ⟨Or.inl, fun h => h.resolve_right hne.symm⟩

/-! ### The object -/

/-- **`torrentStatus`.** The constructor sets `empty` and nothing else; what the
other fields hold then is never read. -/
structure TorrentStatus where
  /-- Whether no torrent has been taken up yet. -/
  empty : Bool
  /-- The name of the torrent. -/
  fileName : Bytes
  /-- The path of its `.torrent` file. -/
  filePath : Bytes
  /-- The modification time of its `.torrent` file. -/
  timestamp : ℤ
  /-- The number of its files. -/
  totalFiles : ℕ
  /-- Which of its files have been downloaded. -/
  fileStatus : List Bool
  /-- What its `.torrent` file says. -/
  torrentDetails : TorrentInfo
deriving DecidableEq

namespace TorrentStatus

/-- `torrentStatus()`. -/
def new : TorrentStatus := ⟨true, [], [], 0, 0, [], .blank⟩

/-- `torrentStatus::isTorrentValid`. -/
def isTorrentValid (st : TorrentStatus) (oldTime : ℤ) : Bool := oldTime = st.timestamp

/-- **`torrentStatus::init`**: no file has been downloaded. -/
def init (st : TorrentStatus) : TorrentStatus :=
  { st with
    totalFiles := st.torrentDetails.numFiles
    fileStatus := List.replicate st.torrentDetails.numFiles false }

end TorrentStatus

/-! ### `snapshotMigration` -/

/-- The inner loop: the index `j` starts at `1`, one ahead of the file it goes
with. -/
def migrateInner (e : FileEntry) : List FileEntry → ℕ → List Bool → Option (List Bool)
  | [], _, flags => some flags
  | f :: fs, j, flags =>
    if e.path = f.path ∧ e.mtime = f.mtime then
      (setFlag flags j).bind (migrateInner e fs (j + 1))
    else migrateInner e fs (j + 1) flags

/-- The outer loop: the index `i` starts at `1` as well, and a file is skipped
when the flag at that index is clear. -/
def migrateOuter (outside : Outside) (old : List Bool) (new : List FileEntry) :
    List FileEntry → ℕ → List Bool → Option (List Bool)
  | [], _, flags => some flags
  | e :: es, i, flags =>
    match flagAt outside old i with
    | none => none
    | some false => migrateOuter outside old new es (i + 1) flags
    | some true => (migrateInner e new 1 flags).bind (migrateOuter outside old new es (i + 1))

/-- What `snapshotMigration` can end with. -/
inductive Migrated where
  /-- The constructor of `torrent_info` throws, before anything is changed. -/
  | threw : Migrated
  /-- The array of flags was left, and the run has no further meaning. -/
  | undefined : Migrated
  /-- The status now goes with the new file. -/
  | done (st : TorrentStatus) : Migrated
deriving DecidableEq

/-- **`torrentStatus::snapshotMigration`** for the file of this name. The new
array and the new count are stored; `torrent_details`, `fileName` and `filePath`
are not touched. -/
def TorrentStatus.snapshotMigration (outside : Outside) (dir : TorrentDir) (name : Bytes)
    (st : TorrentStatus) : Migrated :=
  match torrentInfo dir name with
  | none => .threw
  | some new =>
    let timestamp :=
      match dir.entry name with
      | some e => e.linkMtime
      | none => st.timestamp
    match migrateOuter outside st.fileStatus new.files st.torrentDetails.files 1
        (List.replicate new.numFiles false) with
    | none => .undefined
    | some flags =>
      .done { st with timestamp := timestamp, fileStatus := flags, totalFiles := new.numFiles }

/-! ### What the loops compute -/

/-- What holds of some element of a list, with its index, by the first element and the
rest. -/
theorem exists_getElem?_cons {α : Type*} {x : α} {xs : List α} {P : ℕ → α → Prop} :
    (∃ k y, (x :: xs)[k]? = some y ∧ P k y) ↔ P 0 x ∨ ∃ k y, xs[k]? = some y ∧ P (k + 1) y := by
  constructor
  · rintro ⟨k, y, hy, h⟩
    cases k with
    | zero =>
      obtain rfl : x = y := by simpa using hy
      exact Or.inl h
    | succ k => exact Or.inr ⟨k, y, hy, h⟩
  · rintro (h | ⟨k, y, hy, h⟩)
    · exact ⟨0, x, rfl, h⟩
    · exact ⟨k + 1, y, hy, h⟩

theorem migrateInner_spec {e : FileEntry} {new : List FileEntry} :
    ∀ {j : ℕ} {flags flags' : List Bool}, migrateInner e new j flags = some flags' →
      flags'.length = flags.length ∧ ∀ n, (flags'[n]? = some true ↔
        flags[n]? = some true ∨ ∃ m f, new[m]? = some f ∧ e.key = f.key ∧ n = j + m) := by
  induction new with
  | nil =>
    intro j flags flags' h
    obtain rfl := Option.some.inj h
    simp
  | cons f fs ih =>
    intro j flags flags' h
    rw [migrateInner] at h
    have hshift : ∀ m, j + 1 + m = j + (m + 1) := by omega
    by_cases hkey : e.path = f.path ∧ e.mtime = f.mtime
    · have hkey' : e.key = f.key := by simp [FileEntry.key, hkey]
      rw [if_pos hkey] at h
      obtain ⟨flags₁, hset, hrest⟩ := Option.bind_eq_some_iff.mp h
      obtain ⟨hj, rfl⟩ := setFlag_eq_some hset
      obtain ⟨hlen, hiff⟩ := ih hrest
      refine ⟨by simpa using hlen, fun n => ?_⟩
      rw [hiff n, getElem?_set_true hj, exists_getElem?_cons, or_assoc]
      simp [hkey', hshift]
    · have hkey' : e.key ≠ f.key := by simpa [FileEntry.key] using hkey
      rw [if_neg hkey] at h
      obtain ⟨hlen, hiff⟩ := ih h
      refine ⟨hlen, fun n => ?_⟩
      rw [hiff n, exists_getElem?_cons]
      simp [hkey', hshift]

/-- **What the two loops compute**: with both indices one ahead of their files,
the flag at `n` comes out set when the file *before* `n` in the new list is
matched by an old file whose *successor's* flag was read as set. -/
theorem migrateOuter_spec {outside : Outside} {old : List Bool} {new : List FileEntry}
    {es : List FileEntry} :
    ∀ {i : ℕ} {flags flags' : List Bool}, migrateOuter outside old new es i flags = some flags' →
      flags'.length = flags.length ∧ ∀ n, (flags'[n]? = some true ↔
        flags[n]? = some true ∨ ∃ k e, es[k]? = some e ∧
          flagAt outside old ((i + k : ℕ) : ℤ) = some true ∧
          ∃ m f, new[m]? = some f ∧ e.key = f.key ∧ n = 1 + m) := by
  induction es with
  | nil =>
    intro i flags flags' h
    obtain rfl := Option.some.inj h
    simp
  | cons e es ih =>
    intro i flags flags' h
    rw [migrateOuter] at h
    have hshift : ∀ k, i + 1 + k = i + (k + 1) := by omega
    split at h
    · cases h
    · rename_i hread
      obtain ⟨hlen, hiff⟩ := ih h
      refine ⟨hlen, fun n => ?_⟩
      rw [hiff n, exists_getElem?_cons, Nat.add_zero i, hread]
      simp [hshift]
    · rename_i hread
      obtain ⟨flags₁, hin, hout⟩ := Option.bind_eq_some_iff.mp h
      obtain ⟨hlen₁, hiff₁⟩ := migrateInner_spec hin
      obtain ⟨hlen₂, hiff₂⟩ := ih hout
      refine ⟨hlen₂.trans hlen₁, fun n => ?_⟩
      rw [hiff₂ n, hiff₁ n, exists_getElem?_cons, Nat.add_zero i, hread, or_assoc]
      simp [hshift]

/-! ### When the loops stay inside the arrays -/

/-- What holds of every element of a list, with its index, by the first element and the
rest. -/
theorem forall_getElem?_cons {α : Type*} {x : α} {xs : List α} {P : ℕ → α → Prop} :
    (∀ k y, (x :: xs)[k]? = some y → P k y) ↔
      P 0 x ∧ ∀ k y, xs[k]? = some y → P (k + 1) y := by
  constructor
  · intro h
    exact ⟨h 0 x rfl, fun k y hy => h (k + 1) y hy⟩
  · rintro ⟨h₀, h₁⟩ k y hy
    cases k with
    | zero =>
      obtain rfl : x = y := by simpa using hy
      exact h₀
    | succ k => exact h₁ k y hy

theorem setFlag_isSome {flags : List Bool} {k : ℕ} :
    (setFlag flags k).isSome ↔ k < flags.length := by
  rw [setFlag]
  split <;> simp <;> omega

/-- The inner loop stays inside the new array if every file it takes for `e` has a
successor. -/
theorem migrateInner_isSome {e : FileEntry} {new : List FileEntry} :
    ∀ {j : ℕ} {flags : List Bool}, (migrateInner e new j flags).isSome ↔
      ∀ m f, new[m]? = some f → e.key = f.key → j + m < flags.length := by
  induction new with
  | nil => simp [migrateInner]
  | cons f fs ih =>
    intro j flags
    rw [forall_getElem?_cons, migrateInner]
    have hshift : ∀ m, j + 1 + m = j + (m + 1) := by omega
    by_cases hkey : e.path = f.path ∧ e.mtime = f.mtime
    · have hkey' : e.key = f.key := by simp [FileEntry.key, hkey]
      rw [if_pos hkey]
      rcases hset : setFlag flags j with _ | flags₁
      · have hj : ¬ j < flags.length := by
          rw [← setFlag_isSome, hset]
          simp
        simp [hkey', hj]
      · obtain ⟨hj, rfl⟩ := setFlag_eq_some hset
        simp [ih, hj, hshift]
    · have hkey' : e.key ≠ f.key := by simpa [FileEntry.key] using hkey
      rw [if_neg hkey, ih]
      simp [hkey', hshift]

/-- **The two loops stay inside the arrays** if every flag they read has a meaning, and
every file they take for an old one whose flag was read as set has a successor. -/
theorem migrateOuter_isSome {outside : Outside} {old : List Bool} {new : List FileEntry}
    {es : List FileEntry} :
    ∀ {i : ℕ} {flags : List Bool}, (migrateOuter outside old new es i flags).isSome ↔
      ∀ k e, es[k]? = some e → ∃ b, flagAt outside old ((i + k : ℕ) : ℤ) = some b ∧
        (b = true → ∀ m f, new[m]? = some f → e.key = f.key → 1 + m < flags.length) := by
  induction es with
  | nil => simp [migrateOuter]
  | cons e es ih =>
    intro i flags
    rw [forall_getElem?_cons, migrateOuter, Nat.add_zero]
    have hshift : ∀ k, i + 1 + k = i + (k + 1) := by omega
    rcases hread : flagAt outside old i with _ | _ | _
    · simp
    · simp [ih, hshift]
    · rcases hin : migrateInner e new 1 flags with _ | flags₁
      · have hout : ¬ ∀ m f, new[m]? = some f → e.key = f.key → 1 + m < flags.length := by
          rw [← migrateInner_isSome, hin]
          simp
        simpa using fun h => absurd h hout
      · have hin' := migrateInner_isSome.mp (Option.isSome_of_eq_some hin)
        simp only [Option.bind_some, ih, hshift, (migrateInner_spec hin).1]
        refine ⟨fun h => ⟨⟨true, rfl, fun _ => hin'⟩, h⟩, And.right⟩

/-! ### When the migration is exact -/

/-- The file at `j` of the new list is carried over: an old file of the same path and the
same modification time has its flag set. -/
def CarriedOver (st : TorrentStatus) (new : TorrentInfo) (j : ℕ) : Prop :=
  ∃ (i : ℕ) (a f : FileEntry), st.torrentDetails.files[i]? = some a ∧
    st.fileStatus[i]? = some true ∧ new.files[j]? = some f ∧ a.path = f.path ∧ a.mtime = f.mtime

/-- **The migration is exact**: it stays inside its arrays – outside of them no read has a
meaning here –, and the flags that come out set are those of the files carried over. -/
def MigratesExactly (dir : TorrentDir) (name : Bytes) (st : TorrentStatus) (new : TorrentInfo) :
    Prop :=
  ∃ st', st.snapshotMigration (fun _ => none) dir name = .done st' ∧
    ∀ j < new.numFiles, (st'.fileStatus[j]? = some true ↔ CarriedOver st new j)

/-- The outer loop reads one flag for each old file, from the second flag on, so with one
flag per file its last read is outside. -/
theorem migrateOuter_outside {old : List Bool} {new es : List FileEntry} {flags : List Bool}
    (hlen : old.length = es.length) (hne : es ≠ []) :
    migrateOuter (fun _ => none) old new es 1 flags = none := by
  rw [← Option.not_isSome_iff_eq_none, migrateOuter_isSome]
  intro hall
  have hlast : es[es.length - 1]? = some (es.getLast hne) := by
    rw [← List.getLast?_eq_getElem?, List.getLast?_eq_some_getLast hne]
  obtain ⟨b, hread, -⟩ := hall _ _ hlast
  have hpos := List.length_pos_iff.mpr hne
  rw [flagAt, if_neg (by omega)] at hread
  cases hread

/-- **The migration is exact only from a list without files.** -/
theorem migratesExactly_iff {dir : TorrentDir} {name : Bytes} {st : TorrentStatus}
    {new : TorrentInfo} (hnew : torrentInfo dir name = some new)
    (hflags : st.fileStatus.length = st.torrentDetails.numFiles) :
    MigratesExactly dir name st new ↔ st.torrentDetails.files = [] := by
  constructor
  · rintro ⟨st', hdone, -⟩
    by_contra hne
    simp [TorrentStatus.snapshotMigration, hnew, migrateOuter_outside hflags hne] at hdone
  · intro hnil
    rw [MigratesExactly, TorrentStatus.snapshotMigration, hnew, hnil]
    refine ⟨_, rfl, fun j hj => ?_⟩
    simp [CarriedOver, hnil, List.getElem?_replicate]

/-- A status with these files and these flags, for the torrent “test”. -/
def TorrentStatus.holding (files : List FileEntry) (flags : List Bool) : TorrentStatus :=
  ⟨false, ascii "test", ascii "../torrents/test", 5, files.length, flags, .ofFiles files⟩

/-- Nothing is carried over from a list without files. -/
theorem migratesExactly_of_no_files :
    MigratesExactly (.ofList [(ascii "test", .listing 6 [.plain (ascii "test/a") 1])])
      (ascii "test") (.holding [] []) (.ofFiles [.plain (ascii "test/a") 1]) :=
  (@migratesExactly_iff _ _ _ (.ofFiles [.plain (ascii "test/a") 1]) rfl rfl).mpr rfl

/-- **The migration is not exact** where the list stays as it is and the second of its two
files has been downloaded. -/
theorem migration_inexact :
    ¬ MigratesExactly (.ofList [(ascii "test", .listing 6
        [.plain (ascii "test/a") 1, .plain (ascii "test/b") 1])]) (ascii "test")
      (.holding [.plain (ascii "test/a") 1, .plain (ascii "test/b") 1] [false, true])
      (.ofFiles [.plain (ascii "test/a") 1, .plain (ascii "test/b") 1]) := by
  rintro ⟨st', hdone, -⟩
  cases hdone

end InstantMirror
