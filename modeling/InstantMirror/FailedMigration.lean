import InstantMirror.TorrentStatus

/-!
# Migrations that fail

`snapshotMigration` starts by loading the new `.torrent` file, and loading fails in two ways.
What is no bencoding, or no torrent, makes the constructor of `torrent_info` throw, and
nothing has been changed by then. A file that `load_file` does not load – one that cannot be
opened or read, or that is too large – makes the constructor *return*, with an object that has
no files; and the migration goes on, to a torrent without files.

So a migration that fails (`InstantMirror.LoadFails`) changes nothing if the constructor throws;
if it does not, only a status that had nothing to lose stays as it is, since all the flags are
lost. And a status that has been left as it was is still not one from which every downloaded
file is carried over later: no migration ever sets the first flag. A migration that fails is
therefore without consequences (`InstantMirror.FailsCleanly`) exactly if it changes nothing and
nothing has been downloaded (`InstantMirror.failsCleanly_iff`).
-/

namespace InstantMirror

/-- **No torrent can be loaded** from the file of this name: there is no such file, it cannot be
read, it is too large, or it holds something else. -/
def LoadFails (dir : TorrentDir) (name : Bytes) : Prop :=
  ∀ f n ti, dir.entry name = some (.file f) → f.loadFile = some n → f.decode n ≠ .torrent ti

/-- The status after a migration; `none` if the run has no further meaning. -/
def Migrated.status (st : TorrentStatus) : Migrated → Option TorrentStatus
  | .threw => some st
  | .undefined => none
  | .done st' => some st'

/-- **The migration fails cleanly**: the status is what it was, and a later migration, to a
torrent that can be loaded, still carries over every file that has been downloaded. -/
structure FailsCleanly (outside : Outside) (dir : TorrentDir) (name : Bytes)
    (st : TorrentStatus) : Prop where
  /-- Nothing is changed. -/
  same : (st.snapshotMigration outside dir name).status st = some st
  /-- Every downloaded file that the later torrent has comes out with its flag set. -/
  later : ∀ st', (st.snapshotMigration outside dir name).status st = some st' →
    ∀ outside' dir' name' new, torrentInfo dir' name' = some new →
      ∀ j, CarriedOver st new j →
        ∃ st'', st'.snapshotMigration outside' dir' name' = .done st'' ∧
          st''.fileStatus[j]? = some true

/-- No file of the torrent has its flag set. -/
def NoneDownloaded (st : TorrentStatus) : Prop :=
  ∀ i < st.torrentDetails.numFiles, st.fileStatus[i]? ≠ some true

/-- The status has no flags, the time of the file, and the flags that are read in spite of that
have a meaning. -/
structure NothingToLose (outside : Outside) (dir : TorrentDir) (name : Bytes)
    (st : TorrentStatus) : Prop where
  /-- There is no flag. -/
  flags : st.fileStatus = []
  /-- There is no file. -/
  total : st.totalFiles = 0
  /-- The time is that of the file, if `lstat` finds one. -/
  time : ∀ e, dir.entry name = some e → e.linkMtime = st.timestamp
  /-- The flags behind the array can be read. -/
  reads : ∀ k < st.torrentDetails.numFiles, (outside (1 + k : ℕ)).isSome

variable {outside : Outside} {dir : TorrentDir} {name : Bytes} {st : TorrentStatus}

/-- **The two ways to fail.** -/
theorem LoadFails.torrentInfo_eq (h : LoadFails dir name) :
    torrentInfo dir name = none ∨ torrentInfo dir name = some .blank := by
  rw [torrentInfo]
  split
  · rename_i f hentry
    split
    · exact Or.inr rfl
    · rename_i n hload
      split
      · rename_i ti hdecode
        exact absurd hdecode (h f n ti hentry hload)
      · exact Or.inl rfl
  · exact Or.inr rfl

/-- The loops of a migration to a torrent without files: they read flags, and set none. -/
theorem migrateOuter_blank {old : List Bool} {es : List FileEntry} :
    migrateOuter outside old [] es 1 [] = some [] ∨ migrateOuter outside old [] es 1 [] = none := by
  rcases hout : migrateOuter outside old [] es 1 [] with _ | flags
  · exact Or.inr rfl
  · have hlen := (migrateOuter_spec hout).1
    exact Or.inl (congrArg some (List.eq_nil_of_length_eq_zero hlen))

/-- **A migration to a torrent without files** loses all the flags. -/
theorem status_of_blank (h : torrentInfo dir name = some .blank) :
    (st.snapshotMigration outside dir name).status st =
      (migrateOuter outside st.fileStatus [] st.torrentDetails.files 1 []).map fun _ =>
        { st with
          timestamp := ((dir.entry name).map DirEntry.linkMtime).getD st.timestamp
          fileStatus := []
          totalFiles := 0 } := by
  have hflags : List.replicate TorrentInfo.blank.numFiles false = [] := rfl
  have hfiles : TorrentInfo.blank.files = [] := rfl
  rw [TorrentStatus.snapshotMigration, h]
  simp only [hflags, hfiles]
  rcases @migrateOuter_blank outside st.fileStatus st.torrentDetails.files with hout | hout
  · rw [hout]
    cases dir.entry name <;> rfl
  · rw [hout]
    rfl

/-- The flags behind an array without flags can be read. -/
theorem migrateOuter_nil_isSome_iff :
    (migrateOuter outside [] [] st.torrentDetails.files 1 []).isSome ↔
      ∀ k < st.torrentDetails.numFiles, (outside (1 + k : ℕ)).isSome := by
  rw [migrateOuter_isSome]
  have hread : ∀ k : ℕ, flagAt outside [] ((1 + k : ℕ) : ℤ) = outside (1 + k : ℕ) := by
    intro k
    exact if_neg (by simp)
  constructor
  · intro h k hk
    obtain ⟨b, hb, -⟩ := h k _ (List.getElem?_eq_getElem hk)
    rw [← hread, hb]
    rfl
  · intro h k e he
    obtain ⟨hk, -⟩ := List.getElem?_eq_some_iff.mp he
    obtain ⟨b, hb⟩ := Option.isSome_iff_exists.mp (h k hk)
    exact ⟨b, (hread k).trans hb, fun _ m f hf => absurd hf (by simp)⟩

/-- A failed load that does not throw, from a status that has nothing to lose. -/
theorem status_eq_self_iff (h : torrentInfo dir name = some .blank) :
    (st.snapshotMigration outside dir name).status st = some st ↔
      NothingToLose outside dir name st := by
  rw [status_of_blank h, Option.map_eq_some_iff]
  constructor
  · rintro ⟨flags, hout, hst⟩
    have hflags : st.fileStatus = [] := (congrArg TorrentStatus.fileStatus hst).symm
    have htime := congrArg TorrentStatus.timestamp hst
    rw [hflags] at hout
    refine ⟨hflags, (congrArg TorrentStatus.totalFiles hst).symm, fun e he => ?_,
      migrateOuter_nil_isSome_iff.mp (Option.isSome_of_eq_some hout)⟩
    simpa [he] using htime
  · rintro ⟨hflags, htotal, htime, hreads⟩
    obtain ⟨flags, hout⟩ := Option.isSome_iff_exists.mp (migrateOuter_nil_isSome_iff.mpr hreads)
    refine ⟨flags, by rw [hflags, hout], ?_⟩
    have hsame : ((dir.entry name).map DirEntry.linkMtime).getD st.timestamp = st.timestamp := by
      rcases hentry : dir.entry name with _ | e
      · rfl
      · exact htime e hentry
    rw [hsame, ← hflags, ← htotal]

/-- **When a migration that fails changes nothing**: if the constructor of `torrent_info` throws,
or there was nothing to lose. -/
theorem LoadFails.unchanged_iff (hfails : LoadFails dir name) :
    (st.snapshotMigration outside dir name).status st = some st ↔
      torrentInfo dir name = none ∨ NothingToLose outside dir name st := by
  rcases hfails.torrentInfo_eq with hthrows | hblank
  · rw [TorrentStatus.snapshotMigration, hthrows]
    exact iff_of_true rfl (Or.inl rfl)
  · rw [status_eq_self_iff hblank, hblank]
    simp

/-- **No migration sets the first flag**: the loops write from the second flag on. -/
theorem first_flag_clear {st' : TorrentStatus}
    (hdone : st.snapshotMigration outside dir name = .done st') :
    st'.fileStatus[0]? ≠ some true := by
  rw [TorrentStatus.snapshotMigration] at hdone
  split at hdone
  · cases hdone
  simp only at hdone
  split at hdone
  · cases hdone
  rename_i flags hout
  obtain rfl := Migrated.done.inj hdone
  rw [Ne, (migrateOuter_spec hout).2 0]
  rintro (hset | ⟨-, -, -, -, m, -, -, -, hm⟩)
  · simp [List.getElem?_replicate] at hset
  · omega

/-- A torrent of a single file that has been downloaded is one to which not every downloaded
file is carried over. -/
theorem noneDownloaded_of_carriedOver
    (hall : ∀ outside' dir' name' new, torrentInfo dir' name' = some new →
      ∀ j, CarriedOver st new j → ∃ st'', st.snapshotMigration outside' dir' name' = .done st'' ∧
        st''.fileStatus[j]? = some true) : NoneDownloaded st := by
  intro i hi hset
  obtain ⟨a, ha⟩ : ∃ a, st.torrentDetails.files[i]? = some a := ⟨_, List.getElem?_eq_getElem hi⟩
  have hcarried : CarriedOver st (.ofFiles [a]) 0 := ⟨i, a, a, ha, hset, rfl, rfl, rfl⟩
  obtain ⟨st'', hdone, hflag⟩ := hall (fun _ => none)
    (.ofList [(ascii "test", .listing 6 [a])]) (ascii "test") (.ofFiles [a]) rfl 0 hcarried
  exact first_flag_clear hdone hflag

/-- **When a migration that fails is without consequences**: nothing has been downloaded, and
the constructor of `torrent_info` throws, or there was nothing to lose. -/
theorem failsCleanly_iff (hfails : LoadFails dir name) :
    FailsCleanly outside dir name st ↔ NoneDownloaded st ∧
      (torrentInfo dir name = none ∨ NothingToLose outside dir name st) := by
  rw [← hfails.unchanged_iff]
  constructor
  · rintro ⟨hsame, hlater⟩
    exact ⟨noneDownloaded_of_carriedOver (hlater st hsame), hsame⟩
  · rintro ⟨hnone, hsame⟩
    refine ⟨hsame, ?_⟩
    rintro st' - outside' dir' name' new - j ⟨i, a, -, ha, hset, -⟩
    exact absurd hset (hnone i (List.getElem?_eq_some_iff.mp ha).1)

/-- A file of `TORRENT_LOCATION` that holds no bencoding. -/
def garbage (mtime : ℤ) : DirEntry := .file ⟨300, true, fun _ => .invalidBencoding, mtime, mtime⟩

/-- A file of `TORRENT_LOCATION` that cannot be opened. -/
def unreadable (mtime : ℤ) : DirEntry :=
  .file ⟨300, false, fun _ => .invalidBencoding, mtime, mtime⟩

/-- A file that is no bencoding is rejected before anything has been downloaded. -/
theorem failsCleanly_garbage :
    FailsCleanly (fun _ => none) (.ofList [(ascii "test", garbage 6)]) (ascii "test")
      (.holding [.plain (ascii "test/a") 1, .plain (ascii "test/b") 1] [false, false]) := by
  refine (failsCleanly_iff ?_).mpr ⟨by unfold NoneDownloaded; decide, Or.inl rfl⟩
  rintro f n ti hentry -
  obtain rfl := DirEntry.file.inj (Option.some.inj hentry)
  simp

/-- A torrent of two files, the second of which has been downloaded. -/
def secondDownloaded : TorrentStatus :=
  .holding [.plain (ascii "test/a") 1, .plain (ascii "test/b") 1] [false, true]

/-- The same torrent in `TORRENT_LOCATION`, newer. -/
def sameFiles : TorrentDir :=
  .ofList [(ascii "test", .listing 7 [.plain (ascii "test/a") 1, .plain (ascii "test/b") 1])]

/-- **A file that cannot be opened** makes the status forget what was downloaded, and the next
migration has nothing to carry over, even if the files are the same. -/
theorem downloads_forgotten :
    LoadFails (.ofList [(ascii "test", unreadable 6)]) (ascii "test") ∧
      ¬ FailsCleanly (fun _ => some false) (.ofList [(ascii "test", unreadable 6)]) (ascii "test")
        secondDownloaded ∧
      ((secondDownloaded.snapshotMigration (fun _ => some false)
          (.ofList [(ascii "test", unreadable 6)]) (ascii "test")).status secondDownloaded).map
        (fun st => (st.fileStatus,
          ((st.snapshotMigration (fun _ => some false) sameFiles (ascii "test")).status st).map
            TorrentStatus.fileStatus)) = some ([], some [false, false]) ∧
      ((secondDownloaded.snapshotMigration (fun _ => some false) sameFiles
        (ascii "test")).status secondDownloaded).map TorrentStatus.fileStatus =
        some [false, true] := by
  refine ⟨?_, fun h => ?_, rfl, rfl⟩
  · rintro f n ti hentry hload
    obtain rfl := DirEntry.file.inj (Option.some.inj hentry)
    cases hload
  · have hflags := congrArg (Option.map TorrentStatus.fileStatus) h.same
    exact absurd hflags (by decide)

end InstantMirror
