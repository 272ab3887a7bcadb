import InstantMirror.GetTorrent

/-!
# The two readers of a `.torrent` file, compared

An index that `check` finds in the list of `tor::gettor` is used on the array of
flags, which is sized for the file list of a `torrent_info` constructed from the
path. Nothing ties the two together but the file, and the two read it with
different limits:

* up to `5000000` bytes both read the whole file, and the rows of `gettor` are the
  files of the `torrent_info` – except for the target of a link, which `gettor`
  carries over to the rows behind it (`InstantMirror.NoStale`);
* from there on `load_file` gives up, the `torrent_info` has no file, and `gettor`
  goes on listing: up to `10 * 1000000` bytes, and again whenever a size of four
  gigabytes or more is small once it has been stored in an `int`.

`InstantMirror.readersAgree_iff` says that this is all there is.
-/

namespace InstantMirror

/-! ### The property -/

/-- A row of `gettor` and a file of a `torrent_info` say the same. -/
def TorFile.SameAs (row : TorFile) (e : FileEntry) : Prop :=
  row.name = e.path ∧ row.mtime = e.mtime ∧ row.symlinkAttribute = e.symlinkAttribute ∧
    row.symlinkPath = e.symlinkPath

/-- The rows of a list and the files of a `torrent_info` say the same, index by index. -/
def RowsSame (list : List TorFile) (files : List FileEntry) : Prop :=
  ∀ (k : ℕ) (row : TorFile) (e : FileEntry), list[k]? = some row → files[k]? = some e →
    row.SameAs e

/-- The status has been built from the file of this name: the torrent was taken up from
it, or migrated to it. -/
def BuiltFrom (dir : TorrentDir) (name : Bytes) (st : TorrentStatus) : Prop :=
  (∃ st₀ ti, torrentInfo dir name = some ti ∧ st = TorrentStatus.takeUp st₀ dir name ti) ∨
    ∃ st₀ outside, TorrentStatus.snapshotMigration outside dir name st₀ = .done st

/-- **The readers agree** on the file of this name: if both return, they list the same
files in the same order, and every index that `check` finds is one the status has room
for. -/
def ReadersAgree (dir : TorrentDir) (name : Bytes) : Prop :=
  ∀ list ti, gettor dir name = some list → torrentInfo dir name = some ti →
    list.length = ti.numFiles ∧ RowsSame list ti.files ∧
      ∀ (path : Bytes) (k : ℕ) (st : TorrentStatus), check dir name path = some (k : ℤ) →
        BuiltFrom dir name st → k < st.totalFiles

/-! ### The condition -/

/-- **No stale target**: each file that is no link has, for its own target, that of the
last link before it. -/
def NoStale : Bytes → List FileEntry → Prop
  | _, [] => True
  | target, e :: es =>
    if e.symlinkAttribute then NoStale e.symlinkPath es
    else e.symlinkPath = target ∧ NoStale target es

/-- **The condition on a file**: if `gettor` reads a torrent from it, either `load_file`
loads it as well and no target is stale, or the torrent has no files. -/
def TorrentFile.SeenAlike (f : TorrentFile) : Prop :=
  f.readable = true → 0 ≤ f.intSize → f.intSize ≤ 10 * 1000000 →
    ∀ ti, f.decode f.intSize.toNat = .torrent ti →
      if f.size ≤ 5000000 then NoStale [] ti.files else ti.files = []

/-! ### Rows and files -/

/-- The rows of `gettor` say what the files say if no target is stale. -/
theorem rowsSame_torList_iff (es : List FileEntry) : ∀ target,
    RowsSame (torList target es) es ↔ NoStale target es := by
  induction es with
  | nil => simp [RowsSame, NoStale]
  | cons e es ih =>
    intro target
    -- the first row, and the others at one index less
    have hsplit : RowsSame (torList target (e :: es)) (e :: es) ↔
        (if e.symlinkAttribute then e.symlinkPath else target) = e.symlinkPath ∧
          NoStale (if e.symlinkAttribute then e.symlinkPath else target) es := by
      rw [← ih]
      constructor
      · intro h
        exact ⟨(h 0 _ e rfl rfl).2.2.2, fun k row e' hrow he' => h (k + 1) row e' hrow he'⟩
      · rintro ⟨htarget, h⟩ k row e' hrow he'
        cases k with
        | zero =>
          obtain rfl : e = e' := by simpa using he'
          obtain rfl := Option.some.inj hrow
          exact ⟨rfl, rfl, rfl, htarget⟩
        | succ k => exact h k row e' hrow he'
    rw [hsplit, NoStale]
    by_cases hlink : e.symlinkAttribute = true
    · simp [hlink]
    · simp [hlink, eq_comm]

section Files

variable {dir : TorrentDir} {name : Bytes} {f : TorrentFile} {ti : TorrentInfo}

/-- A status built from the file has as many flags as the `torrent_info` has files. -/
theorem BuiltFrom.totalFiles {st : TorrentStatus} (h : BuiltFrom dir name st)
    (hti : torrentInfo dir name = some ti) : st.totalFiles = ti.numFiles := by
  rcases h with ⟨st₀, ti', hti', rfl⟩ | ⟨st₀, outside, hdone⟩
  · rw [Option.some.inj (hti.symm.trans hti')]
    rfl
  · rw [TorrentStatus.snapshotMigration, hti] at hdone
    simp only at hdone
    split at hdone
    · cases hdone
    · cases hdone
      rfl

/-- An index that `check` finds is an index of the list. -/
theorem lt_of_check {list : List TorFile} {path : Bytes} {k : ℕ}
    (hlist : gettor dir name = some list) (hk : check dir name path = some (k : ℤ)) :
    k < list.length := by
  rw [check, hlist, Option.map_some] at hk
  have hk := Option.some.inj hk
  rcases checkIndex_cases list name path with ⟨hnone, -⟩ | ⟨k', row, hk', hrow, -⟩
  · omega
  · obtain rfl : k = k' := by omega
    exact (List.getElem?_eq_some_iff.mp hrow).1

/-- Lists of the same length that agree row by row are all that is asked. -/
theorem readersAgree_of_lists {list : List TorFile} (hlist : gettor dir name = some list)
    (hti : torrentInfo dir name = some ti) (hlen : list.length = ti.numFiles)
    (hsame : RowsSame list ti.files) : ReadersAgree dir name := by
  intro list' ti' hlist' hti'
  obtain rfl := Option.some.inj (hlist.symm.trans hlist')
  obtain rfl := Option.some.inj (hti.symm.trans hti')
  refine ⟨hlen, hsame, fun path k st hk hst => ?_⟩
  rw [hst.totalFiles hti, ← hlen]
  exact lt_of_check hlist hk

theorem TorrentFile.intSize_of_le (hsize : f.size ≤ 5000000) : f.intSize = f.size :=
  Int.bmod_eq_of_le (by omega) (by omega)

/-- What `gettor` lists when it reads a torrent. -/
theorem gettor_of_decode (hent : dir.entry name = some (.file f)) (hr : f.readable = true)
    (hpos : 0 ≤ f.intSize) (hle : f.intSize ≤ 10 * 1000000)
    (hdec : f.decode f.intSize.toNat = .torrent ti) :
    gettor dir name = some (torList [] ti.files) := by
  simp only [gettor, hent, TorrentFile.gettor, TorrentFile.bufDecode, hr, if_true, hdec]
  rw [if_neg (by omega), if_neg (by omega)]

/-- What `gettor` lists otherwise, if it lists anything. -/
theorem gettor_eq_nil (hent : dir.entry name = some (.file f)) {list : List TorFile}
    (hlist : gettor dir name = some list)
    (hno : f.readable = true → 0 ≤ f.intSize → f.intSize ≤ 10 * 1000000 →
      ∀ ti, f.decode f.intSize.toNat ≠ .torrent ti) : list = [] := by
  simp only [gettor, hent, TorrentFile.gettor] at hlist
  split at hlist
  · cases hlist
  split at hlist
  · exact (Option.some.inj hlist).symm
  split at hlist
  · cases hlist
  · exact (Option.some.inj hlist).symm
  · rename_i hbig hneg ti hdec
    rw [TorrentFile.bufDecode] at hdec
    split at hdec
    · rename_i hr
      exact absurd hdec (hno hr (by omega) (by omega) ti)
    · split at hdec <;> cases hdec

/-- What the constructor of `torrent_info` makes of a file that `load_file` loads, and of
one that it does not load. -/
theorem torrentInfo_of_le (hent : dir.entry name = some (.file f)) (hr : f.readable = true)
    (hsize : f.size ≤ 5000000) (hdec : f.decode f.intSize.toNat = .torrent ti) :
    torrentInfo dir name = some ti := by
  rw [f.intSize_of_le hsize, Int.toNat_natCast] at hdec
  simp [torrentInfo, hent, TorrentFile.loadFile, hr, hsize, hdec]

theorem torrentInfo_of_lt (hent : dir.entry name = some (.file f)) (hsize : ¬ f.size ≤ 5000000) :
    torrentInfo dir name = some .blank := by
  simp [torrentInfo, hent, TorrentFile.loadFile, hsize]

/-! ### The two readers -/

/-- What the condition says of a file that is read as a torrent. -/
theorem readersAgree_iff_of_decode (hent : dir.entry name = some (.file f))
    (hr : f.readable = true) (hpos : 0 ≤ f.intSize) (hle : f.intSize ≤ 10 * 1000000)
    (hdec : f.decode f.intSize.toNat = .torrent ti) :
    ReadersAgree dir name ↔
      if f.size ≤ 5000000 then NoStale [] ti.files else ti.files = [] := by
  have hlist := gettor_of_decode hent hr hpos hle hdec
  by_cases hsize : f.size ≤ 5000000
  · have hti := torrentInfo_of_le hent hr hsize hdec
    rw [if_pos hsize, ← rowsSame_torList_iff]
    exact ⟨fun h => (h _ _ hlist hti).2.1,
      readersAgree_of_lists hlist hti (length_torList _ _)⟩
  · have hti := torrentInfo_of_lt hent hsize
    rw [if_neg hsize]
    constructor
    · intro h
      have hlen := (h _ _ hlist hti).1
      rw [length_torList] at hlen
      exact List.eq_nil_of_length_eq_zero hlen
    · intro hnil
      refine readersAgree_of_lists hlist hti ?_ ?_ <;>
        simp [hnil, torList, TorrentInfo.blank, TorrentInfo.numFiles, RowsSame]

/-- **The readers agree exactly where the condition holds.** -/
theorem readersAgree_iff (dir : TorrentDir) (name : Bytes) :
    ReadersAgree dir name ↔ ∀ f, dir.entry name = some (.file f) → f.SeenAlike := by
  constructor
  · intro h f hent hr hpos hle ti hdec
    exact (readersAgree_iff_of_decode hent hr hpos hle hdec).mp h
  intro hcond
  rcases hent : dir.entry name with _ | f | ⟨t, t'⟩
  · exact readersAgree_of_lists (by rw [gettor, hent]) (by rw [torrentInfo, hent]) rfl
      (by simp [RowsSame])
  · by_cases hread : ∃ ti, f.readable = true ∧ 0 ≤ f.intSize ∧ f.intSize ≤ 10 * 1000000 ∧
        f.decode f.intSize.toNat = .torrent ti
    · obtain ⟨ti, hr, hpos, hle, hdec⟩ := hread
      exact (readersAgree_iff_of_decode hent hr hpos hle hdec).mpr
        (hcond f hent hr hpos hle ti hdec)
    · -- `gettor` has no row, and where the other reader has a file both have read one
      intro list ti hlist hti
      have hnil : list = [] := gettor_eq_nil hent hlist fun hr hpos hle ti hdec =>
        hread ⟨ti, hr, hpos, hle, hdec⟩
      have hnone : ti.files = [] := by
        by_contra hne
        have hlen := length_of_torrentInfo hti hne hlist
        rw [hnil] at hlen
        exact hne (List.eq_nil_of_length_eq_zero hlen.symm)
      subst hnil
      exact readersAgree_of_lists hlist hti (by simp [TorrentInfo.numFiles, hnone])
        (by simp [RowsSame]) [] ti hlist hti
  · exact readersAgree_of_lists (by rw [gettor, hent]) (by rw [torrentInfo, hent]) rfl
      (by simp [RowsSame])

end Files

/-- **The readers disagree** about a listing of six million bytes: `gettor` has its file,
the `torrent_info` has none. -/
theorem readers_disagree :
    ¬ ReadersAgree (.ofList [(ascii "test", .file
      ⟨6000000, true, fun _ => .torrent (.ofFiles [.plain (ascii "test/a") 1]), 5, 5⟩)])
      (ascii "test") := by
  intro h
  exact absurd (h _ _ rfl rfl).1 (by decide)

end InstantMirror
