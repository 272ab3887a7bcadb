import InstantMirror.GetTorrent
import Mathlib.Logic.Relation

/-!
# The calls behind a request

A request for a symbolic link is a chain of calls of `getTorrent`, one inside the other, each
for the path that the link before it is resolved to. All of them are for one torrent, and on
the way down the only thing that changes is the status, which each call validates. What the
call at each depth finds therefore does not depend on the paths: it is the status before the
request, or its array of flags migrated – once if `stat` and `lstat` report the same time for
the `.torrent` file, and once more by each further call if they do not
(`InstantMirror.Calls.FlagsAt`).

On the way up, the flags are set, and no flag is looked at any more; that the array has a
place for them is again a matter of the status before the request
(`InstantMirror.Calls.HasFlag`). So whether a chain returns
(`InstantMirror.Calls.Returns`) and whether it stays inside its arrays
(`InstantMirror.Calls.Stays`) can be said of the links, the lists, the sessions and the status
before the request, and `InstantMirror.Calls.getTorrent_ok_iff` and
`InstantMirror.Calls.getTorrent_ne_undefined_iff` are the two equivalences.
-/

namespace InstantMirror

/-! ### Links -/

/-- `path` is a link of the torrent, and leads to `target`. -/
def LinkTo (list : List TorFile) (path target : Bytes) : Prop :=
  ∃ (fuel k : ℕ) (row : TorFile),
    checkIndex list (torrentName path) (torrentFileName path) = k ∧ list[k]? = some row ∧
    row.symlinkAttribute = true ∧
    (resolveLink fuel (path ++ slash :: row.symlinkPath)).map cstr = some target

/-- That many links lead from the one path to the other. -/
def LinksTo (list : List TorFile) : ℕ → Bytes → Bytes → Prop
  | 0, path, target => path = target
  | n + 1, path, target => ∃ next, LinkTo list path next ∧ LinksTo list n next target

section Links

variable {list : List TorFile} {path target target' : Bytes} {n : ℕ}

/-- A link leads to one path. -/
theorem LinkTo.unique (h : LinkTo list path target) (h' : LinkTo list path target') :
    target = target' := by
  obtain ⟨fuel, k, row, hk, hrow, -, hres⟩ := h
  obtain ⟨fuel', k', row', hk', hrow', -, hres'⟩ := h'
  obtain rfl : k = k' := by omega
  obtain rfl := Option.some.inj (hrow.symm.trans hrow')
  obtain ⟨s, hs, rfl⟩ := Option.map_eq_some_iff.mp hres
  obtain ⟨s', hs', rfl⟩ := Option.map_eq_some_iff.mp hres'
  rw [resolveLink_unique hs hs']

/-- A link leads to a path in the same torrent, without a NUL. -/
theorem LinkTo.torrentName (h : LinkTo list path target) (hpath : (0 : UInt8) ∉ path) :
    torrentName target = InstantMirror.torrentName path ∧ (0 : UInt8) ∉ target := by
  obtain ⟨fuel, k, row, -, -, -, hres⟩ := h
  obtain ⟨s, hs, rfl⟩ := Option.map_eq_some_iff.mp hres
  exact ⟨torrentName_resolveLink hs hpath, zero_notMem_cstr s⟩

/-- It leads to something below the torrent. -/
theorem LinkTo.slash_mem (h : LinkTo list path target) (hpath : (0 : UInt8) ∉ path) :
    slash ∈ target := by
  obtain ⟨fuel, k, row, -, -, -, hres⟩ := h
  obtain ⟨s, hs, rfl⟩ := Option.map_eq_some_iff.mp hres
  by_cases hslash : slash ∈ path
  · obtain ⟨a, b, rfl, ha⟩ := exists_split hslash
    rw [List.append_assoc, List.cons_append] at hs
    obtain ⟨rest, hrest⟩ := cstr_resolveLink hs ha fun h => hpath (List.mem_append_left _ h)
    simp [hrest]
  · obtain ⟨rest, hrest⟩ := cstr_resolveLink hs hslash hpath
    simp [hrest]

/-- The path of a row, if it has a slash, is its name. -/
theorem name_of_checkIndex {k : ℕ} {row : TorFile} (hpath : slash ∈ path)
    (hk : checkIndex list (torrentName path) (torrentFileName path) = k)
    (hrow : list[k]? = some row) : row.name = path := by
  obtain ⟨a, b, rfl, ha⟩ := exists_split hpath
  rw [torrentName_append ha, torrentFileName_append ha] at hk
  rcases checkIndex_cases list a b with ⟨hnone, -⟩ | ⟨k', row', hk', hrow', hname⟩
  · omega
  · obtain rfl : k = k' := by omega
    rwa [Option.some.inj (hrow.symm.trans hrow')]

theorem LinksTo.unique (h : LinksTo list n path target) (h' : LinksTo list n path target') :
    target = target' := by
  induction n generalizing path with
  | zero => exact h.symm.trans h'
  | succ n ih =>
    obtain ⟨next, hto, hrest⟩ := h
    obtain ⟨next', hto', hrest'⟩ := h'
    exact ih hrest (hto.unique hto' ▸ hrest')

/-- One more link at the end. -/
theorem LinksTo.tail (h : LinksTo list n path target) (hto : LinkTo list target target') :
    LinksTo list (n + 1) path target' := by
  induction n generalizing path with
  | zero =>
    obtain rfl : path = target := h
    exact ⟨target', hto, rfl⟩
  | succ n ih =>
    obtain ⟨next, hnext, hrest⟩ := h
    exact ⟨next, hnext, ih hrest⟩

/-- Links lead from below the torrent to below the torrent. -/
theorem LinksTo.slash_mem (h : LinksTo list n path target) (hpath : (0 : UInt8) ∉ path)
    (hslash : slash ∈ path) : slash ∈ target := by
  induction n generalizing path with
  | zero =>
    obtain rfl : path = target := h
    exact hslash
  | succ n ih =>
    obtain ⟨next, hto, hrest⟩ := h
    exact ih hrest (hto.torrentName hpath).2 (hto.slash_mem hpath)

/-- What holds along a chain of links, by the first path and the others. -/
theorem forall_linksTo_succ {P : ℕ → Bytes → Prop} (hto : LinkTo list path target) :
    (∀ i < n + 1, ∀ q, LinksTo list i path q → P i q) ↔
      P 0 path ∧ ∀ i < n, ∀ q, LinksTo list i target q → P (i + 1) q := by
  constructor
  · intro h
    exact ⟨h 0 (Nat.succ_pos n) path rfl,
      fun i hi q hq => h (i + 1) (Nat.succ_lt_succ hi) q ⟨target, hto, hq⟩⟩
  · rintro ⟨hzero, hsucc⟩ i hi q hq
    cases i with
    | zero =>
      obtain rfl : path = q := hq
      exact hzero
    | succ i =>
      obtain ⟨next, hnext, hq⟩ := hq
      obtain rfl := hto.unique hnext
      exact hsucc i (Nat.lt_of_succ_lt_succ hi) q hq

end Links

/-! ### Migrations -/

/-- The migration reads only flags that have a meaning, and takes no last file of the new
list for an old one. -/
def MigrationStays (outside : Outside) (st : TorrentStatus) (ti : TorrentInfo) : Prop :=
  ∀ i a, st.torrentDetails.files[i]? = some a →
    ∃ b, flagAt outside st.fileStatus ((1 + i : ℕ) : ℤ) = some b ∧
      (b = true → ∀ j f, ti.files[j]? = some f → a.key = f.key → 1 + j < ti.numFiles)

/-- The migration sets the flag at `k`: the file before it is taken for an old one whose
successor's flag was read as set. -/
def MovedTo (outside : Outside) (st : TorrentStatus) (ti : TorrentInfo) (k : ℕ) : Prop :=
  ∃ i a j f, st.torrentDetails.files[i]? = some a ∧
    flagAt outside st.fileStatus ((1 + i : ℕ) : ℤ) = some true ∧
    ti.files[j]? = some f ∧ a.key = f.key ∧ k = 1 + j

/-- **The migration leaves these flags.** -/
structure Migrates (outside : Outside) (st : TorrentStatus) (ti : TorrentInfo)
    (flags : List Bool) : Prop where
  /-- It stays inside its arrays. -/
  stays : MigrationStays outside st ti
  /-- There is a flag for each file. -/
  length_eq : flags.length = ti.numFiles
  /-- Those are set that the migration sets. -/
  set_iff : ∀ k, flags[k]? = some true ↔ MovedTo outside st ti k

section Migration

variable {outside : Outside} {st : TorrentStatus} {ti : TorrentInfo} {flags flags' : List Bool}

/-- The migration is defined where its condition holds. -/
theorem migrationStays_iff : MigrationStays outside st ti ↔
    (migrateOuter outside st.fileStatus ti.files st.torrentDetails.files 1
      (List.replicate ti.numFiles false)).isSome := by
  rw [migrateOuter_isSome, List.length_replicate]
  rfl

/-- Arrays of one length with the same flags set are the same. -/
theorem eq_of_set_iff (hlen : flags.length = flags'.length)
    (hset : ∀ k : ℕ, flags[k]? = some true ↔ flags'[k]? = some true) : flags = flags' := by
  refine List.ext_getElem hlen fun k hk hk' => Bool.eq_iff_iff.mpr ?_
  simpa [hk, hk'] using hset k

theorem Migrates.unique (h : Migrates outside st ti flags) (h' : Migrates outside st ti flags') :
    flags = flags' :=
  eq_of_set_iff (h.length_eq.trans h'.length_eq.symm)
    fun k => (h.set_iff k).trans (h'.set_iff k).symm

/-- **What the two loops leave**, in terms of what they find. -/
theorem migrates_iff : Migrates outside st ti flags ↔
    migrateOuter outside st.fileStatus ti.files st.torrentDetails.files 1
      (List.replicate ti.numFiles false) = some flags := by
  have hleft : ∀ {flags}, migrateOuter outside st.fileStatus ti.files st.torrentDetails.files 1
      (List.replicate ti.numFiles false) = some flags → Migrates outside st ti flags := by
    intro flags hmig
    obtain ⟨hlen, hiff⟩ := migrateOuter_spec hmig
    refine ⟨migrationStays_iff.mpr (by rw [hmig]; rfl), by simpa using hlen,
      fun k => (hiff k).trans ?_⟩
    simp [MovedTo, List.getElem?_replicate]
  refine ⟨fun h => ?_, hleft⟩
  obtain ⟨flags', hmig⟩ := Option.isSome_iff_exists.mp (migrationStays_iff.mp h.stays)
  rw [hmig, (hleft hmig).unique h]

end Migration

/-! ### Validation -/

section Validation

variable {env : Env} {name : Bytes} {st st' : TorrentStatus} {e : DirEntry} {ti : TorrentInfo}
  {flags : List Bool}

/-- A new status is not migrated. -/
theorem validate_of_empty (hem : st.empty = true) (env : Env) (depth : ℕ) (name : Bytes) :
    validate env depth name st = (.done st, []) := by
  rw [validate]
  split
  · rfl
  · exact if_neg (by simp [hem])

/-- A status that goes with the file is kept. -/
theorem validate_of_valid (hent : env.dir.entry name = some e)
    (hvalid : st.isTorrentValid e.mtime = true) (depth : ℕ) :
    validate env depth name st = (.done st, []) := by
  rw [validate, hent]
  exact if_neg (by simp [hvalid])

/-- Another status is migrated, if that stays inside the arrays. -/
theorem validate_of_migrates (hent : env.dir.entry name = some e)
    (hti : torrentInfo env.dir name = some ti) (hem : st.empty = false)
    (hvalid : st.isTorrentValid e.mtime = false) {depth : ℕ}
    (hmig : Migrates (env.outside depth) st ti flags) :
    validate env depth name st = (.done { st with
        timestamp := e.linkMtime, fileStatus := flags, totalFiles := ti.numFiles },
      [.sized ⟨name, e.linkMtime, ti⟩]) := by
  rw [validate, hent, hti]
  simp only [hem, hvalid, and_self, if_true, TorrentStatus.snapshotMigration, hti,
    migrates_iff.mp hmig, hent]

theorem validate_of_not_stays (hent : env.dir.entry name = some e)
    (hti : torrentInfo env.dir name = some ti) (hem : st.empty = false)
    (hvalid : st.isTorrentValid e.mtime = false) {depth : ℕ}
    (hstays : ¬ MigrationStays (env.outside depth) st ti) :
    validate env depth name st = (.undefined, [.sized ⟨name, e.linkMtime, ti⟩]) := by
  rw [migrationStays_iff, Option.not_isSome_iff_eq_none] at hstays
  rw [validate, hent, hti]
  simp only [hem, hvalid, and_self, if_true, TorrentStatus.snapshotMigration, hti, hstays]

/-- A migration looks at the old files and their flags. -/
theorem migrates_congr {outside : Outside} (hdetails : st.torrentDetails = st'.torrentDetails)
    (hflags : st.fileStatus = st'.fileStatus) :
    Migrates outside st ti flags ↔ Migrates outside st' ti flags := by
  rw [migrates_iff, migrates_iff, hdetails, hflags]

theorem exists_migrates_iff {outside : Outside} :
    (∃ flags, Migrates outside st ti flags) ↔ MigrationStays outside st ti := by
  refine ⟨fun ⟨_, hmig⟩ => hmig.stays, fun hstays => ?_⟩
  obtain ⟨flags, hmig⟩ := Option.isSome_iff_exists.mp (migrationStays_iff.mp hstays)
  exact ⟨flags, migrates_iff.mpr hmig⟩

end Validation

/-! ### Fuel -/

/-- **More fuel changes nothing**, once a call has ended. -/
theorem getTorrent_mono {env : Env} {fuel fuel' depth : ℕ} {path : Bytes} {st : TorrentStatus}
    {disk : Disk} (hle : fuel ≤ fuel')
    (h : (getTorrent env fuel depth path st disk).result ≠ .error .stuck) :
    getTorrent env fuel' depth path st disk = getTorrent env fuel depth path st disk := by
  induction fuel generalizing fuel' depth path st disk with
  | zero => exact absurd rfl h
  | succ fuel ih =>
    obtain ⟨fuel', rfl⟩ : ∃ m, fuel' = m + 1 := ⟨fuel' - 1, by omega⟩
    rcases hent : enter env depth path st with ⟨_ | _ | ⟨name, index, row⟩, st₁, ev⟩
    · rw [getTorrent_of_stopped hent, getTorrent_of_stopped hent]
    · rw [getTorrent_of_returned hent, getTorrent_of_returned hent]
    rcases hlink : row.symlinkAttribute with _ | _
    · rw [getTorrent_of_plain hent hlink, getTorrent_of_plain hent hlink]
    simp only [getTorrent, hent, hlink, if_true] at h ⊢
    rcases hres : resolveLink fuel (path ++ slash :: row.symlinkPath) with _ | target
    · simp [hres] at h
    have hinner : (getTorrent env fuel (depth + 1) (cstr target) st₁ disk).result ≠
        .error .stuck := by
      intro hstuck
      simp [hres, hstuck] at h
    rw [resolveLink_mono (Nat.le_of_succ_le_succ hle) hres]
    simp only [ih (Nat.le_of_succ_le_succ hle) hinner]

/-- **A call for a link, with enough fuel**, is the call on the target, and if that returns, the
second part. -/
theorem exists_getTorrent_of_linkTo {env : Env} {depth index fuel : ℕ} {path name target : Bytes}
    {list : List TorFile} {row : TorFile} {st st₁ : TorrentStatus} {ev : List Event} {disk : Disk}
    {o : Outcome Unit} (hent : enter env depth path st = (.fetch name index row, st₁, ev))
    (hindex : checkIndex list (torrentName path) (torrentFileName path) = index)
    (hrow : list[index]? = some row) (hto : LinkTo list path target)
    (hin : getTorrent env fuel (depth + 1) target st₁ disk = o)
    (hne : o.result ≠ .error .stuck) :
    ∃ fuel', getTorrent env fuel' depth path st disk =
      match o.result with
      | .error s => ⟨.error s, o.status, o.disk, .call env depth path st :: ev ++ o.events⟩
      | .ok _ => (fetch env depth path name index row o.status o.disk).after
          (.call env depth path st :: ev ++ o.events) := by
  obtain ⟨fuel₁, k, row', hk, hrow', hlink, hres⟩ := hto
  obtain rfl : index = k := Int.natCast_inj.mp (hindex.symm.trans hk)
  obtain rfl := Option.some.inj (hrow.symm.trans hrow')
  obtain ⟨dest, hdest, rfl⟩ := Option.map_eq_some_iff.mp hres
  subst hin
  have hresolve := resolveLink_mono (Nat.le_max_left fuel₁ fuel) hdest
  have hinner := getTorrent_mono (Nat.le_max_right fuel₁ fuel) hne
  refine ⟨max fuel₁ fuel + 1, ?_⟩
  rcases hresult : (getTorrent env fuel (depth + 1) (cstr dest) st₁ disk).result with s | u
  · simp only [getTorrent, hent, hlink, if_true, hresolve, hinner, hresult]
  · simp only [getTorrent, hent, hlink, if_true, hresolve, hinner, hresult]

/-! ### What the calls of a chain have in common -/

/-- **What the calls behind one request have in common**: the surroundings; the torrent, as
`TORRENT_LOCATION` has it and as both readers read it; and the status before the request. -/
structure Calls where
  /-- The surroundings. -/
  env : Env
  /-- The name of the torrent. -/
  name : Bytes
  /-- Its entry in `TORRENT_LOCATION`. -/
  entry : DirEntry
  /-- What the constructor of `torrent_info` makes of it. -/
  info : TorrentInfo
  /-- What `gettor` makes of it. -/
  list : List TorFile
  /-- The status before the request. -/
  status : TorrentStatus
  /-- The entry is found under the name. -/
  entry_eq : env.dir.entry name = some entry
  /-- The constructor does not throw. -/
  info_eq : torrentInfo env.dir name = some info
  /-- `gettor` does not call `exit`. -/
  list_eq : gettor env.dir name = some list

/-- A request for a file of a torrent has all of it. -/
theorem exists_calls {env : Env} {list : List TorFile} {k : ℕ} {row : TorFile} {name : Bytes}
    (hlist : gettor env.dir name = some list) (hrow : list[k]? = some row) (st : TorrentStatus) :
    ∃ c : Calls, c.env = env ∧ c.name = name ∧ c.status = st ∧ c.list = list := by
  obtain ⟨e, ti, hent, hti⟩ := exists_torrentInfo_of_gettor hlist
    (List.ne_nil_of_mem (List.mem_of_getElem? hrow))
  exact ⟨⟨env, name, e, ti, list, st, hent, hti, hlist⟩, rfl, rfl, rfl, rfl⟩

namespace Calls

variable (c : Calls)

/-- The index that `check` gives a path of the torrent. -/
def index (path : Bytes) : ℤ := checkIndex c.list (torrentName path) (torrentFileName path)

/-- The status goes with the `.torrent` file as it is, and is not migrated. -/
def Kept : Prop := c.status.isTorrentValid c.entry.mtime = true

/-- **The flags that the call at a depth looks at**, if the status is not empty. A migration
remembers the time that `lstat` reports, and the next call compares it with the one that `stat`
reports. -/
inductive FlagsAt : ℕ → List Bool → Prop
  /-- The array that the status had before the request. -/
  | kept (hkept : c.Kept) (depth : ℕ) : FlagsAt depth c.status.fileStatus
  /-- The first call migrates it. -/
  | migrated {flags : List Bool} (hkept : ¬ c.Kept)
    (hmig : Migrates (c.env.outside 0) c.status c.info flags) : FlagsAt 0 flags
  /-- A further call finds the time of the file in the status. -/
  | still {depth : ℕ} {flags : List Bool} (hkept : ¬ c.Kept)
    (htime : c.entry.linkMtime = c.entry.mtime) (hflags : FlagsAt depth flags) :
    FlagsAt (depth + 1) flags
  /-- It finds another time, and migrates again. -/
  | again {depth : ℕ} {flags flags' : List Bool} (hkept : ¬ c.Kept)
    (htime : c.entry.linkMtime ≠ c.entry.mtime) (hflags : FlagsAt depth flags)
    (hmig : Migrates (c.env.outside (depth + 1)) { c.status with fileStatus := flags } c.info
      flags') : FlagsAt (depth + 1) flags'

/-- The call finds a flag for the path, and it reads so. -/
def Reads (depth : ℕ) (path : Bytes) (b : Bool) : Prop :=
  c.status.empty = false ∧ ∃ flags, c.FlagsAt depth flags ∧
    flagAt (c.env.outside depth) flags (c.index path) = some b

/-- **The call returns at once**: it has no session, or finds the flag set. -/
def TurnsBack (depth : ℕ) (path : Bytes) : Prop :=
  c.env.net depth = .noSession ∨ c.Reads depth path true

/-- **The call goes on** with the `k`-th file of the torrent. -/
structure GoesOn (depth : ℕ) (path : Bytes) (k : ℕ) (row : TorFile) : Prop where
  /-- There is a session. -/
  session : c.env.net depth ≠ .noSession
  /-- The path is one of the torrent. -/
  index_eq : c.index path = k
  /-- This is its row. -/
  row_eq : c.list[k]? = some row
  /-- There are no flags yet, or the flag is clear. -/
  clear : c.status.empty = true ∨ c.Reads depth path false

/-- After the download, the flag of the `k`-th file is in the array: an array that is made for
the torrent has it, and one that is kept may have it. -/
def HasFlag (k : ℕ) : Prop :=
  c.status.empty = false → c.Kept → k < c.status.fileStatus.length

/-- The download, if there is one, ends, and its flag can be set. -/
def DownloadReturns (depth k : ℕ) : Prop :=
  c.info.files ≠ [] → c.env.net depth ≠ .never ∧ (c.env.net depth = .finished → c.HasFlag k)

/-- The download ends, and its flag cannot be set. -/
def DownloadLeaves (depth k : ℕ) : Prop :=
  c.info.files ≠ [] ∧ c.env.net depth = .finished ∧ ¬ c.HasFlag k

/-- **The chain ends with this call**: it returns at once, or is for a file that is no link. -/
def EndsAt (depth : ℕ) (path : Bytes) : Prop :=
  c.TurnsBack depth path ∨ ∃ k row, c.GoesOn depth path k row ∧
    row.symlinkAttribute = false ∧ c.DownloadReturns depth k

/-- **The chain goes on from this call**, and the call returns once the others have. -/
def PassesAt (depth : ℕ) (path : Bytes) : Prop :=
  ∃ k row, c.GoesOn depth path k row ∧ row.symlinkAttribute = true ∧ c.DownloadReturns depth k

/-- **The chain returns**: after finitely many links it ends, and it passes all the calls before
that. -/
def Returns (depth : ℕ) (path : Bytes) : Prop :=
  ∃ n last, LinksTo c.list n path last ∧
    (∀ i < n, ∀ q, LinksTo c.list i path q → c.PassesAt (depth + i) q) ∧
    c.EndsAt (depth + n) last

/-- **The call stays inside its arrays**: it returns at once, or goes on; and the flag can be
set, if it comes to that. -/
def StaysAt (depth : ℕ) (path : Bytes) : Prop :=
  (c.TurnsBack depth path ∨ ∃ k row, c.GoesOn depth path k row) ∧
    ∀ k row, c.GoesOn depth path k row →
      (row.symlinkAttribute = true → ∃ target, LinkTo c.list path target ∧
        c.Returns (depth + 1) target) → ¬ c.DownloadLeaves depth k

/-- **The chain stays inside its arrays**: every call that is reached does. -/
def Stays (depth : ℕ) (path : Bytes) : Prop :=
  ∀ n last, LinksTo c.list n path last →
    (∀ i < n, ∀ q, LinksTo c.list i path q → ∃ k row, c.GoesOn (depth + i) q k row) →
    c.StaysAt (depth + n) last

/-! ### What is found does not depend on chance -/

section Found

variable {c} {depth k k' n : ℕ} {path target : Bytes} {row row' : TorFile}
  {flags flags' : List Bool}

theorem FlagsAt.eq_of_kept (h : c.FlagsAt depth flags) (hkept : c.Kept) :
    flags = c.status.fileStatus := by
  cases h with
  | kept _ _ => rfl
  | migrated hnot _ => exact absurd hkept hnot
  | still hnot _ _ => exact absurd hkept hnot
  | again hnot _ _ _ => exact absurd hkept hnot

theorem FlagsAt.length_eq (h : c.FlagsAt depth flags) (hkept : ¬ c.Kept) :
    flags.length = c.info.numFiles := by
  induction h with
  | kept h _ => exact absurd h hkept
  | migrated _ hmig => exact hmig.length_eq
  | still _ _ _ ih => exact ih
  | again _ _ _ hmig _ => exact hmig.length_eq

theorem FlagsAt.unique (h : c.FlagsAt depth flags) (h' : c.FlagsAt depth flags') :
    flags = flags' := by
  induction h generalizing flags' with
  | kept hkept _ => exact (h'.eq_of_kept hkept).symm
  | migrated hnot hmig =>
    cases h' with
    | kept hkept _ => exact absurd hkept hnot
    | migrated _ hmig' => exact hmig.unique hmig'
  | still hnot htime _ ih =>
    cases h' with
    | kept hkept _ => exact absurd hkept hnot
    | still _ _ h' => exact ih h'
    | again _ hne _ _ => exact absurd htime hne
  | again hnot hne _ hmig ih =>
    cases h' with
    | kept hkept _ => exact absurd hkept hnot
    | still _ htime _ => exact absurd htime hne
    | again _ _ h' hmig' =>
      obtain rfl := ih h'
      exact hmig.unique hmig'

theorem Reads.unique {b b' : Bool} (h : c.Reads depth path b) (h' : c.Reads depth path b') :
    b = b' := by
  obtain ⟨-, flags, hflags, hread⟩ := h
  obtain ⟨-, flags', hflags', hread'⟩ := h'
  obtain rfl := hflags.unique hflags'
  exact Option.some.inj (hread.symm.trans hread')

theorem GoesOn.unique (h : c.GoesOn depth path k row) (h' : c.GoesOn depth path k' row') :
    k = k' ∧ row = row' := by
  obtain rfl : k = k' := Int.natCast_inj.mp (h.index_eq.symm.trans h'.index_eq)
  exact ⟨rfl, Option.some.inj (h.row_eq.symm.trans h'.row_eq)⟩

theorem not_turnsBack (hnet : c.env.net depth ≠ .noSession)
    (hclear : c.status.empty = true ∨ c.Reads depth path false) : ¬ c.TurnsBack depth path := by
  rintro (hno | hset)
  · exact hnet hno
  · rcases hclear with hem | hclear
    · exact absurd (hset.1.symm.trans hem) (by decide)
    · exact absurd (hset.unique hclear) (by decide)

theorem GoesOn.not_turnsBack (h : c.GoesOn depth path k row) : ¬ c.TurnsBack depth path :=
  Calls.not_turnsBack h.session h.clear

/-- A row has its flag in every array that is made for the torrent. -/
theorem GoesOn.lt_numFiles (h : c.GoesOn depth path k row) (hne : c.info.files ≠ []) :
    k < c.info.numFiles := by
  rw [← length_of_torrentInfo c.info_eq hne c.list_eq]
  exact (List.getElem?_eq_some_iff.mp h.row_eq).1

/-! ### One call and the others -/

/-- A chain returns if it ends at once, or passes its first call and returns from there. -/
theorem returns_iff : c.Returns depth path ↔ c.EndsAt depth path ∨
    (c.PassesAt depth path ∧ ∃ target, LinkTo c.list path target ∧
      c.Returns (depth + 1) target) := by
  constructor
  · rintro ⟨n, last, hlinks, hpass, hend⟩
    cases n with
    | zero =>
      obtain rfl : path = last := hlinks
      exact Or.inl hend
    | succ n =>
      obtain ⟨target, hto, hlinks⟩ := hlinks
      obtain ⟨hfirst, hrest⟩ := (@forall_linksTo_succ c.list path target n
        (fun i q => c.PassesAt (depth + i) q) hto).mp hpass
      refine Or.inr ⟨hfirst, target, hto, n, last, hlinks, fun i hi q hq => ?_, ?_⟩
      · rw [Nat.add_assoc, Nat.add_comm 1 i]
        exact hrest i hi q hq
      · rwa [Nat.add_assoc, Nat.add_comm 1 n]
  · rintro (hend | ⟨hpass, target, hto, n, last, hlinks, hrest, hend⟩)
    · exact ⟨0, path, rfl, fun i hi => absurd hi (Nat.not_lt_zero i), hend⟩
    · refine ⟨n + 1, last, ⟨target, hto, hlinks⟩, (@forall_linksTo_succ c.list path target n
        (fun i q => c.PassesAt (depth + i) q) hto).mpr ⟨hpass, fun i hi q hq => ?_⟩, ?_⟩
      · rw [Nat.add_comm i 1, ← Nat.add_assoc]
        exact hrest i hi q hq
      · rwa [Nat.add_comm n 1, ← Nat.add_assoc]

/-- A chain stays inside its arrays if its first call does, and the rest of it does where the
first call goes on to it. -/
theorem stays_iff : c.Stays depth path ↔ c.StaysAt depth path ∧
    ∀ k row target, c.GoesOn depth path k row → LinkTo c.list path target →
      c.Stays (depth + 1) target := by
  constructor
  · intro h
    refine ⟨h 0 path rfl fun i hi => absurd hi (Nat.not_lt_zero i), ?_⟩
    intro k row target hgo hto n last hlinks hreach
    have hstays := h (n + 1) last ⟨target, hto, hlinks⟩
      ((@forall_linksTo_succ c.list path target n
        (fun i q => ∃ k row, c.GoesOn (depth + i) q k row) hto).mpr
        ⟨⟨k, row, hgo⟩, fun i hi q hq => by
          rw [Nat.add_comm i 1, ← Nat.add_assoc]
          exact hreach i hi q hq⟩)
    rwa [Nat.add_comm n 1, ← Nat.add_assoc] at hstays
  · rintro ⟨hfirst, hrest⟩ n last hlinks hreach
    cases n with
    | zero =>
      obtain rfl : path = last := hlinks
      exact hfirst
    | succ n =>
      obtain ⟨target, hto, hlinks⟩ := hlinks
      obtain ⟨⟨k, row, hgo⟩, hreach⟩ := (@forall_linksTo_succ c.list path target n
        (fun i q => ∃ k row, c.GoesOn (depth + i) q k row) hto).mp hreach
      have hstays := hrest k row target hgo hto n last hlinks fun i hi q hq => by
        rw [Nat.add_assoc, Nat.add_comm 1 i]
        exact hreach i hi q hq
      rwa [Nat.add_assoc, Nat.add_comm 1 n] at hstays

end Found

/-! ### The status on the way down -/

/-- **The status of the chain**, once the call at this depth has validated it. -/
structure StatusAt (depth : ℕ) (st : TorrentStatus) : Prop where
  /-- Nothing is taken up on the way down. -/
  empty_eq : st.empty = c.status.empty
  /-- A migration leaves the files of the old torrent. -/
  details_eq : st.torrentDetails = c.status.torrentDetails
  /-- The flags. -/
  flags : c.status.empty = false → c.FlagsAt depth st.fileStatus
  /-- The time is the one that was there, or that of the last migration. -/
  time : c.status.empty = false →
    (c.Kept ∧ st.timestamp = c.status.timestamp) ∨
      (¬ c.Kept ∧ st.timestamp = c.entry.linkMtime)

/-- The status that the call at this depth is given. -/
def Before : ℕ → TorrentStatus → Prop
  | 0, st => st = c.status
  | depth + 1, st => c.StatusAt depth st

/-- **There is room for the flags** of the torrent exactly where the status before the request
says so. -/
def Sized (st : TorrentStatus) : Prop :=
  ∀ k < c.info.numFiles, (st.empty = true ∨ k < st.fileStatus.length) ↔ c.HasFlag k

section Down

variable {c} {depth k : ℕ} {path : Bytes} {row : TorFile} {st st₁ : TorrentStatus}

theorem Before.empty_eq (h : c.Before depth st) : st.empty = c.status.empty := by
  cases depth with
  | zero => rw [show st = c.status from h]
  | succ depth => exact StatusAt.empty_eq h

theorem Before.details_eq (h : c.Before depth st) :
    st.torrentDetails = c.status.torrentDetails := by
  cases depth with
  | zero => rw [show st = c.status from h]
  | succ depth => exact StatusAt.details_eq h

/-- **A status that is kept** is the one before the request, as far as anybody looks at it. -/
theorem Before.of_kept (h : c.Before depth st) (hem : c.status.empty = false) (hkept : c.Kept) :
    st.timestamp = c.status.timestamp ∧ st.fileStatus = c.status.fileStatus := by
  cases depth with
  | zero =>
    rw [show st = c.status from h]
    exact ⟨rfl, rfl⟩
  | succ depth =>
    exact ⟨((StatusAt.time h hem).resolve_right fun hnot => hnot.1 hkept).2,
      (StatusAt.flags h hem).eq_of_kept hkept⟩

/-- What a migration at this depth makes of the status. -/
theorem StatusAt.of_migrates {flags : List Bool} (h : c.Before depth st) (hkept : ¬ c.Kept)
    (hflags : c.FlagsAt depth flags) : c.StatusAt depth { st with
      timestamp := c.entry.linkMtime, fileStatus := flags, totalFiles := c.info.numFiles } :=
  ⟨h.empty_eq, h.details_eq, fun _ => hflags, fun _ => Or.inr ⟨hkept, rfl⟩⟩

/-- The flags that the first call migrates. -/
theorem flagsAt_zero_iff (hkept : ¬ c.Kept) {flags : List Bool} :
    c.FlagsAt 0 flags ↔ Migrates (c.env.outside 0) c.status c.info flags := by
  refine ⟨fun h => ?_, .migrated hkept⟩
  cases h with
  | kept hkept' _ => exact absurd hkept' hkept
  | migrated _ hmig => exact hmig

/-- The flags that a further call migrates again. -/
theorem flagsAt_succ_iff (hkept : ¬ c.Kept) (htime : c.entry.linkMtime ≠ c.entry.mtime)
    (h : c.StatusAt depth st) (hem : c.status.empty = false) {flags : List Bool} :
    c.FlagsAt (depth + 1) flags ↔ Migrates (c.env.outside (depth + 1)) st c.info flags := by
  have hflags := h.flags hem
  rw [@migrates_congr st { c.status with fileStatus := st.fileStatus } c.info flags _
    h.details_eq rfl]
  refine ⟨fun hat => ?_, .again hkept htime hflags⟩
  cases hat with
  | kept hkept' _ => exact absurd hkept' hkept
  | still _ htime' _ => exact absurd htime' htime
  | again _ _ hflags' hmig => exact hflags.unique hflags' ▸ hmig

/-- **A call that migrates the status** makes it that of the depth, or leaves its arrays, and there
is none. -/
theorem Before.validate_of_not_kept (h : c.Before depth st) (hem : c.status.empty = false)
    (hkept : ¬ c.Kept) (hvalid : st.isTorrentValid c.entry.mtime = false)
    (hat : ∀ flags, c.FlagsAt depth flags ↔ Migrates (c.env.outside depth) st c.info flags) :
    (∃ st₁ ev, validate c.env depth c.name st = (.done st₁, ev) ∧ c.StatusAt depth st₁) ∨
      (∃ ev, validate c.env depth c.name st = (.undefined, ev)) ∧
        c.status.empty = false ∧ ∀ flags, ¬ c.FlagsAt depth flags := by
  have hem' : st.empty = false := h.empty_eq.trans hem
  by_cases hstays : MigrationStays (c.env.outside depth) st c.info
  · obtain ⟨flags, hmig⟩ := exists_migrates_iff.mpr hstays
    exact Or.inl ⟨_, _, validate_of_migrates c.entry_eq c.info_eq hem' hvalid hmig,
      .of_migrates h hkept ((hat flags).mpr hmig)⟩
  · exact Or.inr ⟨⟨_, validate_of_not_stays c.entry_eq c.info_eq hem' hvalid hstays⟩, hem,
      fun flags hflags => hstays ((hat flags).mp hflags).stays⟩

/-- **The call at a depth validates the status to that of the depth**, or the migration leaves
its arrays and there is none. -/
theorem Before.validate (h : c.Before depth st) :
    (∃ st₁ ev, validate c.env depth c.name st = (.done st₁, ev) ∧ c.StatusAt depth st₁) ∨
      (∃ ev, InstantMirror.validate c.env depth c.name st = (.undefined, ev)) ∧
        c.status.empty = false ∧ ∀ flags, ¬ c.FlagsAt depth flags := by
  rcases hem : c.status.empty with _ | _
  · by_cases hkept : c.Kept
    · obtain ⟨htime, hflags⟩ := h.of_kept hem hkept
      have hvalid : st.isTorrentValid c.entry.mtime = true := by
        rw [TorrentStatus.isTorrentValid, htime]
        exact hkept
      refine Or.inl ⟨st, [], validate_of_valid c.entry_eq hvalid depth, h.empty_eq, h.details_eq,
        fun _ => ?_, fun _ => Or.inl ⟨hkept, htime⟩⟩
      rw [hflags]
      exact .kept hkept depth
    cases depth with
    | zero =>
      obtain rfl : st = c.status := h
      have h : c.Before 0 c.status := rfl
      exact hem ▸ h.validate_of_not_kept hem hkept (by simpa [Kept] using hkept)
        fun flags => flagsAt_zero_iff hkept
    | succ depth =>
      have htime : st.timestamp = c.entry.linkMtime :=
        ((StatusAt.time h hem).resolve_left fun hkept' => hkept hkept'.1).2
      by_cases hsame : c.entry.linkMtime = c.entry.mtime
      · have hvalid : st.isTorrentValid c.entry.mtime = true := by
          rw [TorrentStatus.isTorrentValid, htime, hsame]
          exact decide_eq_true rfl
        exact Or.inl ⟨st, [], validate_of_valid c.entry_eq hvalid _, h.empty_eq, h.details_eq,
          fun _ => .still hkept hsame (StatusAt.flags h hem), fun _ => Or.inr ⟨hkept, htime⟩⟩
      · have hvalid : st.isTorrentValid c.entry.mtime = false := by
          rw [TorrentStatus.isTorrentValid, htime]
          exact decide_eq_false (Ne.symm hsame)
        exact hem ▸ h.validate_of_not_kept hem hkept hvalid
          fun flags => flagsAt_succ_iff hkept hsame h hem
  · have hem' : st.empty = true := h.empty_eq.trans hem
    exact Or.inl ⟨st, [], validate_of_empty hem' _ _ _, h.empty_eq, h.details_eq,
      fun hne => absurd (hem.symm.trans hne) (by decide),
      fun hne => absurd (hem.symm.trans hne) (by decide)⟩

/-- The flag that the call looks at is that of the validated status. -/
theorem StatusAt.reads_iff (h : c.StatusAt depth st) {b : Bool} :
    c.Reads depth path b ↔ c.status.empty = false ∧
      flagAt (c.env.outside depth) st.fileStatus (c.index path) = some b := by
  constructor
  · rintro ⟨hem, flags, hat, hread⟩
    exact ⟨hem, hat.unique (h.flags hem) ▸ hread⟩
  · rintro ⟨hem, hread⟩
    exact ⟨hem, _, h.flags hem, hread⟩

/-- **The first part of the call at a depth**: it returns at once, or goes on, and if neither can
be said, it leaves its arrays. -/
theorem Before.enter (h : c.Before depth st) (hname : torrentName path = c.name) :
    (c.TurnsBack depth path ∧ ∃ st₁ ev, enter c.env depth path st = (.returned, st₁, ev) ∧
        (c.env.net depth = .noSession ∧ st₁ = st ∨
          c.env.net depth ≠ .noSession ∧ c.StatusAt depth st₁)) ∨
      (∃ k row st₁ ev, c.GoesOn depth path k row ∧
        InstantMirror.enter c.env depth path st = (.fetch c.name k row, st₁, ev) ∧
        c.StatusAt depth st₁) ∨
      (¬ c.TurnsBack depth path ∧ (∀ k row, ¬ c.GoesOn depth path k row) ∧
        ∃ st₁ ev, InstantMirror.enter c.env depth path st = (.stopped .undefined, st₁, ev)) := by
  by_cases hnet : c.env.net depth = .noSession
  · exact Or.inl ⟨Or.inl hnet, st, [], enter_of_noSession hnet path st, Or.inl ⟨hnet, rfl⟩⟩
  have hlist : gettor c.env.dir (torrentName path) = some c.list := hname ▸ c.list_eq
  -- neither can be said if there is no flag to be read
  have hundefined : c.status.empty = false → (∀ b, ¬ c.Reads depth path b) →
      ¬ c.TurnsBack depth path ∧ ∀ k row, ¬ c.GoesOn depth path k row := by
    intro hem hnone
    refine ⟨not_or.mpr ⟨hnet, hnone true⟩, fun k row hgo => ?_⟩
    rcases hgo.clear with hem' | hclear
    · exact absurd (hem.symm.trans hem') (by decide)
    · exact hnone false hclear
  rcases h.validate with ⟨st₁, ev, hval, hst₁⟩ | ⟨⟨ev, hval⟩, hem, hnone⟩
  · rw [← hname] at hval
    rcases enter_of_done hnet hlist hval with ⟨hem, hread, heq⟩ | ⟨hem, hread, heq⟩ | ⟨hclear, heq⟩
    · obtain ⟨hback, hgo⟩ := hundefined (hst₁.empty_eq.symm.trans hem) fun b hb => by
        have := hread.symm.trans (hst₁.reads_iff.mp hb).2
        cases this
      exact Or.inr (Or.inr ⟨hback, hgo, st₁, ev, heq⟩)
    · exact Or.inl ⟨Or.inr (hst₁.reads_iff.mpr ⟨hst₁.empty_eq.symm.trans hem, hread⟩), st₁, _, heq,
        Or.inr ⟨hnet, hst₁⟩⟩
    · have hclear : c.status.empty = true ∨ c.Reads depth path false := by
        rcases hem : c.status.empty with _ | _
        · rw [hst₁.empty_eq, hem] at hclear
          exact Or.inr (hst₁.reads_iff.mpr ⟨hem, hclear.resolve_left (by decide)⟩)
        · exact Or.inl rfl
      rcases checkIndex_cases c.list (torrentName path) (torrentFileName path) with
        ⟨hnone, -⟩ | ⟨k, row, hk, hrow, -⟩
      · -- the vectors are left at `-1`
        refine Or.inr (Or.inr ⟨not_turnsBack hnet hclear, fun k row hgo => ?_, st₁, ev, ?_⟩)
        · have hindex : c.index path = -1 := hnone
          have := hgo.index_eq
          omega
        · rw [heq, hnone]
          rfl
      · refine Or.inr (Or.inl ⟨k, row, st₁, ev, ⟨hnet, hk, hrow, hclear⟩, ?_, hst₁⟩)
        rw [heq, hk, prioritise_of_getElem? hrow, hname]
  · obtain ⟨hback, hgo⟩ := hundefined hem fun b ⟨_, flags, hat, _⟩ => hnone flags hat
    refine Or.inr (Or.inr ⟨hback, hgo, st, [], ?_⟩)
    rw [← hname] at hval
    simp only [InstantMirror.enter, if_neg hnet, hlist, hval]

end Down

/-! ### The array on the way up -/

section Up

variable {c} {depth k : ℕ} {path : Bytes} {row : TorFile} {st st₁ : TorrentStatus}

theorem StatusAt.sized (h : c.StatusAt depth st) : c.Sized st := by
  intro k hk
  rcases hem : c.status.empty with _ | _
  · have hem' : st.empty = false := h.empty_eq.trans hem
    have hflags := h.flags hem
    by_cases hkept : c.Kept
    · simp [HasFlag, hem, hem', hkept, hflags.eq_of_kept hkept]
    · simp [HasFlag, hem', hkept, hflags.length_eq hkept, hk]
  · simp [HasFlag, hem, h.empty_eq.trans hem]

/-- Taking up the torrent makes room for all its flags. -/
theorem Sized.takenUp (h : c.Sized st) {ev : List Event}
    (htake : takenUp c.env c.name c.info st = (st₁, ev)) :
    c.Sized st₁ ∧ st₁.empty = false := by
  rcases takenUp_cases htake with ⟨hem, rfl, -⟩ | ⟨hem, rfl, -⟩
  · refine ⟨fun k hk => iff_of_true (Or.inr ?_) ((h k hk).mp (Or.inl hem)), rfl⟩
    simpa [TorrentStatus.takeUp, TorrentStatus.init] using hk
  · exact ⟨h, hem⟩

/-- **The second part of a call** returns, or leaves the array, or waits for ever, as the status
before the request says, and keeps the room. -/
theorem Sized.fetch (h : c.Sized st) (hgo : c.GoesOn depth path k row) (disk : Disk)
    {o : Outcome Unit} (ho : fetch c.env depth path c.name k row st disk = o) :
    c.Sized o.status ∧ ((o.result = .ok () ∧ c.DownloadReturns depth k) ∨
      (o.result = .error .undefined ∧ c.DownloadLeaves depth k) ∨
      (o.result = .error .stuck ∧ c.info.files ≠ [] ∧ c.env.net depth = .never)) := by
  by_cases hne : c.info.files = []
  · have heq : o = ⟨.ok (), st, disk, []⟩ := by
      rw [← ho, InstantMirror.fetch, c.info_eq]
      simp [hne]
    rw [heq]
    exact ⟨h, Or.inl ⟨rfl, fun hne' => absurd hne hne'⟩⟩
  rcases htake : InstantMirror.takenUp c.env c.name c.info st with ⟨st₁, ev⟩
  obtain ⟨hsized, hem⟩ := h.takenUp htake
  simp only [InstantMirror.fetch, c.info_eq, hne, htake, false_or] at ho
  rcases hs : c.env.net depth with _ | _ | _ | _ | _ <;> simp only [hs] at ho
  · exact absurd hs hgo.session
  · subst ho
    exact ⟨h, Or.inl ⟨rfl, fun _ => by simp [hs]⟩⟩
  · subst ho
    exact ⟨hsized, Or.inl ⟨rfl, fun _ => by simp [hs]⟩⟩
  · -- the flag is set if there is room for it
    have hroom : k < st₁.fileStatus.length ↔ c.HasFlag k := by
      simpa [hem] using hsized k (hgo.lt_numFiles hne)
    simp only [reduceCtorEq, if_false] at ho
    rcases hset : setFlag st₁.fileStatus k with _ | flags <;> rw [hset] at ho <;> subst ho
    · refine ⟨hsized, Or.inr (Or.inl ⟨rfl, hne, hs, fun hflag => ?_⟩)⟩
      have := setFlag_isSome.mpr (hroom.mpr hflag)
      simp [hset] at this
    · obtain ⟨hlt, rfl⟩ := setFlag_eq_some hset
      refine ⟨fun j hj => ?_, Or.inl ⟨rfl, fun _ => ⟨by simp [hs], fun _ => hroom.mp hlt⟩⟩⟩
      simpa using hsized j hj
  · subst ho
    exact ⟨hsized, Or.inr (Or.inr ⟨rfl, hne, rfl⟩)⟩

end Up

/-! ### The chain -/

section Chain

variable {c} {depth k n : ℕ} {path last : Bytes} {row : TorFile} {st : TorrentStatus}

/-- **How a chain of calls can end**: it returns, or leaves its arrays, or goes on for ever, and
the conditions say which. -/
theorem getTorrent_cases : ∀ (fuel depth : ℕ) (path : Bytes) (st : TorrentStatus) (disk : Disk),
    c.Before depth st → torrentName path = c.name → (0 : UInt8) ∉ path →
    ∀ o, getTorrent c.env fuel depth path st disk = o →
      (o.result = .ok () ∧ c.Returns depth path ∧ (c.Sized st → c.Sized o.status)) ∨
        (o.result = .error .undefined ∧ ¬ c.Stays depth path) ∨ o.result = .error .stuck := by
  intro fuel
  induction fuel with
  | zero =>
    rintro depth path st disk - - - o rfl
    exact Or.inr (Or.inr rfl)
  | succ fuel ih =>
    rintro depth path st disk hst hname hpath o rfl
    rcases hst.enter hname with ⟨hback, st₁, ev, hent, hst₁⟩ | ⟨k, row, st₁, ev, hgo, hent, hst₁⟩ |
      ⟨hback, hnot, st₁, ev, hent⟩
    · rw [getTorrent_of_returned hent]
      refine Or.inl ⟨rfl, returns_iff.mpr (Or.inl (Or.inl hback)), fun hsized => ?_⟩
      rcases hst₁ with ⟨-, rfl⟩ | ⟨-, hst₁⟩
      · exact hsized
      · exact hst₁.sized
    · rcases hlink : row.symlinkAttribute with _ | _
      · rw [getTorrent_of_plain hent hlink]
        obtain ⟨hsized, ⟨hres, hret⟩ | ⟨hres, hleaves⟩ | ⟨hres, -⟩⟩ :=
          hst₁.sized.fetch hgo disk rfl
        · exact Or.inl ⟨hres, returns_iff.mpr (Or.inl (Or.inr ⟨k, row, hgo, hlink, hret⟩)),
            fun _ => hsized⟩
        · refine Or.inr (Or.inl ⟨hres, fun hstays => ?_⟩)
          exact (stays_iff.mp hstays).1.2 k row hgo (by simp [hlink]) hleaves
        · exact Or.inr (Or.inr hres)
      -- the call on the target, from the status of this depth
      have hinner : ∀ target, resolveLink fuel (path ++ slash :: row.symlinkPath) = some target →
          LinkTo c.list path (cstr target) := fun target hres =>
        ⟨fuel, k, row, hgo.index_eq, hgo.row_eq, hlink, by rw [hres, Option.map_some]⟩
      rcases getTorrent_of_link hent hlink fuel disk with
        ⟨-, ho⟩ | ⟨target, st₂, disk₂, ev₂, hres, hin⟩
      · rw [ho]
        exact Or.inr (Or.inr rfl)
      have hto := hinner target hres
      obtain ⟨hname', hpath'⟩ := hto.torrentName hpath
      have hcases := ih (depth + 1) (cstr target) st₁ disk hst₁ (hname'.trans hname) hpath'
      rcases hin with ⟨s, hin, ho⟩ | ⟨hin, ho⟩ <;> rw [ho]
      · rcases hcases _ hin with ⟨hok, -⟩ | ⟨hundef, hleaves⟩ | hstuck
        · cases hok
        · refine Or.inr (Or.inl ⟨hundef, fun hstays => hleaves ?_⟩)
          exact (stays_iff.mp hstays).2 k row _ hgo hto
        · exact Or.inr (Or.inr hstuck)
      · obtain ⟨-, hreturns, hsized₂⟩ := (hcases _ hin).resolve_right (by simp)
        obtain ⟨hsized, ⟨hres', hret⟩ | ⟨hres', hleaves⟩ | ⟨hres', -⟩⟩ :=
          (hsized₂ hst₁.sized).fetch hgo disk₂ rfl
        · exact Or.inl ⟨hres', returns_iff.mpr (Or.inr ⟨⟨k, row, hgo, hlink, hret⟩, _, hto,
            hreturns⟩), fun _ => hsized⟩
        · refine Or.inr (Or.inl ⟨hres', fun hstays => ?_⟩)
          exact (stays_iff.mp hstays).1.2 k row hgo (fun _ => ⟨_, hto, hreturns⟩) hleaves
        · exact Or.inr (Or.inr hres')
    · rw [getTorrent_of_stopped hent]
      refine Or.inr (Or.inl ⟨rfl, fun hstays => ?_⟩)
      rcases (stays_iff.mp hstays).1.1 with hback' | ⟨k, row, hgo⟩
      · exact hback hback'
      · exact hnot k row hgo

/-- **A call that returns** has returned at once; or it has gone on, the calls behind it have
returned if it is for a link, and so has its second part, which leaves the status and the disk. -/
theorem getTorrent_ok_cases {fuel : ℕ} {disk : Disk} (hst : c.Before depth st)
    (hname : torrentName path = c.name) {o : Outcome Unit}
    (ho : getTorrent c.env fuel depth path st disk = o) (hres : o.result = .ok ()) :
    (c.TurnsBack depth path ∧ o.disk = disk ∧
        (c.env.net depth = .noSession ∧ o.status = st ∨
          c.env.net depth ≠ .noSession ∧ c.StatusAt depth o.status)) ∨
      ∃ k row st₁ st₂ disk₂ o', c.GoesOn depth path k row ∧ c.StatusAt depth st₁ ∧
        (row.symlinkAttribute = false ∧ st₂ = st₁ ∧ disk₂ = disk ∨
          row.symlinkAttribute = true ∧ ∃ fuel' target ev₂, fuel = fuel' + 1 ∧
            LinkTo c.list path target ∧
            getTorrent c.env fuel' (depth + 1) target st₁ disk = ⟨.ok (), st₂, disk₂, ev₂⟩) ∧
        fetch c.env depth path c.name k row st₂ disk₂ = o' ∧ o'.result = .ok () ∧
        o.status = o'.status ∧ o.disk = o'.disk := by
  subst ho
  cases fuel with
  | zero => cases hres
  | succ fuel =>
    rcases hst.enter hname with ⟨hback, st₁, ev, hent, hst₁⟩ | ⟨k, row, st₁, ev, hgo, hent, hst₁⟩ |
      ⟨-, -, st₁, ev, hent⟩
    · rw [getTorrent_of_returned hent]
      exact Or.inl ⟨hback, rfl, hst₁⟩
    · rcases hlink : row.symlinkAttribute with _ | _
      · rw [getTorrent_of_plain hent hlink] at hres ⊢
        exact Or.inr ⟨k, row, st₁, st₁, disk, _, hgo, hst₁, Or.inl ⟨hlink, rfl, rfl⟩, rfl, hres,
          rfl, rfl⟩
      rcases getTorrent_of_link hent hlink fuel disk with
        ⟨-, ho⟩ | ⟨target, st₂, disk₂, ev₂, hto, ⟨s, -, ho⟩ | ⟨hin, ho⟩⟩ <;> rw [ho] at hres ⊢
      · cases hres
      · cases hres
      · have hto : LinkTo c.list path (cstr target) :=
          ⟨fuel, k, row, hgo.index_eq, hgo.row_eq, hlink, by rw [hto, Option.map_some]⟩
        exact Or.inr ⟨k, row, st₁, st₂, disk₂, _, hgo, hst₁,
          Or.inr ⟨hlink, fuel, cstr target, ev₂, rfl, hto, hin⟩, rfl, hres, rfl, rfl⟩
    · rw [getTorrent_of_stopped hent] at hres
      cases hres

/-- **A call for a link, with enough fuel**, is the call on the target and the second part. -/
theorem GoesOn.getTorrent (hgo : c.GoesOn depth path k row) (hst : c.Before depth st)
    (hname : torrentName path = c.name) {target : Bytes} (hto : LinkTo c.list path target)
    (disk : Disk) :
    ∃ st₁, c.StatusAt depth st₁ ∧ ∀ fuel s,
      (getTorrent c.env fuel (depth + 1) target st₁ disk).result = s → s ≠ .error .stuck →
      ∃ fuel', (getTorrent c.env fuel' depth path st disk).result =
        match s with
        | .error s => .error s
        | .ok _ => (fetch c.env depth path c.name k row
            (InstantMirror.getTorrent c.env fuel (depth + 1) target st₁ disk).status
            (InstantMirror.getTorrent c.env fuel (depth + 1) target st₁ disk).disk).result := by
  rcases hst.enter hname with ⟨hback, -⟩ | ⟨k', row', st₁, ev, hgo', hent, hst₁⟩ | ⟨-, hnot, -⟩
  · exact absurd hback hgo.not_turnsBack
  · obtain ⟨rfl, rfl⟩ := hgo.unique hgo'
    refine ⟨st₁, hst₁, fun fuel s hs hne => ?_⟩
    obtain ⟨fuel', hfuel'⟩ :=
      exists_getTorrent_of_linkTo hent hgo.index_eq hgo.row_eq hto rfl (hs ▸ hne)
    refine ⟨fuel', ?_⟩
    rw [hfuel', hs]
    rcases s with s | _ <;> rfl
  · exact absurd hgo (hnot k row)

/-- A call that ends the chain returns. -/
theorem EndsAt.getTorrent (hend : c.EndsAt depth path) (hst : c.Before depth st)
    (hname : torrentName path = c.name) (disk : Disk) :
    (getTorrent c.env 1 depth path st disk).result = .ok () := by
  rcases hst.enter hname with ⟨-, st₁, ev, hent, -⟩ | ⟨k, row, st₁, ev, hgo, hent, hst₁⟩ |
    ⟨hback, hnot, -⟩
  · rw [getTorrent_of_returned hent]
  · obtain ⟨k', row', hgo', hlink, hret⟩ := hend.resolve_left hgo.not_turnsBack
    obtain ⟨rfl, rfl⟩ := hgo.unique hgo'
    rw [getTorrent_of_plain hent hlink, Outcome.after_result]
    obtain ⟨-, ⟨hres, -⟩ | ⟨-, hne, hfin, hno⟩ | ⟨-, hne, hnever⟩⟩ := hst₁.sized.fetch hgo disk rfl
    · exact hres
    · exact absurd ((hret hne).2 hfin) hno
    · exact absurd hnever (hret hne).1
  · rcases hend with hback' | ⟨k, row, hgo, -⟩
    · exact absurd hback' hback
    · exact absurd hgo (hnot k row)

/-- **A chain that the condition says returns does so.** -/
theorem Returns.exists_ok : ∀ {depth : ℕ} {path : Bytes} {st : TorrentStatus},
    c.Returns depth path → c.Before depth st → torrentName path = c.name → (0 : UInt8) ∉ path →
    ∀ disk, ∃ fuel, (getTorrent c.env fuel depth path st disk).result = .ok () := by
  rintro depth path st ⟨n, last, hlinks, hpass, hend⟩
  induction n generalizing depth path st with
  | zero =>
    obtain rfl : path = last := hlinks
    exact fun hst hname _ disk => ⟨1, EndsAt.getTorrent hend hst hname disk⟩
  | succ n ih =>
    intro hst hname hpath disk
    obtain ⟨target, hto, hlinks⟩ := hlinks
    obtain ⟨⟨k, row, hgo, hlink, hret⟩, hrest⟩ := (@forall_linksTo_succ c.list path target n
      (fun i q => c.PassesAt (depth + i) q) hto).mp hpass
    obtain ⟨hname', hpath'⟩ := hto.torrentName hpath
    obtain ⟨st₁, hst₁, hcall⟩ := hgo.getTorrent hst hname hto disk
    obtain ⟨fuel, hfuel⟩ := @ih (depth + 1) target st₁ hlinks
      (fun i hi q hq => by
        rw [Nat.add_assoc, Nat.add_comm 1 i]
        exact hrest i hi q hq)
      (by rwa [Nat.add_assoc, Nat.add_comm 1 n]) hst₁ (hname'.trans hname) hpath' disk
    obtain ⟨-, -, hsized⟩ := (getTorrent_cases fuel (depth + 1) target st₁ disk hst₁
      (hname'.trans hname) hpath' _ rfl).resolve_right (by simp [hfuel])
    obtain ⟨fuel', hfuel'⟩ := hcall fuel _ hfuel (by simp)
    refine ⟨fuel', hfuel'.trans ?_⟩
    obtain ⟨-, ⟨hres, -⟩ | ⟨-, hne, hfin, hno⟩ | ⟨-, hne, hnever⟩⟩ :=
      (hsized hst₁.sized).fetch hgo
        (InstantMirror.getTorrent c.env fuel (depth + 1) target st₁ disk).disk rfl
    · exact hres
    · exact absurd ((hret hne).2 hfin) hno
    · exact absurd hnever (hret hne).1

/-- A call that leaves its arrays itself, if the calls behind it return. -/
theorem exists_undefined_of_not_staysAt (hleaves : ¬ c.StaysAt depth path)
    (hst : c.Before depth st) (hname : torrentName path = c.name) (hpath : (0 : UInt8) ∉ path)
    (disk : Disk) :
    ∃ fuel, (getTorrent c.env fuel depth path st disk).result = .error .undefined := by
  rcases hst.enter hname with ⟨hback, -⟩ | ⟨k, row, st₁, ev, hgo, hent, hst₁⟩ |
    ⟨-, -, st₁, ev, hent⟩
  · refine absurd ⟨Or.inl hback, fun k row hgo => ?_⟩ hleaves
    exact absurd hback hgo.not_turnsBack
  · obtain ⟨k', row', hgo', hret, hdl⟩ : ∃ k row, c.GoesOn depth path k row ∧
        (row.symlinkAttribute = true → ∃ target, LinkTo c.list path target ∧
          c.Returns (depth + 1) target) ∧ c.DownloadLeaves depth k := by
      by_contra hno
      refine hleaves ⟨Or.inr ⟨k, row, hgo⟩, fun k row hgo hret hdl => hno ⟨k, row, hgo, hret, hdl⟩⟩
    obtain ⟨rfl, rfl⟩ := hgo.unique hgo'
    -- where there is no room, the second part leaves the array
    have hfetch : ∀ st disk, c.Sized st →
        (fetch c.env depth path c.name k row st disk).result = .error .undefined := by
      intro st disk hsized
      obtain ⟨-, ⟨-, hret'⟩ | ⟨hres, -⟩ | ⟨-, -, hnever⟩⟩ := hsized.fetch hgo disk rfl
      · exact absurd ((hret' hdl.1).2 hdl.2.1) hdl.2.2
      · exact hres
      · exact absurd (hdl.2.1.symm.trans hnever) (by decide)
    rcases hlink : row.symlinkAttribute with _ | _
    · refine ⟨1, ?_⟩
      rw [getTorrent_of_plain hent hlink, Outcome.after_result]
      exact hfetch st₁ disk hst₁.sized
    · obtain ⟨target, hto, hreturns⟩ := hret hlink
      obtain ⟨hname', hpath'⟩ := hto.torrentName hpath
      obtain ⟨st₁, hst₁, hcall⟩ := hgo.getTorrent hst hname hto disk
      obtain ⟨fuel, hfuel⟩ := hreturns.exists_ok (show c.Before (depth + 1) st₁ from hst₁)
        (hname'.trans hname) hpath' disk
      obtain ⟨-, -, hsized⟩ := (getTorrent_cases fuel (depth + 1) target st₁ disk hst₁
        (hname'.trans hname) hpath' _ rfl).resolve_right (by simp [hfuel])
      obtain ⟨fuel', hfuel'⟩ := hcall fuel _ hfuel (by simp)
      exact ⟨fuel', hfuel'.trans (hfetch _ _ (hsized hst₁.sized))⟩
  · exact ⟨1, by rw [getTorrent_of_stopped hent]⟩

/-- **A chain that the condition says leaves its arrays does so.** -/
theorem exists_undefined (hst : c.Before depth st) (hname : torrentName path = c.name)
    (hpath : (0 : UInt8) ∉ path) (hleaves : ¬ c.Stays depth path) (disk : Disk) :
    ∃ fuel, (getTorrent c.env fuel depth path st disk).result = .error .undefined := by
  simp only [Stays, not_forall] at hleaves
  obtain ⟨n, last, hlinks, hreach, hleaves⟩ := hleaves
  induction n generalizing depth path st with
  | zero =>
    obtain rfl : path = last := hlinks
    exact exists_undefined_of_not_staysAt hleaves hst hname hpath disk
  | succ n ih =>
    obtain ⟨target, hto, hlinks⟩ := hlinks
    obtain ⟨⟨k, row, hgo⟩, hreach⟩ := (@forall_linksTo_succ c.list path target n
      (fun i q => ∃ k row, c.GoesOn (depth + i) q k row) hto).mp hreach
    obtain ⟨hname', hpath'⟩ := hto.torrentName hpath
    obtain ⟨st₁, hst₁, hcall⟩ := hgo.getTorrent hst hname hto disk
    obtain ⟨fuel, hfuel⟩ := @ih (depth + 1) target st₁ hst₁ (hname'.trans hname) hpath' hlinks
      (fun i hi q hq => by
        rw [Nat.add_assoc, Nat.add_comm 1 i]
        exact hreach i hi q hq)
      (by rwa [Nat.add_assoc, Nat.add_comm 1 n])
    exact (hcall fuel _ hfuel (by simp)).imp fun fuel' hfuel' => hfuel'

/-- **A request for a file returns exactly if the condition says so.** -/
theorem getTorrent_ok_iff (hname : torrentName path = c.name) (hpath : (0 : UInt8) ∉ path)
    (disk : Disk) : (∃ fuel, (getTorrent c.env fuel 0 path c.status disk).result = .ok ()) ↔
      c.Returns 0 path := by
  refine ⟨fun ⟨fuel, hfuel⟩ => ?_, fun h => h.exists_ok rfl hname hpath disk⟩
  obtain ⟨-, hreturns, -⟩ := (getTorrent_cases fuel 0 path c.status disk rfl hname hpath _
    rfl).resolve_right (by simp [hfuel])
  exact hreturns

/-- **A request for a file stays inside its arrays exactly if the condition says so.** -/
theorem getTorrent_ne_undefined_iff (hname : torrentName path = c.name)
    (hpath : (0 : UInt8) ∉ path) (disk : Disk) :
    (∀ fuel, (getTorrent c.env fuel 0 path c.status disk).result ≠ .error .undefined) ↔
      c.Stays 0 path := by
  constructor
  · intro h
    by_contra hleaves
    obtain ⟨fuel, hfuel⟩ := exists_undefined (show c.Before 0 c.status from rfl) hname hpath
      hleaves disk
    exact h fuel hfuel
  · intro hstays fuel hundef
    rcases getTorrent_cases fuel 0 path c.status disk rfl hname hpath _ rfl with
      ⟨hok, -⟩ | ⟨-, hleaves⟩ | hstuck
    · rw [hok] at hundef
      cases hundef
    · exact hleaves hstays
    · rw [hstuck] at hundef
      cases hundef

end Chain

end Calls

end InstantMirror
