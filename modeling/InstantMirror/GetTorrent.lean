import InstantMirror.Disk
import InstantMirror.Symlink
import InstantMirror.TorrentStatus

/-!
# Fetching a file of a torrent

`getTorrent` of `daemon.cpp`, the one function of the daemon that downloads. In
order, a call

* starts a libtorrent session and finds the index of the requested file
  (`InstantMirror.enter`);
* compares the modification time of the `.torrent` file with the one the status
  remembers, and migrates the status when they differ (`InstantMirror.validate`);
* returns early when the flag of the file is set;
* follows a symbolic link by calling itself on the resolved target;
* downloads the file, taking up the torrent first when the status is still empty,
  and sets the flag (`InstantMirror.fetch`).

Everything happens inside one `try` block: an exception ends the call and the
caller sees an ordinary return. What does not return at all is a
`InstantMirror.Stop`.

What libtorrent does is not up to the daemon. An `InstantMirror.Env` says it for
each call of the chain that links make – the call at depth `n` has the session
`net n` – together with the content of `TORRENT_LOCATION`, which stays as it is
while a request is handled, and with what is found outside the array of flags.

Calls nest one in another for links, and the loop that resolves a link need not
end, so the function runs on fuel; a run that uses it up is
`InstantMirror.Stop.stuck`, as is a download that never finishes.
-/

namespace InstantMirror

/-- `TORRENT_LOCATION`. -/
def torrentLocation : Bytes := ascii "../torrents/"

/-! ### The surroundings of a call -/

/-- **What libtorrent does for one call.** -/
inductive Session where
  /-- The constructor of the session throws. -/
  | noSession : Session
  /-- `listen_on`, `add_torrent` or `prioritize_files` throws. -/
  | addThrows : Session
  /-- `status` throws while the daemon waits. -/
  | statusThrows : Session
  /-- The torrent is reported as finished: the prioritised file is complete on the
  disk. -/
  | finished : Session
  /-- The torrent is never reported as finished. -/
  | never : Session
deriving DecidableEq

/-- **The surroundings of a request.** -/
structure Env where
  /-- The content of `TORRENT_LOCATION`. -/
  dir : TorrentDir
  /-- What libtorrent does for the call at each depth. -/
  net : ℕ → Session
  /-- What the call at each depth finds outside the array of flags. -/
  outside : ℕ → Outside
  /-- Whether a download that does not finish has begun to write. -/
  begun : ℕ → Bool

/-- Surroundings in which every download finishes. -/
def Env.finishing (dir : TorrentDir) : Env :=
  ⟨dir, fun _ => .finished, fun _ _ => some false, fun _ => false⟩

/-- Why something does not return. -/
inductive Stop where
  /-- `exit(-1)` was called. -/
  | exited : Stop
  /-- An array was left: the run has no further meaning. -/
  | undefined : Stop
  /-- It goes on for ever. -/
  | stuck : Stop
  /-- A message was sent to a client that is gone, and the signal ends the
  process. -/
  | sigpipe : Stop
deriving DecidableEq

/-- A `.torrent` file as it was at some time. -/
structure Snapshot where
  /-- Its name in `TORRENT_LOCATION`. -/
  name : Bytes
  /-- Its modification time, as `lstat` reported it. -/
  mtime : ℤ
  /-- What it said. -/
  info : TorrentInfo
deriving DecidableEq

/-- **What a request does, as far as anybody can tell afterwards.** -/
inductive Event where
  /-- `getTorrent` was called, with this status. -/
  | call (env : Env) (depth : ℕ) (path : Bytes) (st : TorrentStatus) : Event
  /-- It returned early, the flag of this row being set. -/
  | early (row : Option TorFile) : Event
  /-- The array of flags was made for this `.torrent` file. -/
  | sized (snap : Snapshot) : Event
  /-- The pieces of a file of a torrent were stored. -/
  | spilled (ti : TorrentInfo) (index : ℕ) : Event
  /-- A file was downloaded. -/
  | downloaded (e : FileEntry) : Event
  /-- `utime` was called. -/
  | touched (path : Bytes) (mtime : ℤ) : Event
  /-- An `ofstream` on this path was written. -/
  | saved (path : Bytes) : Event

/-- **What libtorrent does to the disk** in an event. -/
def Disk.replay (disk : Disk) : Event → Disk
  | .spilled ti index => disk.spill ti index
  | .downloaded e => disk.complete e
  | _ => disk

/-- **How a function of the daemon ends**: with a value or for good, and with the
status, the disk and the events it leaves. -/
structure Outcome (α : Type) where
  /-- The value returned, or why there is none. -/
  result : Except Stop α
  /-- The status afterwards. -/
  status : TorrentStatus
  /-- The disk afterwards. -/
  disk : Disk
  /-- What was done. -/
  events : List Event

/-- The same outcome, with something done before. -/
def Outcome.after {α : Type} (o : Outcome α) (events : List Event) : Outcome α :=
  { o with events := events ++ o.events }

section Projections

variable {α : Type} (o : Outcome α) (events : List Event)

@[simp] theorem Outcome.after_result : (o.after events).result = o.result := rfl

@[simp] theorem Outcome.after_status : (o.after events).status = o.status := rfl

@[simp] theorem Outcome.after_events : (o.after events).events = events ++ o.events := rfl

end Projections

/-! ### Up to the early return -/

/-- `torrent_name` of `getTorrent`: the path up to its first slash. -/
def torrentName (path : Bytes) : Bytes := substrTo path (find path slash)

/-- `torrent_file_name` of `getTorrent`: the path after its first slash. -/
def torrentFileName (path : Bytes) : Bytes := substrFrom path (find path slash + 1)

/-- **The block around `snapshotMigration`**: the status is migrated when it goes
with a `.torrent` file of another modification time. -/
def validate (env : Env) (depth : ℕ) (name : Bytes) (st : TorrentStatus) :
    Migrated × List Event :=
  match env.dir.entry name with
  | none => (.done st, [])
  | some e =>
    if st.empty = false ∧ st.isTorrentValid e.mtime = false then
      (st.snapshotMigration (env.outside depth) env.dir name,
        match torrentInfo env.dir name with
        | none => []
        | some ti => [.sized ⟨name, e.linkMtime, ti⟩])
    else (.done st, [])

/-- Where a call stands after its first part. -/
inductive Entered where
  /-- It does not return. -/
  | stopped (s : Stop) : Entered
  /-- It has returned. -/
  | returned : Entered
  /-- It goes on with this row of the torrent of this name. -/
  | fetch (name : Bytes) (index : ℕ) (row : TorFile) : Entered

/-- `priorities_files[index_t] = 1` and `list[index_t]`, both vectors having one
element per row. -/
def prioritise (list : List TorFile) (name : Bytes) (index : ℤ) : Entered :=
  if 0 ≤ index then
    match list[index.toNat]? with
    | some row => .fetch name index.toNat row
    | none => .stopped .undefined
  else .stopped .undefined

/-- **The first part of a call**, up to the test for a link: where it stands, the
status and the events. -/
def enter (env : Env) (depth : ℕ) (path : Bytes) (st : TorrentStatus) :
    Entered × TorrentStatus × List Event :=
  if env.net depth = .noSession then (.returned, st, [])
  else
    match gettor env.dir (torrentName path) with
    | none => (.stopped .exited, st, [])
    | some list =>
      let index := checkIndex list (torrentName path) (torrentFileName path)
      match validate env depth (torrentName path) st with
      | (.threw, _) => (.returned, st, [])
      | (.undefined, _) => (.stopped .undefined, st, [])
      | (.done st₁, ev) =>
        if st₁.empty then (prioritise list (torrentName path) index, st₁, ev)
        else
          match flagAt (env.outside depth) st₁.fileStatus index with
          | none => (.stopped .undefined, st₁, ev)
          | some true =>
            (.returned, st₁, ev ++ [.early (if 0 ≤ index then list[index.toNat]? else none)])
          | some false => (prioritise list (torrentName path) index, st₁, ev)

/-! ### From the download on -/

/-- **The block that takes up the torrent**, when the status is still empty. -/
def TorrentStatus.takeUp (st : TorrentStatus) (dir : TorrentDir) (name : Bytes)
    (ti : TorrentInfo) : TorrentStatus :=
  let st₁ : TorrentStatus :=
    { st with torrentDetails := ti, fileName := name, filePath := torrentLocation ++ name }
  { st₁.init with
    empty := false
    timestamp :=
      match dir.entry name with
      | some e => e.linkMtime
      | none => st.timestamp }

/-- The status once the torrent has been taken up, and the event of doing so. -/
def takenUp (env : Env) (name : Bytes) (ti : TorrentInfo) (st : TorrentStatus) :
    TorrentStatus × List Event :=
  if st.empty then
    (st.takeUp env.dir name ti, [.sized ⟨name, (st.takeUp env.dir name ti).timestamp, ti⟩])
  else (st, [])

/-- What libtorrent does before the torrent is reported as finished. -/
def download (ti : TorrentInfo) (index : ℕ) : List Event :=
  match ti.files[index]? with
  | some e => [.spilled ti index, .downloaded e]
  | none => []

/-- What it has done when the daemon stops waiting. -/
def begunDownload (env : Env) (depth : ℕ) (ti : TorrentInfo) (index : ℕ) : List Event :=
  if env.begun depth then [.spilled ti index] else []

/-- **The second part of a call**, from `listen_on` on. A `torrent_info` without
files makes `add_torrent` throw. -/
def fetch (env : Env) (depth : ℕ) (path name : Bytes) (index : ℕ) (row : TorFile)
    (st : TorrentStatus) (disk : Disk) : Outcome Unit :=
  match torrentInfo env.dir name with
  | none => ⟨.ok (), st, disk, []⟩
  | some ti =>
    if ti.files = [] ∨ env.net depth = .addThrows then ⟨.ok (), st, disk, []⟩
    else
      let (st₁, ev) := takenUp env name ti st
      match env.net depth with
      | .statusThrows =>
        let dl := begunDownload env depth ti index
        ⟨.ok (), st₁, dl.foldl Disk.replay disk, ev ++ dl⟩
      | .never =>
        let dl := begunDownload env depth ti index
        ⟨.error .stuck, st₁, dl.foldl Disk.replay disk, ev ++ dl⟩
      | _ =>
        let dl := download ti index
        match setFlag st₁.fileStatus index with
        | none => ⟨.error .undefined, st₁, dl.foldl Disk.replay disk, ev ++ dl⟩
        | some flags =>
          ⟨.ok (), { st₁ with fileStatus := flags }, dl.foldl Disk.replay disk,
            ev ++ dl ++ [.touched (diskLocation ++ path) row.mtime]⟩

/-! ### The whole call -/

/-- **`getTorrent`**, at a depth of the chain of links. -/
def getTorrent (env : Env) : ℕ → ℕ → Bytes → TorrentStatus → Disk → Outcome Unit
  | 0, _, _, st, disk => ⟨.error .stuck, st, disk, []⟩
  | fuel + 1, depth, path, st, disk =>
    let started := Event.call env depth path st
    match enter env depth path st with
    | (.stopped s, st₁, ev) => ⟨.error s, st₁, disk, started :: ev⟩
    | (.returned, st₁, ev) => ⟨.ok (), st₁, disk, started :: ev⟩
    | (.fetch name index row, st₁, ev) =>
      if row.symlinkAttribute then
        match resolveLink fuel (path ++ slash :: row.symlinkPath) with
        | none => ⟨.error .stuck, st₁, disk, started :: ev⟩
        | some target =>
          -- the target is handed over as a C string
          let inner := getTorrent env fuel (depth + 1) (cstr target) st₁ disk
          match inner.result with
          | .error s => ⟨.error s, inner.status, inner.disk, started :: ev ++ inner.events⟩
          | .ok _ =>
            (fetch env depth path name index row inner.status inner.disk).after
              (started :: ev ++ inner.events)
      else (fetch env depth path name index row st₁ disk).after (started :: ev)

/-! ### What each part can do -/

section Parts

variable {env : Env} {depth index : ℕ} {path name : Bytes} {row : TorFile}
  {st st₁ : TorrentStatus} {disk : Disk} {ev : List Event}

theorem torrentName_append {a : Bytes} (h : slash ∉ a) (b : Bytes) :
    torrentName (a ++ slash :: b) = a := by
  rw [torrentName, find_append_cons h, substrTo_length_append]

theorem torrentName_of_notMem (h : slash ∉ path) : torrentName path = path := by
  rw [torrentName, find_of_notMem h]
  rfl

/-- **A link leads to a path in the same torrent**: the first component is kept by the loop,
and holds no NUL. -/
theorem cstr_resolveLink {fuel : ℕ} {rest target : Bytes}
    (h : resolveLink fuel (name ++ slash :: rest) = some target) (hname : slash ∉ name)
    (hname₀ : (0 : UInt8) ∉ name) : ∃ rest', cstr target = name ++ slash :: rest' := by
  obtain ⟨rest, rfl⟩ := resolveLink_keeps hname h
  have h₀ : (0 : UInt8) ∉ name ++ [slash] := by simpa [slash] using hname₀
  exact ⟨cstr rest, by rw [List.append_cons, cstr_append_of_notMem h₀, ← List.append_cons]⟩

theorem torrentName_resolveLink {fuel : ℕ} {link target : Bytes}
    (h : resolveLink fuel (path ++ slash :: link) = some target) (hpath : (0 : UInt8) ∉ path) :
    torrentName (cstr target) = torrentName path := by
  by_cases hs : slash ∈ path
  · obtain ⟨a, b, rfl, ha⟩ := exists_split hs
    rw [List.append_assoc, List.cons_append] at h
    obtain ⟨rest, hrest⟩ := cstr_resolveLink h ha fun h => hpath (List.mem_append_left _ h)
    rw [hrest, torrentName_append ha, torrentName_append ha]
  · obtain ⟨rest, hrest⟩ := cstr_resolveLink h hs hpath
    rw [hrest, torrentName_append hs, torrentName_of_notMem hs]

theorem torrentFileName_append {a : Bytes} (h : slash ∉ a) (b : Bytes) :
    torrentFileName (a ++ slash :: b) = b := by
  rw [torrentFileName, find_append_cons h, substrFrom_length_append]

/-- **What the block around `snapshotMigration` can do** when it does not end the
call: nothing, because the status is empty or goes with the file as it is; or
migrate the status to what the file says now. -/
theorem validate_done (h : validate env depth name st = (.done st₁, ev)) :
    (st₁ = st ∧ ev = [] ∧ (st.empty = true ∨
        ∀ e, env.dir.entry name = some e → st.isTorrentValid e.mtime = true)) ∨
      ∃ e ti flags, env.dir.entry name = some e ∧ st.empty = false ∧
        st.isTorrentValid e.mtime = false ∧ torrentInfo env.dir name = some ti ∧
        migrateOuter (env.outside depth) st.fileStatus ti.files st.torrentDetails.files 1
          (List.replicate ti.numFiles false) = some flags ∧
        st₁ = { st with
          timestamp := e.linkMtime, fileStatus := flags, totalFiles := ti.numFiles } ∧
        ev = [.sized ⟨name, e.linkMtime, ti⟩] := by
  rw [validate] at h
  rcases hent : env.dir.entry name with _ | e
  · simp only [hent, Prod.mk.injEq, Migrated.done.injEq] at h
    exact Or.inl ⟨h.1.symm, h.2.symm, Or.inr (by simp)⟩
  simp only [hent] at h
  by_cases hc : st.empty = false ∧ st.isTorrentValid e.mtime = false
  · rw [if_pos hc, TorrentStatus.snapshotMigration] at h
    rcases hti : torrentInfo env.dir name with _ | ti
    · simp [hti] at h
    rcases hfl : migrateOuter (env.outside depth) st.fileStatus ti.files
        st.torrentDetails.files 1 (List.replicate ti.numFiles false) with _ | flags
    · simp [hti, hfl] at h
    simp only [hti, hfl, hent, Prod.mk.injEq, Migrated.done.injEq] at h
    exact Or.inr ⟨e, ti, flags, rfl, hc.1, hc.2, rfl, hfl, h.1.symm, h.2.symm⟩
  · rw [if_neg hc] at h
    simp only [Prod.mk.injEq, Migrated.done.injEq] at h
    refine Or.inl ⟨h.1.symm, h.2.symm, ?_⟩
    by_cases hem : st.empty = true
    · exact Or.inl hem
    · refine Or.inr fun e' he' => ?_
      obtain rfl := Option.some.inj he'
      simpa [Bool.eq_false_iff.mpr hem] using hc

/-- Only a row of the list is fetched. -/
theorem prioritise_eq_fetch {list : List TorFile} {i : ℤ} {n : Bytes}
    (h : prioritise list name i = .fetch n index row) :
    n = name ∧ i = index ∧ list[index]? = some row := by
  rw [prioritise] at h
  split at h
  · rename_i hi
    split at h
    · rename_i row' hrow
      simp only [Entered.fetch.injEq] at h
      obtain ⟨rfl, rfl, rfl⟩ := h
      exact ⟨rfl, by omega, hrow⟩
    · cases h
  · cases h

theorem prioritise_of_getElem? {list : List TorFile} (h : list[index]? = some row) :
    prioritise list name index = .fetch name index row := by
  rw [prioritise, if_pos (Int.natCast_nonneg _), Int.toNat_natCast, h]

/-- **The first part of a call, with the status validated**: it ends at a flag outside the array,
ends early, or goes on to the row. -/
theorem enter_of_done (hnet : env.net depth ≠ .noSession) {list : List TorFile}
    (hlist : gettor env.dir (torrentName path) = some list)
    (hval : validate env depth (torrentName path) st = (.done st₁, ev)) :
    let i := checkIndex list (torrentName path) (torrentFileName path)
    (st₁.empty = false ∧ flagAt (env.outside depth) st₁.fileStatus i = none ∧
        enter env depth path st = (.stopped .undefined, st₁, ev)) ∨
      (st₁.empty = false ∧ flagAt (env.outside depth) st₁.fileStatus i = some true ∧
        enter env depth path st =
          (.returned, st₁, ev ++ [.early (if 0 ≤ i then list[i.toNat]? else none)])) ∨
      ((st₁.empty = true ∨ flagAt (env.outside depth) st₁.fileStatus i = some false) ∧
        enter env depth path st = (prioritise list (torrentName path) i, st₁, ev)) := by
  simp only [enter, if_neg hnet, hlist, hval]
  by_cases hem : st₁.empty = true
  · exact Or.inr (Or.inr ⟨Or.inl hem, if_pos hem⟩)
  · have hem' : st₁.empty = false := Bool.eq_false_iff.mpr hem
    simp only [if_neg hem]
    rcases hfl : flagAt (env.outside depth) st₁.fileStatus
        (checkIndex list (torrentName path) (torrentFileName path)) with _ | _ | _
    · exact Or.inl ⟨hem', rfl, rfl⟩
    · exact Or.inr (Or.inr ⟨Or.inr rfl, rfl⟩)
    · exact Or.inr (Or.inl ⟨hem', rfl, rfl⟩)

/-- **What the first part of a call can do**: end without any effect; or, with the
status validated, end at a flag outside the array, end early, or go on to the
row. -/
theorem enter_cases (env : Env) (depth : ℕ) (path : Bytes) (st : TorrentStatus) :
    (∃ s, enter env depth path st = (.stopped s, st, [])) ∨
      enter env depth path st = (.returned, st, []) ∨
      ∃ list st₁ ev, env.net depth ≠ .noSession ∧
        gettor env.dir (torrentName path) = some list ∧
        validate env depth (torrentName path) st = (.done st₁, ev) ∧
        let i := checkIndex list (torrentName path) (torrentFileName path)
        (st₁.empty = false ∧ flagAt (env.outside depth) st₁.fileStatus i = none ∧
            enter env depth path st = (.stopped .undefined, st₁, ev)) ∨
          (st₁.empty = false ∧ flagAt (env.outside depth) st₁.fileStatus i = some true ∧
            enter env depth path st =
              (.returned, st₁, ev ++ [.early (if 0 ≤ i then list[i.toNat]? else none)])) ∨
          ((st₁.empty = true ∨ flagAt (env.outside depth) st₁.fileStatus i = some false) ∧
            enter env depth path st = (prioritise list (torrentName path) i, st₁, ev)) := by
  by_cases hnet : env.net depth = .noSession
  · exact Or.inr (Or.inl (if_pos hnet))
  rcases hlist : gettor env.dir (torrentName path) with _ | list
  · exact Or.inl ⟨.exited, by simp only [enter, if_neg hnet, hlist]⟩
  rcases hval : validate env depth (torrentName path) st with ⟨_ | _ | st₁, ev⟩
  · exact Or.inr (Or.inl (by simp only [enter, if_neg hnet, hlist, hval]))
  · exact Or.inl ⟨.undefined, by simp only [enter, if_neg hnet, hlist, hval]⟩
  · exact Or.inr (Or.inr ⟨list, st₁, ev, hnet, rfl, rfl, enter_of_done hnet hlist hval⟩)

theorem enter_of_noSession (hnet : env.net depth = .noSession) (path : Bytes)
    (st : TorrentStatus) : enter env depth path st = (.returned, st, []) := if_pos hnet

/-- The first part of a call for a file of the torrent, from the flag on. -/
theorem enter_of_validate (hnet : env.net depth ≠ .noSession) {list : List TorFile}
    (hlist : gettor env.dir (torrentName path) = some list)
    (hval : validate env depth (torrentName path) st = (.done st₁, ev))
    (hindex : checkIndex list (torrentName path) (torrentFileName path) = index)
    (hrow : list[index]? = some row) :
    enter env depth path st =
      if st₁.empty then (.fetch (torrentName path) index row, st₁, ev)
      else
        match flagAt (env.outside depth) st₁.fileStatus index with
        | none => (.stopped .undefined, st₁, ev)
        | some true => (.returned, st₁, ev ++ [.early (some row)])
        | some false => (.fetch (torrentName path) index row, st₁, ev) := by
  simp only [enter, if_neg hnet, hlist, hval, hindex, prioritise_of_getElem? hrow,
    Int.natCast_nonneg, if_true, Int.toNat_natCast, hrow]

/-- A status that is empty, or a flag that is clear, makes it go on. -/
theorem enter_of_clear (hnet : env.net depth ≠ .noSession) {list : List TorFile}
    (hlist : gettor env.dir (torrentName path) = some list)
    (hval : validate env depth (torrentName path) st = (.done st₁, ev))
    (hindex : checkIndex list (torrentName path) (torrentFileName path) = index)
    (hrow : list[index]? = some row)
    (hclear : st₁.empty = true ∨ flagAt (env.outside depth) st₁.fileStatus index = some false) :
    enter env depth path st = (.fetch (torrentName path) index row, st₁, ev) := by
  rw [enter_of_validate hnet hlist hval hindex hrow]
  by_cases hem : st₁.empty = true
  · exact if_pos hem
  · rw [if_neg hem]
    simp only [hclear.resolve_left hem]

/-- A call that goes on has found its file, with the flag clear. -/
theorem enter_eq_fetch_clear (h : enter env depth path st = (.fetch name index row, st₁, ev)) :
    env.net depth ≠ .noSession ∧ name = torrentName path ∧
      ∃ list, gettor env.dir (torrentName path) = some list ∧
        validate env depth (torrentName path) st = (.done st₁, ev) ∧
        checkIndex list (torrentName path) (torrentFileName path) = index ∧
        list[index]? = some row ∧
        (st₁.empty = true ∨ flagAt (env.outside depth) st₁.fileStatus index = some false) := by
  rcases enter_cases env depth path st with ⟨s, hs⟩ | hs |
    ⟨list, st₂, ev₂, hnet, hlist, hval, ⟨-, -, hs⟩ | ⟨-, -, hs⟩ | ⟨hclear, hs⟩⟩ <;> rw [hs] at h
  · cases h
  · cases h
  · cases h
  · cases h
  · obtain ⟨hfetch, hst⟩ := Prod.mk.inj h
    obtain ⟨rfl, rfl⟩ := Prod.mk.inj hst
    obtain ⟨rfl, hindex, hrow⟩ := prioritise_eq_fetch hfetch
    rw [hindex] at hclear
    exact ⟨hnet, rfl, list, hlist, hval, hindex, hrow, hclear⟩

/-- A call that goes on has a session, and goes on with a row of the list. -/
theorem enter_eq_fetch (h : enter env depth path st = (.fetch name index row, st₁, ev)) :
    env.net depth ≠ .noSession ∧ name = torrentName path ∧
      ∃ list, gettor env.dir name = some list ∧
        checkIndex list name (torrentFileName path) = index ∧ list[index]? = some row := by
  obtain ⟨hnet, rfl, list, hlist, -, hindex, hrow, -⟩ := enter_eq_fetch_clear h
  exact ⟨hnet, rfl, list, hlist, hindex, hrow⟩

/-- A torrent is taken up when the status is empty, and only then. -/
theorem takenUp_cases {ti : TorrentInfo} (h : takenUp env name ti st = (st₁, ev)) :
    (st.empty = true ∧ st₁ = st.takeUp env.dir name ti ∧
        ev = [.sized ⟨name, (st.takeUp env.dir name ti).timestamp, ti⟩]) ∨
      (st.empty = false ∧ st₁ = st ∧ ev = []) := by
  rw [takenUp] at h
  split at h
  · rename_i hem
    obtain ⟨rfl, rfl⟩ := Prod.mk.inj h
    exact Or.inl ⟨hem, rfl, rfl⟩
  · rename_i hem
    obtain ⟨rfl, rfl⟩ := Prod.mk.inj h
    exact Or.inr ⟨Bool.eq_false_iff.mpr hem, rfl, rfl⟩

theorem eq_of_mem_begunDownload {ti : TorrentInfo} {e : Event}
    (h : e ∈ begunDownload env depth ti index) : e = .spilled ti index := by
  rw [begunDownload] at h
  split at h
  · exact List.mem_singleton.mp h
  · cases h

theorem download_of_some {ti : TorrentInfo} {e : FileEntry} (h : ti.files[index]? = some e) :
    download ti index = [.spilled ti index, .downloaded e] := by
  rw [download, h]

/-- **What the second part of a call can do**: end without any effect; or, with a
`torrent_info` that has files and with the torrent taken up, give up waiting, wait
for ever, or finish the download and set the flag – if it is in the array. -/
theorem fetch_cases (hnet : env.net depth ≠ .noSession) (path name : Bytes) (index : ℕ)
    (row : TorFile) (st : TorrentStatus) (disk : Disk) :
    fetch env depth path name index row st disk = ⟨.ok (), st, disk, []⟩ ∨
      ∃ ti st₁ ev, torrentInfo env.dir name = some ti ∧ ti.files ≠ [] ∧
        takenUp env name ti st = (st₁, ev) ∧
        ((∃ dl, dl = begunDownload env depth ti index ∧
            (fetch env depth path name index row st disk =
                ⟨.ok (), st₁, dl.foldl Disk.replay disk, ev ++ dl⟩ ∨
              fetch env depth path name index row st disk =
                ⟨.error .stuck, st₁, dl.foldl Disk.replay disk, ev ++ dl⟩)) ∨
          ∃ dl, dl = download ti index ∧ env.net depth = .finished ∧
            (setFlag st₁.fileStatus index = none ∧
                fetch env depth path name index row st disk =
                  ⟨.error .undefined, st₁, dl.foldl Disk.replay disk, ev ++ dl⟩ ∨
              ∃ flags, setFlag st₁.fileStatus index = some flags ∧
                fetch env depth path name index row st disk =
                  ⟨.ok (), { st₁ with fileStatus := flags }, dl.foldl Disk.replay disk,
                    ev ++ dl ++ [.touched (diskLocation ++ path) row.mtime]⟩)) := by
  rw [fetch]
  rcases hti : torrentInfo env.dir name with _ | ti
  · exact Or.inl rfl
  by_cases hadd : ti.files = [] ∨ env.net depth = .addThrows
  · exact Or.inl (if_pos hadd)
  simp only [if_neg hadd]
  rw [not_or] at hadd
  rcases htake : takenUp env name ti st with ⟨st₁, ev⟩
  refine Or.inr ⟨ti, st₁, ev, rfl, hadd.1, htake, ?_⟩
  rcases hs : env.net depth with _ | _ | _ | _ | _
  · exact absurd hs hnet
  · exact absurd hs hadd.2
  · exact Or.inl ⟨_, rfl, Or.inl rfl⟩
  · refine Or.inr ⟨_, rfl, rfl, ?_⟩
    rcases hset : setFlag st₁.fileStatus index with _ | flags
    · exact Or.inl ⟨rfl, by simp⟩
    · exact Or.inr ⟨flags, rfl, by simp⟩
  · exact Or.inl ⟨_, rfl, Or.inr rfl⟩

/-- A call that ends with its first part. -/
theorem getTorrent_of_returned (h : enter env depth path st = (.returned, st₁, ev)) (fuel : ℕ)
    (disk : Disk) : getTorrent env (fuel + 1) depth path st disk =
      ⟨.ok (), st₁, disk, .call env depth path st :: ev⟩ := by
  rw [getTorrent, h]

theorem getTorrent_of_stopped {s : Stop} (h : enter env depth path st = (.stopped s, st₁, ev))
    (fuel : ℕ) (disk : Disk) : getTorrent env (fuel + 1) depth path st disk =
      ⟨.error s, st₁, disk, .call env depth path st :: ev⟩ := by
  rw [getTorrent, h]

/-- A call for a file that is no link. -/
theorem getTorrent_of_plain (h : enter env depth path st = (.fetch name index row, st₁, ev))
    (hrow : row.symlinkAttribute = false) (fuel : ℕ) (disk : Disk) :
    getTorrent env (fuel + 1) depth path st disk =
      (fetch env depth path name index row st₁ disk).after (.call env depth path st :: ev) := by
  rw [getTorrent, h]
  simp [hrow]

/-- **A call for a link** goes on for ever while the link is resolved, or ends with the call
on the target, or has its second part after that call. -/
theorem getTorrent_of_link (h : enter env depth path st = (.fetch name index row, st₁, ev))
    (hrow : row.symlinkAttribute = true) (fuel : ℕ) (disk : Disk) :
    (resolveLink fuel (path ++ slash :: row.symlinkPath) = none ∧
        getTorrent env (fuel + 1) depth path st disk =
          ⟨.error .stuck, st₁, disk, .call env depth path st :: ev⟩) ∨
      ∃ target st₂ disk₂ ev₂, resolveLink fuel (path ++ slash :: row.symlinkPath) = some target ∧
        ((∃ s, getTorrent env fuel (depth + 1) (cstr target) st₁ disk =
              ⟨.error s, st₂, disk₂, ev₂⟩ ∧
            getTorrent env (fuel + 1) depth path st disk =
              ⟨.error s, st₂, disk₂, .call env depth path st :: ev ++ ev₂⟩) ∨
          getTorrent env fuel (depth + 1) (cstr target) st₁ disk = ⟨.ok (), st₂, disk₂, ev₂⟩ ∧
            getTorrent env (fuel + 1) depth path st disk =
              (fetch env depth path name index row st₂ disk₂).after
                (.call env depth path st :: ev ++ ev₂)) := by
  rw [getTorrent, h]
  simp only [hrow, if_true]
  rcases resolveLink fuel (path ++ slash :: row.symlinkPath) with _ | target
  · exact Or.inl ⟨rfl, rfl⟩
  right
  rcases hin : getTorrent env fuel (depth + 1) (cstr target) st₁ disk with
    ⟨s | _, st₂, disk₂, ev₂⟩
  · exact ⟨target, st₂, disk₂, ev₂, rfl, Or.inl ⟨s, hin, by simp only [hin]⟩⟩
  · exact ⟨target, st₂, disk₂, ev₂, rfl, Or.inr ⟨hin, by simp only [hin]⟩⟩

end Parts

end InstantMirror
