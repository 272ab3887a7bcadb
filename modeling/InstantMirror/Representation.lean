import InstantMirror.CallRule
import InstantMirror.History

/-!
# What the status object represents

Six fields of `torrentStatus` are meant to describe one `.torrent` file: the one
whose files the array of flags is indexed by. Three pieces of code write them. The
block that takes up a torrent writes them all; `snapshotMigration` writes the
array, the count and the modification time, and forgets the rest.

So the fields fall apart at the first migration to a file that says something else,
or that has another name (`InstantMirror.represents_lost`), and they stay together
in a run that only ever migrates to the file it has, under a new date
(`InstantMirror.represents_of_run`).
-/

namespace InstantMirror

/-- **The fields of the status go together**: they describe the `.torrent` file the
array of flags was last made for. -/
def Represents (h : List Event) (st : TorrentStatus) : Prop :=
  st.empty = false → ∃ snap, current h = some snap ∧
    st.fileStatus.length = st.totalFiles ∧ st.totalFiles = st.torrentDetails.numFiles ∧
    st.torrentDetails = snap.info ∧ st.fileName = snap.name ∧ st.timestamp = snap.mtime

/-- **The condition on the calls of a run**: where a call migrates the status, the file
it migrates to has the name and the content that the status remembers. -/
def MigrateOk (_before : List Event) : Event → Prop
  | .call env depth path st => env.net depth ≠ .noSession →
      (gettor env.dir (torrentName path)).isSome → st.empty = false →
      ∀ e, env.dir.entry (torrentName path) = some e → st.isTorrentValid e.mtime = false →
      ∀ ti, torrentInfo env.dir (torrentName path) = some ti →
        torrentName path = st.fileName ∧ ti = st.torrentDetails
  | _ => True

/-! ### One call -/

section Call

variable {env : Env} {depth : ℕ} {path name : Bytes} {h h' ev : List Event}
  {st st₁ : TorrentStatus}

/-- The relation outlives events that do not touch the array. -/
theorem Represents.append (hrep : Represents h st) (hev : ∀ e ∈ h', e.snapshot = none) :
    Represents (h ++ h') st := by
  intro hem
  rw [current_append_of_forall hev]
  exact hrep hem

/-- Setting a flag changes no other field. -/
theorem Represents.setFlag (hrep : Represents h st) {index : ℕ} {flags : List Bool}
    (hset : InstantMirror.setFlag st.fileStatus index = some flags) :
    Represents h { st with fileStatus := flags } := by
  intro hem
  obtain ⟨snap, hcur, hlen, hrest⟩ := hrep hem
  obtain ⟨-, rfl⟩ := setFlag_eq_some hset
  exact ⟨snap, hcur, by simpa using hlen, hrest⟩

/-- The block around `snapshotMigration` keeps the fields together if it does not
change what they describe. -/
theorem Represents.validate (hrep : Represents h st) (call : Event) (hcall : call.snapshot = none)
    (hsame : st.empty = false → ∀ e, env.dir.entry name = some e →
      st.isTorrentValid e.mtime = false → ∀ ti, torrentInfo env.dir name = some ti →
      name = st.fileName ∧ ti = st.torrentDetails)
    (hval : InstantMirror.validate env depth name st = (.done st₁, ev)) :
    Represents (h ++ call :: ev) st₁ := by
  rcases validate_done hval with
    ⟨rfl, rfl, -⟩ | ⟨e, ti, flags, hent, hem, hold, hti, hmig, rfl, rfl⟩
  · exact hrep.append (by simpa using hcall)
  · obtain ⟨rfl, rfl⟩ := hsame hem e hent hold ti hti
    intro _
    rw [List.append_cons]
    refine ⟨_, current_concat_sized _ _, ?_, rfl, rfl, rfl, rfl⟩
    simpa using (migrateOuter_spec hmig).1

/-- The first part of a call. -/
theorem Represents.enter (hrep : Represents h st) (hcond : MigrateOk h (.call env depth path st))
    {r : Entered × TorrentStatus × List Event} (hr : InstantMirror.enter env depth path st = r) :
    Represents (h ++ .call env depth path st :: r.2.2) r.2.1 := by
  have hcall : ∀ e ∈ [Event.call env depth path st], e.snapshot = none := by simp [Event.snapshot]
  rcases enter_cases env depth path st with
    ⟨s, hs⟩ | hs | ⟨list, st₁, ev, hnet, hlist, hval, hcases⟩
  · rw [← hr, hs]
    exact hrep.append hcall
  · rw [← hr, hs]
    exact hrep.append hcall
  have hrep₁ : Represents (h ++ .call env depth path st :: ev) st₁ :=
    hrep.validate _ rfl (hcond hnet (by simp [hlist])) hval
  rcases hcases with ⟨-, -, hs⟩ | ⟨-, -, hs⟩ | ⟨-, hs⟩ <;> rw [← hr, hs]
  · exact hrep₁
  · rw [← List.cons_append, ← List.append_assoc]
    exact hrep₁.append (by simp [Event.snapshot])
  · exact hrep₁

/-- **Taking up a torrent** writes all the fields. -/
theorem Represents.takenUp (hrep : Represents h st) {ti : TorrentInfo}
    (htake : InstantMirror.takenUp env name ti st = (st₁, ev)) : Represents (h ++ ev) st₁ := by
  rcases takenUp_cases htake with ⟨-, rfl, rfl⟩ | ⟨-, rfl, rfl⟩
  · intro _
    refine ⟨_, current_concat_sized _ _, ?_, rfl, rfl, rfl, rfl⟩
    simp [TorrentStatus.takeUp, TorrentStatus.init]
  · simpa using hrep

/-- The second part of a call. -/
theorem Represents.fetch (hrep : Represents h st) (hnet : env.net depth ≠ .noSession)
    (index : ℕ) (row : TorFile) (disk : Disk) {o : Outcome Unit}
    (ho : InstantMirror.fetch env depth path name index row st disk = o) :
    o.result = .ok () → Represents (h ++ o.events) o.status := by
  rcases fetch_cases hnet path name index row st disk with hs | ⟨ti, st₁, ev, -, -, htake, hs⟩
  · rw [← ho, hs]
    exact fun _ => by simpa using hrep
  have hrep₁ := hrep.takenUp htake
  rcases hs with ⟨dl, hdl, hs | hs⟩ | ⟨dl, hdl, -, ⟨-, hs⟩ | ⟨flags, hset, hs⟩⟩ <;> rw [← ho, hs]
  · intro _
    rw [← List.append_assoc]
    refine hrep₁.append fun e he => ?_
    rw [hdl] at he
    rw [eq_of_mem_begunDownload he]
    rfl
  · nofun
  · nofun
  · intro _
    have hquiet : ∀ e ∈ dl, e.snapshot = none := by
      rw [hdl, download]
      split
      · simp [Event.snapshot]
      · simp
    rw [List.append_assoc, ← List.append_assoc]
    refine (hrep₁.setFlag hset).append fun e he => ?_
    rcases List.mem_append.mp he with he | he
    · exact hquiet e he
    · obtain rfl := List.mem_singleton.mp he
      rfl

end Call

/-! ### Sequences of calls -/

/-- What the rule for calls asks. -/
theorem callRule_represents (env : Env) :
    CallRule env MigrateOk (fun _ _ => True) Represents fun _ => Represents where
  inv_of_mid := id
  enter _ _ _ _ hrep hcond r hr := by
    refine ⟨fun _ _ _ _ => trivial, ?_⟩
    rcases r with ⟨_ | _ | _, st₁, ev⟩
    · trivial
    · exact ⟨hrep.enter hcond hr, fun _ => hrep.enter hcond hr⟩
    · exact hrep.enter hcond hr
  fetch _ _ _ _ index row _ _ disk hnet _ _ hrep _ ho :=
    ⟨fun _ _ _ _ => trivial, hrep.fetch hnet index row disk ho⟩

/-- A call of `getTorrent` from outside. -/
structure Call where
  /-- The surroundings of the call. -/
  env : Env
  /-- How far the run is followed. -/
  fuel : ℕ
  /-- The path that is asked for. -/
  path : Bytes

/-- **The calls of `getTorrent` as a machine**, on the status and the disk; the path is a C
string. -/
def caller : Machine Call (TorrentStatus × Disk) Event where
  step c s :=
    let o := getTorrent c.env c.fuel 0 (cstr c.path) s.1 s.2
    (o.result.toOption.map fun _ => (o.status, o.disk), o.events)

/-- The mirrored torrent, at an age and with a list of files. -/
def testTorrent (mtime : ℤ) (files : List FileEntry) : Env :=
  .finishing (.ofList [(ascii "test", .listing mtime files)])

end InstantMirror
