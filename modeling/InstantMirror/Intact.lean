import InstantMirror.Effects
import InstantMirror.Main

/-!
# Pages and mirrored files

Index pages and the files of torrents share one tree: the page of a directory is saved
as `index.html` in that directory, whatever stands there. What ought to stand on the disk
is what would stand there if no page had ever been saved: the disk at the start, with what
libtorrent has stored since. A mirrored file is intact if the disk has it as it ought to be
(`InstantMirror.Intact`).

Which files a request stores is a matter of the torrent and its links: libtorrent stores
pieces, so besides the requested file – and those its links lead to – every file that shares
a piece with one of them is written to (`InstantMirror.StoresAt`). For a set of requests, the
condition is that none of them lists a directory where another one stores a file
`index.html`, and that none stood there in the beginning (`InstantMirror.Apart`). Then every
mirrored file is intact in every run on these requests, also after a request that ends the
process; and otherwise there is a run of at most two requests that destroys one
(`InstantMirror.keepsMirrored`).
-/

namespace InstantMirror

/-! ### The property -/

/-- A file with such a content stands at the place. -/
def Disk.Bears (disk : Disk) (P : Content → Prop) (place : List Bytes) : Prop :=
  ∃ c, disk.node place = some (.file c) ∧ P c

/-- **A mirrored file stands at the place**, or a part of one. -/
def Disk.Mirrors (disk : Disk) (place : List Bytes) : Prop :=
  disk.Bears (fun c => c.mirrored = true) place

/-- **Every mirrored file is intact**: it is as it ought to be by what has been stored. -/
def Intact (disk₀ : Disk) (h : List Event) (disk : Disk) : Prop :=
  ∀ place c, c.mirrored = true → (h.foldl Disk.replay disk₀).node place = some (.file c) →
    disk.node place = some (.file c)

section Statement

variable (R : TorrentDir → Bytes → Prop) (disk₀ : Disk)

/-- The connections make requests of this set, each as the daemon reads it. -/
def Asks : List Conn → Server → Prop
  | [], _ => True
  | conn :: conns, s => R conn.env.dir (conn.url s) ∧
      ∀ s', (daemon.step conn s).1 = some s' → Asks conns s'

/-- **In every run on requests of this set, every mirrored file is intact**: between any two
connections, and after a further request, whether it returns or ends the process. -/
def KeepsMirrored : Prop :=
  ∀ (str : Bytes) (conns : List Conn) (s : Server), Asks R conns (.start str disk₀) →
    (daemon.run conns (.start str disk₀)).1 = some s →
    Intact disk₀ (daemon.run conns (.start str disk₀)).2 s.disk ∧
      ∀ (conn : Conn) (o : Outcome Bytes), R conn.env.dir (conn.url s) →
        checkRequest conn.env.dir (conn.url s) = 1 →
        handleRequest conn.env conn.fuel (conn.url s) s.status s.disk = o →
        Intact disk₀ ((daemon.run conns (.start str disk₀)).2 ++ o.events) o.disk

end Statement

/-! ### The condition -/

/-- **The request lists a directory**, and this is the place of the page. -/
def PagesAt (dir : TorrentDir) (url : Bytes) (place : List Bytes) : Prop :=
  checkRequest dir url = 1 ∧ ∃ path list, route dir url = .index path ∧
    gettor dir (firstComponent path) = some list ∧ place = normalise (pagePath path)

/-- **The file is stored** where the one with the index is downloaded: it is that one, or shares
a piece with it, or has no bytes. Pad files are not stored. -/
def TorrentInfo.Stores (ti : TorrentInfo) (index : ℕ) (e : FileEntry) : Prop :=
  e ∈ ti.written index ∨ (ti.files[index]? = some e ∧ e.padFile = false)

/-- **The request can store a file at the place**: it is for a file, and that one, or one its
links lead to, makes libtorrent do so. -/
def StoresAt (dir : TorrentDir) (url : Bytes) (place : List Bytes) : Prop :=
  checkRequest dir url = 1 ∧ (∃ torrentName filePath, route dir url = .file torrentName filePath) ∧
    ∃ target ti index e, Relation.ReflTransGen (Leads dir) (urlPath url) target ∧
      Fetches dir target ti index ∧ ti.Stores index e ∧
      place = normalise (diskLocation ++ e.path)

/-- **The condition on a set of requests**: where one of them saves a page, there is no mirrored
file. -/
structure Apart (R : TorrentDir → Bytes → Prop) (disk₀ : Disk) : Prop where
  /-- None stood there in the beginning. -/
  before : ∀ dir url place, R dir url → PagesAt dir url place → ¬ disk₀.Mirrors place
  /-- None of the requests stores one there. -/
  stored : ∀ dir url dir' url' place, R dir url → PagesAt dir url place → R dir' url' →
    ¬ StoresAt dir' url' place

/-- Where one of the requests saves a page, the disk is in order: files stand in directories, and
no file takes the place of the directory of the page. -/
structure Rooted (R : TorrentDir → Bytes → Prop) (disk₀ : Disk) : Prop where
  /-- Files stand in directories. -/
  tree : ∀ place c, disk₀.node place = some (.file c) → disk₀.node place.dropLast = some .dir
  /-- No file stood there in the beginning. -/
  before : ∀ dir url place, R dir url → PagesAt dir url place →
    ¬ disk₀.Bears (fun _ => True) place.dropLast
  /-- None of the requests stores one there. -/
  stored : ∀ dir url dir' url' place, R dir url → PagesAt dir url place → R dir' url' →
    ¬ StoresAt dir' url' place.dropLast

/-! ### What stands where -/

/-- The event puts a file at the place. -/
def Event.PutsAt (place : List Bytes) : Event → Prop
  | .spilled ti index => ∃ e ∈ ti.written index, place = normalise (diskLocation ++ e.path)
  | .downloaded e => e.padFile = false ∧ place = normalise (diskLocation ++ e.path)
  | _ => False

namespace Disk

section Nodes

variable {disk : Disk} {place : List Bytes}

theorem node_makeDirs_cases (disk : Disk) (path : Bytes) (q : List Bytes) :
    (disk.makeDirs path).node q = disk.node q ∨
      disk.node q = none ∧ (disk.makeDirs path).node q = some .dir := by
  simp only [makeDirs]
  split
  · rename_i h
    exact Or.inr ⟨h.2.2, rfl⟩
  · exact Or.inl rfl

/-! What stands at a place is never taken away. -/

theorem node_makeDirs_ne_none (path : Bytes) (h : disk.node place ≠ none) :
    (disk.makeDirs path).node place ≠ none := by
  rcases disk.node_makeDirs_cases path place with heq | ⟨-, hdir⟩
  · rwa [heq]
  · simp [hdir]

theorem node_save_ne_none (path : Bytes) (c : Content) (h : disk.node place ≠ none) :
    (disk.save path c).node place ≠ none := by
  by_cases hplace : place = normalise path
  · simp [hplace]
  · rw [save, node_write_of_ne _ hplace]
    exact node_makeDirs_ne_none path h

theorem node_foldl_store_ne_none {files : List FileEntry} (h : disk.node place ≠ none) :
    (files.foldl store disk).node place ≠ none := by
  induction files generalizing disk with
  | nil => exact h
  | cons e files ih => exact ih (node_save_ne_none _ _ h)

/-- The directory of each of the files is made. -/
theorem node_foldl_makeDirs_ne_none {files : List FileEntry} {e : FileEntry}
    (h : e ∈ files ∧ place ≠ normalise (diskLocation ++ e.path) ∧
      place <+: normalise (diskLocation ++ e.path) ∨ disk.node place ≠ none) :
    (files.foldl (fun disk e => disk.makeDirs (diskLocation ++ e.path)) disk).node place ≠
      none := by
  induction files generalizing disk with
  | nil => exact h.resolve_left fun hmem => by simp at hmem
  | cons f files ih =>
    refine ih ?_
    rcases h with ⟨he, hne, hpre⟩ | hnode
    · rcases List.mem_cons.mp he with rfl | he
      · right
        by_cases hnone : disk.node place = none
        · simp [makeDirs, hne, hnone, hpre]
        · exact node_makeDirs_ne_none _ hnone
      · exact Or.inl ⟨he, hne, hpre⟩
    · exact Or.inr (node_makeDirs_ne_none _ hnode)

end Nodes

section Files

variable {disk : Disk} {P : Content → Prop} {place : List Bytes}

/-- Making directories makes no files. -/
theorem bears_makeDirs (path : Bytes) :
    (disk.makeDirs path).Bears P place ↔ disk.Bears P place := by
  rcases disk.node_makeDirs_cases path place with heq | ⟨hnone, hdir⟩
  · rw [Bears, Bears, heq]
  · simp [Bears, hnone, hdir]

theorem bears_foldl_makeDirs (files : List FileEntry) :
    (files.foldl (fun disk e => disk.makeDirs (diskLocation ++ e.path)) disk).Bears P place ↔
      disk.Bears P place := by
  induction files generalizing disk with
  | nil => rfl
  | cons e files ih => rw [List.foldl_cons, ih, bears_makeDirs]

theorem bears_save {path : Bytes} {c : Content} (hc : P c) :
    (disk.save path c).Bears P place ↔ place = normalise path ∨ disk.Bears P place := by
  by_cases hplace : place = normalise path
  · subst hplace
    simp [Bears, hc]
  · have hnode : (disk.save path c).node place = (disk.makeDirs path).node place :=
      node_write_of_ne _ hplace c
    rw [Bears, hnode, or_iff_right hplace]
    exact bears_makeDirs path

variable (hdata : ∀ e, P (.data e)) (hpart : ∀ e, P (.part e))

include hdata hpart

theorem bears_foldl_store (files : List FileEntry) :
    (files.foldl store disk).Bears P place ↔
      (∃ e ∈ files, place = normalise (diskLocation ++ e.path)) ∨ disk.Bears P place := by
  induction files generalizing disk with
  | nil => simp
  | cons e files ih =>
    have hstore : (disk.store e).Bears P place ↔
        place = normalise (diskLocation ++ e.path) ∨ disk.Bears P place := by
      refine bears_save ?_
      split
      · exact hdata e
      · exact hpart e
    rw [List.foldl_cons, ih, hstore, List.exists_mem_cons_iff, or_left_comm, or_assoc]

/-- **An event puts files where it says**, and nowhere else. -/
theorem bears_replay (e : Event) :
    (disk.replay e).Bears P place ↔ e.PutsAt place ∨ disk.Bears P place := by
  cases e with
  | spilled ti index =>
    rw [replay, spill, bears_foldl_store hdata hpart, bears_foldl_makeDirs]
    rfl
  | downloaded e =>
    rw [replay, complete]
    split
    · rename_i hpad
      simp [Event.PutsAt, hpad]
    · rename_i hpad
      rw [bears_save (hdata e)]
      simp [Event.PutsAt, hpad]
  | _ => simp [replay, Event.PutsAt]

theorem bears_foldl_replay (ev : List Event) :
    (ev.foldl replay disk).Bears P place ↔ (∃ e ∈ ev, e.PutsAt place) ∨ disk.Bears P place := by
  induction ev generalizing disk with
  | nil => simp
  | cons e ev ih =>
    rw [List.foldl_cons, ih, bears_replay hdata hpart, List.exists_mem_cons_iff, or_left_comm,
      or_assoc]

end Files

/-! ### A disk with pages on it -/

/-- **The one disk is the other with pages on it**, none of them over a mirrored file. -/
def Paged (ideal disk : Disk) : Prop :=
  ∀ place, disk.node place = ideal.node place ∨
    (∃ page, disk.node place = some (.file (.page page))) ∧ ¬ ideal.Mirrors place

namespace Paged

variable {ideal disk : Disk}

theorem refl (disk : Disk) : Paged disk disk := fun _ => Or.inl rfl

theorem makeDirs (h : Paged ideal disk) (path : Bytes) :
    Paged (ideal.makeDirs path) (disk.makeDirs path) := by
  intro place
  rcases h place with heq | ⟨⟨page, hpage⟩, hno⟩
  · left
    simp only [Disk.makeDirs, heq]
  · refine Or.inr ⟨⟨page, node_makeDirs_of_some disk hpage⟩, ?_⟩
    rwa [Mirrors, bears_makeDirs]

theorem write (h : Paged ideal disk) (path : Bytes) (c : Content) :
    Paged (ideal.write path c) (disk.write path c) := by
  intro place
  by_cases hplace : place = normalise path
  · subst hplace
    simp
  · rw [Mirrors, Bears, node_write_of_ne _ hplace, node_write_of_ne _ hplace]
    exact h place

theorem save (h : Paged ideal disk) (path : Bytes) (c : Content) :
    Paged (ideal.save path c) (disk.save path c) := (h.makeDirs path).write path c

/-- A file is found complete on the one disk if it is on the other. -/
theorem store (h : Paged ideal disk) (e : FileEntry) : Paged (ideal.store e) (disk.store e) := by
  have hsame : disk.node (normalise (diskLocation ++ e.path)) = some (.file (.data e)) ↔
      ideal.node (normalise (diskLocation ++ e.path)) = some (.file (.data e)) := by
    rcases h (normalise (diskLocation ++ e.path)) with heq | ⟨⟨page, hpage⟩, hno⟩
    · rw [heq]
    · refine iff_of_false (by simp [hpage]) fun hdata => hno ⟨_, hdata, rfl⟩
  simp only [Disk.store, hsame]
  exact h.save _ _

/-- **What libtorrent does keeps the one disk the other with pages on it.** -/
theorem replay (h : Paged ideal disk) (e : Event) : Paged (ideal.replay e) (disk.replay e) := by
  cases e with
  | spilled ti index =>
    have hdirs : ∀ (files : List FileEntry) {ideal disk : Disk}, Paged ideal disk →
        Paged (files.foldl (fun disk e => disk.makeDirs (diskLocation ++ e.path)) ideal)
          (files.foldl (fun disk e => disk.makeDirs (diskLocation ++ e.path)) disk) := by
      intro files
      induction files with
      | nil => exact fun h => h
      | cons e files ih => exact fun h => ih (h.makeDirs _)
    have hstore : ∀ (files : List FileEntry) {ideal disk : Disk}, Paged ideal disk →
        Paged (files.foldl Disk.store ideal) (files.foldl Disk.store disk) := by
      intro files
      induction files with
      | nil => exact fun h => h
      | cons e files ih => exact fun h => ih (h.store e)
    exact hstore _ (hdirs _ h)
  | downloaded e =>
    simp only [Disk.replay, complete]
    split
    · exact h
    · exact h.save _ _
  | _ => exact h

theorem foldl_replay (h : Paged ideal disk) (ev : List Event) :
    Paged (ev.foldl Disk.replay ideal) (ev.foldl Disk.replay disk) := by
  induction ev generalizing ideal disk with
  | nil => exact h
  | cons e ev ih => exact ih (h.replay e)

/-- One more page. -/
theorem page (h : Paged ideal disk) {path : Bytes} (hno : ¬ ideal.Mirrors (normalise path))
    (page : IndexPage) : Paged ideal (disk.write path (.page page)) := by
  intro place
  by_cases hplace : place = normalise path
  · subst hplace
    exact Or.inr ⟨⟨page, node_write disk path _⟩, hno⟩
  · rw [node_write_of_ne _ hplace]
    exact h place

theorem intact {disk₀ : Disk} {h : List Event} (hpaged : Paged (h.foldl Disk.replay disk₀) disk) :
    Intact disk₀ h disk := by
  intro place c hc hnode
  rcases hpaged place with heq | ⟨-, hno⟩
  · rw [heq, hnode]
  · exact absurd ⟨c, hnode, hc⟩ hno

end Paged

end Disk

/-! ### If no page is saved over a file -/

section Sufficient

variable {R : TorrentDir → Bytes → Prop} {disk₀ disk : Disk} {h : List Event}

/-- What a request stores it stores where it can. -/
theorem storesAt_of_putsAt {dir : TorrentDir} {url : Bytes} {place : List Bytes} {e : Event}
    (hcheck : checkRequest dir url = 1)
    (hroute : ∃ torrentName filePath, route dir url = .file torrentName filePath)
    (hconcerns : e.Concerns dir (Relation.ReflTransGen (Leads dir) (urlPath url)))
    (hputs : e.PutsAt place) : StoresAt dir url place := by
  cases e with
  | spilled ti index =>
    obtain ⟨target, htarget, hfetch⟩ := hconcerns
    obtain ⟨e, he, hplace⟩ := hputs
    exact ⟨hcheck, hroute, target, ti, index, e, htarget, hfetch, Or.inl he, hplace⟩
  | downloaded e =>
    obtain ⟨target, ti, index, htarget, hfetch, he⟩ := hconcerns
    obtain ⟨hpad, hplace⟩ := hputs
    exact ⟨hcheck, hroute, target, ti, index, e, htarget, hfetch, Or.inr ⟨he, hpad⟩, hplace⟩
  | _ => exact hputs.elim

/-- **The invariant of a run**: the disk is the one it ought to be, with pages on it, and there
are no mirrored files where pages are saved. -/
structure Separate (R : TorrentDir → Bytes → Prop) (ideal disk : Disk) : Prop where
  /-- Pages are all that is wrong. -/
  paged : ideal.Paged disk
  /-- There are no mirrored files where pages are saved. -/
  free : ∀ dir url place, R dir url → PagesAt dir url place → ¬ ideal.Mirrors place

/-- **A request of the set keeps the invariant.** -/
theorem Separate.handleRequest (hapart : Apart R disk₀)
    (hsep : Separate R (h.foldl Disk.replay disk₀) disk) {env : Env} {fuel : ℕ} {url : Bytes}
    {st : TorrentStatus} {o : Outcome Bytes} (hR : R env.dir url)
    (hcheck : checkRequest env.dir url = 1)
    (ho : InstantMirror.handleRequest env fuel url st disk = o) :
    Separate R ((h ++ o.events).foldl Disk.replay disk₀) o.disk := by
  rw [List.foldl_append]
  rcases handleRequest_effects ho with
    ⟨hev, hdisk⟩ | ⟨list, hroute, hlist, hev, hdisk⟩ | ⟨hroute, hreplays⟩
  · rw [hev, hdisk]
    exact hsep
  · rw [hev, hdisk]
    refine ⟨hsep.paged.page ?_ _, hsep.free⟩
    exact hsep.free env.dir url _ hR ⟨hcheck, _, list, hroute, hlist, rfl⟩
  · rw [hreplays.disk_eq]
    refine ⟨hsep.paged.foldl_replay _, fun dir' url' place hR' hpage hmirrors => ?_⟩
    rcases (Disk.bears_foldl_replay (fun _ => rfl) (fun _ => rfl) o.events).mp hmirrors with
      ⟨e, he, hputs⟩ | hmirrors
    · exact hapart.stored dir' url' env.dir url place hR' hpage hR
        (storesAt_of_putsAt hcheck hroute (hreplays.concerns e he) hputs)
    · exact hsep.free dir' url' place hR' hpage hmirrors

/-- **So does a run.** -/
theorem Separate.run (hapart : Apart R disk₀) {conns : List Conn} {s s' : Server}
    (hsep : Separate R (h.foldl Disk.replay disk₀) s.disk) (hasks : Asks R conns s)
    (hrun : (daemon.run conns s).1 = some s') :
    Separate R ((h ++ (daemon.run conns s).2).foldl Disk.replay disk₀) s'.disk := by
  induction conns generalizing h s with
  | nil =>
    obtain rfl : s = s' := by simpa using hrun
    simpa using hsep
  | cons conn conns ih =>
    obtain ⟨hR, hasks⟩ := hasks
    rcases hstep : (daemon.step conn s).1 with _ | s₁
    · rw [Machine.run_cons_stopped _ hstep] at hrun
      cases hrun
    rw [Machine.run_cons_next _ hstep] at hrun ⊢
    have hevents : (daemon.step conn s).2 = (serve conn s).events := rfl
    rw [← List.append_assoc, hevents]
    refine ih ?_ (hasks s₁ hstep) hrun
    rcases serve_cases conn s with ⟨hev, hnext⟩ | ⟨hcheck, o, ho, hev, hnext⟩ <;> rw [hev]
    · obtain rfl := hnext s₁ (next_of_step hstep)
      rwa [List.append_nil]
    · obtain ⟨reply, -, rfl⟩ := hnext s₁ (next_of_step hstep)
      exact hsep.handleRequest hapart hR hcheck ho

theorem keepsMirrored_of_apart (hapart : Apart R disk₀) : KeepsMirrored R disk₀ := by
  intro str conns s hasks hrun
  have hstart : Separate R (List.foldl Disk.replay disk₀ []) (Server.start str disk₀).disk :=
    ⟨.refl disk₀, hapart.before⟩
  have hsep := hstart.run hapart hasks hrun
  refine ⟨hsep.paged.intact, fun conn o hR hcheck ho => ?_⟩
  exact (hsep.handleRequest hapart hR hcheck ho).paged.intact

end Sufficient

/-! ### If a page is saved over a file -/

section Necessary

variable {R : TorrentDir → Bytes → Prop} {disk₀ disk : Disk} {dir : TorrentDir}

theorem TorrentInfo.Stores.mem {ti : TorrentInfo} {index : ℕ} {e : FileEntry}
    (h : ti.Stores index e) : e ∈ ti.files := by
  rcases h with h | ⟨h, -⟩
  · obtain ⟨-, index', -, he, -⟩ := ti.mem_written.mp h
    exact List.mem_of_getElem? he
  · exact List.mem_of_getElem? h

/-- **A download puts files where it stores them.** -/
theorem exists_putsAt_download {ti : TorrentInfo} {index : ℕ} {place : List Bytes} :
    (∃ ev ∈ download ti index, ev.PutsAt place) ↔
      ∃ e, ti.Stores index e ∧ place = normalise (diskLocation ++ e.path) := by
  rw [download]
  rcases he : ti.files[index]? with _ | e
  · have hnone : ti.written index = [] := by simp [TorrentInfo.written, he]
    simp [TorrentInfo.Stores, he, hnone]
  · simp only [TorrentInfo.Stores, he, Option.some.injEq, List.exists_mem_cons_iff, Event.PutsAt]
    constructor
    · rintro (⟨e', he', hplace⟩ | ⟨hpad, hplace⟩ | hnil)
      · exact ⟨e', Or.inl he', hplace⟩
      · exact ⟨e, Or.inr ⟨rfl, hpad⟩, hplace⟩
      · simp at hnil
    · rintro ⟨e', he' | ⟨rfl, hpad⟩, hplace⟩
      · exact Or.inl ⟨e', he', hplace⟩
      · exact Or.inr (Or.inl ⟨hpad, hplace⟩)

/-- After a download, something stands where the directory of a file ought to be. -/
theorem node_download_ne_none {ti : TorrentInfo} {index : ℕ} {e : FileEntry} {place : List Bytes}
    (he : ti.Stores index e) (hne : place ≠ normalise (diskLocation ++ e.path))
    (hpre : place <+: normalise (diskLocation ++ e.path)) :
    ((download ti index).foldl Disk.replay disk).node place ≠ none := by
  have hspill : (disk.spill ti index).node place ≠ none :=
    Disk.node_foldl_store_ne_none (Disk.node_foldl_makeDirs_ne_none (Or.inl ⟨he.mem, hne, hpre⟩))
  rw [download]
  rcases hf : ti.files[index]? with _ | f
  · have hnone : ti.written index = [] := by simp [TorrentInfo.written, hf]
    simp [TorrentInfo.Stores, hf, hnone] at he
  · simp only [List.foldl_cons, List.foldl_nil, Disk.replay, Disk.complete]
    split
    · exact hspill
    · exact Disk.node_save_ne_none _ _ hspill

/-- The second part of a call, on a status that has just been taken up, downloads its file. -/
theorem fetch_of_finished {env : Env} {depth : ℕ} {path : Bytes} {ti : TorrentInfo} {index : ℕ}
    {st : TorrentStatus} (hti : torrentInfo env.dir (torrentName path) = some ti)
    (hlt : index < ti.numFiles) (hfin : env.net depth = .finished) (hem : st.empty = true)
    (row : TorFile) (disk : Disk) : ∃ st' ev,
      fetch env depth path (torrentName path) index row st disk =
        ⟨.ok (), st', (download ti index).foldl Disk.replay disk, ev⟩ := by
  have hne : ti.files ≠ [] := by
    rintro hnil
    simp [TorrentInfo.numFiles, hnil] at hlt
  obtain ⟨flags, hset⟩ := Option.isSome_iff_exists.mp (setFlag_isSome.mpr
    (show index < (st.takeUp env.dir (torrentName path) ti).fileStatus.length by
      simpa [TorrentStatus.takeUp, TorrentStatus.init] using hlt))
  simp only [fetch, hti, hne, hfin, takenUp, hem, hset, reduceCtorEq, or_self, if_false, if_true]
  exact ⟨_, _, rfl⟩

/-- Where the torrent is not added, nothing happens. -/
theorem fetch_of_addThrows {env : Env} {depth : ℕ} (hnet : env.net depth = .addThrows)
    (path name : Bytes) (index : ℕ) (row : TorFile) (st : TorrentStatus) (disk : Disk) :
    fetch env depth path name index row st disk = ⟨.ok (), st, disk, []⟩ := by
  rw [fetch]
  split
  · rfl
  · exact if_pos (Or.inr hnet)

/-- **A request can download any file that its links lead to**, and nothing else: the calls
before it add no torrent, and those behind it have no session. -/
theorem exists_download {path target : Bytes} {ti : TorrentInfo} {index : ℕ}
    (hleads : Relation.ReflTransGen (Leads dir) path target) (hfetch : Fetches dir target ti index)
    (hne : ti.files ≠ []) : ∃ n, ∀ (env : Env) (depth : ℕ) (st : TorrentStatus),
      env.dir = dir → (∀ i < n, env.net (depth + i) = .addThrows) →
      env.net (depth + n) = .finished → env.net (depth + n + 1) = .noSession →
      st.empty = true → ∀ disk, ∃ fuel st' ev, getTorrent env fuel depth path st disk =
        ⟨.ok (), st', (download ti index).foldl Disk.replay disk, ev⟩ := by
  induction hleads using Relation.ReflTransGen.head_induction_on with
  | refl =>
    refine ⟨0, ?_⟩
    rintro env depth st rfl - hfin hend hem disk
    rw [Nat.add_zero] at hfin hend
    obtain ⟨hti, list, row, hlist, hk, hrow, hlink⟩ := hfetch
    have hlt : index < ti.numFiles := by
      rw [← length_of_torrentInfo hti hne hlist]
      exact (List.getElem?_eq_some_iff.mp hrow).1
    have hent := enter_of_clear (by simp [hfin]) hlist (validate_of_empty hem env depth _) hk hrow
      (Or.inl hem)
    obtain ⟨st', ev, hdl⟩ := fetch_of_finished hti hlt hfin hem row disk
    rcases hsym : row.symlinkAttribute with _ | _
    · refine ⟨1, ?_⟩
      rw [getTorrent_of_plain hent hsym, hdl]
      exact ⟨_, _, rfl⟩
    · obtain ⟨next, hto⟩ := hlink hsym
      obtain ⟨fuel, hfuel⟩ := exists_getTorrent_of_linkTo hent hk hrow hto
        (getTorrent_of_returned (enter_of_noSession hend next st) 0 disk) (by simp)
      refine ⟨fuel, ?_⟩
      rw [hfuel]
      simp only [hdl]
      exact ⟨_, _, rfl⟩
  | head hto _ ih =>
    obtain ⟨n, ih⟩ := ih
    refine ⟨n + 1, ?_⟩
    rintro env depth st rfl hadd hfin hend hem disk
    obtain ⟨list, hlist, hto⟩ := hto
    obtain ⟨-, k, row, hk, hrow, -⟩ := id hto
    have hfirst : env.net depth = .addThrows := hadd 0 (Nat.succ_pos n)
    have hent := enter_of_clear (by simp [hfirst]) hlist (validate_of_empty hem env depth _) hk hrow
      (Or.inl hem)
    have hdepth : depth + 1 + n = depth + (n + 1) := by omega
    obtain ⟨fuel, st', ev, hin⟩ := ih env (depth + 1) st rfl
      (fun i hi => by
        have := hadd (i + 1) (Nat.succ_lt_succ hi)
        rwa [show depth + 1 + i = depth + (i + 1) by omega])
      (by rwa [hdepth]) (by rwa [hdepth]) hem disk
    obtain ⟨fuel', hfuel'⟩ := exists_getTorrent_of_linkTo hent hk hrow hto hin (by simp)
    refine ⟨fuel', ?_⟩
    rw [hfuel']
    simp only [fetch_of_addThrows hfirst]
    exact ⟨_, _, rfl⟩

/-- A client that sends nothing, and waits: the daemon reads what stands in memory. -/
def Conn.silent (url : Bytes) (env : Env) (fuel : ℕ) : Conn := ⟨[], .never, env, url, fuel⟩

theorem step_silent {env : Env} {fuel : ℕ} {url reply : Bytes} {st st' : TorrentStatus}
    {disk' : Disk} {ev : List Event} (hcheck : checkRequest env.dir url = 1)
    (hreq : handleRequest env fuel url st disk = ⟨.ok reply, st', disk', ev⟩) :
    daemon.step (.silent url env fuel) ⟨[], st, disk⟩ = (some ⟨[], st', disk'⟩, ev) := by
  have hrecv : (⟨[], st, disk⟩ : Server).recv [] = [] := rfl
  simp only [daemon, serve, Conn.silent, hrecv, List.nil_append, hcheck, hreq, reduceCtorEq,
    if_false, if_true]
  rfl

/-- **A page over a mirrored file** is not what a run keeps. -/
theorem KeepsMirrored.not_mirrors (hkeeps : KeepsMirrored R disk₀) {conns : List Conn}
    {st : TorrentStatus} (hasks : Asks R conns (.start [] disk₀))
    (hrun : (daemon.run conns (.start [] disk₀)).1 = some ⟨[], st, disk⟩) {url : Bytes}
    {place : List Bytes} (hR : R dir url) (hpage : PagesAt dir url place)
    (hdir : disk.node place.dropLast = some .dir) :
    ¬ ((daemon.run conns (.start [] disk₀)).2.foldl Disk.replay disk₀).Mirrors place := by
  rintro ⟨c, hnode, hc⟩
  obtain ⟨hcheck, path, list, hroute, hlist, rfl⟩ := hpage
  obtain ⟨hin, hnext⟩ := hkeeps [] conns _ hasks hrun
  have hkept : disk.node (normalise (pagePath path)) = some (.file c) := hin _ c hc hnode
  have hopens : disk.opens (pagePath path) = true := by simp [Disk.opens, hdir, hkept]
  have hlisted : handleRequest (.finishing dir) 0 url st disk =
      getTorrentIndex (.finishing dir) path st disk := by
    rw [handleRequest_eq_route, show (Env.finishing dir).dir = dir from rfl, hroute]
  rw [@getTorrentIndex_of_opens (.finishing dir) path list disk hlist hopens st] at hlisted
  have hlost := hnext (.silent url (.finishing dir) 0) _ hR hcheck hlisted
    (normalise (pagePath path)) c hc (by rwa [List.foldl_append])
  rw [Disk.node_write] at hlost
  obtain rfl := Node.file.inj (Option.some.inj hlost)
  cases hc

/-- The calls up to a depth add no torrent, the one at this depth downloads its file, and those
behind it have no session. -/
def Env.downloadingAt (dir : TorrentDir) (n : ℕ) : Env where
  dir := dir
  net i := if i < n then .addThrows else if i = n then .finished else .noSession
  outside _ _ := some false
  begun _ := false

/-- **What a request can store, a run of one connection stores**, and makes the directory for
it. -/
theorem exists_run_of_storesAt (disk₀ : Disk) {url : Bytes} {place : List Bytes} (hR : R dir url)
    (hstores : StoresAt dir url place) :
    ∃ conns st disk, Asks R conns (.start [] disk₀) ∧
      (daemon.run conns (.start [] disk₀)).1 = some ⟨[], st, disk⟩ ∧
      disk = (daemon.run conns (.start [] disk₀)).2.foldl Disk.replay disk₀ ∧
      disk.Mirrors place ∧ (place ≠ place.dropLast → disk.node place.dropLast ≠ none) ∧
      ∀ q, disk.Bears (fun _ => True) q → StoresAt dir url q ∨ disk₀.Bears (fun _ => True) q := by
  obtain ⟨hcheck, ⟨torrentName, filePath, hroute⟩, target, ti, index, e, hleads, hfetch, he,
    rfl⟩ := hstores
  obtain ⟨n, hn⟩ := exists_download hleads hfetch (List.ne_nil_of_mem he.mem)
  obtain ⟨fuel, st, ev, hcall⟩ := hn (.downloadingAt dir n) 0 .new rfl
    (fun i hi => by simp [Env.downloadingAt, hi]) (by simp [Env.downloadingAt])
    (by simp [Env.downloadingAt]) rfl disk₀
  have hreplays := getTorrent_replays (.downloadingAt dir n) fuel 0 (urlPath url) .new disk₀
  rw [hcall] at hreplays
  have hreq : handleRequest (.downloadingAt dir n) fuel url .new disk₀ =
      ⟨.ok (torrentName ++ slash :: filePath), st, (download ti index).foldl Disk.replay disk₀,
        ev⟩ := by
    rw [handleRequest_eq_route, show (Env.downloadingAt dir n).dir = dir from rfl, hroute]
    simp only [getTorrentFile, (eq_of_route_file hroute).1, hcall]
    rfl
  have hstep : daemon.step (.silent url (.downloadingAt dir n) fuel) (.start [] disk₀) =
      (some ⟨[], st, (download ti index).foldl Disk.replay disk₀⟩, ev) :=
    step_silent hcheck hreq
  have hrun : daemon.run [.silent url (.downloadingAt dir n) fuel] (.start [] disk₀) =
      (some ⟨[], st, (download ti index).foldl Disk.replay disk₀⟩, ev) := by
    rw [Machine.run_cons_next _ (by rw [hstep]), hstep]
    simp
  have hbears : ∀ {P : Content → Prop} {q}, (∀ e, P (.data e)) → (∀ e, P (.part e)) →
      (((download ti index).foldl Disk.replay disk₀).Bears P q ↔
        (∃ e, ti.Stores index e ∧ q = normalise (diskLocation ++ e.path)) ∨ disk₀.Bears P q) := by
    intro P q hdata hpart
    rw [Disk.bears_foldl_replay hdata hpart, exists_putsAt_download]
  refine ⟨[.silent url (.downloadingAt dir n) fuel], st, _, ⟨hR, fun _ _ => trivial⟩, ?_, ?_,
    (hbears (fun _ => rfl) fun _ => rfl).mpr (Or.inl ⟨e, he, rfl⟩), ?_, fun q hq => ?_⟩
  · rw [hrun]
  · rw [hrun]
    exact hreplays.disk_eq
  · exact fun hne => node_download_ne_none he hne.symm (List.dropLast_prefix _)
  · refine ((hbears (fun _ => trivial) fun _ => trivial).mp hq).imp_left ?_
    rintro ⟨e', he', rfl⟩
    exact ⟨hcheck, ⟨torrentName, filePath, hroute⟩, target, ti, index, e', hleads, hfetch, he',
      rfl⟩

theorem apart_of_keepsMirrored (hrooted : Rooted R disk₀) (hkeeps : KeepsMirrored R disk₀) :
    Apart R disk₀ := by
  constructor
  · intro dir url place hR hpage hmirrors
    obtain ⟨c, hnode, -⟩ := id hmirrors
    exact @KeepsMirrored.not_mirrors R disk₀ disk₀ dir hkeeps [] .new trivial rfl url place hR
      hpage (hrooted.tree _ c hnode) hmirrors
  · intro dir url dir' url' place hR hpage hR' hstores
    obtain ⟨conns, st, disk, hasks, hrun, hideal, hmirrors, hmade, hfiles⟩ :=
      exists_run_of_storesAt disk₀ hR' hstores
    have hdir : disk.node place.dropLast = some .dir := by
      have hne : place ≠ place.dropLast := by
        obtain ⟨-, path, -, -, -, rfl⟩ := hpage
        exact normalise_pagePath_ne_dropLast path
      rcases hnode : disk.node place.dropLast with _ | _ | c
      · exact absurd hnode (hmade hne)
      · rfl
      · rcases hfiles _ ⟨c, hnode, trivial⟩ with hstores' | hbears
        · exact absurd hstores' (hrooted.stored dir url dir' url' place hR hpage hR')
        · exact absurd hbears (hrooted.before dir url place hR hpage)
    exact hkeeps.not_mirrors hasks hrun hR hpage hdir (hideal ▸ hmirrors)

end Necessary

/-- **In every run on a set of requests, the mirrored files are intact** if no page is saved where
one of them is stored or stood in the beginning; and, on a disk that is in order, only if. -/
theorem keepsMirrored (R : TorrentDir → Bytes → Prop) (disk₀ : Disk) :
    (Apart R disk₀ → KeepsMirrored R disk₀) ∧
      (Rooted R disk₀ → KeepsMirrored R disk₀ → Apart R disk₀) :=
  ⟨keepsMirrored_of_apart, apart_of_keepsMirrored⟩

/-- The torrent “test”: a file that fills a piece, and behind it `index.html`. -/
def pageDir : TorrentDir :=
  .ofList [(ascii "test", .listing 5 [{ FileEntry.plain (ascii "test/a") 1 with size := 16384 },
    .plain (ascii "test/index.html") 2])]

/-- A file is requested, and then its directory. -/
def fileThenPage (file : Bytes) : List Conn :=
  [.whole file (.finishing pageDir), .whole (ascii "/test") (.finishing pageDir)]

/-- The two requests for the first file and for the directory, as the daemon reads them. -/
def besidePage (dir : TorrentDir) (url : Bytes) : Prop :=
  dir = pageDir ∧ (url = ascii "/test/a" ++ [0] ∨ url = ascii "/test" ++ [0] ++ ascii "a" ++ [0])

/-- The request for the first file stores that file alone. -/
theorem place_of_storesAt {place : List Bytes}
    (h : StoresAt pageDir (ascii "/test/a" ++ [0]) place) :
    place = normalise (ascii "../www/test/a") := by
  obtain ⟨-, -, target, ti, index, e, hleads, ⟨hti, list, row, hlist, hindex, hrow, -⟩, he,
    rfl⟩ := h
  have hzero : checkIndex (torList [] [{ FileEntry.plain (ascii "test/a") 1 with size := 16384 },
      .plain (ascii "test/index.html") 2]) (ascii "test") (ascii "a") = 0 := by decide +kernel
  -- the file is no link
  rcases hleads.cases_head with rfl | ⟨next, ⟨list', hlist', -, k, row', hk, hrow', hlink, -⟩, -⟩
  · obtain rfl := Option.some.inj hlist
    obtain rfl := Option.some.inj hti
    obtain rfl : index = 0 := by exact_mod_cast hindex.symm.trans hzero
    have hmem : e ∈ [{ FileEntry.plain (ascii "test/a") 1 with size := 16384 }] := by
      rcases he with he | ⟨he, -⟩
      · exact he
      · exact List.mem_singleton.mpr (Option.some.inj he).symm
    obtain rfl := List.mem_singleton.mp hmem
    rfl
  · obtain rfl := Option.some.inj hlist'
    obtain rfl : k = 0 := by exact_mod_cast hk.symm.trans hzero
    obtain rfl := Option.some.inj hrow'
    cases hlink

/-- The first file shares no piece with `index.html`. -/
theorem apart_besidePage : Apart besidePage .bare := by
  constructor
  · rintro dir url place - - ⟨c, hnode, -⟩
    simp only [Disk.bare] at hnode
    split at hnode <;> cases hnode
  · have hfile : route pageDir (ascii "/test/a" ++ [0]) = .file (ascii "test") (ascii "a") := by
      decide +kernel
    have hindex : route pageDir (ascii "/test" ++ [0] ++ ascii "a" ++ [0]) =
        .index (ascii "test") := by
      decide +kernel
    rintro dir url dir' url' place ⟨rfl, rfl | rfl⟩ ⟨-, path, -, hroute, -, rfl⟩ ⟨rfl, rfl | rfl⟩
      hstores
    · cases hfile.symm.trans hroute
    · cases hfile.symm.trans hroute
    · obtain rfl := Route.index.inj (hindex.symm.trans hroute)
      exact absurd (place_of_storesAt hstores) (by decide)
    · obtain ⟨-, ⟨name, filePath, hroute'⟩, -⟩ := hstores
      cases hindex.symm.trans hroute'

/-- A file of another name is intact when its directory has been listed. -/
theorem intact_beside_page : ∃ s,
    (daemon.run (fileThenPage (ascii "/test/a")) (.start [] .bare)).1 = some s ∧
      Intact .bare (daemon.run (fileThenPage (ascii "/test/a")) (.start [] .bare)).2 s.disk := by
  refine ⟨_, rfl, ((keepsMirrored besidePage .bare).1 apart_besidePage [] (fileThenPage
    (ascii "/test/a")) _ ⟨⟨rfl, Or.inl rfl⟩, fun s' hs' => ⟨⟨rfl, Or.inr ?_⟩,
      fun _ _ => trivial⟩⟩ rfl).1⟩
  obtain rfl := Option.some.inj hs'
  rfl

/-- **A page over a file**: the torrent has a file `index.html`, which is downloaded, and then
its directory is listed. -/
theorem page_over_file : ∃ s,
    (daemon.run (fileThenPage (ascii "/test/index.html")) (.start [] .bare)).1 = some s ∧
      ¬ Intact .bare (daemon.run (fileThenPage (ascii "/test/index.html")) (.start [] .bare)).2
        s.disk := by
  refine ⟨_, rfl, fun hin => ?_⟩
  have hnode := hin (normalise (ascii "../www/test/index.html"))
    (.data (.plain (ascii "test/index.html") 2)) rfl (by decide +kernel)
  exact absurd hnode (by decide +kernel)

end InstantMirror
