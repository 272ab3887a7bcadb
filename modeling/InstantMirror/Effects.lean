import InstantMirror.CallChain
import InstantMirror.Route

/-!
# What a request does

The events of `getTorrent` say all it does: the disk afterwards is the disk before with
what libtorrent stores replayed on it, in order (`InstantMirror.Disk.replay`), no index
page is written, and every path that is called or re-dated is one the links lead to from
the requested path (`InstantMirror.Leads`). `InstantMirror.getTorrent_replays` is the
whole of it.

A request does nothing, or saves one page, or is such a chain of calls
(`InstantMirror.handleRequest_effects`).
-/

namespace InstantMirror

/-- `path` is a link of its torrent, and leads to `target`. -/
def Leads (dir : TorrentDir) (path target : Bytes) : Prop :=
  ∃ list, gettor dir (torrentName path) = some list ∧ LinkTo list path target

/-- **The path is fetched as a file of its torrent**: it is listed, and if it is a link, it
leads somewhere. -/
structure Fetches (dir : TorrentDir) (path : Bytes) (ti : TorrentInfo) (index : ℕ) : Prop where
  /-- This is the torrent. -/
  info_eq : torrentInfo dir (torrentName path) = some ti
  /-- The path has this index, and leads somewhere if it is a link. -/
  listed : ∃ (list : List TorFile) (row : TorFile), gettor dir (torrentName path) = some list ∧
    checkIndex list (torrentName path) (torrentFileName path) = index ∧
    list[index]? = some row ∧ (row.symlinkAttribute = true → ∃ target, LinkTo list path target)

/-- An event of the status alone. -/
def Event.quiet : Event → Bool
  | .sized _ | .early _ => true
  | _ => false

/-- **An event of calls for the paths that are reached**: these alone are called and
re-dated, for these alone files of a torrent are stored and downloaded, and no page is written. -/
def Event.Concerns (dir : TorrentDir) (Reached : Bytes → Prop) : Event → Prop
  | .call _ _ path _ => Reached path
  | .spilled ti index => ∃ path, Reached path ∧ Fetches dir path ti index
  | .downloaded e => ∃ path ti index, Reached path ∧ Fetches dir path ti index ∧
      ti.files[index]? = some e
  | .touched path _ => ∃ target, Reached target ∧ path = diskLocation ++ target
  | .saved _ => False
  | _ => True

/-- **The events account for the disk**, and concern the paths that are reached. -/
structure Replays (dir : TorrentDir) (Reached : Bytes → Prop) (disk disk' : Disk)
    (events : List Event) : Prop where
  /-- The disk is that of the events. -/
  disk_eq : disk' = events.foldl Disk.replay disk
  /-- The events concern the paths that are reached. -/
  concerns : ∀ e ∈ events, e.Concerns dir Reached

section Effects

variable {env : Env} {depth index : ℕ} {path name : Bytes} {row : TorFile}
  {st st₁ : TorrentStatus} {disk disk₁ disk₂ : Disk} {ev ev' : List Event} {r : Entered}
  {dir : TorrentDir} {Reached Reached' : Bytes → Prop} {e : Event}

/-! ### Accounts -/

theorem Event.Concerns.mono (h : e.Concerns dir Reached) (hle : ∀ p, Reached p → Reached' p) :
    e.Concerns dir Reached' := by
  cases e with
  | call env depth path st => exact hle path h
  | touched path mtime =>
    obtain ⟨target, htarget, hpath⟩ := h
    exact ⟨target, hle target htarget, hpath⟩
  | spilled ti index =>
    obtain ⟨path, hpath, hfetch⟩ := h
    exact ⟨path, hle path hpath, hfetch⟩
  | downloaded e =>
    obtain ⟨path, ti, index, hpath, hfetch⟩ := h
    exact ⟨path, ti, index, hle path hpath, hfetch⟩
  | saved path => exact h
  | _ => trivial

namespace Replays

theorem mono (h : Replays dir Reached disk disk₁ ev) (hle : ∀ p, Reached p → Reached' p) :
    Replays dir Reached' disk disk₁ ev :=
  ⟨h.disk_eq, fun e he => (h.concerns e he).mono hle⟩

theorem nil (dir : TorrentDir) (Reached : Bytes → Prop) (disk : Disk) :
    Replays dir Reached disk disk [] :=
  ⟨rfl, by simp⟩

/-- One thing after the other. -/
theorem append (h : Replays dir Reached disk disk₁ ev) (h' : Replays dir Reached disk₁ disk₂ ev') :
    Replays dir Reached disk disk₂ (ev ++ ev') := by
  refine ⟨by rw [List.foldl_append, ← h.disk_eq, h'.disk_eq], fun e he => ?_⟩
  rcases List.mem_append.mp he with he | he
  · exact h.concerns e he
  · exact h'.concerns e he

theorem singleton (he : e.Concerns dir Reached) (disk : Disk) :
    Replays dir Reached disk (disk.replay e) [e] :=
  ⟨rfl, fun e' he' => by rwa [List.mem_singleton.mp he']⟩

/-- What libtorrent stores. -/
theorem of_concerns (hev : ∀ e ∈ ev, e.Concerns dir Reached) (disk : Disk) :
    Replays dir Reached disk (ev.foldl Disk.replay disk) ev :=
  ⟨rfl, hev⟩

theorem of_quiet (hev : ∀ e ∈ ev, e.quiet = true) (disk : Disk) :
    Replays dir Reached disk disk ev := by
  induction ev with
  | nil => exact nil dir Reached disk
  | cons e ev ih =>
    have he : disk.replay e = disk ∧ e.Concerns dir Reached := by
      have hquiet := hev e List.mem_cons_self
      cases e with
      | sized snap => exact ⟨rfl, trivial⟩
      | early row => exact ⟨rfl, trivial⟩
      | _ => cases hquiet
    have hone : Replays dir Reached disk disk [e] := by
      simpa [he.1] using singleton he.2 disk
    exact hone.append (ih fun e' he' => hev e' (List.mem_cons_of_mem _ he'))

end Replays

/-! ### The two parts of a call -/

/-- The first part of a call touches the status alone. -/
theorem enter_quiet (h : enter env depth path st = (r, st₁, ev)) : ∀ e ∈ ev, e.quiet = true := by
  have hval : ∀ st₂ ev₂, validate env depth (torrentName path) st = (.done st₂, ev₂) →
      ∀ e ∈ ev₂, e.quiet = true := by
    intro st₂ ev₂ hval
    rcases validate_done hval with ⟨-, rfl, -⟩ | ⟨e, ti, flags, -, -, -, -, -, -, rfl⟩
    · simp
    · simp [Event.quiet]
  rcases enter_cases env depth path st with ⟨s, hs⟩ | hs |
    ⟨list, st₂, ev₂, -, -, hdone, ⟨-, -, hs⟩ | ⟨-, -, hs⟩ | ⟨-, hs⟩⟩ <;> rw [hs] at h <;>
    obtain ⟨-, rfl⟩ := Prod.mk.inj (Prod.mk.inj h).2
  · simp
  · simp
  · exact hval _ _ hdone
  · intro e he
    rcases List.mem_append.mp he with he | he
    · exact hval _ _ hdone e he
    · obtain rfl := List.mem_singleton.mp he
      rfl
  · exact hval _ _ hdone

/-- The event of being called, and those of the first part. -/
theorem enter_replays (h : enter env depth path st = (r, st₁, ev)) (disk : Disk) :
    Replays env.dir (· = path) disk disk (.call env depth path st :: ev) := by
  have hcall : (Event.call env depth path st).Concerns env.dir (· = path) := rfl
  exact (Replays.singleton hcall disk).append (.of_quiet (enter_quiet h) disk)

/-- **The second part of a call** saves what it downloads, and re-dates its own path. -/
theorem fetch_replays (hnet : env.net depth ≠ .noSession)
    (hfetches : ∀ ti, torrentInfo env.dir name = some ti → Fetches env.dir path ti index)
    (row : TorFile) (st : TorrentStatus) (disk : Disk) :
    Replays env.dir (· = path) disk (fetch env depth path name index row st disk).disk
      (fetch env depth path name index row st disk).events := by
  rcases fetch_cases hnet path name index row st disk with
    hs | ⟨ti, st₁, ev, hti, -, htake, hs⟩
  · rw [hs]
    exact .nil _ _ disk
  have hev : Replays env.dir (· = path) disk disk ev := by
    refine .of_quiet ?_ disk
    rcases takenUp_cases htake with ⟨-, -, rfl⟩ | ⟨-, -, rfl⟩
    · simp [Event.quiet]
    · simp
  have hspilled : (Event.spilled ti index).Concerns env.dir (· = path) :=
    ⟨path, rfl, hfetches ti hti⟩
  rcases hs with ⟨dl, hdl, hs⟩ | ⟨dl, hdl, -, hs⟩
  · have hdl' : Replays env.dir (· = path) disk (dl.foldl Disk.replay disk) dl := by
      refine .of_concerns (fun e he => ?_) disk
      rw [hdl] at he
      rwa [eq_of_mem_begunDownload he]
    rcases hs with hs | hs <;> rw [hs] <;> exact hev.append hdl'
  have hdl' : Replays env.dir (· = path) disk (dl.foldl Disk.replay disk) dl := by
    refine .of_concerns (fun e he => ?_) disk
    rw [hdl, download] at he
    split at he
    · rename_i f hf
      rcases List.mem_pair.mp he with rfl | rfl
      · exact hspilled
      · exact ⟨path, ti, index, rfl, hfetches ti hti, hf⟩
    · cases he
  rcases hs with ⟨-, hs⟩ | ⟨flags, -, hs⟩ <;> rw [hs]
  · exact hev.append hdl'
  · have htouch : (Event.touched (diskLocation ++ path) row.mtime).Concerns env.dir (· = path) :=
      ⟨path, rfl, rfl⟩
    exact (hev.append hdl').append (.singleton htouch _)

/-! ### The whole chain -/

/-- **What a chain of calls does.** -/
theorem getTorrent_replays (env : Env) : ∀ (fuel depth : ℕ) (path : Bytes) (st : TorrentStatus)
    (disk : Disk), Replays env.dir (Relation.ReflTransGen (Leads env.dir) path) disk
      (getTorrent env fuel depth path st disk).disk
      (getTorrent env fuel depth path st disk).events := by
  intro fuel
  induction fuel with
  | zero => exact fun depth path st disk => .nil _ _ disk
  | succ fuel ih =>
    intro depth path st disk
    have hself : ∀ p, p = path → Relation.ReflTransGen (Leads env.dir) path p :=
      fun p hp => hp ▸ .refl
    rcases hent : enter env depth path st with ⟨s | _ | ⟨name, index, row⟩, st₁, ev⟩
    all_goals have hfirst := (enter_replays hent disk).mono hself
    · rwa [getTorrent_of_stopped hent]
    · rwa [getTorrent_of_returned hent]
    obtain ⟨hnet, rfl, list, hlist, hk, hrow⟩ := enter_eq_fetch hent
    have hfetch := fun (hleads : row.symlinkAttribute = true → ∃ target, LinkTo list path target)
        st disk => (fetch_replays hnet
          (fun ti hti => ⟨hti, list, row, hlist, hk, hrow, hleads⟩) row st disk).mono hself
    rcases hlink : row.symlinkAttribute with _ | _
    · rw [getTorrent_of_plain hent hlink]
      exact hfirst.append (hfetch (by simp [hlink]) st₁ disk)
    rcases getTorrent_of_link hent hlink fuel disk with
      ⟨-, hs⟩ | ⟨target, st₂, disk₂, ev₂, hres, hin⟩
    · rwa [hs]
    have hto : LinkTo list path (cstr target) :=
      ⟨fuel, index, row, hk, hrow, hlink, by rw [hres, Option.map_some]⟩
    have hinner := (ih (depth + 1) (cstr target) st₁ disk).mono
      fun p hp => Relation.ReflTransGen.head ⟨list, hlist, hto⟩ hp
    rcases hin with ⟨s, hin, hs⟩ | ⟨hin, hs⟩ <;> rw [hin] at hinner <;> rw [hs]
    · exact hfirst.append hinner
    · exact (hfirst.append hinner).append (hfetch (fun _ => ⟨_, hto⟩) st₂ disk₂)

end Effects

/-! ### Requests -/

section Requests

variable {env : Env} {url : Bytes} {st : TorrentStatus} {disk : Disk} {o : Outcome Bytes}

/-- **What a request does**: nothing; or it saves one page; or it is a chain of calls for a
file of a torrent. -/
theorem handleRequest_effects {fuel : ℕ} (ho : handleRequest env fuel url st disk = o) :
    (o.events = [] ∧ o.disk = disk) ∨
      (∃ list, route env.dir url = .index (urlPath url) ∧
        gettor env.dir (firstComponent (urlPath url)) = some list ∧
        o.events = [.saved (pagePath (urlPath url))] ∧
        o.disk = disk.write (pagePath (urlPath url))
          (.page (generateIndex (indexPath (urlPath url)) list))) ∨
      (∃ torrentName filePath, route env.dir url = .file torrentName filePath) ∧
        Replays env.dir (Relation.ReflTransGen (Leads env.dir) (urlPath url)) disk o.disk
          o.events := by
  rw [handleRequest_eq_route] at ho
  rcases hroute : route env.dir url with _ | _ | ⟨torrentName, filePath⟩ | path <;>
    rw [hroute] at ho
  · subst ho
    exact Or.inl ⟨rfl, rfl⟩
  · subst ho
    exact Or.inl ⟨rfl, rfl⟩
  · subst ho
    rw [← (eq_of_route_file hroute).1]
    exact Or.inr (Or.inr ⟨⟨_, _, rfl⟩, getTorrent_replays env fuel 0 _ st disk⟩)
  · obtain rfl := eq_of_route_index hroute
    obtain ⟨-, hnone | ⟨list, hlist, hev, hdisk⟩⟩ := getTorrentIndex_effects ho
    · exact Or.inl hnone
    · exact Or.inr (Or.inl ⟨list, rfl, hlist, hev, hdisk⟩)

end Requests

end InstantMirror
