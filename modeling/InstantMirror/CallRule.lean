import InstantMirror.Main
import InstantMirror.Route

/-!
# Rules for calls of `getTorrent` and for runs of the daemon

`getTorrent` calls itself for a symbolic link *between* its two parts: the status
it goes on with is not the one it has looked at, but the one the inner call leaves
behind. `InstantMirror.CallRule` lists what has to be shown of the two parts
separately, and `InstantMirror.CallRule.getTorrent` derives what a whole chain of
calls does.

The invariant comes in two strengths. `Inv` holds between calls. `Mid name` holds
once the first part of a call for the torrent `name` has been passed, and an inner
call, which is for the same torrent, has to keep it.

`InstantMirror.daemon_along` carries the outer invariant through the router and the
loop of `main`, where nothing else touches the status.
-/

namespace InstantMirror

/-! ### Calls -/

/-- A call begins with the event of being called. -/
theorem getTorrent_events_eq_cons (env : Env) (fuel depth : ℕ) (path : Bytes)
    (st : TorrentStatus) (disk : Disk) :
    ∃ rest, (getTorrent env (fuel + 1) depth path st disk).events =
      .call env depth path st :: rest := by
  rcases hent : enter env depth path st with ⟨_ | _ | ⟨name, index, row⟩, st₁, ev⟩
  · exact ⟨_, congrArg Outcome.events (getTorrent_of_stopped hent fuel disk)⟩
  · exact ⟨_, congrArg Outcome.events (getTorrent_of_returned hent fuel disk)⟩
  rcases hlink : row.symlinkAttribute with _ | _
  · exact ⟨_, congrArg Outcome.events (getTorrent_of_plain hent hlink fuel disk)⟩
  · rcases getTorrent_of_link hent hlink fuel disk with
      ⟨-, hs⟩ | ⟨target, st₂, disk₂, ev₂, -, ⟨s, -, hs⟩ | ⟨-, hs⟩⟩ <;>
      exact ⟨_, congrArg Outcome.events hs⟩

/-- **What has to be shown of the two parts of a call**, for a condition `Cond` and
a property `Prp` of events and their past. -/
structure CallRule (env : Env) (Cond Prp : List Event → Event → Prop)
    (Inv : List Event → TorrentStatus → Prop)
    (Mid : Bytes → List Event → TorrentStatus → Prop) : Prop where
  /-- The invariant inside a call is at least as strong. -/
  inv_of_mid : ∀ {name h st}, Mid name h st → Inv h st
  /-- The first part: either it ends the call, and both invariants are kept, or the
  inner one is established. -/
  enter : ∀ (h : List Event) (depth : ℕ) (path : Bytes) (st : TorrentStatus), Inv h st →
    Cond h (.call env depth path st) →
    ∀ r, InstantMirror.enter env depth path st = r →
    Along (fun before => Prp (h ++ before)) (.call env depth path st :: r.2.2) ∧
      match r.1 with
      | .stopped _ => True
      | .returned => Inv (h ++ .call env depth path st :: r.2.2) r.2.1 ∧
          (Mid (torrentName path) h st →
            Mid (torrentName path) (h ++ .call env depth path st :: r.2.2) r.2.1)
      | .fetch _ _ _ => Mid (torrentName path) (h ++ .call env depth path st :: r.2.2) r.2.1
  /-- The second part keeps the inner invariant. -/
  fetch : ∀ (h : List Event) (depth : ℕ) (path name : Bytes) (index : ℕ) (row : TorFile)
    (list : List TorFile) (st : TorrentStatus) (disk : Disk), env.net depth ≠ .noSession →
    gettor env.dir name = some list → list[index]? = some row → Mid name h st →
    ∀ o, InstantMirror.fetch env depth path name index row st disk = o →
    Along (fun before => Prp (h ++ before)) o.events ∧
      (o.result = .ok () → Mid name (h ++ o.events) o.status)

namespace CallRule

variable {env : Env} {Cond Prp : List Event → Event → Prop}
  {Inv : List Event → TorrentStatus → Prop} {Mid : Bytes → List Event → TorrentStatus → Prop}

/-- The second part of a call, with the events of the first in front. -/
theorem fetch_after (R : CallRule env Cond Prp Inv Mid) {h ev : List Event} {depth index : ℕ}
    {path name : Bytes} {row : TorFile} {list : List TorFile} {st : TorrentStatus} {disk : Disk}
    (hnet : env.net depth ≠ .noSession) (hlist : gettor env.dir name = some list)
    (hrow : list[index]? = some row) (hev : Along (fun before => Prp (h ++ before)) ev)
    (hmid : Mid name (h ++ ev) st) {o : Outcome Unit}
    (ho : (InstantMirror.fetch env depth path name index row st disk).after ev = o) :
    Along (fun before => Prp (h ++ before)) o.events ∧
      (o.result = .ok () → Mid name (h ++ o.events) o.status) := by
  subst ho
  obtain ⟨hprp, hend⟩ := R.fetch (h ++ ev) depth path name index row list st disk hnet hlist
    hrow hmid _ rfl
  simp only [Outcome.after_events, Outcome.after_result, Outcome.after_status]
  rw [along_append, ← List.append_assoc]
  exact ⟨⟨hev, by simpa only [List.append_assoc] using hprp⟩, hend⟩

/-- **The rule.** A chain of calls whose events meet the condition has the property
along its events; and if it returns, it restores the invariant, and the inner one
where that held already. The path is a C string. -/
theorem getTorrent (R : CallRule env Cond Prp Inv Mid) :
    ∀ (fuel depth : ℕ) (path : Bytes) (st : TorrentStatus) (disk : Disk) (h : List Event),
      (0 : UInt8) ∉ path → Inv h st →
      ∀ o, InstantMirror.getTorrent env fuel depth path st disk = o →
      Along (fun before => Cond (h ++ before)) o.events →
      Along (fun before => Prp (h ++ before)) o.events ∧
        (o.result = .ok () → Inv (h ++ o.events) o.status ∧
          (Mid (torrentName path) h st → Mid (torrentName path) (h ++ o.events) o.status)) := by
  intro fuel
  induction fuel with
  | zero =>
    rintro depth path st disk h - - o rfl -
    exact ⟨along_nil _, by rintro ⟨⟩⟩
  | succ fuel ih =>
    rintro depth path st disk h hpath hinv o rfl hcond
    have hcall : Cond h (.call env depth path st) := by
      obtain ⟨rest, hrest⟩ := getTorrent_events_eq_cons env fuel depth path st disk
      rw [hrest, along_cons] at hcond
      simpa using hcond.1
    rcases hent : InstantMirror.enter env depth path st with ⟨_ | _ | ⟨name, index, row⟩, st₁, ev⟩
    all_goals obtain ⟨hprp₁, hkeep₁⟩ := R.enter h depth path st hinv hcall _ hent
    · rw [getTorrent_of_stopped hent]
      exact ⟨hprp₁, by rintro ⟨⟩⟩
    · rw [getTorrent_of_returned hent]
      exact ⟨hprp₁, fun _ => hkeep₁⟩
    obtain ⟨hnet, rfl, list, hlist, -, hrow⟩ := enter_eq_fetch hent
    rcases hlink : row.symlinkAttribute with _ | _
    · rw [getTorrent_of_plain hent hlink]
      obtain ⟨hprp, hend⟩ := R.fetch_after hnet hlist hrow hprp₁ hkeep₁ rfl
      exact ⟨hprp, fun hok => ⟨R.inv_of_mid (hend hok), fun _ => hend hok⟩⟩
    -- the call on the target goes on from the events of this one
    have hinner : ∀ target o₂,
        InstantMirror.getTorrent env fuel (depth + 1) (cstr target) st₁ disk = o₂ →
        Along (fun before => Cond (h ++ before)) (.call env depth path st :: ev ++ o₂.events) →
        Along (fun before => Prp (h ++ before)) (.call env depth path st :: ev ++ o₂.events) ∧
          (o₂.result = .ok () → torrentName (cstr target) = torrentName path →
            Mid (torrentName path) (h ++ (.call env depth path st :: ev ++ o₂.events))
              o₂.status) := by
      intro target o₂ hin hcond₂
      obtain ⟨hprp₂, hkeep₂⟩ := ih (depth + 1) (cstr target) st₁ disk _
        (zero_notMem_cstr target) (R.inv_of_mid hkeep₁) _ hin
        (by simpa only [List.append_assoc] using (along_append.mp hcond₂).2)
      refine ⟨along_append.mpr ⟨hprp₁, by simpa only [List.append_assoc] using hprp₂⟩, ?_⟩
      intro hok hname
      rw [hname, List.append_assoc] at hkeep₂
      exact (hkeep₂ hok).2 hkeep₁
    rcases getTorrent_of_link hent hlink fuel disk with
      ⟨-, hs⟩ | ⟨target, st₂, disk₂, ev₂, hres, ⟨s, hin, hs⟩ | ⟨hin, hs⟩⟩ <;> rw [hs] at hcond ⊢
    · exact ⟨hprp₁, by rintro ⟨⟩⟩
    · exact ⟨(hinner target _ hin hcond).1, by rintro ⟨⟩⟩
    · obtain ⟨hprp₁₂, hmid₂⟩ := hinner target _ hin (along_append.mp hcond).1
      obtain ⟨hprp, hend⟩ := R.fetch_after hnet hlist hrow hprp₁₂
        (hmid₂ rfl (torrentName_resolveLink hres hpath)) rfl
      exact ⟨hprp, fun hok => ⟨R.inv_of_mid (hend hok), fun _ => hend hok⟩⟩

end CallRule

/-! ### Runs of the daemon -/

/-- **What a request can do to the status**: nothing, or one chain of calls. -/
theorem handleRequest_cases (env : Env) (fuel : ℕ) (url : Bytes) (st : TorrentStatus)
    (disk : Disk) {o : Outcome Bytes} (ho : handleRequest env fuel url st disk = o) :
    (o.status = st ∧ (o.events = [] ∨ ∃ path, o.events = [.saved path])) ∨
      ∃ path, (0 : UInt8) ∉ path ∧ o.status = (getTorrent env fuel 0 path st disk).status ∧
        o.events = (getTorrent env fuel 0 path st disk).events ∧
        ∀ reply, o.result = .ok reply → (getTorrent env fuel 0 path st disk).result = .ok () := by
  rw [handleRequest_eq_route] at ho
  rcases hroute : route env.dir url with _ | _ | ⟨torrentName, filePath⟩ | path <;>
    rw [hroute] at ho
  · exact Or.inl (by subst ho; exact ⟨rfl, Or.inl rfl⟩)
  · exact Or.inl (by subst ho; exact ⟨rfl, Or.inl rfl⟩)
  · subst ho
    refine Or.inr ⟨_, ?_, rfl, rfl, fun reply hreply => ?_⟩
    · rw [(eq_of_route_file hroute).1]
      exact zero_notMem_urlPath url
    · simp only [getTorrentFile] at hreply
      rcases hres : (getTorrent env fuel 0 _ st disk).result with s | _
      · rw [hres] at hreply
        cases hreply
      · rfl
  · obtain ⟨hst, ⟨hev, -⟩ | ⟨list, -, hev, -⟩⟩ := getTorrentIndex_effects ho
    · exact Or.inl ⟨hst, Or.inl hev⟩
    · exact Or.inl ⟨hst, Or.inr ⟨_, hev⟩⟩

section Daemon

variable {Cond Prp : List Event → Event → Prop} {Inv : List Event → TorrentStatus → Prop}
  {Mid : Env → Bytes → List Event → TorrentStatus → Prop}

/-- A request whose events meet the condition has the property along its events, and
restores the invariant if it returns. -/
theorem handleRequest_along (R : ∀ env, CallRule env Cond Prp Inv (Mid env))
    (hsaved : ∀ h path, Prp h (.saved path))
    (hinv_saved : ∀ h st path, Inv h st → Inv (h ++ [.saved path]) st)
    {env : Env} {fuel : ℕ} {url : Bytes} {st : TorrentStatus} {disk : Disk} {h : List Event}
    (hinv : Inv h st) {o : Outcome Bytes} (ho : handleRequest env fuel url st disk = o)
    (hcond : Along (fun before => Cond (h ++ before)) o.events) :
    Along (fun before => Prp (h ++ before)) o.events ∧
      ∀ reply, o.result = .ok reply → Inv (h ++ o.events) o.status := by
  rcases handleRequest_cases env fuel url st disk ho with
    ⟨hst, hev | ⟨path, hev⟩⟩ | ⟨path, hpath, hst, hev, hres⟩
  · rw [hev, hst, List.append_nil]
    exact ⟨along_nil _, fun _ _ => hinv⟩
  · rw [hev, hst]
    exact ⟨along_singleton.mpr (hsaved _ _), fun _ _ => hinv_saved h st path hinv⟩
  · rw [hev] at hcond
    rw [hev, hst]
    obtain ⟨hprp, hend⟩ := (R env).getTorrent fuel 0 path st disk h hpath hinv _ rfl hcond
    exact ⟨hprp, fun reply hreply => (hend (hres reply hreply)).1⟩

/-- **The rule for runs of the daemon.** -/
theorem daemon_along (R : ∀ env, CallRule env Cond Prp Inv (Mid env))
    (hsaved : ∀ h path, Prp h (.saved path))
    (hinv_saved : ∀ h st path, Inv h st → Inv (h ++ [.saved path]) st)
    (conns : List Conn) {s : Server} (hinv : Inv [] s.status)
    (hcond : Along Cond (daemon.run conns s).2) :
    Along Prp (daemon.run conns s).2 ∧
      ∀ s', (daemon.run conns s).1 = some s' → Inv (daemon.run conns s).2 s'.status := by
  refine @Machine.run_along Conn Server Event daemon Cond Prp (fun h s => Inv h s.status) ?_
    conns [] s hinv hcond
  rintro conn h s hinv hcond
  have hstep : (daemon.step conn s).2 = (serve conn s).events := rfl
  rw [hstep] at hcond ⊢
  rcases serve_cases conn s with ⟨hev, hnext⟩ | ⟨-, o, ho, hev, hnext⟩ <;> rw [hev] at hcond ⊢
  · refine ⟨along_nil _, fun s' hs' => ?_⟩
    obtain rfl := hnext s' (next_of_step hs')
    rwa [List.append_nil]
  · obtain ⟨hprp, hend⟩ := handleRequest_along R hsaved hinv_saved hinv ho hcond
    refine ⟨hprp, fun s' hs' => ?_⟩
    obtain ⟨reply, hres, rfl⟩ := hnext s' (next_of_step hs')
    exact hend reply hres

end Daemon

end InstantMirror
