import InstantMirror.Lib.Acyclic
import InstantMirror.CallChain
import InstantMirror.LinkWalk

/-!
# Following links to their end

`getTorrent` calls itself on the target of a link *before* it sets the flag of the link,
so nothing that the chain of calls leaves in the status can stop the chain: it ends if
the links do. `InstantMirror.chainEnds_iff` says so in both directions. If no cycle of
links can be reached from the requested file, the chain ends from every status and
whatever the sessions do, since only finitely many paths are links; and if one can, the
chain goes on for ever from a new status.

A single download that never finishes, and a target whose resolution never ends, are
not what this is about: both are assumed away.
-/

namespace InstantMirror

/-! ### The property and its assumptions -/

/-- Every resolution of a link of the torrent ends. -/
def ResolutionsEnd (list : List TorFile) : Prop :=
  ∀ row ∈ list, row.symlinkAttribute = true → LoopEnds row.name row.symlinkPath

/-- **The chain of calls ends** for this path, from whatever status, if every single download
ends. A run that leaves an array, as one for a link to a directory does, counts as ended. -/
def ChainEnds (dir : TorrentDir) (path : Bytes) : Prop :=
  ∀ env : Env, env.dir = dir → (∀ depth, env.net depth ≠ .never) → ∀ st disk,
    ∃ fuel, (getTorrent env fuel 0 path st disk).result ≠ .error .stuck

/-! ### Calls that end -/

section Ends

variable {env : Env} {depth index fuel fuel' : ℕ} {path name : Bytes} {row : TorFile}
  {st st₁ : TorrentStatus} {disk : Disk} {ev : List Event}

/-- The first part of a call does not go on for ever. -/
theorem enter_ne_stuck {s : Stop} (h : enter env depth path st = (.stopped s, st₁, ev)) :
    s ≠ .stuck := by
  have hprio : ∀ list name i, prioritise list name i = .stopped s → s ≠ .stuck := by
    rintro list name i hprio rfl
    rw [prioritise] at hprio
    split at hprio
    · split at hprio <;> cases hprio
    · cases hprio
  rintro rfl
  rw [enter] at h
  split at h
  · cases h
  split at h
  · cases h
  simp only at h
  split at h
  · cases h
  · cases h
  · split at h
    · exact hprio _ _ _ (Prod.mk.inj h).1 rfl
    · split at h
      · cases h
      · cases h
      · exact hprio _ _ _ (Prod.mk.inj h).1 rfl

/-- The second part ends if the download does. -/
theorem fetch_ne_stuck (hnet : env.net depth ≠ .never) :
    (fetch env depth path name index row st disk).result ≠ .error .stuck := by
  rw [fetch]
  split
  · simp
  split
  · simp
  simp only
  split
  · simp
  · rename_i hnever
    exact absurd hnever hnet
  · split <;> simp

end Ends

/-! ### Links -/

section Links

variable {list : List TorFile} {path target target' name : Bytes}

/-- **Only finitely many paths are links.** -/
theorem linkTo_finite (list : List TorFile) :
    {path | ∃ target, LinkTo list path target}.Finite := by
  -- a path is the name of its row, or, without a slash, the first component of it
  refine Set.Finite.subset
    (list.map TorFile.name ++ list.map fun row => torrentName row.name).finite_toSet ?_
  rintro path ⟨target, fuel, k, row, hk, hrow, -⟩
  have hmem := List.mem_of_getElem? hrow
  by_cases hpath : slash ∈ path
  · have hname := name_of_checkIndex hpath hk hrow
    exact List.mem_append_left _ (List.mem_map.mpr ⟨row, hmem, hname⟩)
  · refine List.mem_append_right _ (List.mem_map.mpr ⟨row, hmem, ?_⟩)
    rcases checkIndex_cases list (torrentName path) (torrentFileName path) with
      ⟨hnone, -⟩ | ⟨k', row', hk', hrow', hname⟩
    · omega
    · obtain rfl : k = k' := by omega
      obtain rfl := Option.some.inj (hrow.symm.trans hrow')
      rw [hname, torrentName_of_notMem hpath, torrentName_append hpath]

end Links

/-! ### The chain of calls -/

section Calls

variable {env : Env} {list : List TorFile} {path name : Bytes} {st : TorrentStatus}

/-- **Without a cycle, the chain of calls ends.** -/
theorem getTorrent_ends (hlist : gettor env.dir name = some list) (hends : ResolutionsEnd list)
    (hnet : ∀ depth, env.net depth ≠ .never) (hname : slash ∉ name) (hname₀ : (0 : UInt8) ∉ name)
    (hacc : Acc (fun y x => LinkTo list x y) path) (hpath : ∃ rest, path = name ++ slash :: rest) :
    ∀ depth st disk, ∃ fuel, (getTorrent env fuel depth path st disk).result ≠ .error .stuck := by
  induction hacc with
  | intro path _ ih =>
    intro depth st disk
    obtain ⟨rest, rfl⟩ := hpath
    rcases hent : enter env depth (name ++ slash :: rest) st with
      ⟨s | _ | ⟨name', k, row⟩, st₁, ev⟩
    · exact ⟨1, by rw [getTorrent_of_stopped hent]; simpa using enter_ne_stuck hent⟩
    · exact ⟨1, by rw [getTorrent_of_returned hent]; simp⟩
    rcases hlink : row.symlinkAttribute with _ | _
    · exact ⟨1, by rw [getTorrent_of_plain hent hlink]; exact fetch_ne_stuck (hnet depth)⟩
    -- the row is that of the path, its link is resolved, and the chain goes on from there
    obtain ⟨-, rfl, list', hlist', hk, hrow⟩ := enter_eq_fetch hent
    rw [torrentName_append hname] at hlist'
    obtain rfl := Option.some.inj (hlist.symm.trans hlist')
    obtain ⟨fuel₁, hfuel₁⟩ := hends row (List.mem_of_getElem? hrow) hlink
    obtain ⟨target, hres⟩ := Option.isSome_iff_exists.mp hfuel₁
    rw [name_of_checkIndex (by simp) hk hrow] at hres
    have hto : LinkTo list (name ++ slash :: rest) (cstr target) :=
      ⟨fuel₁, k, row, hk, hrow, hlink, by rw [hres, Option.map_some]⟩
    obtain ⟨fuel₂, hfuel₂⟩ := ih (cstr target) hto
      (cstr_resolveLink (by simpa using hres) hname hname₀) (depth + 1) st₁ disk
    refine ⟨max fuel₁ fuel₂ + 1, ?_⟩
    have hres' := resolveLink_mono (Nat.le_max_left fuel₁ fuel₂) hres
    have hinner := getTorrent_mono (Nat.le_max_right fuel₁ fuel₂) hfuel₂
    rcases getTorrent_of_link hent hlink (max fuel₁ fuel₂) disk with
      ⟨hnone, -⟩ | ⟨target', st₂, disk₂, ev₂, hres'', ⟨s, hin, hs⟩ | ⟨-, hs⟩⟩
    · rw [hres'] at hnone
      cases hnone
    · obtain rfl := Option.some.inj (hres'.symm.trans hres'')
      rw [← hinner, hin] at hfuel₂
      rwa [hs]
    · rw [hs]
      exact fetch_ne_stuck (hnet depth)

/-- **Where a cycle can be reached, the chain of calls never ends**, from a new status. -/
theorem getTorrent_stuck (hlist : gettor env.dir name = some list)
    (hnet : ∀ depth, env.net depth ≠ .noSession) (hname : slash ∉ name)
    (hname₀ : (0 : UInt8) ∉ name) (hem : st.empty = true) (disk : Disk) :
    ∀ fuel depth path, (∃ rest, path = name ++ slash :: rest) →
      ReachesCycle (LinkTo list) path →
      (getTorrent env fuel depth path st disk).result = .error .stuck := by
  intro fuel
  induction fuel with
  | zero => intros; rfl
  | succ fuel ih =>
    rintro depth path ⟨rest, rfl⟩ hcycle
    obtain ⟨target, hto, hcycle'⟩ := exists_step_of_reachesCycle hcycle
    obtain ⟨fuel', k, row, hk, hrow, hlink, hres⟩ := id hto
    have hent := enter_of_clear (hnet depth) ((torrentName_append hname rest).symm ▸ hlist)
      (validate_of_empty hem env depth _) hk hrow (Or.inl hem)
    rcases getTorrent_of_link hent hlink fuel disk with
      ⟨-, hs⟩ | ⟨target', st₂, disk₂, ev₂, hres', hin⟩
    · rw [hs]
    -- the chain goes on with the link that leads towards the cycle
    have hto' : LinkTo list (name ++ slash :: rest) (cstr target') :=
      ⟨fuel, k, row, hk, hrow, hlink, by rw [hres', Option.map_some]⟩
    have hstuck := ih (depth + 1) (cstr target')
      (cstr_resolveLink (by simpa using hres') hname hname₀) (hto.unique hto' ▸ hcycle')
    rcases hin with ⟨s, hin, hs⟩ | ⟨hin, -⟩
    · rw [hin] at hstuck
      rw [hs]
      exact hstuck
    · rw [hin] at hstuck
      cases hstuck

/-- **The chain of calls ends exactly if no cycle of links can be reached.** -/
theorem chainEnds_iff {dir : TorrentDir} {path : Bytes} (hpath : slash ∈ path)
    (htext : (0 : UInt8) ∉ path)
    (hends : ∀ list, gettor dir (torrentName path) = some list → ResolutionsEnd list) :
    ChainEnds dir path ↔
      ∀ list, gettor dir (torrentName path) = some list → ¬ ReachesCycle (LinkTo list) path := by
  obtain ⟨name, rest, rfl, hname⟩ := exists_split hpath
  have hname₀ : (0 : UInt8) ∉ name := fun h => htext (List.mem_append_left _ h)
  rw [torrentName_append hname] at hends ⊢
  constructor
  · intro hchain list hlist hcycle
    obtain ⟨fuel, hfuel⟩ := hchain (.finishing dir) rfl (by simp [Env.finishing]) .new .bare
    exact hfuel (getTorrent_stuck hlist (by simp [Env.finishing]) hname hname₀ rfl .bare fuel 0 _
      ⟨rest, rfl⟩ hcycle)
  · rintro hacyclic env rfl hnet st disk
    rcases hlist : gettor env.dir name with _ | list
    · -- `gettor` calls `exit`, unless there is no session
      by_cases hses : env.net 0 = .noSession
      · exact ⟨1, by rw [getTorrent_of_returned (enter_of_noSession hses _ st)]; simp⟩
      · have hent : enter env 0 (name ++ slash :: rest) st = (.stopped .exited, st, []) := by
          simp [enter, hses, torrentName_append hname, hlist]
        exact ⟨1, by rw [getTorrent_of_stopped hent]; simp⟩
    · exact getTorrent_ends hlist (hends list hlist) hnet hname hname₀
        (acc_of_acyclic (linkTo_finite list) (hacyclic list hlist)) ⟨rest, rfl⟩ 0 st disk

end Calls

/-- The torrent “n” with a link in a subdirectory. -/
def linkDir (target : Bytes) : TorrentDir :=
  .ofList [(ascii "n", .listing 5 [.link (ascii "n/d/link") target, .plain (ascii "n/b") 1])]

/-- A link to a file. -/
theorem chainEnds_of_one_link : ChainEnds (linkDir (ascii "../b")) (ascii "n/d/link") := by
  refine (chainEnds_iff (by decide) (by decide) fun list hlist row hrow hlink => ?_).mpr
    fun list hlist hcycle => ?_
  · obtain rfl := Option.some.inj hlist
    rcases List.mem_cons.mp hrow with rfl | hrow
    · exact ⟨3, by decide⟩
    · obtain rfl := List.mem_singleton.mp hrow
      cases hlink
  · obtain rfl := Option.some.inj hlist
    -- the link leads to the file, and the file nowhere
    have hto : LinkTo (torList [] [.link (ascii "n/d/link") (ascii "../b"), .plain (ascii "n/b") 1])
        (ascii "n/d/link") (ascii "n/b") := ⟨3, 0, _, by decide, rfl, rfl, by decide⟩
    obtain ⟨target, hto', hcycle⟩ := exists_step_of_reachesCycle hcycle
    rw [← hto.unique hto'] at hcycle
    obtain ⟨-, ⟨-, k, row, hk, hrow, hlink, -⟩, -⟩ := exists_step_of_reachesCycle hcycle
    obtain rfl : k = 1 := Int.natCast_inj.mp (hk.symm.trans (by decide))
    obtain rfl := Option.some.inj hrow
    cases hlink

/-- **A link to itself** is followed for ever. -/
theorem chain_endless : ¬ ChainEnds (linkDir (ascii "../d/link")) (ascii "n/d/link") := by
  intro hchain
  obtain ⟨fuel, hfuel⟩ := hchain (.finishing _) rfl (by simp [Env.finishing]) .new .bare
  have hto : LinkTo (torList [] [.link (ascii "n/d/link") (ascii "../d/link"),
      .plain (ascii "n/b") 1]) (ascii "n/d/link") (ascii "n/d/link") :=
    ⟨3, 0, _, by decide, rfl, rfl, by decide⟩
  exact hfuel (@getTorrent_stuck (.finishing (linkDir (ascii "../d/link"))) _ (ascii "n") .new rfl
    (by simp [Env.finishing]) (by decide) (by decide) rfl .bare fuel 0 _ ⟨ascii "d/link", rfl⟩
    ⟨_, .refl, .single hto⟩)

end InstantMirror
