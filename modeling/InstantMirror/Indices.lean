import InstantMirror.CallChain
import InstantMirror.Route

/-!
# The uses of an index

A call of `getTorrent` asks `check` for the index of the requested file, once, and uses it in
up to five places: it reads a flag, writes a priority, reads a row of the list, and after the
download writes a flag and reads a row again. `check` says `-1` for what it does not find, and
only the router tests for that; behind a link, nobody does. And the array of flags belongs to
the status, which may have been made for another torrent.

`InstantMirror.indexUses` lists the uses, with the size of the array at that moment, along a
whole chain of calls. Whether they are all in range (`InstantMirror.IndicesInRange`) is a matter
of where the links lead, of the list, and of the status before the request
(`InstantMirror.Calls.IndicesOk`): as long as no flag stops the chain, the links have to lead to
files of the torrent, and an array that is kept has to have a flag for each of them. That the
*later* uses – after the calls behind a link, on the status that they leave – need nothing more
is a part of `InstantMirror.indicesInRange_iff`.
-/

namespace InstantMirror

/-! ### The uses -/

/-- The arrays that `index_t` is used with. -/
inductive Indexed where
  /-- `torrent_status_obj.fileStatus`. -/
  | fileStatus : Indexed
  /-- `priorities_files`. -/
  | prioritiesFiles : Indexed
  /-- `list`. -/
  | list : Indexed
deriving DecidableEq

/-- **A use of `index_t`.** -/
structure IndexUse where
  /-- The array. -/
  array : Indexed
  /-- The index. -/
  index : ℤ
  /-- How many elements the array has. -/
  size : ℕ
deriving DecidableEq

/-- The index is one of the array. -/
def IndexUse.InRange (u : IndexUse) : Prop := 0 ≤ u.index ∧ u.index < u.size

theorem inRange_natCast {array : Indexed} {k size : ℕ} :
    (⟨array, k, size⟩ : IndexUse).InRange ↔ k < size := by
  simp [IndexUse.InRange]

/-- The uses in the first part of a call: the flag, the priority and the row. -/
def enterUses (env : Env) (depth : ℕ) (path : Bytes) (st : TorrentStatus) : List IndexUse :=
  if env.net depth = .noSession then []
  else
    match gettor env.dir (torrentName path) with
    | none => []
    | some list =>
      let index := checkIndex list (torrentName path) (torrentFileName path)
      let rest : List IndexUse :=
        [⟨.prioritiesFiles, index, list.length⟩, ⟨.list, index, list.length⟩]
      match validate env depth (torrentName path) st with
      | (.done st₁, _) =>
        if st₁.empty then rest
        else
          ⟨.fileStatus, index, st₁.fileStatus.length⟩ ::
            if flagAt (env.outside depth) st₁.fileStatus index = some false then rest else []
      | _ => []

/-- The uses in the second part of a call, if the download finishes: the flag and the row. -/
def fetchUses (env : Env) (depth : ℕ) (name : Bytes) (index : ℕ) (st : TorrentStatus) :
    List IndexUse :=
  match torrentInfo env.dir name with
  | none => []
  | some ti =>
    if ti.files = [] ∨ env.net depth ≠ .finished then []
    else
      [⟨.fileStatus, index, (takenUp env name ti st).1.fileStatus.length⟩,
        ⟨.list, index, ((gettor env.dir name).getD []).length⟩]

/-- **The uses in a call of `getTorrent`**, and in the calls behind a link. -/
def indexUses (env : Env) : ℕ → ℕ → Bytes → TorrentStatus → Disk → List IndexUse
  | 0, _, _, _, _ => []
  | fuel + 1, depth, path, st, disk =>
    enterUses env depth path st ++
      match enter env depth path st with
      | (.fetch name index row, st₁, _) =>
        if row.symlinkAttribute then
          match resolveLink fuel (path ++ slash :: row.symlinkPath) with
          | none => []
          | some target =>
            let inner := getTorrent env fuel (depth + 1) (cstr target) st₁ disk
            indexUses env fuel (depth + 1) (cstr target) st₁ disk ++
              match inner.result with
              | .error _ => []
              | .ok _ => fetchUses env depth name index inner.status
        else fetchUses env depth name index st₁
      | _ => []

/-- **Every index is in range**, whatever the sessions do and whatever is found outside the
arrays. -/
def IndicesInRange (dir : TorrentDir) (path : Bytes) (st : TorrentStatus) : Prop :=
  ∀ env : Env, env.dir = dir → ∀ fuel disk, ∀ u ∈ indexUses env fuel 0 path st disk, u.InRange

/-! ### The condition -/

namespace Calls

variable (c : Calls)

/-- The path is that of a file of the torrent. -/
def Listed (path : Bytes) : Prop := ∃ row ∈ c.list, row.name = path

/-- **The condition**, by what becomes of the status. While nothing has been taken up, every link
is followed, and all of them have to lead to files of the torrent. An array that is kept stops
the chain at the first flag that is set, and up to there it needs a flag for every file. An array
that is migrated is as long as the list – if the torrent can be loaded –, and again the flags that
come out set stop the chain, as does a migration that leaves its arrays. -/
def IndicesOk (path : Bytes) : Prop :=
  if c.status.empty = true then
    ∀ n target, LinksTo c.list n path target → c.Listed target
  else if c.status.isTorrentValid c.entry.mtime = true then
    ∀ n target, LinksTo c.list n path target →
      (∀ i < n, ∀ q, LinksTo c.list i path q →
        ∃ k : ℕ, c.index q = k ∧ c.status.fileStatus[k]? = some false) →
      ∃ k : ℕ, c.index target = k ∧ k < c.status.fileStatus.length
  else
    ∀ n target, LinksTo c.list n path target →
      (∀ i < n, ∀ q, LinksTo c.list i path q →
        ∃ (k : ℕ) (flags : List Bool), c.index q = k ∧ c.FlagsAt i flags ∧
          flags[k]? = some false) →
      (∃ flags, c.FlagsAt n flags) → c.info.files ≠ [] ∧ c.Listed target

/-- The call lets the chain go on: there are no flags yet, or the flag is in the array and
clear. -/
def LetsPass (depth : ℕ) (path : Bytes) : Prop :=
  c.status.empty = true ∨ ∃ (k : ℕ) (flags : List Bool), c.index path = k ∧
    c.FlagsAt depth flags ∧ flags[k]? = some false

/-- The call finds its file in the list, and in the array if there is one. -/
def FindsAt (depth : ℕ) (path : Bytes) : Prop :=
  0 ≤ c.index path ∧ (c.status.empty = false → ∀ flags, c.FlagsAt depth flags →
    c.index path < flags.length)

/-- Every call that the others let pass finds its file. -/
def FindsAll (path : Bytes) : Prop :=
  ∀ n target, LinksTo c.list n path target →
    (∀ i < n, ∀ q, LinksTo c.list i path q → c.LetsPass i q) →
    (c.status.empty = true ∨ ∃ flags, c.FlagsAt n flags) → c.FindsAt n target

section Condition

variable {c} {depth : ℕ} {path : Bytes}

/-- `check` finds the files of the torrent. -/
theorem listed_iff (hslash : slash ∈ path) : c.Listed path ↔ 0 ≤ c.index path := by
  obtain ⟨a, b, rfl, ha⟩ := exists_split hslash
  rw [index, torrentName_append ha, torrentFileName_append ha]
  rcases checkIndex_cases c.list a b with ⟨hnone, hno⟩ | ⟨k, row, hk, hrow, hname⟩
  · rw [hnone]
    refine iff_of_false ?_ (by decide)
    rintro ⟨row, hrow, hname⟩
    exact hno row hrow hname
  · rw [hk]
    exact iff_of_true ⟨row, List.mem_of_getElem? hrow, hname⟩ (Int.natCast_nonneg k)

theorem flagsAt_iff_of_kept (hkept : c.Kept) {flags : List Bool} :
    c.FlagsAt depth flags ↔ flags = c.status.fileStatus :=
  ⟨fun h => h.eq_of_kept hkept, fun h => h ▸ .kept hkept depth⟩

theorem index_lt_length (h : 0 ≤ c.index path) : c.index path < c.list.length := by
  rcases checkIndex_cases c.list (torrentName path) (torrentFileName path) with
    ⟨hnone, -⟩ | ⟨k, row, hk, hrow, -⟩
  · have hindex : c.index path = -1 := hnone
    omega
  · have hindex : c.index path = k := hk
    have := (List.getElem?_eq_some_iff.mp hrow).1
    omega

/-- **The condition says of every call what the call needs.** -/
theorem indicesOk_iff (hslash : slash ∈ path) (hpath : (0 : UInt8) ∉ path) :
    c.IndicesOk path ↔ c.FindsAll path := by
  have hlisted : ∀ {n target}, LinksTo c.list n path target →
      (c.Listed target ↔ 0 ≤ c.index target) :=
    fun hlinks => listed_iff (hlinks.slash_mem hpath hslash)
  rw [IndicesOk, FindsAll]
  rcases hem : c.status.empty with _ | _
  · by_cases hkept : c.Kept
    · have hvalid : c.status.isTorrentValid c.entry.mtime = true := hkept
      simp only [Bool.false_eq_true, if_false, hvalid, if_true, LetsPass, FindsAt, hem,
        flagsAt_iff_of_kept hkept, false_or, exists_eq, forall_true_left, forall_eq]
      refine forall_congr' fun n => forall_congr' fun target => forall_congr' fun _ =>
        imp_congr (by simp only [exists_and_left, exists_eq_left]) ?_
      constructor
      · rintro ⟨k, hk, hlt⟩
        omega
      · rintro ⟨hpos, hlt⟩
        obtain ⟨k, hk⟩ := Int.eq_ofNat_of_zero_le hpos
        exact ⟨k, hk, by omega⟩
    · have hvalid : ¬ c.status.isTorrentValid c.entry.mtime = true := hkept
      simp only [Bool.false_eq_true, if_false, hvalid, LetsPass, FindsAt, hem, false_or,
        forall_true_left]
      refine forall_congr' fun n => forall_congr' fun target => forall_congr' fun hlinks =>
        imp_congr Iff.rfl (forall_congr' fun ⟨flags, hflags⟩ => ?_)
      rw [hlisted hlinks]
      -- the array has a flag for each file of a torrent that is loaded, and none otherwise
      constructor
      · rintro ⟨hne, hpos⟩
        refine ⟨hpos, fun flags' hflags' => ?_⟩
        rw [hflags'.length_eq hkept, ← length_of_torrentInfo c.info_eq hne c.list_eq]
        exact index_lt_length hpos
      · rintro ⟨hpos, hlt⟩
        refine ⟨fun hnil => ?_, hpos⟩
        have hlen := hlt flags hflags
        rw [hflags.length_eq hkept, TorrentInfo.numFiles, hnil] at hlen
        simp only [List.length_nil] at hlen
        omega
  · simp only [if_true, LetsPass, FindsAt, hem, true_or, implies_true, forall_true_left,
      Bool.true_eq_false, false_implies, and_true]
    exact forall_congr' fun n => forall_congr' fun target => forall_congr' hlisted

end Condition

/-! ### What is found outside the array -/

/-- The same calls, in surroundings in which every download finishes and every flag outside the
array reads as clear. -/
def finishing : Calls := { c with env := .finishing c.env.dir }

section Finishing

variable {c} {depth : ℕ} {path : Bytes} {st : TorrentStatus} {ti : TorrentInfo}
  {flags flags' r : List Bool}

/-- **The fewer flags read as set, the fewer come out set**, and the fewer reasons there are for
leaving an array. -/
theorem exists_migrates_of_le {outside : Outside}
    (hmig : Migrates outside { st with fileStatus := flags } ti r)
    (hlen : flags'.length = flags.length)
    (hle : ∀ k : ℕ, flags'[k]? = some true → flags[k]? = some true) :
    ∃ r', Migrates (fun _ => some false) { st with fileStatus := flags' } ti r' ∧
      ∀ k : ℕ, r'[k]? = some true → r[k]? = some true := by
  have hread : ∀ i : ℕ, flagAt (fun _ => some false) flags' i = some true →
      flagAt outside flags i = some true := by
    intro i hi
    by_cases hlt : i < flags'.length
    · rw [flagAt_of_lt hlt] at hi
      rw [flagAt_of_lt (hlen ▸ hlt)]
      exact hle i hi
    · rw [flagAt, if_neg (by omega)] at hi
      cases hi
  have hstays : MigrationStays (fun _ => some false) { st with fileStatus := flags' } ti := by
    intro i a ha
    obtain ⟨b, hb, hlast⟩ := hmig.stays i a ha
    rcases hb' : flagAt (fun _ => some false) flags' ((1 + i : ℕ) : ℤ) with _ | _ | _
    · by_cases hlt : 1 + i < flags'.length
      · rw [flagAt_of_lt hlt, List.getElem?_eq_getElem hlt] at hb'
        cases hb'
      · rw [flagAt, if_neg (by omega)] at hb'
        cases hb'
    · exact ⟨false, rfl, by rintro ⟨⟩⟩
    · refine ⟨true, rfl, fun _ => hlast ?_⟩
      exact Option.some.inj (hb.symm.trans (hread _ hb'))
  obtain ⟨r', hmig'⟩ := exists_migrates_iff.mpr hstays
  refine ⟨r', hmig', fun k hk => (hmig.set_iff k).mpr ?_⟩
  obtain ⟨i, a, j, f, ha, hset, hf, hkey, hj⟩ := (hmig'.set_iff k).mp hk
  exact ⟨i, a, j, f, ha, hread _ hset, hf, hkey, hj⟩

/-- **Where a call looks at flags, so it does in the other surroundings**, and finds fewer of them
set. -/
theorem FlagsAt.exists_finishing (h : c.FlagsAt depth flags) :
    ∃ flags', c.finishing.FlagsAt depth flags' ∧ flags'.length = flags.length ∧
      ∀ k : ℕ, flags'[k]? = some true → flags[k]? = some true := by
  induction h with
  | kept hkept depth => exact ⟨_, @FlagsAt.kept c.finishing hkept depth, rfl, fun _ => id⟩
  | migrated hkept hmig =>
    obtain ⟨r', hmig', hle⟩ := exists_migrates_of_le hmig rfl fun _ => id
    exact ⟨r', @FlagsAt.migrated c.finishing _ hkept hmig',
      hmig'.length_eq.trans hmig.length_eq.symm, hle⟩
  | still hkept htime _ ih =>
    obtain ⟨flags', hflags', hlen, hle⟩ := ih
    exact ⟨flags', @FlagsAt.still c.finishing _ _ hkept htime hflags', hlen, hle⟩
  | again hkept htime _ hmig ih =>
    obtain ⟨flags', hflags', hlen, hle⟩ := ih
    obtain ⟨r', hmig', hle'⟩ := exists_migrates_of_le hmig hlen hle
    exact ⟨r', @FlagsAt.again c.finishing _ _ _ hkept htime hflags' hmig',
      hmig'.length_eq.trans hmig.length_eq.symm, hle'⟩

/-- What the call finds in the other surroundings it finds in its own. -/
theorem FindsAt.of_finishing (h : c.finishing.FindsAt depth path) (hst : c.StatusAt depth st) :
    0 ≤ c.index path ∧ (c.status.empty = false → c.index path < st.fileStatus.length) := by
  refine ⟨h.1, fun hem => ?_⟩
  obtain ⟨flags', hflags', hlen, -⟩ := (hst.flags hem).exists_finishing
  rw [← hlen]
  exact h.2 hem flags' hflags'

/-- A call that goes on, and finds its file, lets the chain pass in the other surroundings. -/
theorem GoesOn.letsPass {k : ℕ} {row : TorFile} (hgo : c.GoesOn depth path k row)
    (hst : c.StatusAt depth st)
    (hlt : c.status.empty = false → c.index path < st.fileStatus.length) :
    c.finishing.LetsPass depth path := by
  rcases hgo.clear with hem | ⟨hem, flags, hflags, hread⟩
  · exact Or.inl hem
  right
  obtain rfl := hflags.unique (hst.flags hem)
  have hk : k < st.fileStatus.length := by
    have := hlt hem
    rw [hgo.index_eq] at this
    omega
  rw [hgo.index_eq, flagAt_of_lt hk] at hread
  obtain ⟨flags', hflags', hlen, hle⟩ := hflags.exists_finishing
  refine ⟨k, flags', hgo.index_eq, hflags', ?_⟩
  have hk' : k < flags'.length := hlen ▸ hk
  rw [List.getElem?_eq_getElem hk']
  rcases hb : flags'[k] with _ | _
  · rfl
  · have hset := hle k (by rw [List.getElem?_eq_getElem hk', hb])
    rw [hread] at hset
    cases hset

end Finishing

/-! ### If every call finds its file -/

section Uses

variable {c} {depth fuel k : ℕ} {path q : Bytes} {row : TorFile} {st st₁ : TorrentStatus}
  {disk : Disk} {ev : List Event}

/-- The uses in the first part of a call, once the status has been validated. -/
theorem enterUses_of_validate (hnet : c.env.net depth ≠ .noSession)
    (hname : torrentName path = c.name)
    (hval : validate c.env depth c.name st = (.done st₁, ev)) :
    enterUses c.env depth path st =
      let rest : List IndexUse :=
        [⟨.prioritiesFiles, c.index path, c.list.length⟩, ⟨.list, c.index path, c.list.length⟩]
      if st₁.empty then rest
      else
        ⟨.fileStatus, c.index path, st₁.fileStatus.length⟩ ::
          if flagAt (c.env.outside depth) st₁.fileStatus (c.index path) = some false then rest
          else [] := by
  simp only [enterUses, if_neg hnet, hname, c.list_eq, hval, index]

/-- **A call that finds its file uses it in range**, in its first part. -/
theorem inRange_enterUses (hst : c.Before depth st) (hname : torrentName path = c.name)
    (hfinds : ∀ st₁, c.StatusAt depth st₁ → 0 ≤ c.index path ∧
      (c.status.empty = false → c.index path < st₁.fileStatus.length)) :
    ∀ u ∈ enterUses c.env depth path st, u.InRange := by
  intro u hu
  by_cases hnet : c.env.net depth = .noSession
  · simp [enterUses, hnet] at hu
  rcases hst.validate with ⟨st₁, ev, hval, hst₁⟩ | ⟨⟨ev, hval⟩, -⟩
  · obtain ⟨hpos, hlt⟩ := hfinds st₁ hst₁
    have hrest : ∀ u ∈ ([⟨.prioritiesFiles, c.index path, c.list.length⟩,
        ⟨.list, c.index path, c.list.length⟩] : List IndexUse), u.InRange := by
      intro u hu
      rcases List.mem_pair.mp hu with rfl | rfl <;> exact ⟨hpos, index_lt_length hpos⟩
    rw [enterUses_of_validate hnet hname hval] at hu
    simp only at hu
    split at hu
    · exact hrest u hu
    · rename_i hem
      rcases List.mem_cons.mp hu with rfl | hu
      · exact ⟨hpos, hlt (hst₁.empty_eq.symm.trans (by simpa using hem))⟩
      · split at hu
        · exact hrest u hu
        · simp at hu
  · simp [enterUses, hnet, hname, c.list_eq, hval] at hu

/-- **The uses in the second part of a call** are in range where there is room for the flag. -/
theorem Sized.inRange_fetchUses (h : c.Sized st) (hgo : c.GoesOn depth path k row)
    (hflag : c.HasFlag k) : ∀ u ∈ fetchUses c.env depth c.name k st, u.InRange := by
  intro u hu
  by_cases hnone : c.info.files = [] ∨ c.env.net depth ≠ .finished
  · simp [fetchUses, c.info_eq, hnone] at hu
  simp only [fetchUses, c.info_eq, if_neg hnone, c.list_eq, Option.getD_some] at hu
  rw [not_or] at hnone
  rcases htake : InstantMirror.takenUp c.env c.name c.info st with ⟨st₁, ev⟩
  obtain ⟨hsized, hem⟩ := h.takenUp htake
  have hlt : k < st₁.fileStatus.length := by
    simpa [hem, hflag] using hsized k (hgo.lt_numFiles hnone.1)
  rw [htake] at hu
  rcases List.mem_pair.mp hu with rfl | rfl
  · exact inRange_natCast.mpr hlt
  · exact inRange_natCast.mpr (List.getElem?_eq_some_iff.mp hgo.row_eq).1

/-- **If every call finds its file, every use is in range.** -/
theorem FindsAll.inRange (h : c.finishing.FindsAll path) :
    ∀ (fuel depth : ℕ) (q : Bytes) (st : TorrentStatus) (disk : Disk), c.Before depth st →
      torrentName q = c.name → (0 : UInt8) ∉ q → LinksTo c.list depth path q →
      (∀ i < depth, ∀ p, LinksTo c.list i path p → c.finishing.LetsPass i p) →
      ∀ u ∈ indexUses c.env fuel depth q st disk, u.InRange := by
  intro fuel
  induction fuel with
  | zero => simp [indexUses]
  | succ fuel ih =>
    intro depth q st disk hst hname hq hlinks hpass u hu
    have hfinds : ∀ st₁, c.StatusAt depth st₁ → 0 ≤ c.index q ∧
        (c.status.empty = false → c.index q < st₁.fileStatus.length) := by
      intro st₁ hst₁
      refine FindsAt.of_finishing (h depth q hlinks hpass ?_) hst₁
      rcases hem : c.status.empty with _ | _
      · obtain ⟨flags', hflags', -⟩ := (hst₁.flags hem).exists_finishing
        exact Or.inr ⟨flags', hflags'⟩
      · exact Or.inl hem
    rw [indexUses] at hu
    rcases List.mem_append.mp hu with hu | hu
    · exact inRange_enterUses hst hname hfinds u hu
    rcases hst.enter hname with ⟨-, st₁, ev, hent, -⟩ | ⟨k, row, st₁, ev, hgo, hent, hst₁⟩ |
      ⟨-, -, st₁, ev, hent⟩
    · simp [hent] at hu
    · have hflag : c.HasFlag k := by
        intro hem hkept
        have hlt := (hfinds st₁ hst₁).2 hem
        rw [hgo.index_eq, (hst₁.flags hem).eq_of_kept hkept] at hlt
        omega
      simp only [hent] at hu
      split at hu
      · rename_i hlink
        split at hu
        · simp at hu
        · rename_i target hres
          have hto : LinkTo c.list q (cstr target) :=
            ⟨fuel, k, row, hgo.index_eq, hgo.row_eq, hlink, by rw [hres, Option.map_some]⟩
          obtain ⟨hname', hq'⟩ := hto.torrentName hq
          have hpass' : ∀ i < depth + 1, ∀ p, LinksTo c.list i path p →
              c.finishing.LetsPass i p := by
            intro i hi p hp
            rcases Nat.lt_succ_iff_lt_or_eq.mp hi with hi | rfl
            · exact hpass i hi p hp
            · rw [hp.unique hlinks]
              exact hgo.letsPass hst₁ (hfinds st₁ hst₁).2
          rcases List.mem_append.mp hu with hu | hu
          · exact ih (depth + 1) (cstr target) st₁ disk hst₁ (hname'.trans hname) hq'
              (hlinks.tail hto) hpass' u hu
          · rcases getTorrent_cases fuel (depth + 1) (cstr target) st₁ disk hst₁
              (hname'.trans hname) hq' _ rfl with ⟨hok, -, hsized⟩ | ⟨hundef, -⟩ | hstuck
            · rw [hok] at hu
              exact (hsized hst₁.sized).inRange_fetchUses hgo hflag u hu
            · simp [hundef] at hu
            · simp [hstuck] at hu
      · exact hst₁.sized.inRange_fetchUses hgo hflag u hu
    · simp [hent] at hu

/-! ### If every use is in range -/

/-- **The uses of a call that the others let pass are uses of the chain**, where every download
finishes. -/
theorem exists_mem_indexUses (hfin : ∀ depth, c.env.net depth = .finished) {n : ℕ}
    (hst : c.Before depth st) (hname : torrentName path = c.name) (hpath : (0 : UInt8) ∉ path)
    (hlinks : LinksTo c.list n path q)
    (hpass : ∀ i < n, ∀ p, LinksTo c.list i path p → c.LetsPass (depth + i) p) (disk : Disk) :
    ∃ st' fuel₀, c.Before (depth + n) st' ∧ torrentName q = c.name ∧ ∀ fuel ≥ fuel₀,
      ∀ u ∈ enterUses c.env (depth + n) q st', u ∈ indexUses c.env fuel depth path st disk := by
  induction n generalizing depth path st with
  | zero =>
    obtain rfl : path = q := hlinks
    refine ⟨st, 1, hst, hname, fun fuel hfuel u hu => ?_⟩
    obtain ⟨fuel, rfl⟩ := Nat.exists_eq_add_of_le' hfuel
    rw [indexUses]
    exact List.mem_append_left _ hu
  | succ n ih =>
    obtain ⟨target, hto, hlinks⟩ := hlinks
    obtain ⟨hfirst, hrest⟩ := (@forall_linksTo_succ c.list path target n
      (fun i p => c.LetsPass (depth + i) p) hto).mp hpass
    obtain ⟨hname', hpath'⟩ := hto.torrentName hpath
    obtain ⟨fuel₁, k, row, hk, hrow, hlink, hres⟩ := hto
    obtain ⟨dest, hdest, rfl⟩ := Option.map_eq_some_iff.mp hres
    have hgo : c.GoesOn depth path k row := by
      refine ⟨by simp [hfin], hk, hrow, ?_⟩
      rcases hem : c.status.empty with _ | _
      · obtain ⟨k', flags, hk', hflags, hclear⟩ := hfirst.resolve_left (by simp [hem])
        refine Or.inr ⟨hem, flags, hflags, ?_⟩
        rw [hk']
        exact flagAt_natCast _ hclear
      · exact Or.inl rfl
    rcases hst.enter hname with ⟨hback, -⟩ | ⟨k', row', st₁, ev, hgo', hent, hst₁⟩ | ⟨-, hnot, -⟩
    · exact absurd hback hgo.not_turnsBack
    · obtain ⟨rfl, rfl⟩ := hgo.unique hgo'
      obtain ⟨st', fuel₂, hst', hq, huses⟩ := @ih (depth + 1) (cstr dest) st₁ hst₁
        (hname'.trans hname) hpath' hlinks fun i hi p hp => by
          rw [Nat.add_assoc, Nat.add_comm 1 i]
          exact hrest i hi p hp
      rw [Nat.add_assoc, Nat.add_comm 1 n] at hst' huses
      refine ⟨st', max fuel₁ fuel₂ + 1, hst', hq, fun fuel hfuel u hu => ?_⟩
      obtain ⟨fuel, rfl⟩ := Nat.exists_eq_add_of_le' (le_trans (Nat.le_add_left 1 _) hfuel)
      have hfuel' : max fuel₁ fuel₂ ≤ fuel := Nat.le_of_succ_le_succ hfuel
      rw [indexUses, hent]
      simp only [hlink, if_true, resolveLink_mono (le_trans (le_max_left _ _) hfuel') hdest]
      refine List.mem_append_right _ (List.mem_append_left _ ?_)
      exact huses fuel (le_trans (le_max_right _ _) hfuel') u hu
    · exact absurd hgo (hnot k row)

/-- **If every use is in range, every call finds its file.** -/
theorem findsAll_of_inRange (hfin : ∀ depth, c.env.net depth = .finished)
    (hname : torrentName path = c.name) (hpath : (0 : UInt8) ∉ path)
    (h : ∀ fuel, ∀ u ∈ indexUses c.env fuel 0 path c.status .bare, u.InRange) :
    c.FindsAll path := by
  intro n target hlinks hpass hflags
  obtain ⟨st, fuel, hst, hname', huses⟩ := exists_mem_indexUses hfin
    (show c.Before 0 c.status from rfl) hname hpath hlinks
    (fun i hi p hp => by rw [Nat.zero_add]; exact hpass i hi p hp) .bare
  rw [Nat.zero_add] at hst huses
  have huses := fun u hu => h fuel u (huses fuel le_rfl u hu)
  rcases hst.validate with ⟨st₁, ev, hval, hst₁⟩ | ⟨-, hem, hnone⟩
  · rw [enterUses_of_validate (by simp [hfin]) hname' hval] at huses
    rcases hem : st₁.empty with _ | _ <;>
      simp only [hem, Bool.false_eq_true, if_false, if_true] at huses
    · obtain ⟨hpos, hlt⟩ := huses _ List.mem_cons_self
      refine ⟨hpos, fun hem' flags hflags => ?_⟩
      rw [hflags.unique (hst₁.flags hem')]
      exact hlt
    · obtain ⟨hpos, -⟩ := huses _ List.mem_cons_self
      exact ⟨hpos, fun hem' => absurd ((hst₁.empty_eq.symm.trans hem).symm.trans hem') (by decide)⟩
  · rcases hflags with hem' | ⟨flags, hflags⟩
    · exact absurd (hem.symm.trans hem') (by decide)
    · exact absurd hflags (hnone flags)

end Uses

end Calls

/-- A torrent with a link to a directory. -/
def linkToDirectory : TorrentDir :=
  .ofList [(ascii "n", .listing 5 [.link (ascii "n/d/link") (ascii "../e"),
    .plain (ascii "n/e/f") 1])]

/-- Two torrents of the same age. -/
def sameAge : TorrentDir :=
  .ofList [(ascii "a", .listing 5 [.plain (ascii "a/x") 1]),
    (ascii "b", .listing 5 [.plain (ascii "b/x") 1, .plain (ascii "b/y") 1])]

/-- **Two torrents of the same age**: the array of flags that was made for the one is too short
for the other. -/
theorem index_of_other_torrent :
    ∃ st, (handleRequest (.finishing sameAge) 10 (ascii "/a/x") .new .bare).status = st ∧
      ⟨.fileStatus, 1, 1⟩ ∈ indexUses (.finishing sameAge) 10 0 (ascii "b/y") st .bare ∧
      ¬ IndicesInRange sameAge (ascii "b/y") st := by
  have hmem : ⟨.fileStatus, 1, 1⟩ ∈ indexUses (.finishing sameAge) 10 0 (ascii "b/y")
      (handleRequest (.finishing sameAge) 10 (ascii "/a/x") .new .bare).status .bare := by
    decide +kernel
  refine ⟨_, rfl, hmem, fun h => ?_⟩
  exact absurd (h (.finishing sameAge) rfl 10 .bare _ hmem).2 (by decide)

end InstantMirror
