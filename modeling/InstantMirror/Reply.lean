import InstantMirror.CallChain
import InstantMirror.Request

/-!
# When a reply is sound

`handleRequest` answers with a path below `DISK_LOCATION`, and builds that path from
the request alone. Whether a file stands there, and which, depends on what the work
behind the answer has come to:

* an index page is saved only if its directory exists already, since an `ofstream`
  makes none, and it lists something only if the torrent has a file below the path;
* a file of a torrent is there if its download has finished – now, or before if its
  flag is set and nothing has been saved over it since; every exception on the way is
  swallowed, and a pad file is never stored at all.

`InstantMirror.RequestOk` is the condition, on the request, the two directories and
the status before the request, and `InstantMirror.reply_sound` the theorem: it
suffices for every request, and it is necessary unless a link is requested that is not
downloaded by its own call, but may be delivered by others
(`InstantMirror.Calls.Entangled`): one that a chain of links leads back to, or one whose
flag a second migration may set.
-/

namespace InstantMirror

/-! ### The property -/

/-- The file of this row stands at the path. -/
def Disk.Holds (disk : Disk) (path : Bytes) (row : TorFile) : Prop :=
  ∃ f, row.Describes f ∧ disk.node (normalise (diskLocation ++ path)) = some (.file (.data f))

/-- The reply is the file that was requested: it stands on the disk, and its flag is set. -/
def FileReply (env : Env) (url : Bytes) (o : Outcome Bytes) (reply : Bytes) : Prop :=
  reply = urlPath url ∧ o.status.empty = false ∧
    ∃ (list : List TorFile) (k : ℕ) (row : TorFile),
      gettor env.dir (torrentName reply) = some list ∧
      checkIndex list (torrentName reply) (torrentFileName reply) = k ∧ list[k]? = some row ∧
      o.status.fileStatus[k]? = some true ∧ o.disk.Holds reply row

/-- The reply is the index page of the directory that was requested, this request has
saved it, and the torrent has a file below the directory. -/
def IndexReply (env : Env) (url : Bytes) (o : Outcome Bytes) (reply : Bytes) : Prop :=
  reply = indexPath (urlPath url) ++ ascii "index.html" ∧
    .saved (diskLocation ++ reply) ∈ o.events ∧
    ∃ list, gettor env.dir (firstComponent (urlPath url)) = some list ∧
      o.disk.node (normalise (diskLocation ++ reply)) =
        some (.file (.page (generateIndex (indexPath (urlPath url)) list))) ∧
      ∃ row ∈ list, indexPath (urlPath url) <+: row.name

/-- **The reply is sound**: the request stays inside its arrays, and what it replies,
other than an error, is there and is what was asked for. -/
def ReplyOk (env : Env) (url : Bytes) (o : Outcome Bytes) : Prop :=
  o.result ≠ .error .undefined ∧
    ∀ reply, o.result = .ok reply → reply ≠ errorReply →
      FileReply env url o reply ∨ IndexReply env url o reply

/-! ### The condition -/

/-- The page can be saved, and lists something. -/
def IndexOk (path : Bytes) (list : List TorFile) (disk : Disk) : Prop :=
  disk.opens (diskLocation ++ (indexPath path ++ ascii "index.html")) = true ∧
    ∃ row ∈ list, indexPath path <+: row.name

namespace Calls

variable (c : Calls)

/-- **The `k`-th file is delivered** by a request that returns: its flag is set before the
request, or once the status has been migrated, and the file is there; or its download
finishes, and the file is one that libtorrent stores. -/
def Delivers (path : Bytes) (k : ℕ) (row : TorFile) (disk : Disk) : Prop :=
  (c.env.net 0 = .noSession ∧ c.status.empty = false ∧ c.status.fileStatus[k]? = some true ∧
      disk.Holds path row) ∨
    (c.env.net 0 ≠ .noSession ∧ c.status.empty = false ∧
      (∃ flags, c.FlagsAt 0 flags ∧ flags[k]? = some true) ∧ disk.Holds path row) ∨
    (c.GoesOn 0 path k row ∧ c.env.net 0 = .finished ∧
      ∃ f, c.info.files[k]? = some f ∧ (f.padFile = false ∨
        row.symlinkAttribute = false ∧ (disk.spill c.info k).Holds path row))

/-- **The condition on a request for a file**: the calls behind it stay inside their arrays, and
if they return, the file is delivered. -/
def FileOk (path : Bytes) (disk : Disk) : Prop :=
  c.Stays 0 path ∧ (c.Returns 0 path → ∀ (k : ℕ) row, c.index path = k → c.list[k]? = some row →
    c.Delivers path k row disk)

/-- **A link that other calls than its own may deliver**: its own does not finish the download,
and the links lead back to it, or each call migrates the status again. A link that is a pad file
is counted here as well. -/
def Entangled (path : Bytes) : Prop :=
  ∃ (k : ℕ) (row : TorFile), c.index path = k ∧ c.list[k]? = some row ∧
    row.symlinkAttribute = true ∧
    ((c.env.net 0 ≠ .finished ∧ (Relation.TransGen (LinkTo c.list) path path ∨
        (c.status.empty = false ∧ ¬ c.Kept ∧ c.entry.linkMtime ≠ c.entry.mtime))) ∨
      ∃ f, c.info.files[k]? = some f ∧ f.padFile = true)

end Calls

/-- **The condition on a request**, along the branches of the router. -/
def RequestOk (env : Env) (url : Bytes) (st : TorrentStatus) (disk : Disk) : Prop :=
  if find (urlPath url) slash > 0 then
    ∀ list, gettor env.dir (torrentName (urlPath url)) = some list →
      (0 ≤ checkIndex list (torrentName (urlPath url)) (torrentFileName (urlPath url)) →
        ∀ c : Calls, c.env = env → c.name = torrentName (urlPath url) → c.status = st →
          c.FileOk (urlPath url) disk) ∧
      (checkIndex list (torrentName (urlPath url)) (torrentFileName (urlPath url)) = -1 →
        IndexOk (urlPath url) list disk)
  else
    ∀ e, env.dir.entry (urlPath url) = some e → e.isReg = true →
      ∀ list, gettor env.dir (firstComponent (urlPath url)) = some list →
        IndexOk (urlPath url) list disk

/-- The request asks for no link that other calls may deliver. -/
def Untangled (env : Env) (url : Bytes) (st : TorrentStatus) : Prop :=
  ∀ c : Calls, c.env = env → c.name = torrentName (urlPath url) → c.status = st →
    ¬ c.Entangled (urlPath url)

/-! ### A call for a file -/

/-- **What is asked of a call for the file**: it stays inside its arrays, and where it
returns, the flag of the file is set and the file is there. -/
def CallDone (path : Bytes) (k : ℕ) (row : TorFile) (o : Outcome Unit) : Prop :=
  o.result ≠ .error .undefined ∧
    (o.result = .ok () → o.status.empty = false ∧ o.status.fileStatus[k]? = some true ∧
      o.disk.Holds path row)

namespace Calls

/-- The flag of the `k`-th file is not set. -/
def Clear (k : ℕ) (st : TorrentStatus) : Prop :=
  st.empty = true ∨ st.fileStatus[k]? ≠ some true

section File

variable {c : Calls} {depth k : ℕ} {path : Bytes} {row : TorFile} {st st₁ : TorrentStatus}
  {disk : Disk} {f : FileEntry}

/-- A call that goes on has found no flag set. -/
theorem GoesOn.isClear (hgo : c.GoesOn depth path k row) (hst : c.StatusAt depth st) :
    Clear k st := by
  rcases hgo.clear with hem | ⟨hem, flags, hflags, hread⟩
  · exact Or.inl (hst.empty_eq.trans hem)
  · right
    intro hset
    rw [hflags.unique (hst.flags hem), hgo.index_eq, flagAt_natCast _ hset] at hread
    cases hread

/-- **The second part of a call whose download finishes.** -/
theorem fetch_of_finished (hs : c.env.net depth = .finished) (hf : c.info.files[k]? = some f)
    (path : Bytes) (row : TorFile) (st : TorrentStatus) (disk : Disk) {o : Outcome Unit}
    (ho : fetch c.env depth path c.name k row st disk = o) :
    o.disk = (disk.spill c.info k).complete f ∧
      (o.result = .ok () → o.status.empty = false ∧ o.status.fileStatus[k]? = some true) := by
  have hne : c.info.files ≠ [] := List.ne_nil_of_mem (List.mem_of_getElem? hf)
  have hdl : (download c.info k).foldl Disk.replay disk = (disk.spill c.info k).complete f := by
    rw [download, hf]
    rfl
  rcases htake : takenUp c.env c.name c.info st with ⟨st₁, ev⟩
  have hem : st₁.empty = false := by
    rcases takenUp_cases htake with ⟨-, rfl, -⟩ | ⟨hem, rfl, -⟩
    · rfl
    · exact hem
  simp only [fetch, c.info_eq, hs, hne, htake, false_or, reduceCtorEq, if_false, hdl] at ho
  rcases hset : setFlag st₁.fileStatus k with _ | flags <;> rw [hset] at ho <;> subst ho
  · exact ⟨rfl, by rintro ⟨⟩⟩
  · obtain ⟨hlt, rfl⟩ := setFlag_eq_some hset
    exact ⟨rfl, fun _ => ⟨hem, List.getElem?_set_self hlt⟩⟩

/-- **The second part of a call that returns** has set a flag that was clear exactly if it has
finished its download. -/
theorem fetch_flag_iff (hgo : c.GoesOn depth path k row) (hclear : Clear k st)
    {o : Outcome Unit} (ho : fetch c.env depth path c.name k row st disk = o)
    (hres : o.result = .ok ()) :
    (o.status.empty = false ∧ o.status.fileStatus[k]? = some true) ↔
      c.info.files ≠ [] ∧ c.env.net depth = .finished := by
  constructor
  · rintro ⟨hem, hset⟩
    rcases fetch_cases hgo.session path c.name k row st disk with
      hs | ⟨ti, st₁, ev, hti, hne, htake, hs⟩ <;> rw [ho] at hs
    · rw [hs] at hem hset
      rcases hclear with hem' | hclear
      · exact absurd (hem.symm.trans hem') (by decide)
      · exact absurd hset hclear
    obtain rfl := Option.some.inj (c.info_eq.symm.trans hti)
    rcases hs with ⟨dl, -, hs⟩ | ⟨dl, -, hfin, -⟩
    · -- nothing has been set, and a torrent that was taken up has no flag set either
      have hst₁ : o.status = st₁ := by rcases hs with hs | hs <;> rw [hs]
      rw [hst₁] at hset
      rcases takenUp_cases htake with ⟨-, rfl, -⟩ | ⟨hem', rfl, -⟩
      · simp [TorrentStatus.takeUp, TorrentStatus.init, List.getElem?_replicate] at hset
      · rcases hclear with hem'' | hclear
        · exact absurd (hem'.symm.trans hem'') (by decide)
        · exact absurd hset hclear
    · exact ⟨hne, hfin⟩
  · rintro ⟨hne, hs⟩
    obtain ⟨f, hf, -⟩ := exists_file_of_row c.info_eq hne c.list_eq hgo.row_eq
    exact (fetch_of_finished hs hf path row st disk ho).2 hres

/-- A file that is stored stands at its path. -/
theorem holds_complete (hrow : c.list[k]? = some row) (hf : c.info.files[k]? = some f)
    (hname : row.name = path) (hpad : f.padFile = false) (disk : Disk) :
    (disk.complete f).Holds path row := by
  have hdesc := describes_of_row c.info_eq c.list_eq hrow hf
  refine ⟨f, hdesc, ?_⟩
  rw [← hname, ← hdesc.1, Disk.complete, if_neg (by simp [hpad])]
  exact Disk.node_save _ _ _

/-! ### The calls behind a link -/

/-- Where no call migrates again, the flags stay as the first call has left them. -/
theorem FlagsAt.succ {flags : List Bool} (h : c.FlagsAt depth flags)
    (hstill : c.Kept ∨ c.entry.linkMtime = c.entry.mtime) : c.FlagsAt (depth + 1) flags := by
  by_cases hkept : c.Kept
  · rw [h.eq_of_kept hkept]
    exact .kept hkept _
  · exact .still hkept (hstill.resolve_left hkept) h

/-- **A flag that is clear stays so** where the next call does not migrate the status, or migrates
it to a torrent without files. -/
theorem Clear.next (hclear : Clear k st) (hst : c.StatusAt depth st)
    (hst₁ : c.StatusAt (depth + 1) st₁)
    (hstill : c.status.empty = true ∨ (c.Kept ∨ c.entry.linkMtime = c.entry.mtime) ∨
      c.info.files = []) : Clear k st₁ := by
  rcases hem : c.status.empty with _ | _
  · right
    by_cases hsame : c.Kept ∨ c.entry.linkMtime = c.entry.mtime
    · rw [← ((hst.flags hem).succ hsame).unique (hst₁.flags hem)]
      exact hclear.resolve_left (by simp [hst.empty_eq, hem])
    · have hnil := (hstill.resolve_left (by simp [hem])).resolve_left hsame
      have hlen := (hst₁.flags hem).length_eq fun hkept => hsame (Or.inl hkept)
      rw [TorrentInfo.numFiles, hnil] at hlen
      simp [List.eq_nil_of_length_eq_zero hlen]
  · exact Or.inl (hst₁.empty_eq.trans hem)

/-- The second part of a call for another file leaves the flag alone, and so does one for a torrent
without files. -/
theorem Clear.fetch (hclear : Clear k st) {j : ℕ} (hj : j ≠ k ∨ c.info.files = [])
    (hnet : c.env.net depth ≠ .noSession) (path : Bytes) (row : TorFile) (disk : Disk) :
    Clear k (fetch c.env depth path c.name j row st disk).status := by
  rcases fetch_cases hnet path c.name j row st disk with
    hs | ⟨ti, st₁, ev, hti, hne, htake, hs⟩
  · rw [hs]
    exact hclear
  have hclear₁ : Clear k st₁ := by
    rcases takenUp_cases htake with ⟨-, rfl, -⟩ | ⟨-, rfl, -⟩
    · right
      simp [TorrentStatus.takeUp, TorrentStatus.init, List.getElem?_replicate]
    · exact hclear
  rcases hs with ⟨dl, -, hs | hs⟩ | ⟨dl, -, -, ⟨-, hs⟩ | ⟨flags, hset, hs⟩⟩ <;> rw [hs]
  · exact hclear₁
  · exact hclear₁
  · exact hclear₁
  · obtain rfl := Option.some.inj (c.info_eq.symm.trans hti)
    obtain ⟨-, rfl⟩ := setFlag_eq_some hset
    rwa [Clear, List.getElem?_set_ne (hj.resolve_right hne)]

/-- A path of the torrent that has the index of another is that path. -/
theorem eq_of_index {q : Bytes} (hgo : c.GoesOn depth q k row) (hq : slash ∈ q)
    (hpath : slash ∈ path) (hk : c.index path = k) : q = path := by
  rw [← name_of_checkIndex hq hgo.index_eq hgo.row_eq,
    name_of_checkIndex hpath hk hgo.row_eq]

/-- **The calls behind a link leave its flag alone** if they do not come back to it and do not
migrate the status again, or if the torrent has no files. -/
theorem Clear.getTorrent (hpath : slash ∈ path) (hk : c.index path = k)
    (hstill : c.status.empty = true ∨ (c.Kept ∨ c.entry.linkMtime = c.entry.mtime) ∨
      c.info.files = []) :
    ∀ (fuel depth : ℕ) (q : Bytes) (st : TorrentStatus) (disk : Disk), c.StatusAt depth st →
      Clear k st → torrentName q = c.name → (0 : UInt8) ∉ q → slash ∈ q →
      (¬ Relation.ReflTransGen (LinkTo c.list) q path ∨ c.info.files = []) →
      ∀ o, getTorrent c.env fuel (depth + 1) q st disk = o → o.result = .ok () →
        Clear k o.status := by
  intro fuel
  induction fuel with
  | zero =>
    rintro depth q st disk - - - - - - o rfl hres
    cases hres
  | succ fuel ih =>
    intro depth q st disk hst hclear hname hq hslash hreach o ho hres
    rcases getTorrent_ok_cases (show c.Before (depth + 1) st from hst) hname ho hres with
      ⟨-, -, ⟨-, hsame⟩ | ⟨-, hst₁⟩⟩ |
        ⟨j, row, st₁, st₂, disk₂, o', hgo, hst₁, hstart, rfl, -, hstatus, -⟩
    · rwa [hsame]
    · exact hclear.next hst hst₁ hstill
    · have hclear₁ := hclear.next hst hst₁ hstill
      have hj : j ≠ k ∨ c.info.files = [] := by
        refine hreach.imp_left fun hreach => ?_
        rintro rfl
        exact hreach (eq_of_index hgo hslash hpath hk ▸ .refl)
      rw [hstatus]
      refine Clear.fetch ?_ hj hgo.session q row disk₂
      rcases hstart with ⟨-, rfl, -⟩ | ⟨-, fuel', target, ev₂, hfuel, hto, hin⟩
      · exact hclear₁
      · obtain rfl : fuel = fuel' := Nat.succ.inj hfuel
        obtain ⟨hname', hq'⟩ := hto.torrentName hq
        exact ih (depth + 1) target st₁ disk hst₁ hclear₁ (hname'.trans hname) hq'
          (hto.slash_mem hq) (hreach.imp_left fun hreach h => hreach (.head hto h)) _ hin rfl

/-! ### A whole call for a file -/

/-- The second part of a call whose download finishes delivers a file that is stored, or that
stands there already. -/
theorem done_of_fetch (hs : c.env.net depth = .finished) (hf : c.info.files[k]? = some f)
    (hrow : c.list[k]? = some row) (hname : row.name = path)
    (hpad : f.padFile = false ∨ (disk.spill c.info k).Holds path row) {o : Outcome Unit}
    (ho : fetch c.env depth path c.name k row st disk = o) (hres : o.result = .ok ()) :
    o.status.empty = false ∧ o.status.fileStatus[k]? = some true ∧ o.disk.Holds path row := by
  obtain ⟨hdisk, hflag⟩ := fetch_of_finished hs hf path row st disk ho
  refine ⟨(hflag hres).1, (hflag hres).2, ?_⟩
  rw [hdisk]
  rcases hp : f.padFile with _ | _
  · exact holds_complete hrow hf hname hp _
  · rw [Disk.complete, if_pos hp]
    exact hpad.resolve_left (by simp [hp])

/-- Where the first call goes on, it is the download that delivers the file. -/
theorem Delivers.of_goesOn (h : c.Delivers path k row disk) (hgo : c.GoesOn 0 path k row) :
    c.env.net 0 = .finished ∧ ∃ f, c.info.files[k]? = some f ∧ (f.padFile = false ∨
      row.symlinkAttribute = false ∧ (disk.spill c.info k).Holds path row) := by
  rcases h with ⟨hnet, -⟩ | ⟨-, hem, ⟨flags, hflags, hset⟩, -⟩ | ⟨-, h⟩
  · exact absurd hnet hgo.session
  · have hread : c.Reads 0 path true := by
      refine ⟨hem, flags, hflags, ?_⟩
      rw [hgo.index_eq]
      exact flagAt_natCast _ hset
    exact absurd (Or.inr hread) hgo.not_turnsBack
  · exact h

/-- **The condition suffices.** -/
theorem FileOk.callDone (hok : c.FileOk path disk) (hname : torrentName path = c.name)
    (hpath : (0 : UInt8) ∉ path) (hslash : slash ∈ path) (hk : c.index path = k)
    (hrow : c.list[k]? = some row) (fuel : ℕ) :
    CallDone path k row (getTorrent c.env fuel 0 path c.status disk) := by
  obtain ⟨hstays, hdelivers⟩ := hok
  refine ⟨(getTorrent_ne_undefined_iff hname hpath disk).mpr hstays fuel, fun hres => ?_⟩
  have hbefore : c.Before 0 c.status := rfl
  obtain ⟨-, hreturns, -⟩ := (getTorrent_cases fuel 0 path c.status disk hbefore hname hpath _
    rfl).resolve_right (by simp [hres])
  have hdeliver := hdelivers hreturns k row hk hrow
  rcases getTorrent_ok_cases hbefore hname rfl hres with ⟨hback, hdisk, hst⟩ |
    ⟨k', row', st₁, st₂, disk₂, o', hgo, -, hstart, ho', hres', hstatus, hdisk⟩
  · rw [hdisk]
    rcases hdeliver with ⟨hnet, hdone⟩ | ⟨hnet, hem, ⟨flags, hflags, hset⟩, hholds⟩ | ⟨hgo, -⟩
    · rwa [(hst.resolve_right fun h => h.1 hnet).2]
    · have hst := (hst.resolve_left fun h => hnet h.1).2
      exact ⟨hst.empty_eq.trans hem, (hst.flags hem).unique hflags ▸ hset, hholds⟩
    · exact absurd hback hgo.not_turnsBack
  · obtain rfl : k = k' := Int.natCast_inj.mp (hk.symm.trans hgo.index_eq)
    obtain rfl := Option.some.inj (hrow.symm.trans hgo.row_eq)
    obtain ⟨hs, f, hf, hpad⟩ := hdeliver.of_goesOn hgo
    rw [hstatus, hdisk]
    refine done_of_fetch hs hf hrow (name_of_checkIndex hslash hk hrow) ?_ ho' hres'
    -- nothing was written before, if the file is no link
    rcases hstart with ⟨-, -, rfl⟩ | ⟨hlink, -⟩
    · exact hpad.imp_right And.right
    · exact Or.inl (hpad.resolve_right fun h => absurd (hlink.symm.trans h.1) (by decide))

/-- **The flag of a link is clear when the second part of its call begins**, if that will not set
it, unless other calls may have set it. -/
theorem GoesOn.isClear_of_linkTo (hgo : c.GoesOn 0 path k row) (hst₁ : c.StatusAt 0 st₁)
    (hlink : row.symlinkAttribute = true) (hfree : ¬ c.Entangled path)
    (hno : ¬ (c.info.files ≠ [] ∧ c.env.net 0 = .finished))
    (hname : torrentName path = c.name) (hpath : (0 : UInt8) ∉ path) (hslash : slash ∈ path)
    {fuel : ℕ} {target : Bytes} (hto : LinkTo c.list path target) {o : Outcome Unit}
    (hin : InstantMirror.getTorrent c.env fuel 1 target st₁ disk = o) (hres : o.result = .ok ()) :
    Clear k o.status := by
  have hnet : c.info.files ≠ [] → c.env.net 0 ≠ .finished := fun hne hfin => hno ⟨hne, hfin⟩
  have hstill : c.status.empty = true ∨ (c.Kept ∨ c.entry.linkMtime = c.entry.mtime) ∨
      c.info.files = [] := by
    by_contra hagain
    simp only [not_or, Bool.not_eq_true] at hagain
    obtain ⟨hem, ⟨hkept, htime⟩, hne⟩ := hagain
    exact hfree ⟨k, row, hgo.index_eq, hgo.row_eq, hlink,
      Or.inl ⟨hnet hne, Or.inr ⟨hem, hkept, htime⟩⟩⟩
  have hreach : ¬ Relation.ReflTransGen (LinkTo c.list) target path ∨ c.info.files = [] := by
    by_contra hback
    rw [not_or, not_not] at hback
    exact hfree ⟨k, row, hgo.index_eq, hgo.row_eq, hlink,
      Or.inl ⟨hnet hback.2, Or.inl (.head' hto hback.1)⟩⟩
  obtain ⟨hname', hpath'⟩ := hto.torrentName hpath
  exact Clear.getTorrent hslash hgo.index_eq hstill fuel 0 target st₁ disk hst₁ (hgo.isClear hst₁)
    (hname'.trans hname) hpath' (hto.slash_mem hpath) hreach o hin hres

/-- **The condition is necessary**, unless other calls may deliver the file. -/
theorem fileOk_of_callDone (hdone : ∀ fuel, CallDone path k row
      (getTorrent c.env fuel 0 path c.status disk)) (hname : torrentName path = c.name)
    (hpath : (0 : UInt8) ∉ path) (hslash : slash ∈ path) (hk : c.index path = k)
    (hrow : c.list[k]? = some row) (hfree : ¬ c.Entangled path) : c.FileOk path disk := by
  refine ⟨(getTorrent_ne_undefined_iff hname hpath disk).mp fun fuel => (hdone fuel).1, ?_⟩
  intro hreturns k' row' hk' hrow'
  obtain rfl : k = k' := Int.natCast_inj.mp (hk.symm.trans hk')
  obtain rfl := Option.some.inj (hrow.symm.trans hrow')
  obtain ⟨fuel, hres⟩ := (getTorrent_ok_iff hname hpath disk).mpr hreturns
  have hcall := (hdone fuel).2 hres
  rcases getTorrent_ok_cases (show c.Before 0 c.status from rfl) hname rfl hres with
    ⟨-, hdisk, hst⟩ | ⟨k', row', st₁, st₂, disk₂, o', hgo, hst₁, hstart, ho', hres', hstatus, hdisk⟩
  · rw [hdisk] at hcall
    rcases hst with ⟨hnet, hst⟩ | ⟨hnet, hst⟩
    · rw [hst] at hcall
      exact Or.inl ⟨hnet, hcall⟩
    · have hem : c.status.empty = false := hst.empty_eq.symm.trans hcall.1
      exact Or.inr (Or.inl ⟨hnet, hem, ⟨_, hst.flags hem, hcall.2.1⟩, hcall.2.2⟩)
  · obtain rfl : k = k' := Int.natCast_inj.mp (hk.symm.trans hgo.index_eq)
    obtain rfl := Option.some.inj (hrow.symm.trans hgo.row_eq)
    rw [hstatus, hdisk] at hcall
    -- if the second part did not set the flag, it would have found it clear, and left it so
    obtain ⟨hne, hs⟩ : c.info.files ≠ [] ∧ c.env.net 0 = .finished := by
      by_contra hno
      have hclear : Clear k st₂ := by
        rcases hstart with ⟨-, rfl, -⟩ | ⟨hlink, fuel', target, ev₂, -, hto, hin⟩
        · exact hgo.isClear hst₁
        · exact hgo.isClear_of_linkTo hst₁ hlink hfree hno hname hpath hslash hto hin rfl
      exact hno ((fetch_flag_iff hgo hclear ho' hres').mp ⟨hcall.1, hcall.2.1⟩)
    obtain ⟨f, hf, -⟩ := exists_file_of_row c.info_eq hne c.list_eq hgo.row_eq
    refine Or.inr (Or.inr ⟨hgo, hs, f, hf, ?_⟩)
    rcases hp : f.padFile with _ | _
    · exact Or.inl rfl
    · rcases hstart with ⟨hlink, -, rfl⟩ | ⟨hlink, -⟩
      · rw [(fetch_of_finished hs hf path row st₂ disk₂ ho').1, Disk.complete, if_pos hp] at hcall
        exact Or.inr ⟨hlink, hcall.2.2⟩
      · exact absurd ⟨k, row, hk, hrow, hlink, Or.inr ⟨f, hf, hp⟩⟩ hfree

end File

end Calls

/-! ### The router -/

section Router

variable {env : Env} {url : Bytes} {st : TorrentStatus} {disk : Disk} {list : List TorFile}

/-- **An index page is a sound reply** exactly if it can be saved and lists something. -/
theorem replyOk_index_iff
    (hlist : gettor env.dir (firstComponent (urlPath url)) = some list) :
    ReplyOk env url (getTorrentIndex env (urlPath url) st disk) ↔
      IndexOk (urlPath url) list disk := by
  have hne := indexPath_append_ne_errorReply (urlPath url)
  have hnot : ∀ o, ¬ FileReply env url o (indexPath (urlPath url) ++ ascii "index.html") :=
    fun o h => indexPath_append_ne _ h.1
  simp only [getTorrentIndex, hlist, saveIndexFile, List.append_assoc, IndexOk]
  by_cases hopen : disk.opens (diskLocation ++ (indexPath (urlPath url) ++ ascii "index.html")) =
      true
  · simp [ReplyOk, hopen, hne, hnot, IndexReply, hlist]
  · simp [ReplyOk, hopen, hne, hnot, IndexReply]

/-- **A file is a sound reply** exactly if the call behind it has done what was asked. -/
theorem replyOk_file_iff {k : ℕ} {row : TorFile}
    (hpath : torrentName (urlPath url) ++ slash :: torrentFileName (urlPath url) = urlPath url)
    (hlist : gettor env.dir (torrentName (urlPath url)) = some list)
    (hk : checkIndex list (torrentName (urlPath url)) (torrentFileName (urlPath url)) = k)
    (hrow : list[k]? = some row) (fuel : ℕ) :
    ReplyOk env url (getTorrentFile env fuel (torrentName (urlPath url))
        (torrentFileName (urlPath url)) st disk) ↔
      CallDone (urlPath url) k row (getTorrent env fuel 0 (urlPath url) st disk) := by
  have hne : urlPath url ≠ errorReply := by
    intro h
    have : slash ∈ urlPath url := by
      rw [← hpath]
      simp
    rw [h] at this
    exact absurd this (by decide)
  have hnot : ∀ o, ¬ IndexReply env url o (urlPath url) :=
    fun o h => indexPath_append_ne _ h.1.symm
  simp only [getTorrentFile, hpath, ReplyOk, CallDone]
  rcases (getTorrent env fuel 0 (urlPath url) st disk).result with stop | _
  · simp [Except.map]
  · have hindex : ∀ j : ℕ, (k : ℤ) = j ↔ k = j := fun j => Int.natCast_inj
    simp [Except.map, hne, hnot, FileReply, hlist, hk, hindex, hrow]

/-- A request for nothing that lies inside a torrent. -/
theorem replyOk_iff_of_not_pos (hpos : ¬ 0 < find (urlPath url) slash) (fuel : ℕ) :
    ReplyOk env url (handleRequest env fuel url st disk) ↔ RequestOk env url st disk := by
  simp only [handleRequest, RequestOk, gt_iff_lt, if_neg hpos]
  rcases env.dir.entry (urlPath url) with _ | e
  · simp [ReplyOk]
  cases hreg : e.isReg with
  | false => simp [ReplyOk, hreg]
  | true =>
    rcases hlist : gettor env.dir (firstComponent (urlPath url)) with _ | list
    · simp [hreg, getTorrentIndex, hlist, ReplyOk]
    · simpa [hreg] using replyOk_index_iff hlist

theorem replyOk_of_requestOk_of_pos (hpos : 0 < find (urlPath url) slash)
    (hok : RequestOk env url st disk) (fuel : ℕ) :
    ReplyOk env url (handleRequest env fuel url st disk) := by
  obtain ⟨hpath, hfirst⟩ := urlPath_of_pos hpos
  rw [RequestOk, if_pos hpos] at hok
  rcases hlist : gettor env.dir (torrentName (urlPath url)) with _ | list
  · rw [handleRequest_of_pos_of_none hpos hlist]
    simp [ReplyOk]
  obtain ⟨hfile, hindex⟩ := hok list hlist
  rw [handleRequest_of_pos hpos hlist]
  rcases checkIndex_cases list (torrentName (urlPath url)) (torrentFileName (urlPath url)) with
    ⟨hk, -⟩ | ⟨k, row, hk, hrow, -⟩
  · rw [if_neg (by omega), replyOk_index_iff (hfirst ▸ hlist)]
    exact hindex hk
  · obtain ⟨c, rfl, hname, rfl, rfl⟩ := exists_calls hlist hrow st
    have hslash : slash ∈ urlPath url := by
      rw [← hpath]
      simp
    rw [if_pos (by omega), replyOk_file_iff hpath hlist hk hrow]
    exact (hfile (by omega) c rfl hname rfl).callDone hname.symm (zero_notMem_urlPath url) hslash
      hk hrow fuel

theorem requestOk_of_replyOk_of_pos (hpos : 0 < find (urlPath url) slash)
    (hfree : Untangled env url st)
    (hreply : ∀ fuel, ReplyOk env url (handleRequest env fuel url st disk)) :
    RequestOk env url st disk := by
  obtain ⟨hpath, hfirst⟩ := urlPath_of_pos hpos
  rw [RequestOk, if_pos hpos]
  intro list hlist
  simp only [handleRequest_of_pos hpos hlist] at hreply
  refine ⟨fun hlisted => ?_, fun hk => ?_⟩
  · rintro c rfl hname rfl
    obtain ⟨k, row, hk, hrow, -⟩ := (checkIndex_cases list (torrentName (urlPath url))
      (torrentFileName (urlPath url))).resolve_left fun h => by omega
    obtain rfl : c.list = list := Option.some.inj (c.list_eq.symm.trans (hname ▸ hlist))
    have hslash : slash ∈ urlPath url := by
      rw [← hpath]
      simp
    refine Calls.fileOk_of_callDone (fun fuel => ?_) hname.symm (zero_notMem_urlPath url) hslash hk
      hrow (hfree c rfl hname rfl)
    have hreply := hreply fuel
    rwa [if_pos (by omega), replyOk_file_iff hpath hlist hk hrow] at hreply
  · have hreply := hreply 0
    rwa [if_neg (by omega), replyOk_index_iff (hfirst ▸ hlist)] at hreply

/-- **Replies are sound where the condition holds, and, unless other calls may deliver the
file, only there.** -/
theorem reply_sound (env : Env) (url : Bytes) (st : TorrentStatus) (disk : Disk) :
    (RequestOk env url st disk →
      ∀ fuel, ReplyOk env url (handleRequest env fuel url st disk)) ∧
    (Untangled env url st →
      (∀ fuel, ReplyOk env url (handleRequest env fuel url st disk)) →
      RequestOk env url st disk) := by
  by_cases hpos : 0 < find (urlPath url) slash
  · exact ⟨fun hok fuel => replyOk_of_requestOk_of_pos hpos hok fuel,
      fun hfree hreply => requestOk_of_replyOk_of_pos hpos hfree hreply⟩
  · have hiff := fun fuel => @replyOk_iff_of_not_pos env url st disk hpos fuel
    exact ⟨fun hok fuel => (hiff fuel).mpr hok, fun _ hreply => (hiff 1).mp (hreply 1)⟩

/-- **A reply that is not sound.** On a disk on which nothing has been saved yet, the index
page of the torrent has no directory to be saved in; its path is sent all the same. -/
theorem reply_unsound :
    ¬ ReplyOk (.finishing (.ofList [(ascii "test", .listing 5 [.plain (ascii "test/a") 1])]))
      (ascii "/test" ++ [0])
      (handleRequest (.finishing (.ofList [(ascii "test", .listing 5
        [.plain (ascii "test/a") 1])])) 5 (ascii "/test" ++ [0]) .new .bare) := by
  rintro ⟨-, hreply⟩
  rcases hreply (ascii "test/index.html") rfl (by decide) with ⟨hpath, -⟩ | ⟨-, hsaved, -⟩
  · exact absurd hpath (by decide)
  · exact absurd hsaved (List.not_mem_nil)

end Router

end InstantMirror
