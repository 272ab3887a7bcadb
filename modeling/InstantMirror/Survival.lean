import InstantMirror.CallChain
import InstantMirror.Main
import InstantMirror.Rendering
import InstantMirror.Route

/-!
# Surviving a connection

A connection may end the daemon in several styles: `gettor` calls `exit` when the
`.torrent` file is too big or not bencoded; `send` raises `SIGPIPE` when the client is
gone; an array is left, in `getTorrent`, in the migration or in a buffer of `addToList`;
and a download, a loop or a chain of links may never come to its end. What is thrown, on
the other hand, is caught on every path.

`InstantMirror.Survives` asks that the daemon is back at `accept` after the connection,
and `InstantMirror.survives_iff` says exactly when: the condition
(`InstantMirror.ConnOk`) is on what the client does, on the `.torrent` file, on the sessions
and on the status before the connection. For a file it asks that the links from it, as far as
they are followed, come to an end (`InstantMirror.Calls.Returns`).
-/

namespace InstantMirror

/-! ### The property -/

/-- **The daemon survives the connection**: it is back at `accept` once the run has been
followed far enough, and the page it has made, if any, was rendered inside its buffers. -/
def Survives (conn : Conn) (s : Server) : Prop :=
  (∃ fuel₀, ∀ fuel ≥ fuel₀, ∃ s', (serve { conn with fuel := fuel } s).next = .ok s') ∧
    (checkRequest conn.env.dir (conn.url s) = 1 → ∀ path list,
      route conn.env.dir (conn.url s) = .index path →
      gettor conn.env.dir (firstComponent path) = some list →
      ∀ r ∈ (generateIndex (indexPath path) list).rows, r.Renders)

/-! ### The condition -/

/-- `gettor` does not call `exit` on the file: it is not too big, and it is bencoded – unless
its size is negative as an `int`. -/
def TorrentFile.Loads (f : TorrentFile) : Prop :=
  f.intSize ≤ 10 * 1000000 ∧ (0 ≤ f.intSize → f.bufDecode f.intSize.toNat ≠ .invalidBencoding)

/-- **The condition on a connection.** -/
structure ConnOk (conn : Conn) (s : Server) : Prop where
  /-- The client is there when the verdict is sent. -/
  verdict : conn.hangup ≠ .beforeVerdict
  /-- The client is there when the path is sent. -/
  path : checkRequest conn.env.dir (conn.url s) = 1 → conn.hangup ≠ .beforePath
  /-- The `.torrent` file makes `gettor` return. -/
  loads : checkRequest conn.env.dir (conn.url s) = 1 → ∀ f,
    conn.env.dir.entry (firstComponent (urlPath (conn.url s))) = some (.file f) → f.Loads
  /-- The rows of a page are small enough. -/
  rows : checkRequest conn.env.dir (conn.url s) = 1 → ∀ path list,
    route conn.env.dir (conn.url s) = .index path →
    gettor conn.env.dir (firstComponent path) = some list →
    ∀ r ∈ (generateIndex (indexPath path) list).rows, r.Small
  /-- The chain of calls for a file returns. -/
  file : checkRequest conn.env.dir (conn.url s) = 1 → ∀ torrentName filePath,
    route conn.env.dir (conn.url s) = .file torrentName filePath →
    ∀ c : Calls, c.env = conn.env → c.name = torrentName → c.status = s.status →
      c.Returns 0 (urlPath (conn.url s))

/-! ### `gettor` -/

/-- **Where `gettor` returns.** -/
theorem gettor_ne_none_iff (dir : TorrentDir) (name : Bytes) :
    gettor dir name ≠ none ↔ ∀ f, dir.entry name = some (.file f) → f.Loads := by
  rw [gettor]
  rcases hent : dir.entry name with _ | ⟨f⟩ | _
  · simp
  · simp only [Option.some.injEq, DirEntry.file.injEq, forall_eq']
    rw [TorrentFile.gettor, TorrentFile.Loads]
    by_cases hbig : f.intSize > 10 * 1000000
    · rw [if_pos hbig]
      exact iff_of_false (by simp) fun h => by omega
    by_cases hneg : f.intSize < 0
    · rw [if_neg hbig, if_pos hneg]
      exact iff_of_true (by simp) ⟨by omega, fun h => by omega⟩
    · rw [if_neg hbig, if_neg hneg]
      rcases f.bufDecode f.intSize.toNat with _ | _ | ti
      · simpa using fun _ => Int.not_lt.mp hneg
      · simpa using Int.not_lt.mp hbig
      · simpa using Int.not_lt.mp hbig
  · simp

/-! ### Requests and connections -/

section Requests

variable {env : Env} {url : Bytes} {st : TorrentStatus} {disk : Disk}

/-- **When a request returns**, by what the router decides. -/
theorem handleRequest_returns_iff (env : Env) (fuel : ℕ) (url : Bytes) (st : TorrentStatus)
    (disk : Disk) : (∃ reply, (handleRequest env fuel url st disk).result = .ok reply) ↔
      match route env.dir url with
      | .exits => False
      | .error => True
      | .file torrentName filePath =>
        (getTorrent env fuel 0 (torrentName ++ slash :: filePath) st disk).result = .ok ()
      | .index path => gettor env.dir (firstComponent path) ≠ none := by
  rw [handleRequest_eq_route]
  rcases route env.dir url with _ | _ | ⟨torrentName, filePath⟩ | path
  · simp
  · simp
  · simp only [getTorrentFile]
    rcases (getTorrent env fuel 0 (torrentName ++ slash :: filePath) st disk).result with stop | _
    · simp [Except.map]
    · simp [Except.map]
  · rcases hlist : gettor env.dir (firstComponent path) with _ | list
    · simp [getTorrentIndex, hlist]
    · simp [getTorrentIndex_result hlist, hlist]

/-- **When a connection is survived**, by when the client goes away and what its request
does. -/
theorem serve_next_iff (conn : Conn) (s : Server) :
    (∃ s', (serve conn s).next = .ok s') ↔ conn.hangup ≠ .beforeVerdict ∧
      (checkRequest conn.env.dir (conn.url s) = 1 → conn.hangup ≠ .beforePath ∧
        ∃ reply, (handleRequest conn.env conn.fuel (conn.url s) s.status s.disk).result =
          .ok reply) := by
  simp only [serve, Conn.url]
  by_cases hgone : conn.hangup = .beforeVerdict
  · simp [hgone]
  by_cases hcheck : checkRequest conn.env.dir (s.recv conn.sent ++ conn.beyond) = 1
  · simp only [if_neg hgone, if_pos hcheck]
    rcases (handleRequest conn.env conn.fuel (s.recv conn.sent ++ conn.beyond) s.status
      s.disk).result with stop | reply
    · simp [hcheck]
    · by_cases hgone' : conn.hangup = .beforePath
      · simp [hgone', hcheck]
      · simp [hgone', hgone]
  · simp [hgone, hcheck]

/-- **Where a request returns, `gettor` does**, for the torrent in front of the first slash. -/
theorem gettor_ne_none_of_returns {fuel : ℕ}
    (h : ∃ reply, (handleRequest env fuel url st disk).result = .ok reply) :
    gettor env.dir (firstComponent (urlPath url)) ≠ none := by
  rw [handleRequest_returns_iff] at h
  rcases hroute : route env.dir url with _ | _ | ⟨torrentName, filePath⟩ | path <;>
    rw [hroute] at h
  · exact h.elim
  · simp [gettor_of_route_error hroute]
  · obtain ⟨hpath, hname, -, list, -, -, hlist, -⟩ := eq_of_route_file hroute
    rw [← hpath, firstComponent_append hname, hlist]
    simp
  · rwa [← eq_of_route_index hroute]

end Requests

section Connections

variable {conn : Conn} {s : Server}

/-- A request for a file returns exactly if the chain of calls behind it does. -/
theorem file_returns_iff {env : Env} {url torrentName filePath : Bytes}
    (hroute : route env.dir url = .file torrentName filePath) (st : TorrentStatus) (disk : Disk) :
    (∃ fuel₀, ∀ fuel ≥ fuel₀,
        (getTorrent env fuel 0 (torrentName ++ slash :: filePath) st disk).result = .ok ()) ↔
      ∀ c : Calls, c.env = env → c.name = torrentName → c.status = st →
        c.Returns 0 (urlPath url) := by
  obtain ⟨hpath, hname, -, list, k, row, hlist, -, hrow, -⟩ := eq_of_route_file hroute
  have hname' : InstantMirror.torrentName (urlPath url) = torrentName := by
    rw [← hpath, torrentName_append hname]
  rw [hpath]
  constructor
  · rintro ⟨fuel₀, hfuel₀⟩ c rfl rfl rfl
    exact (Calls.getTorrent_ok_iff hname' (zero_notMem_urlPath url) disk).mp
      ⟨fuel₀, hfuel₀ fuel₀ le_rfl⟩
  · intro hreturns
    obtain ⟨c, rfl, rfl, rfl, -⟩ := exists_calls hlist hrow st
    obtain ⟨fuel₀, hfuel₀⟩ := (Calls.getTorrent_ok_iff hname' (zero_notMem_urlPath url) disk).mpr
      (hreturns c rfl rfl rfl)
    exact ⟨fuel₀, fun fuel hle => by rw [getTorrent_mono hle (by rw [hfuel₀]; simp), hfuel₀]⟩

/-- **The condition suffices.** -/
theorem survives_of_connOk (hok : ConnOk conn s) : Survives conn s := by
  refine ⟨?_, fun hcheck path list hroute hlist r hr =>
    (renders_iff r).mpr (hok.rows hcheck path list hroute hlist r hr)⟩
  have hreturns : checkRequest conn.env.dir (conn.url s) = 1 → ∃ fuel₀, ∀ fuel ≥ fuel₀,
      ∃ reply, (handleRequest conn.env fuel (conn.url s) s.status s.disk).result = .ok reply := by
    intro hcheck
    have hloads := (gettor_ne_none_iff _ _).mpr (hok.loads hcheck)
    simp only [handleRequest_returns_iff]
    rcases hroute : route conn.env.dir (conn.url s) with _ | _ | ⟨torrentName, filePath⟩ | path
    · exact absurd (gettor_of_route_exits hroute) hloads
    · exact ⟨0, fun _ _ => trivial⟩
    · exact (file_returns_iff hroute s.status s.disk).mpr
        (hok.file hcheck torrentName filePath hroute)
    · obtain rfl := eq_of_route_index hroute
      exact ⟨0, fun _ _ => hloads⟩
  by_cases hcheck : checkRequest conn.env.dir (conn.url s) = 1
  · obtain ⟨fuel₀, hfuel₀⟩ := hreturns hcheck
    refine ⟨fuel₀, fun fuel hle => (serve_next_iff _ s).mpr ⟨hok.verdict, fun _ => ?_⟩⟩
    exact ⟨hok.path hcheck, hfuel₀ fuel hle⟩
  · exact ⟨0, fun fuel _ => (serve_next_iff _ s).mpr ⟨hok.verdict, fun h => absurd h hcheck⟩⟩

/-- **The condition is necessary.** -/
theorem connOk_of_survives (h : Survives conn s) : ConnOk conn s := by
  obtain ⟨⟨fuel₀, hfuel₀⟩, hrenders⟩ := h
  have hnext := fun fuel hle => (serve_next_iff _ s).mp (hfuel₀ fuel hle)
  have hreq : checkRequest conn.env.dir (conn.url s) = 1 → ∀ fuel ≥ fuel₀,
      ∃ reply, (handleRequest conn.env fuel (conn.url s) s.status s.disk).result = .ok reply :=
    fun hcheck fuel hle => ((hnext fuel hle).2 hcheck).2
  refine ⟨(hnext fuel₀ le_rfl).1, fun hcheck => ((hnext fuel₀ le_rfl).2 hcheck).1,
    fun hcheck => ?_, fun hcheck path list hroute hlist r hr =>
      (renders_iff r).mp (hrenders hcheck path list hroute hlist r hr), ?_⟩
  · exact (gettor_ne_none_iff _ _).mp (gettor_ne_none_of_returns (hreq hcheck fuel₀ le_rfl))
  · intro hcheck torrentName filePath hroute
    refine (file_returns_iff hroute s.status s.disk).mp ⟨fuel₀, fun fuel hle => ?_⟩
    have hreturns := hreq hcheck fuel hle
    rwa [handleRequest_returns_iff, hroute] at hreturns

/-- **The daemon survives exactly the connections that meet the condition.** -/
theorem survives_iff (conn : Conn) (s : Server) : Survives conn s ↔ ConnOk conn s :=
  ⟨connOk_of_survives, survives_of_connOk⟩

end Connections

/-- A directory with a file “n” that is not bencoded. -/
def brokenDir : TorrentDir :=
  .ofList [(ascii "n", .file ⟨1, true, fun _ => .invalidBencoding, 5, 5⟩)]

/-- **Two connections that end the daemon**: a request for a torrent that is not bencoded, and
a client that does not wait for the verdict. -/
theorem not_survived : ¬ Survives (.whole (ascii "/n") (.finishing brokenDir)) (.start [] .bare) ∧
    ¬ Survives ⟨ascii "/n", .beforeVerdict, .finishing brokenDir, [], 5⟩ (.start [] .bare) := by
  constructor
  · rintro ⟨⟨fuel₀, hfuel₀⟩, -⟩
    obtain ⟨s', hs'⟩ := hfuel₀ fuel₀ (Nat.le_refl fuel₀)
    cases hs'
  · rintro ⟨⟨fuel₀, hfuel₀⟩, -⟩
    obtain ⟨s', hs'⟩ := hfuel₀ fuel₀ (Nat.le_refl fuel₀)
    cases hs'

end InstantMirror
