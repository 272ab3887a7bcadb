import InstantMirror.Main

/-!
# What one client learns from another

The receive buffer of the daemon outlives the connections, and a request is read out
of it up to the first NUL. So a client whose message brings no NUL of its own has its
request completed by what stood in the buffer before – an earlier request, or memory
that was never written.

`InstantMirror.NoLeak` says that this does not happen for a sequence of bytes that a
client sends: whatever the daemon has been through, as long as it comes to the same
status and the same disk, the client is answered in the same way and with the same
effect. `InstantMirror.noLeak_iff` is the exact criterion, a NUL among the first
hundred bytes and not at their very start – the first byte of a request is skipped
unread.
-/

namespace InstantMirror

/-- **What a daemon has been through**: the memory it found in its receive buffer, the
disk it found, and the connections it has served. -/
structure Past where
  /-- What stood in the receive buffer at the start. -/
  memory : Bytes
  /-- `char str[101]`. -/
  length_memory : memory.length = 101
  /-- The disk at the start. -/
  disk : Disk
  /-- The connections served since. -/
  conns : List Conn

/-- The daemon has come through this past, and to this state. -/
def Past.LeadsTo (past : Past) (s : Server) : Prop :=
  (daemon.run past.conns (.start past.memory past.disk)).1 = some s

/-- **The client is answered in the same way, and with the same effect** on the status and
on the disk. -/
def SameServed (a b : Served) : Prop :=
  a.replies = b.replies ∧
    a.next.map (fun s => (s.status, s.disk)) = b.next.map fun s => (s.status, s.disk)

/-- **Nothing leaks to a client that sends these bytes.** What stands in memory behind the
receive buffer is part of what a past leaves behind, and so may differ. -/
def NoLeak (sent : Bytes) : Prop :=
  ∀ (past past' : Past) (s s' : Server), past.LeadsTo s → past'.LeadsTo s' →
    s.status = s'.status → s.disk = s'.disk →
    ∀ (hangup : Hangup) (env : Env) (fuel : ℕ) (beyond beyond' : Bytes),
      SameServed (serve ⟨sent, hangup, env, beyond, fuel⟩ s)
        (serve ⟨sent, hangup, env, beyond', fuel⟩ s')

/-! ### A NUL of one's own -/

/-- A round of the loop depends on the status, the disk and the text of the request. -/
theorem serve_congr {sent sent' beyond beyond' : Bytes} {s s' : Server} {hangup : Hangup}
    {env : Env} {fuel : ℕ} (hst : s.status = s'.status) (hdisk : s.disk = s'.disk)
    (htext : cstr ((s.recv sent ++ beyond).drop 1) = cstr ((s'.recv sent' ++ beyond').drop 1)) :
    SameServed (serve ⟨sent, hangup, env, beyond, fuel⟩ s)
      (serve ⟨sent', hangup, env, beyond', fuel⟩ s') := by
  simp only [serve, checkRequest_congr htext, handleRequest_congr htext, hst, hdisk]
  split
  · exact ⟨rfl, rfl⟩
  · split
    · split
      · exact ⟨rfl, rfl⟩
      · split <;> exact ⟨rfl, rfl⟩
    · exact ⟨rfl, rfl⟩

/-- With a NUL after its first byte, a message alone decides what is read. -/
theorem text_of_mem {sent : Bytes} (h : (0 : UInt8) ∈ (received 100 sent).drop 1) (s : Server)
    (beyond : Bytes) :
    cstr ((s.recv sent ++ beyond).drop 1) = cstr ((received 100 sent).drop 1) := by
  have hlen : 1 ≤ (received 100 sent).length := by
    have := List.length_pos_of_mem h
    rw [List.length_drop] at this
    omega
  rw [Server.recv, overwrite, List.append_assoc, List.drop_append_of_le_length hlen,
    cstr_append_of_mem h]

/-! ### Without one -/

/-- Without a NUL after its first byte, a message is completed by the buffer: here by the
byte the buffer is full of. -/
theorem text_of_notMem {sent : Bytes} (h : (0 : UInt8) ∉ (received 100 sent).drop 1)
    (st : TorrentStatus) (disk : Disk) (c : UInt8) :
    cstr ((Server.recv ⟨List.replicate 101 c, st, disk⟩ sent ++ []).drop 1) =
      (received 100 sent).drop 1 ++
        cstr (List.replicate (101 - max 1 (received 100 sent).length) c) := by
  have hrest : ((List.replicate 101 c).drop (received 100 sent).length).drop
      (1 - (received 100 sent).length) =
        List.replicate (101 - max 1 (received 100 sent).length) c := by
    rw [List.drop_drop, List.drop_replicate]
    congr 1
    omega
  rw [Server.recv, overwrite, List.append_nil, List.drop_append, hrest,
    cstr_append_of_notMem h]

/-- The past of a daemon that has found its buffer full of one byte, and has served
nobody. -/
def Past.blank (c : UInt8) : Past := ⟨List.replicate 101 c, by simp, .bare, []⟩

/-- A daemon whose buffer is full of NULs reads such a message as it is: at most `99`
bytes. -/
theorem length_urlPath_recv_zero {sent : Bytes} (h : (0 : UInt8) ∉ (received 100 sent).drop 1) :
    (urlPath (Server.recv ⟨List.replicate 101 0, .new, .bare⟩ sent ++ [])).length ≤ 99 := by
  have hcap := length_received 100 sent
  have hzero : ∀ n, cstr (List.replicate n 0) = [] := by
    rintro (_ | n) <;> simp [List.replicate_succ]
  rw [urlPath, text_of_notMem h, hzero, List.append_nil]
  split
  · decide
  · rw [List.length_drop]
    omega

/-- A daemon whose buffer is full of another byte reads on to the end of the buffer. -/
theorem urlPath_recv_full {sent : Bytes} (h : (0 : UInt8) ∉ (received 100 sent).drop 1) :
    (urlPath (Server.recv ⟨List.replicate 101 120, .new, .bare⟩ sent ++ [])).length = 100 ∧
      (urlPath (Server.recv ⟨List.replicate 101 120, .new, .bare⟩ sent ++ [])).getLast? ≠
        some slash := by
  have hcap := length_received 100 sent
  have hfull : ∀ n, cstr (List.replicate n 120) = List.replicate n (120 : UInt8) := fun n =>
    cstr_of_notMem fun hmem => absurd (List.eq_of_mem_replicate hmem) (by decide)
  rw [urlPath, text_of_notMem h, hfull]
  generalize hn : 101 - max 1 (received 100 sent).length = n
  have hlen : ((received 100 sent).drop 1 ++ List.replicate n (120 : UInt8)).length = 100 := by
    rw [List.length_append, List.length_replicate, List.length_drop]
    omega
  rw [if_neg (by omega)]
  refine ⟨hlen, ?_⟩
  rw [List.getLast?_append_of_ne_nil _ (by simp; omega), List.getLast?_replicate]
  split <;> decide

/-- **A message without a NUL leaks**: the daemon whose buffer is full of NULs reads the
message as it is, the one whose buffer is full of another byte reads a longer path, and
there is a directory in which that path is listed. -/
theorem not_noLeak {sent : Bytes} (h : (0 : UInt8) ∉ (received 100 sent).drop 1) :
    ¬ NoLeak sent := by
  intro hno
  have hshort := length_urlPath_recv_zero h
  obtain ⟨hlong, hlast⟩ := urlPath_recv_full h
  obtain ⟨hone, hreply⟩ :=
    handleRequest_indexDir (Server.recv ⟨List.replicate 101 120, .new, .bare⟩ sent ++ [])
  obtain ⟨env, henv⟩ : ∃ env : Env, env.dir =
      indexDir (urlPath (Server.recv ⟨List.replicate 101 120, .new, .bare⟩ sent ++ [])) :=
    ⟨.finishing _, rfl⟩
  rw [← henv] at hone
  have hten : (ascii "index.html").length = 10 := rfl
  have hlist : (indexPath (urlPath (Server.recv ⟨List.replicate 101 120, .new, .bare⟩ sent ++ []))
      ++ ascii "index.html").length = 111 := by
    rw [indexPath, if_neg hlast, List.length_append, List.length_append, hlong, hten]
    rfl
  obtain ⟨hsame, -⟩ := hno (.blank 0) (.blank 120) ⟨List.replicate 101 0, .new, .bare⟩
    ⟨List.replicate 101 120, .new, .bare⟩ rfl rfl rfl rfl .never env 1 [] []
  rw [serve_replies, serve_replies, if_pos hone, hreply env 1 .new .bare henv] at hsame
  -- the second answer is longer than the first can be
  split at hsame
  · split at hsame
    · simp at hsame
    · rename_i reply hfirst
      have hle := length_of_handleRequest hfirst
      have hindex := length_indexPath_le
        (urlPath (Server.recv ⟨List.replicate 101 0, .new, .bare⟩ sent ++ []))
      rw [List.length_append, hten] at hle
      have hlen := congrArg List.length (List.cons.inj (List.cons.inj hsame).2).1
      rw [List.length_append, List.length_append, hlist, Nat.add_right_cancel_iff] at hlen
      omega
  · cases hsame

/-- **Nothing leaks to a client exactly if a NUL is among the bytes received from it, after
the first of them.** -/
theorem noLeak_iff (sent : Bytes) : NoLeak sent ↔ (0 : UInt8) ∈ (received 100 sent).drop 1 := by
  constructor
  · intro hno
    by_contra h
    exact not_noLeak h hno
  · rintro h past past' s s' - - hst hdisk hangup env fuel beyond beyond'
    exact serve_congr hst hdisk (by rw [text_of_mem h, text_of_mem h])

/-- The mirrored torrent, in a directory of its own. -/
def oneFile : Env :=
  .finishing (.ofList [(ascii "test", .listing 5 [.plain (ascii "test/a") 1])])

/-- The past of a daemon with one client, who has sent a whole request. -/
def Past.afterOne (url : Bytes) : Past :=
  ⟨List.replicate 101 0, by simp, .bare, [.whole url oneFile]⟩

/-- **A client that sends nothing is answered for the client before.** A request for the
index of the torrent leaves the daemon as a request for something unknown does – the page
has no directory to be saved in – but for the buffer. -/
theorem leak_to_silent_client : ¬ NoLeak [] := by
  intro hno
  obtain ⟨hsame, -⟩ := hno (.afterOne (ascii "/test")) (.afterOne (ascii "/none")) _ _ rfl rfl
    rfl rfl .never oneFile 5 [] []
  exact absurd hsame (by decide)

end InstantMirror
