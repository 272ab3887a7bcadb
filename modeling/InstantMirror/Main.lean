import InstantMirror.Lib.Recv
import InstantMirror.Lib.Run
import InstantMirror.Request

/-!
# The daemon

`main` of `imdaemon.cpp`: one connection after the other, with one status object
and one receive buffer, both of which outlive the connections. A connection is one
`recv` of at most 100 bytes into the buffer of 101, a verdict – `"1"` or `"0"`, each
sent with its NUL – and, when the verdict is `"1"`, the path `handleRequest`
returns.

The buffer is never cleared, and a `recv` that delivers nothing is not treated
differently from any other: what `checkRequest` and `handleRequest` read is the
buffer as it stands, and past its end where it holds no NUL at all.
-/

namespace InstantMirror

/-- When the client of a connection goes away. -/
inductive Hangup where
  /-- It waits for the whole answer. -/
  | never : Hangup
  /-- It is gone when the verdict is sent. -/
  | beforeVerdict : Hangup
  /-- It is gone when the path is sent. -/
  | beforePath : Hangup
deriving DecidableEq

/-- **A connection.** -/
structure Conn where
  /-- What the client has sent by the time `recv` returns; nothing at all when it
  fails. -/
  sent : Bytes
  /-- When the client goes away. -/
  hangup : Hangup
  /-- The surroundings of the request. -/
  env : Env
  /-- What stands in memory behind the receive buffer. -/
  beyond : Bytes
  /-- How far the run of `getTorrent` is followed. -/
  fuel : ℕ

/-- A client that sends the whole request, and waits for the whole answer. -/
def Conn.whole (url : Bytes) (env : Env) : Conn := ⟨url ++ [0], .never, env, [], 10⟩

/-- **The state of the daemon between two connections.** -/
structure Server where
  /-- The receive buffer. -/
  str : Bytes
  /-- The status object. -/
  status : TorrentStatus
  /-- The disk. -/
  disk : Disk

/-- The verdict `"1"`. -/
def accepted : Bytes := [49, 0]

/-- The verdict `"0"`. -/
def rejected : Bytes := [48, 0]

/-- What a connection ends with: the next state unless the process has ended, the
messages sent, and what was done. -/
structure Served where
  /-- The state afterwards, or why there is none. -/
  next : Except Stop Server
  /-- The messages sent to the client. -/
  replies : List Bytes
  /-- What was done. -/
  events : List Event

/-- The receive buffer after `recv(s2, str, 100, 0)`. -/
def Server.recv (s : Server) (sent : Bytes) : Bytes := overwrite s.str (received 100 sent)

/-- The request, as the daemon reads it. -/
def Conn.url (conn : Conn) (s : Server) : Bytes := s.recv conn.sent ++ conn.beyond

/-- **One round of the loop of `main`.** -/
def serve (conn : Conn) (s : Server) : Served :=
  let str := s.recv conn.sent
  let url := str ++ conn.beyond
  if conn.hangup = .beforeVerdict then ⟨.error .sigpipe, [], []⟩
  else if checkRequest conn.env.dir url = 1 then
    let o := handleRequest conn.env conn.fuel url s.status s.disk
    match o.result with
    | .error stop => ⟨.error stop, [accepted], o.events⟩
    | .ok pathFile =>
      if conn.hangup = .beforePath then ⟨.error .sigpipe, [accepted], o.events⟩
      else ⟨.ok ⟨str, o.status, o.disk⟩, [accepted, cstr pathFile ++ [0]], o.events⟩
  else ⟨.ok { s with str := str }, [rejected], []⟩

/-- **What a client that waits is sent.** A reply is sent as a C string, and is one. -/
theorem serve_replies {sent beyond : Bytes} {env : Env} {fuel : ℕ} {s : Server} :
    (serve ⟨sent, .never, env, beyond, fuel⟩ s).replies =
      if checkRequest env.dir (s.recv sent ++ beyond) = 1 then
        match (handleRequest env fuel (s.recv sent ++ beyond) s.status s.disk).result with
        | .error _ => [accepted]
        | .ok reply => [accepted, reply ++ [0]]
      else [rejected] := by
  simp only [serve, reduceCtorEq, if_false]
  split
  · split
    · rfl
    · rename_i hres
      simp only [cstr_of_notMem (zero_notMem_of_handleRequest hres)]
  · rfl

/-- **What a connection does**: nothing, or what its request does. Where the daemon goes on, the
connection has been rejected, or its request has returned. -/
theorem serve_cases (conn : Conn) (s : Server) :
    ((serve conn s).events = [] ∧
        ∀ s', (serve conn s).next = .ok s' → s' = { s with str := s.recv conn.sent }) ∨
      checkRequest conn.env.dir (conn.url s) = 1 ∧
        ∃ o, handleRequest conn.env conn.fuel (conn.url s) s.status s.disk = o ∧
          (serve conn s).events = o.events ∧
          ∀ s', (serve conn s).next = .ok s' → ∃ reply, o.result = .ok reply ∧
            s' = ⟨s.recv conn.sent, o.status, o.disk⟩ := by
  rw [serve]
  simp only
  by_cases hgone : conn.hangup = .beforeVerdict
  · rw [if_pos hgone]
    exact Or.inl ⟨rfl, by rintro _ ⟨⟩⟩
  rw [if_neg hgone]
  split
  · rename_i hcheck
    refine Or.inr ⟨hcheck, _, rfl, ?_⟩
    split
    · exact ⟨rfl, by rintro _ ⟨⟩⟩
    · rename_i reply hres
      split
      · exact ⟨rfl, by rintro _ ⟨⟩⟩
      · exact ⟨rfl, fun s' hs' => ⟨reply, hres, (Except.ok.inj hs').symm⟩⟩
  · exact Or.inl ⟨rfl, fun s' hs' => (Except.ok.inj hs').symm⟩

/-- **The daemon as a machine**, reading connections. -/
def daemon : Machine Conn Server Event where
  step conn s := ((serve conn s).next.toOption, (serve conn s).events)

/-- A connection after which the machine goes on. -/
theorem next_of_step {conn : Conn} {s s' : Server} (h : (daemon.step conn s).1 = some s') :
    (serve conn s).next = .ok s' := by
  simp only [daemon] at h
  rcases hnext : (serve conn s).next with stop | s₁ <;> rw [hnext] at h
  · cases h
  · exact congrArg Except.ok (Option.some.inj h)

/-- The daemon when it starts, with whatever the buffer holds then. -/
def Server.start (str : Bytes) (disk : Disk) : Server := ⟨str, .new, disk⟩

end InstantMirror
