import InstantMirror.Lib.Recv

/-!
# The plugin

`mod_instantmirror.c`, the side of the web server. For a request that has not been
rewritten yet, the handler connects to the daemon, sends the path of the request with
its NUL, reads a verdict of two bytes and, unless that is the string `"0"`, a path of
up to a hundred; the path becomes the URI of the request, and the handler asks lighttpd
to come back with it.

Both answers are received into buffers on the stack that were never written before,
and are then read as C strings. So the memory that a call finds there is part of its
input (`InstantMirror.Frame`). What the system calls deliver is the other part
(`InstantMirror.Exchange`). Most of their failures end the process: `exit(1)` is a
result of `none`.
-/

namespace InstantMirror

/-- `handler_t`. -/
inductive HandlerT where
  /-- `HANDLER_UNSET`. -/
  | unset : HandlerT
  /-- `HANDLER_GO_ON`. -/
  | goOn : HandlerT
  /-- `HANDLER_FINISHED`. -/
  | finished : HandlerT
  /-- `HANDLER_COMEBACK`. -/
  | comeback : HandlerT
  /-- `HANDLER_WAIT_FOR_EVENT`. -/
  | waitForEvent : HandlerT
  /-- `HANDLER_ERROR`. -/
  | error : HandlerT
  /-- `HANDLER_WAIT_FOR_FD`. -/
  | waitForFd : HandlerT
deriving DecidableEq

/-- The states of a `handler_ctx`. -/
inductive RewriteState where
  /-- `REWRITE_STATE_UNSET`. -/
  | unset : RewriteState
  /-- `REWRITE_STATE_FINISHED`. -/
  | finished : RewriteState
deriving DecidableEq

/-- `handler_ctx`. -/
structure HandlerCtx where
  /-- Whether the request has been rewritten. -/
  state : RewriteState
  /-- How often the handler was entered since. -/
  loops : ℕ
deriving DecidableEq

/-- `handler_ctx_init`. -/
def HandlerCtx.init : HandlerCtx := ⟨.unset, 0⟩

/-- **What the plugin sees of a connection.** -/
structure PluginCon where
  /-- `con->plugin_ctx[p->id]`. -/
  pluginCtx : Option HandlerCtx
  /-- `con->uri.path`. -/
  uriPath : Bytes
  /-- `con->request.uri`. -/
  requestUri : Bytes
deriving DecidableEq

/-- **The memory a call of the handler finds on its stack.** -/
structure Frame where
  /-- `char i[2]`. -/
  i : Bytes
  /-- The verdict has two bytes. -/
  length_i : i.length = 2
  /-- `char path[100]`. -/
  path : Bytes
  /-- The path has a hundred. -/
  length_path : path.length = 100
  /-- What stands behind `path`. -/
  beyond : Bytes

/-- A stack full of zeros. -/
def zeros : Frame := ⟨[0, 0], rfl, List.replicate 100 0, List.length_replicate, []⟩

/-- **What the system calls do in one call of the handler**; a call that returns `-1` is
`false`, or `none`. -/
structure Exchange where
  /-- `socket`. -/
  socket : Bool
  /-- `connect`. -/
  connect : Bool
  /-- `send`. -/
  send : Bool
  /-- `recv(s, i, 2, 0)`. -/
  recvI : Option Bytes
  /-- `recv(s, path, 100, 0)`. -/
  recvPath : Option Bytes
deriving DecidableEq

/-- What the handler does, as far as the outside can tell. -/
inductive PluginEvent where
  /-- A socket was opened. -/
  | opened : PluginEvent
  /-- A message was sent to the daemon. -/
  | sent (msg : Bytes) : PluginEvent
  /-- The verdict was read, and its two bytes now hold this. -/
  | verdict (i : Bytes) : PluginEvent
  /-- `con->request.uri` was set. -/
  | rewrote (uri : Bytes) : PluginEvent
  /-- The socket was closed. -/
  | closed : PluginEvent
deriving DecidableEq

/-- `hctx->state = REWRITE_STATE_FINISHED`, in the context there is or in a new one. -/
def finishCtx (ctx : Option HandlerCtx) : HandlerCtx :=
  { ctx.getD .init with state := .finished }

/-- What `send(s, con->uri.path->ptr, strlen(con->uri.path->ptr)+1, 0)` sends. -/
def requestMessage (uriPath : Bytes) : Bytes := cstr uriPath ++ [0]

/-- **The exchange with the daemon**, from `socket` to the end of the handler. The socket is
closed only where the request is rewritten. -/
def askDaemon (x : Exchange) (mem : Frame) (con : PluginCon) :
    Option (HandlerT × PluginCon) × List PluginEvent :=
  if x.socket = false then (none, [])
  else if x.connect = false ∨ x.send = false then (none, [.opened])
  else
    let request := requestMessage con.uriPath
    match x.recvI with
    | none => (none, [.opened, .sent request])
    | some received =>
      let i := overwrite mem.i received
      -- strcmp(i, "0") == 0
      if cstr i = ascii "0" then
        (some (.goOn, con), [.opened, .sent request, .verdict i])
      else
        match x.recvPath with
        | none => (none, [.opened, .sent request, .verdict i])
        | some path =>
          let uri := cstr (overwrite mem.path path ++ mem.beyond)
          (some (.comeback,
              { con with requestUri := uri, pluginCtx := some (finishCtx con.pluginCtx) }),
            [.opened, .sent request, .verdict i, .rewrote uri, .closed])

/-- **`mod_instantmirror_uri_handler`**; `none` where it ends the process. -/
def modInstantmirrorUriHandler (x : Exchange) (mem : Frame) (con : PluginCon) :
    Option (HandlerT × PluginCon) × List PluginEvent :=
  match con.pluginCtx with
  | none => askDaemon x mem con
  | some hctx =>
    let con₁ := { con with pluginCtx := some { hctx with loops := hctx.loops + 1 } }
    if hctx.loops > 100 then (some (.error, con₁), [])
    else if hctx.state = .finished then (some (.goOn, con₁), [])
    else askDaemon x mem con₁

/-- **`mod_rewrite_con_reset`.** -/
def modRewriteConReset (con : PluginCon) : HandlerT × PluginCon :=
  (.goOn, { con with pluginCtx := none })

/-! ### The ways through the handler -/

/-- **The exchange ends in one of three ways**: with the process, with the request left alone
and the socket left open, or with the request rewritten and the socket closed. -/
theorem askDaemon_cases (x : Exchange) (mem : Frame) (con : PluginCon) :
    (∃ ev, askDaemon x mem con = (none, ev) ∧ (∀ uri, .rewrote uri ∉ ev) ∧
      ∀ i, .verdict i ∈ ev → cstr i ≠ ascii "0") ∨
    (∃ i, cstr i = ascii "0" ∧ askDaemon x mem con =
      (some (.goOn, con), [.opened, .sent (requestMessage con.uriPath), .verdict i])) ∨
    ∃ i uri, cstr i ≠ ascii "0" ∧ askDaemon x mem con =
      (some (.comeback,
          { con with requestUri := uri, pluginCtx := some (finishCtx con.pluginCtx) }),
        [.opened, .sent (requestMessage con.uriPath), .verdict i, .rewrote uri, .closed]) := by
  rw [askDaemon]
  split_ifs with hsocket hconnect
  · exact .inl ⟨_, rfl, by simp, by simp⟩
  · exact .inl ⟨_, rfl, by simp, by simp⟩
  · rcases x.recvI with _ | received
    · exact .inl ⟨_, rfl, by simp, by simp⟩
    · dsimp only
      split_ifs with hzero
      · exact .inr (.inl ⟨_, hzero, rfl⟩)
      · rcases x.recvPath with _ | path
        · exact .inl ⟨_, rfl, by simp, by simpa using hzero⟩
        · exact .inr (.inr ⟨_, _, hzero, rfl⟩)

/-- **The request is known to be rewritten.** -/
def Finished (ctx : Option HandlerCtx) : Prop := ∃ hctx, ctx = some hctx ∧ hctx.state = .finished

/-- The context with which a request is taken to the daemon: it says that the handler has been
here. -/
theorem modInstantmirrorUriHandler_of_not_finished {con : PluginCon}
    (h : ¬ Finished con.pluginCtx) (x : Exchange) (mem : Frame) :
    (∃ r con', modInstantmirrorUriHandler x mem con = (some (r, con'), []) ∧
      ¬ Finished con'.pluginCtx) ∨
    ∃ con₁ : PluginCon, ¬ Finished con₁.pluginCtx ∧
      modInstantmirrorUriHandler x mem con = askDaemon x mem con₁ := by
  rw [modInstantmirrorUriHandler]
  rcases hctx : con.pluginCtx with _ | ctx
  · exact .inr ⟨con, h, rfl⟩
  · have hunset : ctx.state ≠ .finished := fun hfin => h ⟨ctx, hctx, hfin⟩
    have hunset' : ¬ Finished (some { ctx with loops := ctx.loops + 1 }) := by
      rintro ⟨_, heq, hfin⟩
      obtain rfl := Option.some.inj heq
      exact hunset hfin
    dsimp only
    split_ifs with hloops
    · exact .inl ⟨_, _, rfl, hunset'⟩
    · exact .inr ⟨{ con with pluginCtx := some { ctx with loops := ctx.loops + 1 } }, hunset', rfl⟩

/-- **A rewritten request stays as it is**: the handler goes on, or gives up when it has come
by too often, and does nothing else. -/
theorem modInstantmirrorUriHandler_of_finished {con : PluginCon} (h : Finished con.pluginCtx)
    (x : Exchange) (mem : Frame) :
    ∃ r con', modInstantmirrorUriHandler x mem con = (some (r, con'), []) ∧
      Finished con'.pluginCtx := by
  obtain ⟨ctx, hctx, hfin⟩ := h
  have hfin' : Finished (some { ctx with loops := ctx.loops + 1 }) := ⟨_, rfl, hfin⟩
  rw [modInstantmirrorUriHandler, hctx]
  dsimp only
  split_ifs with hloops
  · exact ⟨_, _, rfl, hfin'⟩
  · exact ⟨_, _, rfl, hfin'⟩

/-! ### An exchange in which no system call fails -/

/-- The exchange in which the two calls of `recv` deliver these bytes. -/
def Exchange.delivering (i path : Bytes) : Exchange := ⟨true, true, true, some i, some path⟩

/-- The answer of a daemon that has named a file. -/
def naming (path : Bytes) : Exchange := .delivering (ascii "1" ++ [0]) (path ++ [0])

section Delivering

variable {i path : Bytes} {mem : Frame} {con : PluginCon}

/-- The verdict `"0"`: the request is left alone. -/
theorem askDaemon_of_zero (h : cstr (overwrite mem.i i) = ascii "0") :
    (askDaemon (.delivering i path) mem con).1 = some (.goOn, con) := by
  simp [askDaemon, Exchange.delivering, h]

/-- Any other verdict: the request is rewritten, to what is then read from `path`. -/
theorem askDaemon_of_ne_zero (h : cstr (overwrite mem.i i) ≠ ascii "0") :
    (askDaemon (.delivering i path) mem con).1 =
      some (.comeback, { con with
        requestUri := cstr (overwrite mem.path path ++ mem.beyond)
        pluginCtx := some (finishCtx con.pluginCtx) }) := by
  simp [askDaemon, Exchange.delivering, h]

end Delivering

end InstantMirror
