import InstantMirror.Lib.Run
import InstantMirror.Lighttpd.Response

/-!
# Connections

`connection_state_machine`, one turn of its loop at a time. A connection is read from
until there is a request; the request is prepared, over as many passes as the modules
ask for; a missing file may send it through the error handler of the site, as a request
for another URI; and when the answer is written the connection is reset, for the next
request or for good.

What a turn finds – what has arrived, what a pass meets, whether the client is still
there – is its input (`InstantMirror.Tick`), so a run of
`InstantMirror.connection` on a list of ticks is what one client sees of one
connection. `InstantMirror.server` is a server with any number of connections, whose
turns come in any order; a connection that is closed may be taken for a new client.
-/

namespace InstantMirror

/-! ### The connection -/

/-- `connection_state_t`. -/
inductive ConState where
  /-- `CON_STATE_CONNECT`: the connection is not in use. -/
  | connect : ConState
  /-- `CON_STATE_REQUEST_START`. -/
  | requestStart : ConState
  /-- `CON_STATE_READ`. -/
  | read : ConState
  /-- `CON_STATE_REQUEST_END`. -/
  | requestEnd : ConState
  /-- `CON_STATE_READ_POST`. -/
  | readPost : ConState
  /-- `CON_STATE_HANDLE_REQUEST`. -/
  | handleRequest : ConState
  /-- `CON_STATE_RESPONSE_START`. -/
  | responseStart : ConState
  /-- `CON_STATE_WRITE`. -/
  | write : ConState
  /-- `CON_STATE_RESPONSE_END`. -/
  | responseEnd : ConState
  /-- `CON_STATE_ERROR`. -/
  | error : ConState
  /-- `CON_STATE_CLOSE`: nothing is sent any more. -/
  | close : ConState
deriving DecidableEq

/-- `connection`. -/
structure Con where
  /-- `state`. -/
  state : ConState
  /-- The context of the plugin, in `plugin_ctx`. -/
  pluginCtx : Option HandlerCtx
  /-- The request in hand. -/
  req : HttpRequest
  /-- `in_error_handler`. -/
  inErrorHandler : Bool
  /-- `error_handler_saved_status`. -/
  errorHandlerSavedStatus : ℕ
  /-- `keep_alive`. -/
  keepAlive : Bool
deriving DecidableEq

/-- A connection that was never used. -/
def Con.unused : Con := ⟨.connect, none, .blank, false, 0, false⟩

/-- What `http_request_parse` makes of a request. -/
structure Parsed where
  /-- `con->request.uri`. -/
  uri : Bytes
  /-- Whether the method is `OPTIONS`. -/
  options : Bool
  /-- `con->keep_alive`. -/
  keepAlive : Bool
  /-- `con->http_status`: an error, or 0. -/
  status : ℕ
  /-- Whether there is content to be read. -/
  post : Bool
deriving DecidableEq

/-- What comes of reading. -/
inductive Reading where
  /-- Not everything has arrived. -/
  | wait : Reading
  /-- Everything has arrived. -/
  | complete : Reading
  /-- It is too much. -/
  | denied : Reading
  /-- The client is gone. -/
  | failed : Reading
deriving DecidableEq

/-- What comes of writing. -/
inductive Writing where
  /-- Not everything is written. -/
  | wait : Writing
  /-- Everything is written. -/
  | complete : Writing
  /-- The client is gone. -/
  | failed : Writing
deriving DecidableEq

/-- **What one turn finds.** -/
structure Tick where
  /-- The connection was hung up, or timed out. -/
  hangup : Bool
  /-- What comes of reading the header. -/
  header : Reading
  /-- What the header says. -/
  parsed : Parsed
  /-- What comes of reading the content. -/
  content : Reading
  /-- What a pass finds. -/
  pass : Pass
  /-- Whether the connection may be kept after `connection_handle_write_prepare`, unless
  that fails. -/
  prepared : Option Bool
  /-- What comes of writing the answer. -/
  answer : Writing
  /-- What the reset hooks of the modules before the plugin return. -/
  hooks : List HandlerT
  /-- Whether `shutdown` succeeds. -/
  shutdown : Bool
  /-- Whether it is time to close a connection that was shut down. -/
  lingered : Bool

/-- The turns of a client that asks for a URI, over and over: all that it sends arrives, and
so does all that it is sent. -/
def Tick.asking (uri : Bytes) (pass : Pass) : Tick where
  hangup := false
  header := .complete
  parsed := ⟨uri, false, true, 0, false⟩
  content := .complete
  pass := pass
  prepared := some true
  answer := .complete
  hooks := []
  shutdown := true
  lingered := false

/-- What a connection does. -/
inductive ConEvent where
  /-- In a pass, something was done. -/
  | pass (e : PassEvent) : ConEvent
  /-- `http_response_prepare` has returned. -/
  | prepared (r : HandlerT) (req : HttpRequest) : ConEvent
  /-- The answer begins. -/
  | answered (status : ℕ) : ConEvent
  /-- A context was found that its module had not freed. -/
  | missingCleanup : ConEvent
  /-- `connection_reset` is done. -/
  | reset : ConEvent
deriving DecidableEq

/-! ### The turns -/

/-- `http_request_parse`, and where it leads. -/
def httpRequestParse (p : Parsed) (con : Con) : Con :=
  { con with
    state := if p.post then .readPost else .handleRequest
    keepAlive := p.keepAlive
    req := { con.req with requestUri := p.uri, options := p.options, httpStatus := p.status } }

/-- A request that is too large is handled as one, and is the last. -/
def deny (status : ℕ) (con : Con) : Con :=
  { con with
    state := .handleRequest, keepAlive := false, req := { con.req with httpStatus := status } }

/-- The answer is there; a status that nobody has set is 200. -/
def respond (con : Con) : Con :=
  { con with
    state := .responseStart
    req := { con.req with
      httpStatus := if con.req.httpStatus = 0 then 200 else con.req.httpStatus } }

/-- **What follows a pass.** A file that is missing or forbidden becomes a request for the
error handler, once; if that is missing as well, the first status is the answer. -/
def afterPrepare (conf : Conf) (r : HandlerT) (con : Con) : Con :=
  match r with
  | .finished =>
    if con.req.mode = .direct ∧ (con.req.httpStatus = 404 ∨ con.req.httpStatus = 403) then
      if con.inErrorHandler = false ∧ (conf.errorHandler ≠ [] ∨ con.req.errorHandler ≠ []) then
        { con with
          inErrorHandler := true
          errorHandlerSavedStatus := con.req.httpStatus
          req := { con.req with
            httpStatus := 0
            physicalPath := none
            requestUri :=
              if con.req.errorHandler = [] then conf.errorHandler else con.req.errorHandler } }
      else if con.inErrorHandler then
        respond { con with req := { con.req with httpStatus := con.errorHandlerSavedStatus } }
      else respond con
    else respond con
  | .error => { con with state := .error }
  | .waitForFd | .comeback | .waitForEvent | .unset | .goOn => con

/-- `CON_STATE_HANDLE_REQUEST`. -/
def handleRequestState (pass : Pass) (con : Con) : Option Con × List ConEvent :=
  match httpResponsePrepare pass con.pluginCtx con.req with
  | (none, ev) => (none, ev.map .pass)
  | (some (ctx, r, req), ev) =>
    (some (afterPrepare pass.conf r { con with pluginCtx := ctx, req := req }),
      ev.map .pass ++ [.prepared r req])

/-- The plugin's context after the reset hooks: that of the plugin is called if those before
it all go on. -/
def ctxAfterHooks (hooks : List HandlerT) (con : Con) : Option HandlerCtx :=
  if ∀ r ∈ hooks, r = .goOn then
    (modRewriteConReset ⟨con.pluginCtx, con.req.uriPath, con.req.requestUri⟩).2.pluginCtx
  else con.pluginCtx

/-- **`connection_reset`.** A context that is still there after the hooks is reported, and
dropped. -/
def connectionReset (hooks : List HandlerT) (con : Con) : Con × List ConEvent :=
  ({ con with pluginCtx := none, req := .blank, inErrorHandler := false },
    (if ctxAfterHooks hooks con = none then [] else [.missingCleanup]) ++ [.reset])

/-- `CON_STATE_RESPONSE_END`. -/
def responseEndState (hooks : List HandlerT) (con : Con) : Con × List ConEvent :=
  connectionReset hooks
    { con with state := if con.keepAlive then .requestStart else .connect }

/-- `CON_STATE_ERROR`. -/
def errorState (hooks : List HandlerT) (shutdown : Bool) (con : Con) : Con × List ConEvent :=
  let r := connectionReset hooks con
  ({ r.1 with
      state := if con.keepAlive = true ∧ shutdown = true then .close else .connect
      keepAlive := false },
    r.2)

/-- **One turn of `connection_state_machine`.** -/
def stateMachineTurn (t : Tick) (con : Con) : Option Con × List ConEvent :=
  match con.state with
  | .requestStart => (some { con with state := .read }, [])
  | .read =>
    match t.header with
    | .wait => (some con, [])
    | .complete => (some { con with state := .requestEnd }, [])
    | .denied => (some (deny 414 con), [])
    | .failed => (some { con with state := .error }, [])
  | .requestEnd => (some (httpRequestParse t.parsed con), [])
  | .readPost =>
    match t.content with
    | .wait => (some con, [])
    | .complete => (some { con with state := .handleRequest }, [])
    | .denied => (some (deny 413 con), [])
    | .failed => (some { con with state := .error }, [])
  | .handleRequest => handleRequestState t.pass con
  | .responseStart =>
    match t.prepared with
    | none => (some { con with state := .error }, [])
    | some keep =>
      (some { con with state := .write, keepAlive := con.keepAlive && keep },
        [.answered con.req.httpStatus])
  | .write =>
    match t.answer with
    | .wait => (some con, [])
    | .complete => (some { con with state := .responseEnd }, [])
    | .failed => (some { con with state := .error }, [])
  | .responseEnd =>
    (some (responseEndState t.hooks con).1, (responseEndState t.hooks con).2)
  | .error =>
    (some (errorState t.hooks t.shutdown con).1, (errorState t.hooks t.shutdown con).2)
  | .close => (some { con with state := if t.lingered then .connect else .close }, [])
  | .connect => (some con, [])

/-- A turn, and before it what may happen at any time: the connection is hung up, or has timed
out. -/
def connectionStep (t : Tick) (con : Con) : Option Con × List ConEvent :=
  if t.hangup = true ∧ con.state ≠ .connect ∧ con.state ≠ .close then
    (some { con with state := .error }, [])
  else stateMachineTurn t con

/-- **A connection**, as a machine. -/
def connection : Machine Tick Con ConEvent := ⟨connectionStep⟩

/-- `connections_get_new_connection`, and the first state of a connection that is accepted. -/
def accept (hooks : List HandlerT) (old : Con) : Con × List ConEvent :=
  ({ (connectionReset hooks old).1 with state := .requestStart }, (connectionReset hooks old).2)

/-! ### The server -/

/-- What a server does next. -/
inductive ServerInput where
  /-- A client is accepted, if the connection is not in use. -/
  | accept (n : ℕ) (hooks : List HandlerT) : ServerInput
  /-- A turn of a connection. -/
  | turn (n : ℕ) (t : Tick) : ServerInput

/-- One step of a server; if the plugin ends the process, it takes every connection along. -/
def serverStep (i : ServerInput) (conns : ℕ → Con) : Option (ℕ → Con) × List ConEvent :=
  match i with
  | .accept n hooks =>
    if (conns n).state = .connect then
      (some (Function.update conns n (accept hooks (conns n)).1), (accept hooks (conns n)).2)
    else (some conns, [])
  | .turn n t =>
    ((connectionStep t (conns n)).1.map (Function.update conns n), (connectionStep t (conns n)).2)

/-- **A server**, as a machine. -/
def server : Machine ServerInput (ℕ → Con) ConEvent := ⟨serverStep⟩

/-! ### What a turn does to the plugin -/

/-- What the plugin does, in a connection. -/
abbrev ConEvent.plugin (e : PluginEvent) : ConEvent := .pass (.plugin e)

/-- The events in which the plugin has no part. -/
def ConEvent.ofServer : ConEvent → Bool
  | .prepared _ _ | .answered _ | .missingCleanup => true
  | .pass _ | .reset => false

/-- **Everything that a turn can do to the plugin**: from the context before it to the one
after it – or to the end of the process – with the events. -/
inductive Turn (ctx : Option HandlerCtx) : Option (Option HandlerCtx) → List ConEvent → Prop
  /-- The handler is not called. -/
  | idle {ev : List ConEvent} (hev : ∀ e ∈ ev, e.ofServer = true) : Turn ctx (some ctx) ev
  /-- The connection is reset. -/
  | reset {ev : List ConEvent} (hev : ∀ e ∈ ev, e.ofServer = true) :
      Turn ctx (some none) (ev ++ [.reset])
  /-- The handler returns without a word. -/
  | silent {ctx' : Option HandlerCtx} (hctx : Finished ctx' ↔ Finished ctx) (r : HandlerT)
      {ev : List ConEvent} (hev : ∀ e ∈ ev, e.ofServer = true) :
      Turn ctx (some ctx') (.pass (.returned r) :: ev)
  /-- The handler ends the process. -/
  | exited (hnew : ¬ Finished ctx) {ev : List PluginEvent} (huri : ∀ uri, .rewrote uri ∉ ev)
      (hverdict : ∀ i, .verdict i ∈ ev → cstr i ≠ ascii "0") : Turn ctx none (ev.map .plugin)
  /-- The daemon refuses the request; the socket stays open. -/
  | refused (hnew : ¬ Finished ctx) {ctx' : Option HandlerCtx} (hctx : ¬ Finished ctx')
      (msg : Bytes) {i : Bytes} (hzero : cstr i = ascii "0") {ev : List ConEvent}
      (hev : ∀ e ∈ ev, e.ofServer = true) :
      Turn ctx (some ctx') ([.plugin .opened, .plugin (.sent msg), .plugin (.verdict i),
        .pass (.returned .goOn)] ++ ev)
  /-- The request is rewritten. -/
  | rewrote (hnew : ¬ Finished ctx) {ctx' : Option HandlerCtx} (hctx : Finished ctx')
      (msg : Bytes) {i : Bytes} (hone : cstr i ≠ ascii "0") (uri : Bytes) {ev : List ConEvent}
      (hev : ∀ e ∈ ev, e.ofServer = true) :
      Turn ctx (some ctx') ([.plugin .opened, .plugin (.sent msg), .plugin (.verdict i),
        .plugin (.rewrote uri), .plugin .closed, .pass (.returned .comeback)] ++ ev)

theorem ofServer_nil : ∀ e ∈ ([] : List ConEvent), e.ofServer = true := by simp

/-- A call of the handler, with what the server does after it. -/
theorem turn_handler (x : Exchange) (mem : Frame) (con : PluginCon) {ev : List ConEvent}
    (hev : ∀ e ∈ ev, e.ofServer = true)
    (hexit : (handlerTrace (modInstantmirrorUriHandler x mem con)).1 = none → ev = []) :
    Turn con.pluginCtx (handlerTrace (modInstantmirrorUriHandler x mem con)).1
      ((handlerTrace (modInstantmirrorUriHandler x mem con)).2.map .pass ++ ev) := by
  by_cases hfin : Finished con.pluginCtx
  · obtain ⟨r, con', h, hfin'⟩ := modInstantmirrorUriHandler_of_finished hfin x mem
    rw [h]
    exact .silent (iff_of_true hfin' hfin) r hev
  · rcases modInstantmirrorUriHandler_of_not_finished hfin x mem with
      ⟨r, con', h, hfin'⟩ | ⟨con₁, hfin₁, h⟩
    · rw [h]
      exact .silent (iff_of_false hfin' hfin) r hev
    · rw [h] at hexit ⊢
      rcases askDaemon_cases x mem con₁ with
        ⟨ev', h, huri, hverdict⟩ | ⟨i, hzero, h⟩ | ⟨i, uri, hone, h⟩ <;> rw [h] at hexit ⊢
      · rw [hexit rfl, List.append_nil, handlerTrace, List.map_map]
        exact .exited hfin huri hverdict
      · exact .refused hfin hfin₁ _ hzero hev
      · exact .rewrote hfin ⟨_, rfl, rfl⟩ _ hone uri hev

/-- What follows a pass does not touch the plugin. -/
theorem pluginCtx_afterPrepare (conf : Conf) (r : HandlerT) (con : Con) :
    (afterPrepare conf r con).pluginCtx = con.pluginCtx := by
  cases r with
  | finished =>
    rw [afterPrepare]
    split_ifs <;> rfl
  | _ => rfl

/-- `CON_STATE_HANDLE_REQUEST` is a turn. -/
theorem turn_handleRequestState (pass : Pass) (con : Con) :
    Turn con.pluginCtx ((handleRequestState pass con).1.map Con.pluginCtx)
      (handleRequestState pass con).2 := by
  have htrace := httpResponsePrepare_trace pass con.pluginCtx con.req
  rw [handleRequestState]
  generalize httpResponsePrepare pass con.pluginCtx con.req = x at htrace ⊢
  obtain ⟨_ | ⟨ctx, r, req⟩, ev⟩ := x
  · rcases htrace with htrace | ⟨pcon, hctx, htrace⟩
    · cases htrace
    · have hturn := turn_handler pass.exchange pass.mem pcon ofServer_nil fun _ => rfl
      rwa [← htrace, hctx, List.append_nil] at hturn
  · dsimp only [Option.map_some]
    rw [pluginCtx_afterPrepare]
    have hev : ∀ e ∈ [ConEvent.prepared r req], e.ofServer = true := by simp [ConEvent.ofServer]
    rcases htrace with htrace | ⟨pcon, hctx, htrace⟩
    · obtain ⟨rfl, rfl⟩ : ctx = con.pluginCtx ∧ ev = [] := by simpa [passTrace] using htrace
      exact .idle hev
    · have hturn := turn_handler pass.exchange pass.mem pcon hev fun hexit => by
        rw [← htrace] at hexit
        cases hexit
      rwa [← htrace, hctx] at hturn

/-- A reset, after whatever else there was to be done. -/
theorem turn_connectionReset (ctx : Option HandlerCtx) (hooks : List HandlerT) (con : Con) :
    Turn ctx (some none) (connectionReset hooks con).2 := by
  refine .reset fun e he => ?_
  split_ifs at he
  · simp at he
  · obtain rfl : e = .missingCleanup := by simpa using he
    rfl

/-- **Every turn is one of these.** -/
theorem connectionStep_turn (t : Tick) (con : Con) :
    Turn con.pluginCtx ((connectionStep t con).1.map Con.pluginCtx) (connectionStep t con).2 := by
  rw [connectionStep]
  split_ifs with hhangup
  · exact .idle ofServer_nil
  · rw [stateMachineTurn]
    cases con.state with
    | requestStart | requestEnd | close | connect => exact .idle ofServer_nil
    | read => cases t.header <;> exact .idle ofServer_nil
    | readPost => cases t.content <;> exact .idle ofServer_nil
    | write => cases t.answer <;> exact .idle ofServer_nil
    | handleRequest => exact turn_handleRequestState t.pass con
    | responseStart =>
      cases t.prepared with
      | none => exact .idle ofServer_nil
      | some keep => exact .idle (by simp [ConEvent.ofServer])
    | responseEnd => exact turn_connectionReset _ _ _
    | error => exact turn_connectionReset _ _ _

end InstantMirror
