import InstantMirror.Lighttpd.Buffer
import InstantMirror.Lighttpd.Plugin

/-!
# From a request to a file

`http_response_prepare`, the function that the web server calls – again and again, if a
module asks it to come back – until there is something to send. It takes the request
URI apart, cleans it, gives the modules of each slot a chance to step in, and builds the
name of a file out of the document root and the path.

The plugin is one module among others. What the others do is not known and not
restricted: a module of a slot is any function of the request
(`InstantMirror.Slot`), and so is, from one pass to the next, the file system
(`InstantMirror.Pass`). Only the plugin's context is out of their reach: it stands
apart from what the server knows about the request
(`InstantMirror.HttpRequest`), and only the slot of the plugin hands it on.
-/

namespace InstantMirror

/-! ### The request and the modules -/

/-- `con->mode`. -/
inductive Mode where
  /-- `DIRECT`. -/
  | direct : Mode
  /-- Some module has taken the request. -/
  | taken : Mode
deriving DecidableEq

/-- **What the server knows about the request in hand.** -/
structure HttpRequest where
  /-- Whether `con->request.http_method` is `HTTP_METHOD_OPTIONS`. -/
  options : Bool
  /-- `con->request.uri`. -/
  requestUri : Bytes
  /-- `con->uri.path_raw`. -/
  pathRaw : Bytes
  /-- `con->uri.path`. -/
  uriPath : Bytes
  /-- `con->physical.doc_root`. -/
  docRoot : Bytes
  /-- `con->physical.rel_path`. -/
  relPath : Bytes
  /-- `con->physical.basedir`. -/
  basedir : Bytes
  /-- `con->physical.path`; `none` is a buffer with `used == 0`. -/
  physicalPath : Option Bytes
  /-- `con->http_status`. -/
  httpStatus : ℕ
  /-- `con->mode`. -/
  mode : Mode
  /-- `con->error_handler`. -/
  errorHandler : Bytes
deriving DecidableEq

/-- The request of a connection that has been reset. -/
def HttpRequest.blank : HttpRequest := ⟨false, [], [], [], [], [], [], none, 0, .direct, []⟩

/-- The modules of a slot, in their order. -/
abbrev Slot := List (HttpRequest → HandlerT × HttpRequest)

/-- **`plugins_call_…`**: the modules are called until one does not go on; a value that is
not one of a handler is an error. -/
def pluginsCall : Slot → HttpRequest → HandlerT × HttpRequest
  | [], req => (.goOn, req)
  | m :: slot, req =>
    match m req with
    | (.goOn, req₁) => pluginsCall slot req₁
    | (.unset, req₁) => (.error, req₁)
    | (r, req₁) => (r, req₁)

/-- The values of `errno` that are told apart. -/
inductive Errno where
  /-- `EACCES`. -/
  | eacces : Errno
  /-- `ENOENT`. -/
  | enoent : Errno
  /-- `ENOTDIR`. -/
  | enotdir : Errno
  /-- Any other. -/
  | other : Errno
deriving DecidableEq

/-- `stat_cache_entry`. -/
structure StatEntry where
  /-- `is_symlink`. -/
  isSymlink : Bool
  /-- `S_ISDIR`. -/
  isDir : Bool
  /-- `S_ISREG`. -/
  isReg : Bool
deriving DecidableEq

/-- `con->conf`, as it is patched for the request. -/
structure Conf where
  /-- `document_root`. -/
  documentRoot : Bytes
  /-- `force_lowercase_filenames`. -/
  forceLowercaseFilenames : Bool
  /-- `follow_symlink`. -/
  followSymlink : Bool
  /-- `error_handler`. -/
  errorHandler : Bytes
deriving DecidableEq

/-- A site with its files below `/srv`. -/
def site : Conf := ⟨ascii "/srv", false, true, []⟩

/-- **What one pass finds**: the configuration, the modules of each slot, the plugin's
system calls and its stack, and the file system. -/
structure Pass where
  /-- The configuration. -/
  conf : Conf
  /-- `handle_uri_raw`. -/
  uriRaw : Slot
  /-- `handle_uri_clean`, the modules before the plugin. -/
  uriCleanBefore : Slot
  /-- `handle_uri_clean`, the modules after the plugin. -/
  uriCleanAfter : Slot
  /-- `handle_docroot`. -/
  docroot : Slot
  /-- `handle_physical`. -/
  physical : Slot
  /-- `handle_subrequest_start`. -/
  subrequestStart : Slot
  /-- `handle_subrequest`. -/
  subrequest : Slot
  /-- What the system calls of the plugin do. -/
  exchange : Exchange
  /-- What the plugin finds on its stack. -/
  mem : Frame
  /-- `stat_cache_get_entry`. -/
  stat : Bytes → Except Errno StatEntry

/-- **A pass in which only the plugin is there**, on a file system where every name is that
of a regular file – so that the name the pass has come to is still there at its end. -/
def Pass.quiet (conf : Conf) (x : Exchange) (mem : Frame) : Pass where
  conf := conf
  uriRaw := []
  uriCleanBefore := []
  uriCleanAfter := []
  docroot := []
  physical := []
  subrequestStart := []
  subrequest := []
  exchange := x
  mem := mem
  stat _ := .ok ⟨false, false, true⟩

/-- A stage of a pass, which may end it with a value. -/
abbrev Stage := Except (HandlerT × HttpRequest) HttpRequest

/-- What is done with the value of one of the first four slots: four values end the pass, and
the others let it go on. -/
def goOnAfter (r : HandlerT × HttpRequest) : Stage :=
  match r.1 with
  | .finished | .comeback | .waitForEvent | .error => .error r
  | .goOn | .waitForFd | .unset => .ok r.2

/-! ### The URI -/

/-- A fragment is cut away, from `con->request.uri` itself, and what stands before the query
string is `con->uri.path_raw`. -/
def splitUri (req : HttpRequest) : HttpRequest :=
  let uri := (cstr req.requestUri).takeWhile (· ≠ 35)
  { req with requestUri := uri, pathRaw := uri.takeWhile (· ≠ 63) }

/-- The path is decoded and simplified, except for `OPTIONS *`. -/
def cleanUri (req : HttpRequest) : HttpRequest :=
  { req with
    uriPath :=
      if req.options = true ∧ cstr req.pathRaw = ascii "*" then req.pathRaw
      else bufferPathSimplify (bufferUrldecodePath req.pathRaw) }

/-- The handler of the plugin, called from its slot. -/
def callInstantmirror (pass : Pass) (ctx : Option HandlerCtx) (req : HttpRequest) :
    Option (HandlerT × Option HandlerCtx × HttpRequest) × List PluginEvent :=
  let r := modInstantmirrorUriHandler pass.exchange pass.mem ⟨ctx, req.uriPath, req.requestUri⟩
  (r.1.map fun a =>
      (a.1, a.2.pluginCtx, { req with uriPath := a.2.uriPath, requestUri := a.2.requestUri }),
    r.2)

/-- `OPTIONS *` is answered without a file. -/
def answerOptions (req : HttpRequest) : Stage :=
  if req.options = true ∧ req.uriPath.head? = some 42 ∧ req.pathRaw.getD 1 0 = 0 then
    .error (.finished, { req with httpStatus := 200 })
  else .ok req

/-! ### The name of the file -/

/-- `buffer_to_lower`. -/
def bufferToLower (s : Bytes) : Bytes :=
  (cstr s).map (fun c => if 65 ≤ c ∧ c ≤ 90 then c ||| 32 else c) ++ s.drop (cstr s).length

/-- `BUFFER_APPEND_SLASH`. -/
def appendSlash (s : Bytes) : Bytes :=
  if s ≠ [] ∧ s.getLast? ≠ some slash then s ++ [slash] else s

/-- A path without the slash it begins with. -/
def withoutSlash (s : Bytes) : Bytes := if s.head? = some slash then s.drop 1 else s

/-- The defaults of the document root and of the path below it. -/
def defaultRoot (conf : Conf) (req : HttpRequest) : HttpRequest :=
  { req with docRoot := conf.documentRoot, relPath := req.uriPath }

/-- **`physical.path = docroot + rel_path`.** -/
def joinPath (conf : Conf) (req : HttpRequest) : HttpRequest :=
  let rel := if conf.forceLowercaseFilenames then bufferToLower req.relPath else req.relPath
  let base := appendSlash req.docRoot
  { req with
    relPath := rel
    basedir := base
    physicalPath := some (base ++ withoutSlash rel) }

/-- What comes after the slot of the plugin: a path becomes a file name. -/
def locate (pass : Pass) (r : HandlerT × HttpRequest) : Stage := do
  let req ← goOnAfter r
  let req ← answerOptions req
  let req ← goOnAfter (pluginsCall pass.docroot (defaultRoot pass.conf req))
  goOnAfter (pluginsCall pass.physical (joinPath pass.conf req))

/-! ### The file -/

/-- The file cannot be sent: the status says why, and `con->physical.path` is reset. -/
def refuse (status : ℕ) (req : HttpRequest) : Stage :=
  .error (.finished, { req with httpStatus := status, physicalPath := none })

/-- A symlink that is not to be followed is refused. -/
def checkSymlink (conf : Conf) (sce : StatEntry) (req : HttpRequest) : Stage :=
  if sce.isSymlink = true ∧ conf.followSymlink = false then refuse 403 req else .ok req

/-- The search for a file with path info behind it: the name is cut at its slashes, from the
last one on, down to the base directory, until something is there. The first cut that
is tried is the one before the `n`-th byte. -/
def pathinfoCut (stat : Bytes → Except Errno StatEntry) (basedir path : Bytes) :
    ℕ → Option (ℕ × StatEntry)
  | 0 => none
  | n + 1 =>
    if path[n]? ≠ some slash then pathinfoCut stat basedir path n
    else if basedir = [] ∨ n < basedir.length then none
    else
      match stat (path.take n) with
      | .ok sce => if sce.isReg then some (n, sce) else none
      | .error _ => pathinfoCut stat basedir path n

/-- **The file is looked for**, and if there is none, one with path info. -/
def findFile (pass : Pass) (req : HttpRequest) : Stage :=
  let path := req.physicalPath.getD []
  match pass.stat path with
  | .ok sce => do
    let req ← checkSymlink pass.conf sce req
    if sce.isDir = true ∧ path.getLast? ≠ some slash then
      -- http_response_redirect_to_directory
      .error (.finished, { req with httpStatus := 301 })
    else .ok req
  | .error .eacces => refuse 403 req
  | .error .enoent => refuse 404 req
  | .error .other => refuse 500 req
  | .error .enotdir =>
    match pathinfoCut pass.stat req.basedir path path.length with
    | none => refuse 404 req
    | some (n, sce) => do
      let req ← checkSymlink pass.conf sce { req with physicalPath := some (path.take n) }
      .ok { req with uriPath := req.uriPath.take (req.uriPath.length - (path.length - n)) }

/-- A module may take the file; if none does, it is forbidden. -/
def startSubrequest (pass : Pass) (req : HttpRequest) : Stage :=
  match pluginsCall pass.subrequestStart req with
  | (.goOn, req₁) =>
    if req₁.mode = .direct ∧ req₁.httpStatus = 0 then
      .error (.finished, { req₁ with httpStatus := if req₁.options then 200 else 403 })
    else .ok req₁
  | r => .error r

/-- The rest of a pass, when the name of the file is there. -/
def serveFile (pass : Pass) (req : HttpRequest) : HandlerT × HttpRequest :=
  let stage : Stage := if req.mode = .direct then findFile pass req >>= startSubrequest pass
    else .ok req
  match stage with
  | .error r => r
  | .ok req₁ =>
    match pluginsCall pass.subrequest req₁ with
    | (.goOn, req₂) => (.finished, req₂)
    | r => r

/-! ### The whole pass -/

/-- What a pass does. -/
inductive PassEvent where
  /-- The plugin has done something. -/
  | plugin (e : PluginEvent) : PassEvent
  /-- `mod_instantmirror_uri_handler` has returned. -/
  | returned (r : HandlerT) : PassEvent
deriving DecidableEq

/-- **The slot of the plugin**: the modules before it, its handler, the modules after it. -/
def handleUriClean (pass : Pass) (ctx : Option HandlerCtx) (req : HttpRequest) :
    Option (Option HandlerCtx × HandlerT × HttpRequest) × List PassEvent :=
  match pluginsCall pass.uriCleanBefore req with
  | (.goOn, req₁) =>
    match callInstantmirror pass ctx req₁ with
    | (none, ev) => (none, ev.map .plugin)
    | (some (r, ctx₁, req₂), ev) =>
      (some (ctx₁, if r = .goOn then pluginsCall pass.uriCleanAfter req₂ else (r, req₂)),
        ev.map .plugin ++ [.returned r])
  | r => (some (ctx, r), [])

/-- What follows the slot of the plugin. -/
def finishPass (pass : Pass)
    (x : Option (Option HandlerCtx × HandlerT × HttpRequest) × List PassEvent) :
    Option (Option HandlerCtx × HandlerT × HttpRequest) × List PassEvent :=
  (x.1.map fun a =>
      (a.1, match locate pass a.2 with
        | .error r => r
        | .ok req => serveFile pass req),
    x.2)

/-- **`http_response_prepare`**; `none` where the plugin ends the process. -/
def httpResponsePrepare (pass : Pass) (ctx : Option HandlerCtx) (req : HttpRequest) :
    Option (Option HandlerCtx × HandlerT × HttpRequest) × List PassEvent :=
  if req.mode = .direct ∧ req.httpStatus ≠ 0 ∧ req.httpStatus ≠ 200 then
    (some (ctx, .finished, req), [])
  else if req.mode = .direct ∧ req.physicalPath = none then
    match goOnAfter (pluginsCall pass.uriRaw (splitUri req)) with
    | .error r => (some (ctx, r), [])
    | .ok req₁ => finishPass pass (handleUriClean pass ctx (cleanUri req₁))
  else (some (ctx, serveFile pass req), [])

/-! ### What a pass does to the plugin -/

/-- What a call of the handler leaves: the plugin's context, and what was done. -/
def handlerTrace (x : Option (HandlerT × PluginCon) × List PluginEvent) :
    Option (Option HandlerCtx) × List PassEvent :=
  match x with
  | (none, ev) => (none, ev.map .plugin)
  | (some (h, con), ev) => (some con.pluginCtx, ev.map .plugin ++ [.returned h])

/-- The same of a pass. -/
def passTrace (x : Option (Option HandlerCtx × HandlerT × HttpRequest) × List PassEvent) :
    Option (Option HandlerCtx) × List PassEvent :=
  (x.1.map Prod.fst, x.2)

variable (pass : Pass) (ctx : Option HandlerCtx) (req : HttpRequest)

theorem handleUriClean_trace :
    passTrace (handleUriClean pass ctx req) = (some ctx, []) ∨
    ∃ con : PluginCon, con.pluginCtx = ctx ∧ passTrace (handleUriClean pass ctx req) =
      handlerTrace (modInstantmirrorUriHandler pass.exchange pass.mem con) := by
  rw [handleUriClean]
  split
  · rename_i req₁ _
    refine .inr ⟨⟨ctx, req₁.uriPath, req₁.requestUri⟩, rfl, ?_⟩
    rw [callInstantmirror]
    rcases modInstantmirrorUriHandler pass.exchange pass.mem
      ⟨ctx, req₁.uriPath, req₁.requestUri⟩ with ⟨_ | ⟨h, con⟩, ev⟩
    · rfl
    · rfl
  · exact .inl rfl

theorem passTrace_finishPass
    (x : Option (Option HandlerCtx × HandlerT × HttpRequest) × List PassEvent) :
    passTrace (finishPass pass x) = passTrace x := by
  rcases x with ⟨_ | _, ev⟩ <;> rfl

/-- **A pass calls the handler at most once**, with the plugin's context as it is, and the
context it leaves is the one the handler leaves. -/
theorem httpResponsePrepare_trace :
    passTrace (httpResponsePrepare pass ctx req) = (some ctx, []) ∨
    ∃ con : PluginCon, con.pluginCtx = ctx ∧ passTrace (httpResponsePrepare pass ctx req) =
      handlerTrace (modInstantmirrorUriHandler pass.exchange pass.mem con) := by
  rw [httpResponsePrepare]
  split_ifs with hdone hbuild
  · exact .inl rfl
  · rcases goOnAfter (pluginsCall pass.uriRaw (splitUri req)) with r | req₁
    · exact .inl rfl
    · dsimp only
      rw [passTrace_finishPass]
      exact handleUriClean_trace pass ctx (cleanUri req₁)
  · exact .inl rfl

end InstantMirror
