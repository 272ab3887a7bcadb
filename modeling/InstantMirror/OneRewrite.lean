import InstantMirror.Lighttpd.Connection

/-!
# One rewrite for each request

A request is prepared in passes, and in each of them the handler of the plugin may be
called. It must not take a request to the daemon that it has already rewritten – its
own answer would be asked for in turn – and it must not take the next request on the
connection for one that is done.

Both hang on the plugin's context, which only the handler and the reset write. From
what a turn can do to it (`InstantMirror.Turn`) it follows that the context of a
rewritten request says so until the connection is reset; and a connection that has been
reset differs from a new one only in two registers that are written before they are
read, so that the two cannot be told apart (`InstantMirror.Alike`).
`InstantMirror.one_rewrite` is the two facts together.
-/

namespace InstantMirror

/-! ### The first request -/

/-- Whether the request has been rewritten, after one more event. -/
def rewrittenAfter (b : Bool) : ConEvent → Bool
  | .pass (.plugin (.rewrote _)) => true
  | .reset => false
  | _ => b

/-- **Whether the request has been rewritten** since the last reset. -/
def rewritten (past : List ConEvent) : Bool := past.foldl rewrittenAfter false

/-- The events in which the plugin asks the daemon, or writes the URI. -/
def ConEvent.asks : ConEvent → Bool
  | .pass (.plugin .closed) => false
  | .pass (.plugin _) => true
  | _ => false

/-- **The plugin asks and writes only before it has rewritten the request.** -/
def OncePerRequest (past : List ConEvent) (e : ConEvent) : Prop :=
  e.asks = true → rewritten past = false

theorem rewritten_append (h ev : List ConEvent) :
    rewritten (h ++ ev) = ev.foldl rewrittenAfter (rewritten h) :=
  List.foldl_append

/-- Events that are neither a rewrite nor a reset change nothing. -/
theorem rewritten_append_of_forall {h ev : List ConEvent}
    (hev : ∀ e ∈ ev, ∀ b, rewrittenAfter b e = b) : rewritten (h ++ ev) = rewritten h := by
  rw [rewritten_append]
  induction ev with
  | nil => rfl
  | cons e ev ih =>
    rw [List.foldl_cons, hev e List.mem_cons_self]
    exact ih fun e' he' => hev e' (List.mem_cons_of_mem _ he')

theorem keeps_of_ofServer {ev : List ConEvent} (hev : ∀ e ∈ ev, e.ofServer = true) :
    ∀ e ∈ ev, ∀ b, rewrittenAfter b e = b := by
  intro e he b
  have hof := hev e he
  cases e with
  | pass e => cases hof
  | reset => cases hof
  | _ => rfl

theorem silent_of_ofServer {ev : List ConEvent} (hev : ∀ e ∈ ev, e.ofServer = true) :
    ∀ e ∈ ev, e.asks = false := by
  intro e he
  have hof := hev e he
  cases e with
  | pass e => cases hof
  | _ => rfl

/-- Events in which the plugin is silent are in order, whatever was before. -/
theorem along_once_of_silent {f : List ConEvent → List ConEvent} {ev : List ConEvent}
    (hev : ∀ e ∈ ev, e.asks = false) : Along (fun before => OncePerRequest (f before)) ev :=
  along_of_forall fun e he _ hasks => absurd hasks (by rw [hev e he]; decide)

/-- As long as nothing is rewritten, the plugin may ask. -/
theorem along_once_of_not_rewritten {h ev : List ConEvent} (hnew : rewritten h = false)
    (hev : ∀ e ∈ ev, ∀ b, rewrittenAfter b e = b) :
    Along (fun before => OncePerRequest (h ++ before)) ev := by
  rintro before e after rfl -
  rw [rewritten_append_of_forall fun e' he' => hev e' (List.mem_append_left _ he'), hnew]

/-- **One turn is in order**, if the context says so of a request that has been rewritten; and
then it still does. -/
theorem once_of_turn {ctx : Option HandlerCtx} {next : Option (Option HandlerCtx)}
    {h ev : List ConEvent} (hturn : Turn ctx next ev) (hinv : rewritten h = true → Finished ctx) :
    Along (fun before => OncePerRequest (h ++ before)) ev ∧
      ∀ ctx', next = some ctx' → rewritten (h ++ ev) = true → Finished ctx' := by
  have hfresh : ¬ Finished ctx → rewritten h = false := fun hnew => by
    rw [← Bool.not_eq_true]
    exact fun hold => hnew (hinv hold)
  cases hturn with
  | idle hev =>
    refine ⟨along_once_of_silent (silent_of_ofServer hev), ?_⟩
    rintro ctx' ⟨rfl⟩ hold
    exact hinv (by rwa [rewritten_append_of_forall (keeps_of_ofServer hev)] at hold)
  | reset hev =>
    refine ⟨along_once_of_silent (List.forall_mem_append.mpr
      ⟨silent_of_ofServer hev, by simp [ConEvent.asks]⟩), fun ctx' _ hold => ?_⟩
    rw [← List.append_assoc, rewritten_append] at hold
    cases hold
  | silent hctx r hev =>
    refine ⟨along_once_of_silent (List.forall_mem_cons.mpr ⟨rfl, silent_of_ofServer hev⟩), ?_⟩
    rintro _ ⟨rfl⟩ hold
    rw [rewritten_append_of_forall
      (List.forall_mem_cons.mpr ⟨fun _ => rfl, keeps_of_ofServer hev⟩)] at hold
    exact hctx.mpr (hinv hold)
  | exited hnew huri _ =>
    refine ⟨along_once_of_not_rewritten (hfresh hnew) fun e he b => ?_, nofun⟩
    obtain ⟨e, hmem, rfl⟩ := List.mem_map.mp he
    cases e with
    | rewrote uri => exact absurd hmem (huri uri)
    | _ => rfl
  | @refused hnew _ _ msg i _ ev hev =>
    have hkeep : ∀ e ∈ [ConEvent.plugin .opened, .plugin (.sent msg), .plugin (.verdict i),
        .pass (.returned .goOn)] ++ ev, ∀ b, rewrittenAfter b e = b :=
      List.forall_mem_append.mpr ⟨by simp [rewrittenAfter], keeps_of_ofServer hev⟩
    refine ⟨along_once_of_not_rewritten (hfresh hnew) hkeep, fun _ _ hold => ?_⟩
    rw [rewritten_append_of_forall hkeep, hfresh hnew] at hold
    cases hold
  | @rewrote hnew _ hctx msg i _ uri ev hev =>
    refine ⟨?_, fun ctx' hnext _ => Option.some.inj hnext ▸ hctx⟩
    -- up to the rewrite nothing has been rewritten, and after it the plugin is silent
    have hkeep : ∀ e ∈ [ConEvent.plugin .opened, .plugin (.sent msg), .plugin (.verdict i)],
        ∀ b, rewrittenAfter b e = b := by simp [rewrittenAfter]
    have hafter : ∀ e ∈ .plugin .closed :: .pass (.returned .comeback) :: ev, e.asks = false :=
      List.forall_mem_cons.mpr ⟨rfl, List.forall_mem_cons.mpr ⟨rfl, silent_of_ofServer hev⟩⟩
    refine (@along_append _ _ [.plugin .opened, .plugin (.sent msg), .plugin (.verdict i)] _).mpr
      ⟨along_once_of_not_rewritten (hfresh hnew) hkeep, along_cons.mpr ⟨fun _ => ?_, ?_⟩⟩
    · rw [List.append_nil, rewritten_append_of_forall hkeep, hfresh hnew]
    · exact along_once_of_silent hafter

/-! ### The next request -/

/-- **A connection in which nothing has happened yet.** -/
def Blank (con : Con) : Prop :=
  con.pluginCtx = none ∧ con.req = .blank ∧ con.inErrorHandler = false

theorem blank_connectionReset (hooks : List HandlerT) (con : Con) :
    Blank (connectionReset hooks con).1 :=
  ⟨rfl, rfl, rfl⟩

theorem blank_accept (hooks : List HandlerT) (old : Con) : Blank (accept hooks old).1 :=
  ⟨rfl, rfl, rfl⟩

theorem state_afterPrepare {conf : Conf} {r : HandlerT} {con : Con}
    (hstate : con.state = .handleRequest) :
    (afterPrepare conf r con).state ≠ .requestStart := by
  cases r with
  | finished =>
    rw [afterPrepare]
    split_ifs <;> simp [respond, hstate]
  | _ => simp [afterPrepare, hstate]

theorem state_handleRequestState {pass : Pass} {con : Con}
    (hstate : con.state = .handleRequest) :
    (handleRequestState pass con).1.map Con.state ≠ some .requestStart := by
  rw [handleRequestState]
  split
  · rintro ⟨⟩
  · intro h
    exact absurd (Option.some.inj h) (state_afterPrepare (by exact hstate))

/-- From no state but one a request is started. -/
theorem state_stateMachineTurn {t : Tick} {con : Con} (hend : con.state ≠ .responseEnd) :
    (stateMachineTurn t con).1.map Con.state ≠ some .requestStart := by
  rw [stateMachineTurn]
  cases hstate : con.state with
  | requestStart => rintro ⟨⟩
  | read => cases t.header <;> simp [hstate, deny]
  | requestEnd => cases hpost : t.parsed.post <;> simp [httpRequestParse, hpost]
  | readPost => cases t.content <;> simp [hstate, deny]
  | handleRequest => exact state_handleRequestState hstate
  | responseStart => cases t.prepared <;> rintro ⟨⟩
  | write => cases t.answer <;> simp [hstate]
  | responseEnd => exact absurd hstate hend
  | error =>
    dsimp only [errorState, Option.map_some]
    split_ifs <;> rintro ⟨⟩
  | close => cases t.lingered <;> rintro ⟨⟩
  | connect => simp [hstate]

/-- **A request starts only after a reset.** -/
theorem blank_of_connectionStep {t : Tick} {con con' : Con}
    (h : (connectionStep t con).1 = some con') (hstart : con'.state = .requestStart) :
    Blank con' := by
  rw [connectionStep] at h
  split_ifs at h with hhangup
  · obtain rfl := Option.some.inj h
    cases hstart
  · by_cases hend : con.state = .responseEnd
    · rw [stateMachineTurn, hend] at h
      obtain rfl := Option.some.inj h
      exact blank_connectionReset _ _
    · exact absurd (by rw [h, Option.map_some, hstart]) (@state_stateMachineTurn t con hend)

/-- Whether a connection is done with. -/
def Con.Closed (con : Con) : Prop := con.state = .close ∨ con.state = .connect

/-- The states in which `keep_alive` has not been set for the request yet, or does not matter
any more. -/
def ConState.unparsed : ConState → Bool
  | .requestStart | .read | .requestEnd | .error => true
  | _ => false

/-- **Two connections that cannot be told apart**: both are done with, or they differ at most
in the status that was saved for an error handler they are not in, and in whether they
are kept alive before their request says so. -/
def Alike (con con' : Con) : Prop :=
  con.Closed ∧ con'.Closed ∨
  (con.state = con'.state ∧ con.pluginCtx = con'.pluginCtx ∧ con.req = con'.req ∧
    con.inErrorHandler = con'.inErrorHandler ∧
    (con.inErrorHandler = true → con.errorHandlerSavedStatus = con'.errorHandlerSavedStatus) ∧
    (con.state.unparsed = false → con.keepAlive = con'.keepAlive))

/-- Two connections that have just been reset are alike. -/
theorem alike_of_blank {con con' : Con} (hcon : Blank con) (hcon' : Blank con')
    (hstate : con.state = .requestStart) (hstate' : con'.state = .requestStart) :
    Alike con con' := by
  obtain ⟨hctx, hreq, herr⟩ := hcon
  obtain ⟨hctx', hreq', herr'⟩ := hcon'
  refine .inr ⟨hstate.trans hstate'.symm, hctx.trans hctx'.symm, hreq.trans hreq'.symm,
    herr.trans herr'.symm, fun h => ?_, fun h => ?_⟩
  · rw [herr] at h
    cases h
  · rw [hstate] at h
    cases h

/-- A connection that is done with stays so, and does nothing. -/
theorem closed_connectionStep (t : Tick) {con : Con} (h : con.Closed) :
    (connectionStep t con).2 = [] ∧ ∃ con', (connectionStep t con).1 = some con' ∧ con'.Closed := by
  rcases h with hstate | hstate
  · have hstep : connectionStep t con =
        (some { con with state := if t.lingered then .connect else .close }, []) := by
      simp [connectionStep, stateMachineTurn, hstate]
    rw [hstep]
    refine ⟨rfl, _, rfl, ?_⟩
    cases t.lingered
    · exact .inl rfl
    · exact .inr rfl
  · have hstep : connectionStep t con = (some con, []) := by
      simp [connectionStep, stateMachineTurn, hstate]
    rw [hstep]
    exact ⟨rfl, con, rfl, .inr hstate⟩

theorem closed_errorState {hooks : List HandlerT} {shutdown : Bool} {con : Con} :
    (errorState hooks shutdown con).1.Closed := by
  simp only [errorState, Con.Closed]
  split_ifs
  · exact .inl rfl
  · exact .inr rfl

/-- A pass leaves connections alike that differ only in a status they will not use. -/
theorem alike_afterPrepare (conf : Conf) (r : HandlerT) (ctx : Option HandlerCtx)
    (req : HttpRequest) (err keep : Bool) {saved saved' : ℕ}
    (hsaved : err = true → saved = saved') :
    Alike (afterPrepare conf r ⟨.handleRequest, ctx, req, err, saved, keep⟩)
      (afterPrepare conf r ⟨.handleRequest, ctx, req, err, saved', keep⟩) := by
  cases r with
  | finished =>
    simp only [afterPrepare]
    split_ifs with hmissing hhandler hown herr
    · exact .inr ⟨rfl, rfl, rfl, rfl, fun _ => rfl, fun _ => rfl⟩
    · exact .inr ⟨rfl, rfl, rfl, rfl, fun _ => rfl, fun _ => rfl⟩
    · obtain rfl := hsaved herr
      exact .inr ⟨rfl, rfl, rfl, rfl, fun _ => rfl, fun _ => rfl⟩
    · exact .inr ⟨rfl, rfl, rfl, rfl, hsaved, fun _ => rfl⟩
    · exact .inr ⟨rfl, rfl, rfl, rfl, hsaved, fun _ => rfl⟩
  | _ => exact .inr ⟨rfl, rfl, rfl, rfl, hsaved, fun _ => rfl⟩

/-- **A turn of connections that are alike**, in the same state. -/
theorem alike_stateMachineTurn (t : Tick) (state : ConState) (ctx : Option HandlerCtx)
    (req : HttpRequest) (err : Bool) {saved saved' : ℕ} {keep keep' : Bool}
    (hsaved : err = true → saved = saved') (hkeep : state.unparsed = false → keep = keep') :
    (stateMachineTurn t ⟨state, ctx, req, err, saved, keep⟩).2 =
        (stateMachineTurn t ⟨state, ctx, req, err, saved', keep'⟩).2 ∧
      Option.Rel Alike (stateMachineTurn t ⟨state, ctx, req, err, saved, keep⟩).1
        (stateMachineTurn t ⟨state, ctx, req, err, saved', keep'⟩).1 := by
  simp only [stateMachineTurn]
  cases state with
  | requestStart => exact ⟨rfl, .some (.inr ⟨rfl, rfl, rfl, rfl, hsaved, by rintro ⟨⟩⟩)⟩
  | read =>
    cases t.header with
    | denied => exact ⟨rfl, .some (.inr ⟨rfl, rfl, rfl, rfl, hsaved, fun _ => rfl⟩)⟩
    | _ => exact ⟨rfl, .some (.inr ⟨rfl, rfl, rfl, rfl, hsaved, by rintro ⟨⟩⟩)⟩
  | requestEnd => exact ⟨rfl, .some (.inr ⟨rfl, rfl, rfl, rfl, hsaved, fun _ => rfl⟩)⟩
  | readPost =>
    obtain rfl := hkeep rfl
    cases t.content <;> exact ⟨rfl, .some (.inr ⟨rfl, rfl, rfl, rfl, hsaved, fun _ => rfl⟩)⟩
  | handleRequest =>
    obtain rfl := hkeep rfl
    simp only [handleRequestState]
    rcases httpResponsePrepare t.pass ctx req with ⟨_ | ⟨ctx', r, req'⟩, ev⟩
    · exact ⟨rfl, .none⟩
    · exact ⟨rfl, .some (alike_afterPrepare _ r ctx' req' err keep hsaved)⟩
  | responseStart =>
    obtain rfl := hkeep rfl
    cases t.prepared <;> exact ⟨rfl, .some (.inr ⟨rfl, rfl, rfl, rfl, hsaved, fun _ => rfl⟩)⟩
  | write =>
    obtain rfl := hkeep rfl
    cases t.answer <;> exact ⟨rfl, .some (.inr ⟨rfl, rfl, rfl, rfl, hsaved, fun _ => rfl⟩)⟩
  | responseEnd =>
    obtain rfl := hkeep rfl
    exact ⟨rfl, .some (.inr ⟨rfl, rfl, rfl, rfl, by rintro ⟨⟩, fun _ => rfl⟩)⟩
  | error => exact ⟨rfl, .some (.inl ⟨closed_errorState, closed_errorState⟩)⟩
  | close =>
    obtain rfl := hkeep rfl
    exact ⟨rfl, .some (.inr ⟨rfl, rfl, rfl, rfl, hsaved, fun _ => rfl⟩)⟩
  | connect =>
    obtain rfl := hkeep rfl
    exact ⟨rfl, .some (.inr ⟨rfl, rfl, rfl, rfl, hsaved, fun _ => rfl⟩)⟩

/-- **Connections that are alike stay alike**, and do the same. -/
theorem alike_connectionStep (t : Tick) (con con' : Con) (h : Alike con con') :
    (connectionStep t con).2 = (connectionStep t con').2 ∧
      Option.Rel Alike (connectionStep t con).1 (connectionStep t con').1 := by
  rcases h with ⟨hcon, hcon'⟩ | h
  · obtain ⟨hev, c, hc, hclosed⟩ := closed_connectionStep t hcon
    obtain ⟨hev', c', hc', hclosed'⟩ := closed_connectionStep t hcon'
    rw [hev, hev', hc, hc']
    exact ⟨rfl, .some (.inl ⟨hclosed, hclosed'⟩)⟩
  · obtain ⟨state, ctx, req, err, saved, keep⟩ := con
    obtain ⟨state', ctx', req', err', saved', keep'⟩ := con'
    obtain ⟨rfl, rfl, rfl, rfl, hsaved, hkeep⟩ := h
    simp only [connectionStep]
    split_ifs with hhangup
    · exact ⟨rfl, .some (.inr ⟨rfl, rfl, rfl, rfl, hsaved, by rintro ⟨⟩⟩)⟩
    · exact alike_stateMachineTurn t state ctx req err hsaved hkeep

/-- **One rewrite for each request.** On a connection that was accepted – in the place of any
other – the plugin does not ask the daemon and does not write the URI once it has
rewritten the request, until the connection is reset; and when a reset has left the
connection at the start of a request, whatever comes is handled as on a new one. -/
theorem one_rewrite (old : Con) (hooks : List HandlerT) (ts : List Tick) :
    Along OncePerRequest (connection.run ts (accept hooks old).1).2 ∧
    ∀ con, (connection.run ts (accept hooks old).1).1 = some con → con.state = .requestStart →
      ∀ (new : Con) (hooks' : List HandlerT) (ts' : List Tick),
        (connection.run ts' con).2 = (connection.run ts' (accept hooks' new).1).2 := by
  have hrun := @Machine.run_along _ _ _ connection (fun _ _ => True) OncePerRequest
    (fun h con => (rewritten h = true → Finished con.pluginCtx) ∧
      (con.state = .requestStart → Blank con))
    (fun t h con hinv _ => ?_) ts [] (accept hooks old).1
    ⟨nofun, fun _ => blank_accept hooks old⟩ (fun _ _ _ _ => trivial)
  · refine ⟨hrun.1, fun con hcon hstart new hooks' ts' => ?_⟩
    have halike : Alike con (accept hooks' new).1 :=
      alike_of_blank ((hrun.2 con hcon).2 hstart) (blank_accept hooks' new) hstart rfl
    exact (Machine.run_congr alike_connectionStep ts' con _ halike).1
  · obtain ⟨honce, hnext⟩ := once_of_turn (connectionStep_turn t con) hinv.1
    refine ⟨honce, fun con' hcon' => ⟨hnext con'.pluginCtx ?_, blank_of_connectionStep hcon'⟩⟩
    exact congrArg (Option.map Con.pluginCtx) hcon'

/-- A client that asks for a file. -/
def askingForFile : Tick :=
  .asking (ascii "/test/a") (.quiet site (naming (ascii "test/a")) zeros)

/-- After eight turns the file has been asked for, in two passes, and the connection is at
the start of the next request. -/
theorem one_rewrite_again :
    ∃ con, (connection.run (List.replicate 8 askingForFile) (accept [] .unused).1).1 = some con ∧
      .plugin (.rewrote (ascii "test/a")) ∈
        (connection.run (List.replicate 8 askingForFile) (accept [] .unused).1).2 ∧
      (connection.run (List.replicate 8 askingForFile) con).2 =
        (connection.run (List.replicate 8 askingForFile) (accept [] .unused).1).2 := by
  obtain ⟨con, hcon, hstart⟩ : ∃ con, (connection.run (List.replicate 8 askingForFile)
      (accept [] .unused).1).1 = some con ∧ con.state = .requestStart := ⟨_, rfl, rfl⟩
  exact ⟨con, hcon, by decide, (one_rewrite .unused [] _).2 con hcon hstart .unused [] _⟩

end InstantMirror
