import InstantMirror.Lighttpd.Connection

/-!
# The sockets of the plugin

The handler opens a socket to the daemon for every request that it takes there. It has
four ways out: it may end the process; it may return before there is a socket; it may
rewrite the request, and then it closes the socket; and it may find that the daemon has
refused the request, and then it returns at once.

So every refusal leaves a descriptor behind, in a process that has about a thousand of
them. `InstantMirror.socketsClosed_iff` says that nothing else does: in a server with
any number of connections, whose turns come in any order, all sockets are closed whenever
the handler returns exactly if the daemon has refused nothing.
-/

namespace InstantMirror

/-- How many sockets were opened. -/
def opened (past : List ConEvent) : ℕ := past.count (.plugin .opened)

/-- How many sockets were closed. -/
def closed (past : List ConEvent) : ℕ := past.count (.plugin .closed)

/-- **When the handler returns, all sockets are closed.** -/
def Balanced (past : List ConEvent) (e : ConEvent) : Prop :=
  ∀ r, e = .pass (.returned r) → opened past = closed past

/-- **The event is not a refusal.** -/
def NotRefused (e : ConEvent) : Prop := ∀ i, e = .plugin (.verdict i) → cstr i ≠ ascii "0"

/-! ### Counting -/

section Counting

variable {h ev : List ConEvent}

/-- The server itself opens and closes nothing. -/
theorem count_of_ofServer (hev : ∀ e ∈ ev, e.ofServer = true) (e : PluginEvent) :
    ev.count (.plugin e) = 0 := by
  refine List.count_eq_zero.mpr fun he => ?_
  cases hev _ he

/-- Before the handler returns, anything may be open. -/
theorem along_balanced_of_forall {f : List ConEvent → List ConEvent}
    (hev : ∀ e ∈ ev, ∀ r, e ≠ .pass (.returned r)) :
    Along (fun before => Balanced (f before)) ev :=
  along_of_forall fun e he _ r hr => absurd hr (hev e he r)

/-- The server itself does not return from the handler. -/
theorem balanced_of_ofServer (hev : ∀ e ∈ ev, e.ofServer = true)
    (f : List ConEvent → List ConEvent) : Along (fun before => Balanced (f before)) ev := by
  refine along_balanced_of_forall ?_
  rintro e he r rfl
  cases hev _ he

theorem notRefused_of_ofServer (hev : ∀ e ∈ ev, e.ofServer = true) : ∀ e ∈ ev, NotRefused e := by
  rintro e he i rfl
  cases hev _ he

end Counting

/-! ### One turn -/

section OneTurn

variable {ctx : Option HandlerCtx} {next : Option (Option HandlerCtx)} {h ev : List ConEvent}

/-- **A turn without a refusal closes what it opens**, before the handler returns. -/
theorem balanced_of_turn (hturn : Turn ctx next ev) (hev : ∀ e ∈ ev, NotRefused e)
    (hinv : opened h = closed h) :
    Along (fun before => Balanced (h ++ before)) ev ∧
      (next.isSome = true → opened (h ++ ev) = closed (h ++ ev)) := by
  simp only [opened, closed] at hinv
  cases hturn with
  | idle hserver =>
    refine ⟨balanced_of_ofServer hserver _, fun _ => ?_⟩
    simp [opened, closed, count_of_ofServer hserver, hinv]
  | reset hserver =>
    refine ⟨along_concat.mpr ⟨balanced_of_ofServer hserver _, nofun⟩, fun _ => ?_⟩
    simp [opened, closed, count_of_ofServer hserver, hinv]
  | silent _ r hserver =>
    refine ⟨along_cons.mpr ⟨fun _ _ => ?_, balanced_of_ofServer hserver _⟩, fun _ => ?_⟩
    · simp [opened, closed, hinv]
    · simp [opened, closed, count_of_ofServer hserver, hinv]
  | exited =>
    exact ⟨along_balanced_of_forall (by simp), nofun⟩
  | refused _ _ _ hzero =>
    exact absurd hzero (hev _ (by simp) _ rfl)
  | @rewrote _ _ _ msg i _ uri ev hserver =>
    refine ⟨along_append.mpr ⟨(@along_concat _ _ [.plugin .opened, .plugin (.sent msg),
      .plugin (.verdict i), .plugin (.rewrote uri), .plugin .closed] _).mpr
      ⟨along_balanced_of_forall (by simp), fun _ _ => ?_⟩, balanced_of_ofServer hserver _⟩,
      fun _ => ?_⟩
    · simp [opened, closed, hinv]
    · simp [opened, closed, count_of_ofServer hserver, hinv]

/-- **A turn after which the sockets are closed was not a refusal.** -/
theorem notRefused_of_turn (hturn : Turn ctx next ev) (hinv : closed h ≤ opened h)
    (hbalanced : Along (fun before => Balanced (h ++ before)) ev) :
    (∀ e ∈ ev, NotRefused e) ∧ (next.isSome = true → closed (h ++ ev) ≤ opened (h ++ ev)) := by
  simp only [opened, closed] at hinv
  cases hturn with
  | idle hserver =>
    refine ⟨notRefused_of_ofServer hserver, fun _ => ?_⟩
    simpa [opened, closed, count_of_ofServer hserver] using hinv
  | reset hserver =>
    refine ⟨List.forall_mem_append.mpr ⟨notRefused_of_ofServer hserver, ?_⟩, fun _ => ?_⟩
    · simp [NotRefused]
    · simpa [opened, closed, count_of_ofServer hserver] using hinv
  | silent _ r hserver =>
    refine ⟨List.forall_mem_cons.mpr ⟨nofun, notRefused_of_ofServer hserver⟩, fun _ => ?_⟩
    simpa [opened, closed, count_of_ofServer hserver] using hinv
  | exited _ _ hverdict =>
    refine ⟨fun e he i hi => hverdict i ?_, nofun⟩
    simpa [hi] using he
  | @refused _ _ _ msg i _ ev hserver =>
    have hreturn := hbalanced [.plugin .opened, .plugin (.sent msg), .plugin (.verdict i)]
      (.pass (.returned .goOn)) ev rfl .goOn rfl
    have : h.count (.plugin .opened) + 1 = h.count (.plugin .closed) := by
      simpa [opened, closed] using hreturn
    omega
  | rewrote _ _ msg hone uri hserver =>
    refine ⟨List.forall_mem_append.mpr ⟨?_, notRefused_of_ofServer hserver⟩, fun _ => ?_⟩
    · simpa [NotRefused] using hone
    · simpa [opened, closed, count_of_ofServer hserver] using hinv

end OneTurn

/-! ### The server -/

/-- A step of the server is a turn of one of its connections, with the plugin's context of
that connection; if the process goes on, so does the turn. -/
theorem serverStep_turn (i : ServerInput) (conns : ℕ → Con) :
    ∃ ctx next, Turn ctx next (serverStep i conns).2 ∧
      ((serverStep i conns).1.isSome = true → next.isSome = true) := by
  cases i with
  | accept n hooks =>
    rw [serverStep]
    split_ifs
    · exact ⟨none, _, turn_connectionReset none hooks (conns n), fun _ => rfl⟩
    · exact ⟨none, _, .idle ofServer_nil, fun _ => rfl⟩
  | turn n t =>
    exact ⟨_, _, connectionStep_turn t (conns n), by simp [serverStep]⟩

/-- **All sockets are closed whenever the handler returns, and at the end of a run, exactly if
the daemon has refused nothing.** -/
theorem socketsClosed_iff (conns : ℕ → Con) (is : List ServerInput) :
    (Along Balanced (server.run is conns).2 ∧ ((server.run is conns).1.isSome = true →
        opened (server.run is conns).2 = closed (server.run is conns).2)) ↔
      ∀ i, .plugin (.verdict i) ∈ (server.run is conns).2 → cstr i ≠ ascii "0" := by
  constructor
  · rintro ⟨hbalanced, -⟩ i hi
    have hrun := @Machine.run_along _ _ _ server Balanced (fun _ => NotRefused)
      (fun h _ => closed h ≤ opened h) (fun j h conns hinv hcond => ?_) is [] conns le_rfl hbalanced
    · exact along_const.mp hrun.1 _ hi i rfl
    · obtain ⟨ctx, next, hturn, hnext⟩ := serverStep_turn j conns
      obtain ⟨hno, hle⟩ := notRefused_of_turn hturn hinv hcond
      exact ⟨along_const.mpr hno, fun _ hs => hle (hnext (Option.isSome_of_eq_some hs))⟩
  · intro hno
    have hrun := @Machine.run_along _ _ _ server (fun _ => NotRefused) Balanced
      (fun h _ => opened h = closed h) (fun j h conns hinv hcond => ?_) is [] conns rfl
      (along_const.mpr fun e he i hi => hno i (hi ▸ he))
    · refine ⟨hrun.1, fun hsome => ?_⟩
      obtain ⟨conns', hconns'⟩ := Option.isSome_iff_exists.mp hsome
      exact hrun.2 conns' hconns'
    · obtain ⟨ctx, next, hturn, hnext⟩ := serverStep_turn j conns
      obtain ⟨hbalanced, heq⟩ := balanced_of_turn hturn (along_const.mp hcond) hinv
      exact ⟨hbalanced, fun _ hs => heq (hnext (Option.isSome_of_eq_some hs))⟩

/-- A client that asks for something the daemon refuses. -/
def askingInVain : Tick :=
  .asking (ascii "/none") (.quiet site (.delivering (ascii "0" ++ [0]) []) zeros)

/-- **A socket that is left open**: the daemon refuses one request, and the handler returns. -/
theorem socket_left_open :
    ¬ Along Balanced (server.run (.accept 0 [] :: List.replicate 4 (.turn 0 askingInVain))
      fun _ => .unused).2 := by
  intro hall
  have hev : (server.run (.accept 0 [] :: List.replicate 4 (.turn 0 askingInVain))
      fun _ => .unused).2 = [.reset, .plugin .opened, .plugin (.sent (ascii "/none" ++ [0])),
        .plugin (.verdict (ascii "0" ++ [0]))] ++ .pass (.returned .goOn) :: [_] := rfl
  exact absurd (hall _ _ _ hev _ rfl) (by decide)

end InstantMirror
