import InstantMirror.Lighttpd.Response
import InstantMirror.Request

/-!
# The second pass

The path that the daemon has named is the name of a file. The plugin stores it as the
*URI* of the request and asks the server to come back; and so, in its second pass, the
server does to it what it does to every URI: it cuts it at the first `#` and the first
`?`, decodes its escapes, simplifies it, and puts the document root in front.

`InstantMirror.secondPass_iff` says of which paths that makes the file the daemon has
named. Each of the steps makes a path shorter if it does anything to it at all, except
that a configuration may ask for lower case; so the path survives exactly if no step
finds anything to do. `InstantMirror.secondPass_elsewhere` is a file whose name has a
`#` in it, which the daemon finds and the server then does not.
-/

namespace InstantMirror

/-- The file that a pass has come to. -/
def namedFile (x : Option (Option HandlerCtx × HandlerT × HttpRequest) × List PassEvent) :
    Option Bytes :=
  x.1.bind fun a => a.2.2.physicalPath

/-- The path below the document root that the server makes of a URI. -/
def relativePath (conf : Conf) (pathRaw : Bytes) : Bytes :=
  let path := bufferPathSimplify (bufferUrldecodePath pathRaw)
  withoutSlash (if conf.forceLowercaseFilenames then bufferToLower path else path)

/-! ### The two passes -/

section Passes

variable {conf : Conf} {x : Exchange} {mem : Frame} {req₀ req : HttpRequest}

/-- A handler that has rewritten the request goes on. -/
theorem handleUriClean_finished :
    handleUriClean (.quiet conf x mem) (some ⟨.finished, 0⟩) req =
      (some (some ⟨.finished, 1⟩, .goOn, req), [.returned .goOn]) := rfl

theorem locate_quiet :
    locate (.quiet conf x mem) (.goOn, req) =
      (answerOptions req).map fun req => joinPath conf (defaultRoot conf req) := by
  simp only [locate, goOnAfter, Pass.quiet, pluginsCall, bind, Except.bind]
  cases answerOptions req <;> rfl

/-- The file is found, its name stays, and nobody takes it. -/
theorem serveFile_quiet :
    (serveFile (.quiet conf x mem) req).1 = .finished ∧
      (serveFile (.quiet conf x mem) req).2.physicalPath = req.physicalPath := by
  by_cases hmode : req.mode = .direct
  · have hfind : findFile (.quiet conf x mem) req = .ok req := rfl
    have hstart : startSubrequest (.quiet conf x mem) req =
        if req.mode = .direct ∧ req.httpStatus = 0 then
          .error (.finished, { req with httpStatus := if req.options then 200 else 403 })
        else .ok req := rfl
    simp only [serveFile, if_pos hmode, hfind, bind, Except.bind, hstart]
    by_cases hstatus : req.mode = .direct ∧ req.httpStatus = 0
    · rw [if_pos hstatus]
      exact ⟨rfl, rfl⟩
    · rw [if_neg hstatus]
      exact ⟨rfl, rfl⟩
  · simp only [serveFile, if_neg hmode]
    exact ⟨rfl, rfl⟩

theorem serveFile_ne_comeback (h : serveFile (.quiet conf x mem) req₀ = (.comeback, req)) :
    False := by
  have hend := (@serveFile_quiet conf x mem req₀).1
  rw [h] at hend
  cases hend

/-- The part of the URI that is decoded has no NUL. -/
theorem zero_notMem_pathRaw (req : HttpRequest) : (0 : UInt8) ∉ (splitUri req).pathRaw :=
  fun h => zero_notMem_cstr req.requestUri
    ((List.takeWhile_prefix _).subset ((List.takeWhile_prefix _).subset h))

theorem uriPath_cleanUri (req : HttpRequest) :
    (cleanUri (splitUri req)).uriPath =
      if req.options = true ∧ (splitUri req).pathRaw = ascii "*" then ascii "*"
      else bufferPathSimplify (bufferUrldecodePath (splitUri req).pathRaw) := by
  change (if req.options = true ∧ cstr (splitUri req).pathRaw = ascii "*" then _ else _) = _
  rw [cstr_of_notMem (zero_notMem_pathRaw req)]
  split_ifs with hstar
  · exact hstar.2
  · rfl

/-- Only `OPTIONS *` is answered without a file. -/
theorem answerOptions_cleanUri (req : HttpRequest) :
    answerOptions (cleanUri (splitUri req)) =
      if req.options = true ∧ (splitUri req).pathRaw = ascii "*" then
        .error (.finished, { cleanUri (splitUri req) with httpStatus := 200 })
      else .ok (cleanUri (splitUri req)) := by
  have hpath := uriPath_cleanUri req
  by_cases hstar : req.options = true ∧ (splitUri req).pathRaw = ascii "*"
  · rw [if_pos hstar] at hpath ⊢
    have hend : (splitUri req).pathRaw.getD 1 0 = 0 := by rw [hstar.2]; rfl
    exact if_pos ⟨hstar.1, by rw [hpath]; rfl, hend⟩
  · rw [if_neg hstar] at hpath ⊢
    -- a simplified path begins with a slash
    obtain ⟨t, ht, -⟩ := bufferPathSimplify_eq_cons (bufferUrldecodePath (splitUri req).pathRaw)
    refine if_neg fun h => ?_
    have hhead := h.2.1
    rw [hpath, ht, List.head?_cons, Option.some_inj] at hhead
    exact absurd hhead (by decide)

/-- The slot of the plugin in a first pass. -/
theorem handleUriClean_first :
    (∃ ev, handleUriClean (.quiet conf x mem) none req = (none, ev)) ∨
    (∃ ev, handleUriClean (.quiet conf x mem) none req = (some (none, .goOn, req), ev)) ∨
    ∃ uri ev, handleUriClean (.quiet conf x mem) none req =
      (some (some ⟨.finished, 0⟩, .comeback, { req with requestUri := uri }), ev) := by
  have hcall : callInstantmirror (.quiet conf x mem) none req =
      ((askDaemon x mem ⟨none, req.uriPath, req.requestUri⟩).1.map fun a =>
        (a.1, a.2.pluginCtx, { req with uriPath := a.2.uriPath, requestUri := a.2.requestUri }),
      (askDaemon x mem ⟨none, req.uriPath, req.requestUri⟩).2) := rfl
  simp only [handleUriClean, Pass.quiet, pluginsCall]
  simp only [Pass.quiet] at hcall
  rw [hcall]
  rcases askDaemon_cases x mem ⟨none, req.uriPath, req.requestUri⟩ with
    ⟨ev, h, -, -⟩ | ⟨i, -, h⟩ | ⟨i, uri, -, h⟩ <;> rw [h]
  · exact .inl ⟨_, rfl⟩
  · exact .inr (.inl ⟨_, rfl⟩)
  · exact .inr (.inr ⟨uri, _, rfl⟩)

/-- **What a first pass leaves that asks to come back.** -/
theorem quiet_comeback {ctx : Option HandlerCtx} {ev : List PassEvent}
    (h : httpResponsePrepare (.quiet conf x mem) none req₀ = (some (ctx, .comeback, req), ev)) :
    ctx = some ⟨.finished, 0⟩ ∧ req.mode = .direct ∧ req.physicalPath = none ∧
      (req.httpStatus = 0 ∨ req.httpStatus = 200) ∧ req.options = req₀.options := by
  rw [httpResponsePrepare] at h
  split_ifs at h with hdone hbuild
  · simp at h
  · have hraw : goOnAfter (pluginsCall (Pass.quiet conf x mem).uriRaw (splitUri req₀)) =
        .ok (splitUri req₀) := rfl
    rw [hraw] at h
    dsimp only at h
    rcases @handleUriClean_first conf x mem (cleanUri (splitUri req₀)) with
      ⟨ev', hclean⟩ | ⟨ev', hclean⟩ | ⟨uri, ev', hclean⟩ <;> rw [hclean] at h
    · simp [finishPass] at h
    · simp only [finishPass, Option.map_some, locate_quiet, answerOptions_cleanUri,
        Prod.mk.injEq, Option.some.injEq] at h
      obtain ⟨⟨-, hend⟩, -⟩ := h
      split_ifs at hend
      · simp [Except.map] at hend
      · exact (serveFile_ne_comeback hend).elim
    · obtain ⟨⟨rfl, -, rfl⟩, -⟩ : (some ⟨.finished, 0⟩ = ctx ∧ HandlerT.comeback = .comeback ∧
          { cleanUri (splitUri req₀) with requestUri := uri } = req) ∧ ev' = ev := by
        simpa [finishPass, locate, goOnAfter, bind, Except.bind] using h
      have hstatus : req₀.httpStatus = 0 ∨ req₀.httpStatus = 200 := by tauto
      exact ⟨rfl, hbuild.1, hbuild.2, hstatus, rfl⟩
  · simp only [Prod.mk.injEq, Option.some.injEq] at h
    exact (serveFile_ne_comeback h.1.2).elim

/-- **What the next pass makes of it.** -/
theorem namedFile_quiet (hmode : req.mode = .direct) (hpath : req.physicalPath = none)
    (hstatus : req.httpStatus = 0 ∨ req.httpStatus = 200) :
    namedFile (httpResponsePrepare (.quiet conf x mem) (some ⟨.finished, 0⟩) req) =
      if req.options = true ∧ (splitUri req).pathRaw = ascii "*" then none
      else some (appendSlash conf.documentRoot ++ relativePath conf (splitUri req).pathRaw) := by
  have hgo : ¬(req.mode = .direct ∧ req.httpStatus ≠ 0 ∧ req.httpStatus ≠ 200) := by tauto
  have hraw : goOnAfter (pluginsCall (Pass.quiet conf x mem).uriRaw (splitUri req)) =
      .ok (splitUri req) := rfl
  rw [httpResponsePrepare, if_neg hgo, if_pos ⟨hmode, hpath⟩, hraw]
  simp only [handleUriClean_finished, finishPass, locate_quiet, namedFile, Option.map_some,
    Option.bind_some, answerOptions_cleanUri]
  split_ifs with hstar
  · exact hpath
  · refine serveFile_quiet.2.trans ?_
    simp only [joinPath, defaultRoot, relativePath, uriPath_cleanUri, if_neg hstar]

end Passes

/-! ### The paths that survive -/

/-- **A path to which the server does nothing.** -/
structure Plain (conf : Conf) (options : Bool) (p : Bytes) : Prop where
  /-- It has no fragment. -/
  noFragment : 35 ∉ p
  /-- It has no query string. -/
  noQuery : 63 ∉ p
  /-- It has no escape. -/
  noEscape : NoEscape p
  /-- It does not begin with a blank. -/
  noBlank : p.head? ≠ some 32
  /-- It is not `*` where that has a meaning of its own. -/
  notStar : options = true → p ≠ ascii "*"
  /-- It has no capital letter where these are not wanted. -/
  noCapital : conf.forceLowercaseFilenames = true → ∀ c ∈ p, ¬(65 ≤ c ∧ c ≤ 90)

/-! ### Nothing is done to a path that survives -/

/-- A URI that is cut nowhere. -/
theorem pathRaw_eq_self_iff {p : Bytes} (hp : (0 : UInt8) ∉ p) {req : HttpRequest}
    (huri : req.requestUri = p) : (splitUri req).pathRaw = p ↔ 35 ∉ p ∧ 63 ∉ p := by
  have hraw : (splitUri req).pathRaw = (p.takeWhile (· ≠ 35)).takeWhile (· ≠ 63) := by
    rw [splitUri, huri, cstr_of_notMem hp]
  rw [hraw, ← takeWhile_ne_eq_self_iff, ← takeWhile_ne_eq_self_iff]
  constructor
  · intro h
    have hfragment : p.takeWhile (· ≠ 35) = p :=
      (List.takeWhile_prefix _).eq_of_length_le (by
        conv_lhs => rw [← h]
        exact (List.takeWhile_prefix _).length_le)
    rw [hfragment] at h
    exact ⟨hfragment, h⟩
  · rintro ⟨hfragment, hquery⟩
    rw [hfragment, hquery]

/-- The part of a URI that is decoded is a part of it. -/
theorem pathRaw_isPrefix {p : Bytes} (hp : (0 : UInt8) ∉ p) {req : HttpRequest}
    (huri : req.requestUri = p) : (splitUri req).pathRaw <+: p := by
  rw [splitUri, huri, cstr_of_notMem hp]
  exact (List.takeWhile_prefix _).trans (List.takeWhile_prefix _)

/-- The bit that tells a capital letter from a small one. -/
theorem or_thirtytwo_ne {c : UInt8} (h : 65 ≤ c ∧ c ≤ 90) : c ||| 32 ≠ c := by
  have hall : ∀ n < 91, 65 ≤ n → n ||| 32 ≠ n := by decide
  intro heq
  refine hall c.toNat (by have : c.toNat ≤ 90 := h.2; omega) h.1 ?_
  exact congrArg UInt8.toNat heq

theorem length_bufferToLower (s : Bytes) : (bufferToLower s).length = s.length := by
  have := (List.takeWhile_prefix (l := s) (· ≠ 0)).length_le
  simp only [bufferToLower, List.length_append, List.length_map, List.length_drop]
  rw [cstr]
  omega

theorem bufferToLower_eq_self_iff {s : Bytes} (hs : (0 : UInt8) ∉ s) :
    bufferToLower s = s ↔ ∀ c ∈ s, ¬(65 ≤ c ∧ c ≤ 90) := by
  rw [bufferToLower, cstr_of_notMem hs, List.drop_length, List.append_nil]
  nth_rewrite 2 [← List.map_id s]
  rw [List.map_inj_left]
  refine forall₂_congr fun c _ => ?_
  split_ifs with hc
  · exact iff_of_false (or_thirtytwo_ne hc) (not_not.mpr hc)
  · exact iff_of_true rfl hc

/-- The path below the document root, when the simplified path is known. -/
theorem relativePath_of_simplify {conf : Conf} {raw t : Bytes}
    (h : bufferPathSimplify (bufferUrldecodePath raw) = slash :: t) :
    relativePath conf raw = if conf.forceLowercaseFilenames then bufferToLower t else t := by
  rw [relativePath, h]
  cases conf.forceLowercaseFilenames <;> rfl

theorem length_relativePath {conf : Conf} {raw t : Bytes}
    (h : bufferPathSimplify (bufferUrldecodePath raw) = slash :: t) :
    (relativePath conf raw).length = t.length := by
  rw [relativePath_of_simplify h]
  split_ifs
  · exact length_bufferToLower t
  · rfl

/-- A path that keeps its length was decoded to itself, and does not begin with a blank. -/
theorem noEscape_of_length_le {p : CleanPath}
    (h : p.bytes.length ≤
      ((cstr (bufferUrldecodePath p.bytes)).dropWhile (· = 32)).length) :
    NoEscape p.bytes ∧ p.bytes.head? ≠ some 32 := by
  have hescape : NoEscape p.bytes := by
    have hle := h.trans (length_walk_le (bufferUrldecodePath p.bytes))
    rw [bufferUrldecodePath, cstr_of_notMem p.zero_notMem] at hle
    exact noEscape_of_length_urldecodeLoop (le_antisymm (length_urldecodeLoop_le _) hle)
  rw [(bufferUrldecodePath_eq_self_iff p.zero_notMem).mpr hescape,
    cstr_of_notMem p.zero_notMem] at h
  refine ⟨hescape, fun hhead => ?_⟩
  obtain ⟨rest, hrest⟩ := List.head?_eq_some_iff.mp hhead
  rw [hrest, List.dropWhile_cons_of_pos (by decide)] at h
  have := (List.dropWhile_suffix (l := rest) (· = 32)).length_le
  simp only [List.length_cons] at h
  omega

/-- **The path below the document root is the URI exactly if every step leaves it alone.** The
steps before the last do not make a path longer, and the last one keeps its length, so
the first step that does something to it is not made good. -/
theorem relativePath_eq_iff (conf : Conf) (p : CleanPath) {raw : Bytes} (hraw : raw <+: p.bytes) :
    relativePath conf raw = p.bytes ↔ raw = p.bytes ∧ NoEscape p.bytes ∧
      p.bytes.head? ≠ some 32 ∧
      (conf.forceLowercaseFilenames = true → ∀ c ∈ p.bytes, ¬(65 ≤ c ∧ c ≤ 90)) := by
  have hwhole : raw = p.bytes → NoEscape p.bytes → p.bytes.head? ≠ some 32 →
      bufferPathSimplify (bufferUrldecodePath raw) = slash :: p.bytes := by
    rintro rfl hescape hblank
    rw [(bufferUrldecodePath_eq_self_iff p.zero_notMem).mpr hescape,
      bufferPathSimplify_of_clean p hblank]
  constructor
  · intro h
    obtain ⟨t, ht, hlen⟩ := bufferPathSimplify_eq_cons (bufferUrldecodePath raw)
    have hlength := @length_relativePath conf _ _ ht
    rw [h] at hlength
    rcases hlen with rfl | hlen
    · -- the NUL is not a path
      rw [relativePath_of_simplify ht] at h
      have : p.bytes = [0] := by rw [← h]; split_ifs <;> rfl
      exact absurd (this ▸ List.mem_singleton_self 0) p.zero_notMem
    · obtain rfl : raw = p.bytes := by
        refine hraw.eq_of_length_le ?_
        calc p.bytes.length = t.length := hlength
          _ ≤ _ := hlen
          _ ≤ (bufferUrldecodePath raw).length := length_walk_le _
          _ ≤ raw.length := length_bufferUrldecodePath_le raw
      obtain ⟨hescape, hblank⟩ := noEscape_of_length_le (p := p) (by omega)
      refine ⟨rfl, hescape, hblank, fun hlower => ?_⟩
      rwa [relativePath_of_simplify (hwhole rfl hescape hblank), if_pos hlower,
        bufferToLower_eq_self_iff p.zero_notMem] at h
  · rintro ⟨hall, hescape, hblank, hlower⟩
    rw [relativePath_of_simplify (hwhole hall hescape hblank)]
    split_ifs with hforce
    · exact (bufferToLower_eq_self_iff p.zero_notMem).mpr (hlower hforce)
    · rfl

/-- **The second pass comes to the file that the daemon has named exactly if nothing is done to
its path**: `p` is the path that the plugin has stored when a first pass has asked to
come back. -/
theorem secondPass_iff {conf conf' : Conf} {x x' : Exchange} {mem mem' : Frame}
    {req₀ req : HttpRequest} {ctx : Option HandlerCtx} {ev : List PassEvent} (p : CleanPath)
    (hfirst : httpResponsePrepare (.quiet conf x mem) none req₀ = (some (ctx, .comeback, req), ev))
    (huri : req.requestUri = p.bytes) :
    namedFile (httpResponsePrepare (.quiet conf' x' mem') ctx req) =
      some (appendSlash conf'.documentRoot ++ p.bytes) ↔ Plain conf' req₀.options p.bytes := by
  obtain ⟨rfl, hmode, hpath, hstatus, hoptions⟩ := quiet_comeback hfirst
  have hcut := pathRaw_eq_self_iff p.zero_notMem huri
  rw [namedFile_quiet hmode hpath hstatus, hoptions]
  split_ifs with hstar
  · refine iff_of_false nofun fun hplain => ?_
    rw [hcut.mpr ⟨hplain.noFragment, hplain.noQuery⟩] at hstar
    exact hplain.notStar hstar.1 hstar.2
  · rw [Option.some_inj, List.append_cancel_left_eq,
      relativePath_eq_iff conf' p (pathRaw_isPrefix p.zero_notMem huri)]
    constructor
    · rintro ⟨hraw, hescape, hblank, hlower⟩
      obtain ⟨hfragment, hquery⟩ := hcut.mp hraw
      exact ⟨hfragment, hquery, hescape, hblank,
        fun hopt hp => hstar ⟨hopt, hraw.trans hp⟩, hlower⟩
    · intro hplain
      exact ⟨hcut.mpr ⟨hplain.noFragment, hplain.noQuery⟩, hplain.noEscape, hplain.noBlank,
        hplain.noCapital⟩

/-- A request for a URI. -/
def HttpRequest.get (uri : Bytes) : HttpRequest := { HttpRequest.blank with requestUri := uri }

/-- A file with a plain name is found. -/
theorem secondPass_iff_plain :
    ∃ ctx req ev, httpResponsePrepare (.quiet site (naming (ascii "test/a")) zeros) none
        (.get (ascii "/test/a")) = (some (ctx, .comeback, req), ev) ∧
      namedFile (httpResponsePrepare (.quiet site (naming []) zeros) ctx req) =
        some (ascii "/srv/test/a") := by
  obtain ⟨ctx, req, ev, hfirst, huri⟩ : ∃ ctx req ev,
      httpResponsePrepare (.quiet site (naming (ascii "test/a")) zeros) none
        (.get (ascii "/test/a")) = (some (ctx, .comeback, req), ev) ∧
      req.requestUri = ascii "test/a" := ⟨_, _, _, rfl, rfl⟩
  refine ⟨ctx, req, ev, hfirst,
    (secondPass_iff ⟨ascii "test/a", by decide, by decide⟩ hfirst huri).mpr
      ⟨by decide, by decide, ?_, by decide, nofun, nofun⟩⟩
  exact noEscape_of_length_urldecodeLoop (by decide)

/-- A torrent with a file whose name has a `#` in it. -/
def hashTorrent : Env :=
  .finishing (.ofList [(ascii "test", .listing 5 [.plain (ascii "test/a#b") 1])])

/-- **A second pass that comes to another file.** The client asks for `a#b`, with the `#`
escaped as it has to be; the daemon finds the file and names it; and the server cuts
the name at the `#`. -/
theorem secondPass_elsewhere :
    (handleRequest hashTorrent 2 (ascii "/test/a#b" ++ [0]) .new .bare).result =
        .ok (ascii "test/a#b") ∧
      ∃ ctx req ev, httpResponsePrepare (.quiet site (naming (ascii "test/a#b")) zeros) none
          (.get (ascii "/test/a%23b")) = (some (ctx, .comeback, req), ev) ∧
        .plugin (.sent (ascii "/test/a#b" ++ [0])) ∈ ev ∧ req.requestUri = ascii "test/a#b" ∧
        namedFile (httpResponsePrepare (.quiet site (naming []) zeros) ctx req) =
          some (ascii "/srv/test/a") :=
  ⟨rfl, _, _, _, rfl, by decide, by decide, by decide⟩

end InstantMirror
