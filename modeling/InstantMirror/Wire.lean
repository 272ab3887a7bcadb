import InstantMirror.Lighttpd.Plugin
import InstantMirror.Main

/-!
# The exchange between plugin and daemon

The two sides talk over a stream socket. The request, the verdict and the path are sent
as C strings, one after the other; each side reads each of them with a single `recv`, of
as many bytes as its buffer has, and takes what has arrived for the message. Nothing in
the stream says where a message ends except its NUL, and nobody looks for it before the
buffer is read as a string.

Two questions are answered here.

* *Is the exchange faithful?* For a path and a way of cutting the streams
  (`InstantMirror.Segments`), `InstantMirror.Faithful` says that in every world the daemon
  works on the path the plugin has sent and the plugin stores the path the daemon has
  returned. `InstantMirror.faithful_iff` is the exact condition: each message arrives
  whole, with its NUL, and fits.
* *Does a broken reply do harm?* `InstantMirror.SafeAt` says that a reply that breaks off
  after a number of bytes is either taken in full or not at all, whatever the memory of
  the plugin holds. `InstantMirror.safeAt_iff` is the exact condition: it does not break
  off.
-/

namespace InstantMirror

/-! ### What the daemon sends -/

/-- What a daemon answers that does not stop. -/
inductive Answer where
  /-- The verdict `"0"`. -/
  | refused : Answer
  /-- The verdict `"1"`, and a path. -/
  | path (reply : Bytes) : Answer
deriving DecidableEq

/-- The bytes of an answer. -/
def Answer.stream : Answer → Bytes
  | .refused => rejected
  | .path reply => accepted ++ (cstr reply ++ [0])

/-- **A daemon that goes on has sent an answer.** -/
theorem serve_stream {sent beyond : Bytes} {env : Env} {fuel : ℕ} {s s' : Server}
    (h : (serve ⟨sent, .never, env, beyond, fuel⟩ s).next = .ok s') :
    ∃ answer : Answer,
      (serve ⟨sent, .never, env, beyond, fuel⟩ s).replies.flatten = answer.stream := by
  simp only [serve, reduceCtorEq, if_false] at h ⊢
  split
  · rename_i hone
    rw [if_pos hone] at h
    split
    · rename_i hres
      simp [hres] at h
    · rename_i reply hres
      exact ⟨.path reply, by simp [Answer.stream]⟩
  · exact ⟨.refused, by simp [Answer.stream]⟩

/-- The memory of the plugin when its verdict is preset and all else is one byte. -/
def Frame.filled (i₀ i₁ c : UInt8) : Frame :=
  ⟨[i₀, i₁], rfl, List.replicate 100 c, by simp, List.replicate 1 c⟩

/-- A verdict that has been received in full does not depend on the memory. -/
theorem overwrite_i (mem : Frame) (c d : UInt8) : overwrite mem.i [c, d] = [c, d] := by
  simp [overwrite, mem.length_i]

/-! ### A reply that breaks off -/

/-- The exchange in which these bytes have arrived when the plugin reads, and no others
will. -/
def Exchange.arriving (stream : Bytes) : Exchange :=
  .delivering (received 2 stream) (received 100 (stream.drop 2))

/-- **A reply that breaks off after `n` bytes does no harm**: what the handler does does not
depend on memory it was not sent, and the URI of the request is left as it was or becomes
the path the daemon has returned. -/
def SafeAt (answer : Answer) (n : ℕ) : Prop :=
  ∀ con : PluginCon, con.pluginCtx = none →
    (∀ mem mem', (modInstantmirrorUriHandler (.arriving (answer.stream.take n)) mem con).1 =
      (modInstantmirrorUriHandler (.arriving (answer.stream.take n)) mem' con).1) ∧
    ∀ mem h con', (modInstantmirrorUriHandler (.arriving (answer.stream.take n)) mem con).1 =
        some (h, con') →
      con'.requestUri = con.requestUri ∨
        ∃ reply, answer = .path reply ∧ con'.requestUri = cstr reply

/-- The path of the answer fits into the buffer of the plugin. -/
def Answer.Fits : Answer → Prop
  | .refused => True
  | .path reply => (cstr reply).length + 1 ≤ 100

/-- The handler on a connection it has not rewritten. -/
theorem handler_of_none {con : PluginCon} (h : con.pluginCtx = none) (x : Exchange)
    (mem : Frame) : modInstantmirrorUriHandler x mem con = askDaemon x mem con := by
  rw [modInstantmirrorUriHandler, h]

/-- A connection that has not been rewritten. -/
def PluginCon.fresh (requestUri : Bytes) : PluginCon := ⟨none, [], requestUri⟩

/-- A verdict that starts with `1` is not taken for `"0"`. -/
theorem cstr_one_ne (rest : Bytes) : cstr (49 :: rest) ≠ ascii "0" := by
  intro h
  cases (List.cons.inj h).1

/-- **What is missing of a path is taken from memory.** -/
theorem uri_of_cut {q : Bytes} (hq : (0 : UInt8) ∉ q) (hlen : q.length ≤ 100) (i₀ i₁ : UInt8) :
    cstr (overwrite (Frame.filled i₀ i₁ 0).path q ++ (Frame.filled i₀ i₁ 0).beyond) ≠
      cstr (overwrite (Frame.filled i₀ i₁ 120).path q ++ (Frame.filled i₀ i₁ 120).beyond) :=
  cstr_overwrite_ne hq hlen (by omega) (by decide)

/-- The path that a stored URI is read from, when the verdict is not `"0"`. -/
theorem requestUri_of_ne_zero {i path : Bytes} {mem mem' : Frame} {con : PluginCon}
    (h : cstr (overwrite mem.i i) ≠ ascii "0") (h' : cstr (overwrite mem'.i i) ≠ ascii "0")
    (heq : (askDaemon (.delivering i path) mem con).1 =
      (askDaemon (.delivering i path) mem' con).1) :
    cstr (overwrite mem.path path ++ mem.beyond) =
      cstr (overwrite mem'.path path ++ mem'.beyond) := by
  rw [askDaemon_of_ne_zero h, askDaemon_of_ne_zero h'] at heq
  exact congrArg PluginCon.requestUri (Prod.mk.inj (Option.some.inj heq)).2

/-- **A decision that is taken from memory.** -/
theorem not_decided {i path : Bytes} {mem mem' : Frame} {con : PluginCon}
    (h : cstr (overwrite mem.i i) = ascii "0") (h' : cstr (overwrite mem'.i i) ≠ ascii "0") :
    (askDaemon (.delivering i path) mem con).1 ≠ (askDaemon (.delivering i path) mem' con).1 := by
  rw [askDaemon_of_zero h, askDaemon_of_ne_zero h']
  intro heq
  cases (Prod.mk.inj (Option.some.inj heq)).1

/-- The path of an answer that has arrived in part. -/
theorem drop_two_stream (reply : Bytes) (n : ℕ) :
    ((Answer.path reply).stream.take n).drop 2 = (cstr reply ++ [0]).take (n - 2) := by
  rw [List.drop_take]
  rfl

theorem not_safeAt {answer : Answer} {n : ℕ}
    (h : ¬ (answer.stream.length ≤ n ∧ answer.Fits)) : ¬ SafeAt answer n := by
  intro hsafe
  obtain ⟨hmem, -⟩ := hsafe (.fresh []) rfl
  simp only [@handler_of_none (PluginCon.fresh []) rfl, Exchange.arriving] at hmem
  cases answer with
  | refused =>
    -- the verdict is not complete, so its second byte decides, and that was not sent
    have hn : n < 2 := by simpa [Answer.stream, rejected, Answer.Fits] using h
    refine not_decided ?_ ?_ (hmem (.filled 48 0 0) (.filled 48 1 0)) <;>
      rcases n with _ | _ | n
    · rfl
    · rfl
    · omega
    · decide
    · decide
    · omega
  | path reply =>
    rcases n with _ | n
    · refine not_decided ?_ ?_ (hmem (.filled 48 0 0) (.filled 49 0 0))
      · rfl
      · exact cstr_one_ne _
    · -- the verdict starts with `1`, so the path is read, and it is cut
      rw [drop_two_stream] at hmem
      have hcut : ¬ (cstr reply).length + 1 ≤ min 100 (n + 1 - 2) := by
        intro hle
        refine h ⟨?_, ?_⟩
        · simp only [Answer.stream, accepted, List.length_append, List.length_cons,
            List.length_nil]
          omega
        · simp only [Answer.Fits]
          omega
      rw [received_message_cut hcut] at hmem
      have hnul : (0 : UInt8) ∉ (cstr reply).take (min 100 (n + 1 - 2)) :=
        fun hmem => zero_notMem_cstr _ (List.mem_of_mem_take hmem)
      have hlen : ((cstr reply).take (min 100 (n + 1 - 2))).length ≤ 100 := by
        rw [List.length_take]
        omega
      refine uri_of_cut hnul hlen 49 0
        (requestUri_of_ne_zero ?_ ?_ (hmem (.filled 49 0 0) (.filled 49 0 120)))
      · exact cstr_one_ne _
      · exact cstr_one_ne _

/-- A verdict `"0"` that has arrived in full. -/
theorem askDaemon_of_rejected (path : Bytes) (mem : Frame) (con : PluginCon) :
    (askDaemon (.delivering rejected path) mem con).1 = some (.goOn, con) :=
  askDaemon_of_zero (by rw [rejected, overwrite_i]; rfl)

/-- A verdict `"1"` and a path that have arrived in full. -/
theorem askDaemon_of_accepted (reply : Bytes) (mem : Frame) (con : PluginCon) :
    (askDaemon (.delivering accepted (cstr reply ++ [0])) mem con).1 =
      some (.comeback, { con with
        requestUri := cstr reply
        pluginCtx := some (finishCtx con.pluginCtx) }) := by
  have hne : cstr (overwrite mem.i accepted) ≠ ascii "0" := by
    rw [accepted, overwrite_i]
    exact cstr_one_ne _
  rw [askDaemon_of_ne_zero hne, cstr_overwrite_of_mem _ _ (by simp),
    cstr_append_zero (zero_notMem_cstr _)]

/-- **A reply does no harm exactly if it does not break off and fits.** -/
theorem safeAt_iff (answer : Answer) (n : ℕ) :
    SafeAt answer n ↔ answer.stream.length ≤ n ∧ answer.Fits := by
  constructor
  · intro hsafe
    by_contra h
    exact not_safeAt h hsafe
  · rintro ⟨hlen, hfits⟩ con hcon
    simp only [handler_of_none hcon, List.take_of_length_le hlen]
    cases answer with
    | refused =>
      have hgo := fun mem => askDaemon_of_rejected [] mem con
      refine ⟨fun mem mem' => (hgo mem).trans (hgo mem').symm, fun mem h con' hret => ?_⟩
      obtain ⟨rfl, rfl⟩ := Prod.mk.inj (Option.some.inj ((hgo mem).symm.trans hret))
      exact Or.inl rfl
    | path reply =>
      have hwhole : Exchange.arriving (Answer.path reply).stream =
          .delivering accepted (cstr reply ++ [0]) := by
        have hall : received 100 (cstr reply ++ [0]) = cstr reply ++ [0] :=
          List.take_of_length_le (by simpa [Answer.Fits] using hfits)
        simp only [Exchange.arriving, Answer.stream, accepted, List.cons_append, List.nil_append,
          List.drop_succ_cons, List.drop_zero, hall]
        rfl
      have hback := fun mem => askDaemon_of_accepted reply mem con
      rw [hwhole]
      refine ⟨fun mem mem' => (hback mem).trans (hback mem').symm, fun mem h con' hret => ?_⟩
      obtain ⟨rfl, rfl⟩ := Prod.mk.inj (Option.some.inj ((hback mem).symm.trans hret))
      exact Or.inr ⟨reply, rfl, rfl⟩

/-- **A broken reply rewrites a request**: the connection is closed without a byte, and the
new URI is what stood on the stack. -/
theorem broken_reply_rewrites : ¬ SafeAt .refused 0 := by
  intro hsafe
  rcases (hsafe (.fresh (ascii "/test")) rfl).2 (.filled 49 0 120) .comeback _ rfl with
    huri | ⟨reply, hreply, -⟩
  · exact absurd huri (by decide)
  · cases hreply

/-! ### The exchange as a whole -/

/-- **The path of a request**: a C string, and not empty. -/
structure UriPath where
  /-- Its bytes. -/
  bytes : Bytes
  /-- It starts with a slash, at least. -/
  bytes_ne_nil : bytes ≠ []
  /-- It is a C string. -/
  zero_notMem : (0 : UInt8) ∉ bytes

/-- **How the streams are cut**: how many bytes have arrived, unless fewer are sent, when
each of the three calls of `recv` returns. -/
structure Segments where
  /-- Of the request. -/
  request : ℕ
  /-- Of the answer, for the verdict. -/
  verdict : ℕ
  /-- Of the rest of the answer, for the path. -/
  path : ℕ

/-- What the plugin receives of an answer. -/
def Segments.exchange (seg : Segments) (stream : Bytes) : Exchange :=
  .delivering (received 2 (stream.take seg.verdict))
    (received 100 ((stream.drop (received 2 (stream.take seg.verdict)).length).take seg.path))

/-- **A world** for the exchange to happen in. -/
structure World where
  /-- The daemon. -/
  server : Server
  /-- `char str[101]`. -/
  length_str : server.str.length = 101
  /-- What stands in the memory of the daemon behind its receive buffer. -/
  beyond : Bytes
  /-- The surroundings of the request. -/
  env : Env
  /-- How far the run of `getTorrent` is followed. -/
  fuel : ℕ
  /-- The memory of the plugin. -/
  mem : Frame
  /-- `con->request.uri` before. -/
  requestUri : Bytes

namespace World

variable (w : World) (uri : UriPath) (seg : Segments)

/-- The memory the daemon parses. -/
def parsed : Bytes :=
  w.server.recv ((requestMessage uri.bytes).take seg.request) ++ w.beyond

/-- What the daemon sends. -/
def stream : Bytes :=
  (serve ⟨(requestMessage uri.bytes).take seg.request, .never, w.env, w.beyond, w.fuel⟩
    w.server).replies.flatten

/-- `con->request.uri` after the handler has returned. -/
def uriAfter : Option Bytes :=
  (modInstantmirrorUriHandler (seg.exchange (w.stream uri seg)) w.mem
    ⟨none, uri.bytes, w.requestUri⟩).1.map fun r => r.2.requestUri

end World

/-- **The exchange is faithful**: in every world, a daemon that accepts the request parses
the path that was sent, and the path it returns becomes the URI of the request; if it
rejects the request, the URI stays. -/
def Faithful (uri : UriPath) (seg : Segments) : Prop :=
  ∀ w : World,
    (checkRequest w.env.dir (w.parsed uri seg) = 1 →
      cstr (w.parsed uri seg) = uri.bytes ∧
        ∀ reply, (handleRequest w.env w.fuel (w.parsed uri seg) w.server.status
            w.server.disk).result = .ok reply →
          w.uriAfter uri seg = some reply) ∧
    (checkRequest w.env.dir (w.parsed uri seg) ≠ 1 → w.uriAfter uri seg = some w.requestUri)

section Faithful

variable {uri : UriPath} {seg : Segments}

theorem requestMessage_bytes (uri : UriPath) : requestMessage uri.bytes = uri.bytes ++ [0] := by
  rw [requestMessage, cstr_of_notMem uri.zero_notMem]

/-- A request that has arrived in full is parsed as it was sent. -/
theorem World.parsed_of_whole (h : uri.bytes.length + 1 ≤ min 100 seg.request) (w : World) :
    cstr (w.parsed uri seg) = uri.bytes ∧ urlPath (w.parsed uri seg) = urlPath uri.bytes := by
  have hmsg : w.parsed uri seg = uri.bytes ++ 0 :: (w.server.str.drop (uri.bytes.length + 1) ++
      w.beyond) := by
    simp [World.parsed, Server.recv, requestMessage_bytes, received_message h, overwrite]
  refine ⟨by rw [hmsg, cstr_append_zero uri.zero_notMem], ?_⟩
  obtain ⟨c, u, hcu⟩ := List.exists_cons_of_ne_nil uri.bytes_ne_nil
  have hu : (0 : UInt8) ∉ u := fun hu => uri.zero_notMem (hcu ▸ List.mem_cons_of_mem c hu)
  have htext : cstr ((w.parsed uri seg).drop 1) = cstr (uri.bytes.drop 1) := by
    rw [hmsg, hcu]
    simp only [List.cons_append, List.drop_succ_cons, List.drop_zero]
    rw [cstr_append_zero hu, cstr_of_notMem hu]
  simp only [urlPath, htext]

/-- What is sent with a reply. -/
theorem World.stream_of_reply {w : World} {reply : Bytes}
    (hone : checkRequest w.env.dir (w.parsed uri seg) = 1)
    (hreply : (handleRequest w.env w.fuel (w.parsed uri seg) w.server.status
      w.server.disk).result = .ok reply) :
    w.stream uri seg = accepted ++ (reply ++ [0]) := by
  rw [World.parsed] at hone hreply
  rw [World.stream, serve_replies, if_pos hone, hreply]
  simp

/-- A verdict that arrives in full, and what is left for the path. -/
theorem exchange_of_verdict (hverdict : 2 ≤ seg.verdict) (reply : Bytes) :
    seg.exchange (accepted ++ (reply ++ [0])) =
      .delivering accepted (received 100 ((reply ++ [0]).take seg.path)) := by
  have hfirst : received 2 ((accepted ++ (reply ++ [0])).take seg.verdict) = accepted := by
    rw [received, List.take_take, Nat.min_eq_left hverdict]
    rfl
  have hrest : (accepted ++ (reply ++ [0])).drop accepted.length = reply ++ [0] := rfl
  rw [Segments.exchange, hfirst, hrest]

/-- **Messages that arrive in full make the exchange faithful.** -/
theorem faithful_of_whole (hrequest : uri.bytes.length + 1 ≤ min 100 seg.request)
    (hverdict : 2 ≤ seg.verdict)
    (hpath : (indexPath (urlPath uri.bytes) ++ ascii "index.html").length + 1 ≤
      min 100 seg.path) : Faithful uri seg := by
  intro w
  obtain ⟨hparsed, hurl⟩ := w.parsed_of_whole hrequest
  constructor
  · intro hone
    refine ⟨hparsed, fun reply hreply => ?_⟩
    have hlen := length_of_handleRequest hreply
    rw [hurl] at hlen
    have hcstr : cstr reply = reply := cstr_of_notMem (zero_notMem_of_handleRequest hreply)
    have hask := askDaemon_of_accepted reply w.mem ⟨none, uri.bytes, w.requestUri⟩
    rw [hcstr] at hask
    rw [World.uriAfter, World.stream_of_reply hone hreply, exchange_of_verdict hverdict,
      received_message (by omega), handler_of_none rfl, hask]
    rfl
  · intro hzero
    have hstream : w.stream uri seg = rejected := by
      rw [World.stream, serve_replies]
      rw [World.parsed] at hzero
      simp [hzero]
    have hfirst : received 2 (rejected.take seg.verdict) = rejected := by
      rw [received, List.take_take, Nat.min_eq_left hverdict]
      rfl
    rw [World.uriAfter, hstream, Segments.exchange, hfirst, handler_of_none rfl,
      askDaemon_of_rejected]
    rfl

/-- **A cut request is completed from the memory of the daemon**, and is accepted
somewhere. -/
theorem request_of_faithful (h : Faithful uri seg) :
    uri.bytes.length + 1 ≤ min 100 seg.request := by
  by_contra hcut
  have hmsg := received_message_cut hcut
  have hparsed : ∀ c : UInt8, cstr (overwrite (List.replicate 101 c)
      (uri.bytes.take (min 100 seg.request)) ++ List.replicate 0 c) = uri.bytes := by
    intro c
    have hworld := h ⟨⟨List.replicate 101 c, .new, .bare⟩, by simp, List.replicate 0 c,
      .finishing (indexDir (urlPath (overwrite (List.replicate 101 c)
        (uri.bytes.take (min 100 seg.request)) ++ List.replicate 0 c))), 1, .filled 49 0 0, []⟩
    rw [World.parsed, Server.recv, requestMessage_bytes, hmsg] at hworld
    exact (hworld.1 (handleRequest_indexDir _).1).1
  have hnul : (0 : UInt8) ∉ uri.bytes.take (min 100 seg.request) :=
    fun hmem => uri.zero_notMem (List.mem_of_mem_take hmem)
  have hlen : (uri.bytes.take (min 100 seg.request)).length ≤ 100 := by
    rw [List.length_take]
    omega
  exact cstr_overwrite_ne hnul (by omega) (by omega) (by decide : (120 : UInt8) ≠ 0)
    ((hparsed 0).trans (hparsed 120).symm)

/-- **The longest reply of all** has to be taken over, whatever the memory of the plugin
holds. -/
theorem uri_of_faithful (h : Faithful uri seg)
    (hrequest : uri.bytes.length + 1 ≤ min 100 seg.request) {longest : Bytes}
    (hlongest : indexPath (urlPath uri.bytes) ++ ascii "index.html" = longest) (mem : Frame) :
    ((askDaemon (seg.exchange (accepted ++ (longest ++ [0]))) mem
      ⟨none, uri.bytes, []⟩).1.map fun r => r.2.requestUri) = some longest := by
  let w : World := ⟨⟨List.replicate 101 0, .new, .bare⟩, by simp, [],
    .finishing (indexDir (urlPath uri.bytes)), 1, mem, []⟩
  have hurl := (w.parsed_of_whole hrequest).2
  obtain ⟨hone, hreply⟩ := handleRequest_indexDir (w.parsed uri seg)
  rw [hurl] at hone hreply
  rw [hlongest] at hreply
  have hres := hreply w.env w.fuel w.server.status w.server.disk rfl
  have huri := ((h w).1 hone).2 longest hres
  rw [World.uriAfter, World.stream_of_reply hone hres, handler_of_none rfl] at huri
  exact huri

/-- **A cut verdict** is completed from the memory of the plugin, or leaves its NUL to be
read as the path. -/
theorem verdict_of_faithful (h : Faithful uri seg)
    (hrequest : uri.bytes.length + 1 ≤ min 100 seg.request) : 2 ≤ seg.verdict := by
  by_contra hcut
  generalize hlongest : indexPath (urlPath uri.bytes) ++ ascii "index.html" = longest
  have huri := uri_of_faithful h hrequest hlongest
  have hne : longest ≠ [] := by
    rw [← hlongest]
    simp [ascii]
  have hor : seg.verdict = 0 ∨ seg.verdict = 1 := by omega
  rcases hor with hv | hv
  · have hzero := huri (.filled 48 0 0)
    rw [Segments.exchange, hv, askDaemon_of_zero (by rfl)] at hzero
    exact hne (Option.some.inj hzero).symm
  · have hempty := huri (.filled 49 0 0)
    rw [Segments.exchange, hv, askDaemon_of_ne_zero (by exact cstr_one_ne _)] at hempty
    refine hne ((Option.some.inj hempty).symm.trans ?_)
    -- the path that is read starts with the NUL of the verdict, or with that of the memory
    rcases seg.path with _ | n <;> rfl

/-- **A cut path** is completed from the memory of the plugin. -/
theorem path_of_faithful (h : Faithful uri seg)
    (hrequest : uri.bytes.length + 1 ≤ min 100 seg.request) (hverdict : 2 ≤ seg.verdict) :
    (indexPath (urlPath uri.bytes) ++ ascii "index.html").length + 1 ≤ min 100 seg.path := by
  by_contra hcut
  generalize hlongest : indexPath (urlPath uri.bytes) ++ ascii "index.html" = longest at hcut
  have huri := uri_of_faithful h hrequest hlongest
  have hnul : (0 : UInt8) ∉ longest := by
    rw [← hlongest]
    exact zero_notMem_of_handleRequest ((handleRequest_indexDir uri.bytes).2
      (.finishing (indexDir (urlPath uri.bytes))) 1 .new .bare rfl)
  have hread : ∀ c : UInt8, cstr (overwrite (Frame.filled 49 0 c).path
      (longest.take (min 100 seg.path)) ++ (Frame.filled 49 0 c).beyond) = longest := by
    intro c
    have hc := huri (.filled 49 0 c)
    rw [exchange_of_verdict hverdict, received_message_cut hcut,
      askDaemon_of_ne_zero (by exact cstr_one_ne _)] at hc
    exact Option.some.inj hc
  refine uri_of_cut (fun hmem => hnul (List.mem_of_mem_take hmem)) ?_ 49 0
    ((hread 0).trans (hread 120).symm)
  rw [List.length_take]
  omega

/-- **The exchange is faithful exactly if the messages arrive in full and fit**: the request,
the verdict, and the longest reply there is to the request. -/
theorem faithful_iff (uri : UriPath) (seg : Segments) :
    Faithful uri seg ↔ uri.bytes.length + 1 ≤ min 100 seg.request ∧ 2 ≤ seg.verdict ∧
      (indexPath (urlPath uri.bytes) ++ ascii "index.html").length + 1 ≤ min 100 seg.path := by
  constructor
  · intro h
    have hrequest := request_of_faithful h
    have hverdict := verdict_of_faithful h hrequest
    exact ⟨hrequest, hverdict, path_of_faithful h hrequest hverdict⟩
  · rintro ⟨hrequest, hverdict, hpath⟩
    exact faithful_of_whole hrequest hverdict hpath

end Faithful

/-- A path of ninety bytes. -/
def longUri : UriPath where
  bytes := slash :: List.replicate 89 120
  bytes_ne_nil := by simp
  zero_notMem := by decide

set_option maxRecDepth 4000 in
/-- **An exchange that is not faithful**, although nothing is cut on the way: the index page
of a path of ninety bytes has a path of a hundred, the plugin has no room for its NUL, and
the string goes on into the memory behind. -/
theorem exchange_unfaithful : ¬ Faithful longUri ⟨91, 2, 101⟩ := by
  intro h
  have hworld := h ⟨⟨List.replicate 101 0, .new, .bare⟩, rfl, [],
    .finishing (.ofList [(List.replicate 89 120, .listing 5 [])]), 1, .filled 49 0 120, []⟩
  exact absurd ((hworld.1 rfl).2 (List.replicate 89 120 ++ ascii "/index.html") rfl) (by decide)

end InstantMirror
