import InstantMirror.Lighttpd.Connection

/-!
# Reading requests

`connection_handle_read_state`: what arrives on a connection is queued read by read, one chunk
for each, and looked through for the empty line at the end of a header. What is before it is the
request, and what is behind it stays in the queue, for the content of the request or for the next
one (`InstantMirror.connectionHandleReadState`).

No byte gets lost on the way, and none is taken twice, however the stream was cut
(`InstantMirror.received_eq_taken_append`).
-/

namespace InstantMirror

/-! ### The queue -/

/-- `"\r\n\r\n"`. -/
def headerEnd : Bytes := [13, 10, 13, 10]

/-- **A chunk of the read queue.** -/
structure Chunk where
  /-- `mem`, without its NUL; `none` is a buffer with `used == 0`. -/
  mem : Option Bytes
  /-- `offset`. -/
  offset : ℕ

namespace Chunk

variable (c : Chunk)

/-- The bytes of `mem`. -/
def bytes : Bytes := c.mem.getD []

/-- `mem->used`. -/
def used : ℕ :=
  match c.mem with
  | none => 0
  | some m => m.length + 1

/-- What is left of it. -/
def data : Bytes := c.bytes.drop c.offset

/-- `chunkqueue_remove_finished_chunks` removes it. -/
def finished : Bool := c.mem.isNone || c.offset = c.bytes.length

end Chunk

/-- `chunkqueue_length`, which does not look at the offsets. -/
def chunkqueueLength : List Chunk → ℕ
  | [] => 0
  | c :: q => (c.used - 1) + chunkqueueLength q

/-- `chunkqueue_remove_finished_chunks`. -/
def chunkqueueRemoveFinishedChunks (q : List Chunk) : List Chunk := q.dropWhile Chunk.finished

/-- What is still to be read in a queue. -/
def pending (q : List Chunk) : Bytes := (q.map Chunk.data).flatten

/-! ### One call -/

/-- What `read` returns. -/
inductive Received where
  /-- So many bytes; there is at least one. -/
  | bytes (b : UInt8) (data : Bytes) : Received
  /-- `EAGAIN` or `EINTR`. -/
  | nothing : Received
  /-- `0`: the client has closed the connection. -/
  | closed : Received
  /-- Any other error. -/
  | failed : Received

/-- What has arrived. -/
def Received.data : Received → Bytes
  | .bytes b data => b :: data
  | _ => []

/-- **`connection_handle_read`** appends a chunk, also if there is nothing to put into it. -/
def connectionHandleRead (r : Received) (q : List Chunk) : List Chunk :=
  match r with
  | .bytes b data => q ++ [⟨some (b :: data), 0⟩]
  | _ => q ++ [⟨none, 0⟩]

/-- The chunks behind the first one: of two empty ones, the second stays. -/
def dropEmptyNext : List Chunk → List Chunk
  | c :: next :: q =>
    if next.mem.isNone then c :: dropEmptyNext q else c :: dropEmptyNext (next :: q)
  | q => q

/-- **Empty chunks are removed.** -/
def dropEmpty (q : List Chunk) : List Chunk := dropEmptyNext (q.dropWhile (·.mem.isNone))

/-- Where the end of a header was found. -/
inductive Found where
  /-- So far into what is left of this chunk. -/
  | here (lastOffset : ℕ) : Found
  /-- So far into the next one. -/
  | next (lastOffset : ℕ) : Found

/-- The look-up at a place where there is a `\r`. -/
def lookup (lookahead : Option Chunk) (i : ℕ) (rest : Bytes) : Option Found :=
  if 4 ≤ rest.length then if rest.take 4 = headerEnd then some (.here (i + 4)) else none
  else
    match lookahead with
    | none => none
    | some c =>
      if 4 - rest.length < c.used then
        if rest = headerEnd.take rest.length ∧
            c.bytes.take (4 - rest.length) = headerEnd.drop rest.length then
          some (.next (4 - rest.length))
        else none
      else none

/-- **The search in one chunk**, from a position on. -/
def scanChunk (lookahead : Option Chunk) : ℕ → Bytes → Option Found
  | _, [] => none
  | i, ch :: rest =>
    match if ch = 13 then lookup lookahead i (ch :: rest) else none with
    | some found => some found
    | none => scanChunk lookahead (i + 1) rest

/-- **The search in the queue**: `last_chunk`, by its number, and `last_offset`. -/
def findLast : List Chunk → Option (ℕ × ℕ)
  | [] => none
  | c :: q =>
    match scanChunk q.head? 0 c.data with
    | some (.here n) => some (0, n)
    | some (.next n) => some (1, n)
    | none => (findLast q).map fun last => (last.1 + 1, last.2)

/-- **The header is copied**, and the offsets are set behind it. -/
def copyHeader : ℕ → ℕ → List Chunk → Bytes × List Chunk
  | _, _, [] => ([], [])
  | 0, n, c :: q => (c.data.take n, { c with offset := c.offset + n } :: q)
  | i + 1, n, c :: q =>
    let (header, q') := copyHeader i n q
    (c.data ++ header, { c with offset := c.bytes.length } :: q')

/-- **The content is copied**, as far as it is there; `spool` says whether it can be written to a
temporary file, where that is to be done. The last component is `false` if that failed. -/
def copyContent (contentLength : ℕ) (spool : ℕ → Bool) :
    ℕ → List Chunk → Bytes → Bytes × List Chunk × Bool
  | _, [], content => (content, [], true)
  | i, c :: q, content =>
    if content.length = contentLength then (content, c :: q, true)
    else if 64 * 1024 < contentLength ∧ spool i = false then (content, c :: q, false)
    else
      let toRead := min c.data.length (contentLength - content.length)
      let (content', q', ok) :=
        copyContent contentLength spool (i + 1) q (content ++ c.data.take toRead)
      (content', { c with offset := c.offset + toRead } :: q', ok)

/-- **What a connection reads**: the queue, `request.request`, `request.content_length`, and what is
in `request_content_queue`. -/
structure Reader where
  /-- `state`. -/
  state : ConState
  /-- `read_queue`. -/
  queue : List Chunk
  /-- `request.request`. -/
  request : Bytes
  /-- `request.content_length`. -/
  contentLength : ℕ
  /-- What is in `request_content_queue`; `bytes_in` is its length. -/
  content : Bytes

/-- The part of the call that depends on the state, for the header. -/
def readHeader (r : Reader) : Reader :=
  match findLast r.queue with
  | some (i, n) =>
    { r with
      request := (copyHeader i n r.queue).1
      queue := (copyHeader i n r.queue).2
      state := .requestEnd }
  | none => if 64 * 1024 < chunkqueueLength r.queue then { r with state := .handleRequest } else r

/-- The part of the call that depends on the state, for the content. -/
def readContent (spool : ℕ → Bool) (r : Reader) : Reader :=
  let (content, queue, ok) := copyContent r.contentLength spool 0 r.queue r.content
  { r with
    content := content
    queue := queue
    state := if !ok || content.length = r.contentLength then .handleRequest else .readPost }

/-- The queue when something may have arrived. -/
def arrived (got : Option Received) (q : List Chunk) : List Chunk :=
  dropEmpty ((got.map (connectionHandleRead · q)).getD q)

/-- What the call does with the queue. -/
def handleArrived (closed : Bool) (spool : ℕ → Bool) (queue : List Chunk) (r : Reader) : Reader :=
  let r' :=
    match r.state with
    | .read => readHeader { r with queue := queue }
    | .readPost => readContent spool { r with queue := queue }
    | _ => { r with queue := queue }
  { r' with
    state := if closed && r'.state = r.state then .error else r'.state
    queue := chunkqueueRemoveFinishedChunks r'.queue }

/-- **`connection_handle_read_state`**; `none` is a call where the connection is not readable. -/
def connectionHandleReadState (got : Option Received) (spool : ℕ → Bool) (r : Reader) : Reader :=
  match got with
  | some .failed => { r with queue := connectionHandleRead .failed r.queue, state := .error }
  | some .closed => handleArrived true spool (arrived got r.queue) r
  | _ => handleArrived false spool (arrived got r.queue) r

/-! ### Runs -/

/-- **What happens to a connection that is read from.** -/
inductive ReadInput where
  /-- A call of `connection_handle_read_state`. -/
  | call (got : Option Received) (spool : ℕ → Bool) : ReadInput
  /-- `http_request_parse` has found this length. -/
  | parse (contentLength : ℕ) : ReadInput
  /-- The request has been answered, and the connection is kept; this may follow a denial as well,
  where `keep_alive` is `0` and the connection would be closed. -/
  | answered : ReadInput

/-- What is seen of it. -/
inductive ReadEvent where
  /-- These bytes have arrived. -/
  | received (data : Bytes) : ReadEvent
  /-- This is a request. -/
  | request (header : Bytes) : ReadEvent
  /-- This is a part of the content of the last request. -/
  | content (data : Bytes) : ReadEvent
  /-- There is no request yet. -/
  | waiting : ReadEvent
  /-- Too much has been read without finding a request. -/
  | denied : ReadEvent

/-- What arrives with a call. -/
def arrivedData (got : Option Received) : Bytes := (got.map Received.data).getD []

/-- What a call for the header has come to. -/
def headerEvents (r : Reader) : List ReadEvent :=
  match r.state with
  | .requestEnd => [.request r.request]
  | .handleRequest => [.denied]
  | .read => [.waiting]
  | _ => []

/-- **One step.** -/
def readerStep (i : ReadInput) (r : Reader) : Option Reader × List ReadEvent :=
  match i, r.state with
  | .call got spool, .read =>
    let r' := connectionHandleReadState got spool r
    (some r', .received (arrivedData got) :: headerEvents r')
  | .call got spool, .readPost =>
    let r' := connectionHandleReadState got spool r
    (some r', [.received (arrivedData got), .content (r'.content.drop r.content.length)])
  | .parse contentLength, .requestEnd =>
    (some { r with
      state := if contentLength = 0 then .handleRequest else .readPost
      contentLength := contentLength }, [])
  | .answered, .handleRequest =>
    (some { r with state := .read, request := [], contentLength := 0, content := [] }, [])
  | _, _ => (some r, [])

/-- **A connection that is read from**, as a machine. -/
def reader : Machine ReadInput Reader ReadEvent := ⟨readerStep⟩

/-- A new connection. -/
def Reader.start : Reader := ⟨.read, [], [], 0, []⟩

/-- All that has arrived. -/
def receivedBytes (h : List ReadEvent) : Bytes :=
  h.flatMap fun
    | .received data => data
    | _ => []

/-- All that has been taken for a request or for the content of one. -/
def takenBytes (h : List ReadEvent) : Bytes :=
  h.flatMap fun
    | .request header => header
    | .content data => data
    | _ => []

/-! ### What a call does -/

theorem connectionHandleReadState_cases (got : Option Received) (spool : ℕ → Bool) (r : Reader) :
    got = some .failed ∧ connectionHandleReadState got spool r =
        { r with queue := r.queue ++ [⟨none, 0⟩], state := .error } ∨
      ∃ closed, connectionHandleReadState got spool r =
        handleArrived closed spool (arrived got r.queue) r := by
  rcases got with _ | (_ | _ | _ | _)
  · exact Or.inr ⟨false, rfl⟩
  · exact Or.inr ⟨false, rfl⟩
  · exact Or.inr ⟨false, rfl⟩
  · exact Or.inr ⟨true, rfl⟩
  · exact Or.inl ⟨rfl, rfl⟩

/-- **A call for the header**: it is found and taken, or it is not. -/
theorem handleArrived_read {r : Reader} (hstate : r.state = .read) (closed : Bool)
    (spool : ℕ → Bool) (q : List Chunk) :
    (∃ i n, findLast q = some (i, n) ∧
        handleArrived closed spool q r = { r with
          state := .requestEnd
          request := (copyHeader i n q).1
          queue := chunkqueueRemoveFinishedChunks (copyHeader i n q).2 }) ∨
      findLast q = none ∧ ∃ state, (state = .read ∨ state = .handleRequest ∨ state = .error) ∧
        handleArrived closed spool q r =
          { r with state := state, queue := chunkqueueRemoveFinishedChunks q } := by
  rw [handleArrived, hstate]
  simp only [readHeader]
  rcases hfind : findLast q with _ | ⟨i, n⟩
  · refine Or.inr ⟨rfl, ?_⟩
    simp only
    split_ifs with hlong hclosed hclosed
    · simp at hclosed
    · exact ⟨_, Or.inr (Or.inl rfl), rfl⟩
    · exact ⟨_, Or.inr (Or.inr rfl), rfl⟩
    · exact ⟨.read, Or.inl rfl, rfl⟩
  · refine Or.inl ⟨i, n, rfl, ?_⟩
    simp

/-- **A call for the content.** -/
theorem handleArrived_readPost {r : Reader} (hstate : r.state = .readPost) (closed : Bool)
    (spool : ℕ → Bool) (q : List Chunk) : ∃ state, state ≠ .read ∧
      handleArrived closed spool q r = { r with
        state := state
        content := (copyContent r.contentLength spool 0 q r.content).1
        queue := chunkqueueRemoveFinishedChunks
          (copyContent r.contentLength spool 0 q r.content).2.1 } := by
  rw [handleArrived, hstate]
  simp only [readContent]
  refine ⟨_, ?_, rfl⟩
  split_ifs <;> simp

/-- **What a step does**: a call for the header, a call for the content, or nothing to the queue. -/
theorem readerStep_cases (i : ReadInput) (r : Reader) :
    (∃ got spool, r.state = .read ∧ readerStep i r =
        (some (connectionHandleReadState got spool r), .received (arrivedData got) ::
          headerEvents (connectionHandleReadState got spool r))) ∨
      (∃ got spool, r.state = .readPost ∧ readerStep i r =
        (some (connectionHandleReadState got spool r), [.received (arrivedData got),
          .content ((connectionHandleReadState got spool r).content.drop r.content.length)])) ∨
      ∃ r', r'.queue = r.queue ∧ (r.state = .error → r'.state = .error) ∧
        readerStep i r = (some r', []) := by
  rcases i with ⟨got, spool⟩ | contentLength | _
  · rcases hstate : r.state with _ | _ | _ | _ | _ | _ | _ | _ | _ | _ | _
    case read => exact Or.inl ⟨got, spool, rfl, by simp only [readerStep, hstate]⟩
    case readPost => exact Or.inr (Or.inl ⟨got, spool, rfl, by simp only [readerStep, hstate]⟩)
    all_goals exact Or.inr (Or.inr ⟨r, rfl, fun h => hstate.trans h,
      by simp only [readerStep, hstate]⟩)
  · rcases hstate : r.state with _ | _ | _ | _ | _ | _ | _ | _ | _ | _ | _
    case requestEnd =>
      exact Or.inr (Or.inr ⟨{ r with
        state := if contentLength = 0 then .handleRequest else .readPost
        contentLength := contentLength }, rfl, nofun, by simp only [readerStep, hstate]⟩)
    all_goals exact Or.inr (Or.inr ⟨r, rfl, fun h => hstate.trans h,
      by simp only [readerStep, hstate]⟩)
  · rcases hstate : r.state with _ | _ | _ | _ | _ | _ | _ | _ | _ | _ | _
    case handleRequest =>
      exact Or.inr (Or.inr
        ⟨{ r with state := .read, request := [], contentLength := 0, content := [] }, rfl, nofun,
          by simp only [readerStep, hstate]⟩)
    all_goals exact Or.inr (Or.inr ⟨r, rfl, fun h => hstate.trans h,
      by simp only [readerStep, hstate]⟩)

/-! ### Nothing gets lost -/

section Conservation

variable {c : Chunk} {q : List Chunk}

theorem receivedBytes_append (h h' : List ReadEvent) :
    receivedBytes (h ++ h') = receivedBytes h ++ receivedBytes h' := List.flatMap_append

theorem takenBytes_append (h h' : List ReadEvent) :
    takenBytes (h ++ h') = takenBytes h ++ takenBytes h' := List.flatMap_append

theorem receivedBytes_headerEvents (data : Bytes) (r : Reader) :
    receivedBytes (.received data :: headerEvents r) = data := by
  rw [receivedBytes, List.flatMap_cons, headerEvents]
  cases r.state <;> simp

@[simp] theorem pending_nil : pending [] = [] := rfl

@[simp]
theorem pending_cons (c : Chunk) (q : List Chunk) : pending (c :: q) = c.data ++ pending q :=
  rfl

theorem pending_append (q q' : List Chunk) : pending (q ++ q') = pending q ++ pending q' := by
  rw [pending, List.map_append, List.flatten_append]
  rfl

theorem Chunk.data_of_isNone (h : c.mem.isNone = true) : c.data = [] := by
  rw [Chunk.data, Chunk.bytes, Option.isNone_iff_eq_none.mp h]
  exact List.drop_nil

theorem Chunk.data_of_finished (h : c.finished = true) : c.data = [] := by
  rw [Chunk.finished, Bool.or_eq_true, decide_eq_true_eq] at h
  rcases h with h | h
  · exact Chunk.data_of_isNone h
  · rw [Chunk.data, h, List.drop_length]

theorem pending_dropWhile {p : Chunk → Bool} (hp : ∀ c, p c = true → c.data = [])
    (q : List Chunk) : pending (q.dropWhile p) = pending q := by
  induction q with
  | nil => rfl
  | cons c q ih =>
    rw [List.dropWhile_cons]
    split_ifs with h
    · rw [ih, pending_cons, hp c h, List.nil_append]
    · rfl

theorem pending_dropEmptyNext (q : List Chunk) : pending (dropEmptyNext q) = pending q := by
  fun_induction dropEmptyNext q with
  | case1 c next q h ih =>
    rw [pending_cons, ih, pending_cons, pending_cons, Chunk.data_of_isNone h, List.nil_append]
  | case2 c next q h ih =>
    rw [pending_cons, ih]
    rfl
  | case3 q h => rfl

theorem pending_dropEmpty (q : List Chunk) : pending (dropEmpty q) = pending q := by
  rw [dropEmpty, pending_dropEmptyNext, pending_dropWhile fun c => Chunk.data_of_isNone]

theorem pending_connectionHandleRead (r : Received) (q : List Chunk) :
    pending (connectionHandleRead r q) = pending q ++ r.data := by
  cases r <;> rw [connectionHandleRead, pending_append] <;> simp [Chunk.data, Chunk.bytes,
    Received.data]

/-- A chunk whose offset is moved on. -/
theorem Chunk.take_append_data (c : Chunk) (n : ℕ) :
    c.data.take n ++ Chunk.data { c with offset := c.offset + n } = c.data := by
  rw [Chunk.data, Chunk.data, ← List.drop_drop]
  exact List.take_append_drop n _

theorem copyHeader_append_pending (i n : ℕ) (q : List Chunk) :
    (copyHeader i n q).1 ++ pending (copyHeader i n q).2 = pending q := by
  fun_induction copyHeader i n q with
  | case1 => rfl
  | case2 n c q => rw [pending_cons, ← List.append_assoc, c.take_append_data, pending_cons]
  | case3 i n c q header q' heq ih =>
    rw [heq] at ih
    rw [pending_cons, pending_cons, ← ih]
    simp [Chunk.data, Chunk.bytes]

/-- No more is taken than there is to be. -/
theorem copyContent_of_le {contentLength : ℕ} (spool : ℕ → Bool) (i : ℕ) (q : List Chunk)
    (content : Bytes) (h : contentLength ≤ content.length) :
    (copyContent contentLength spool i q content).1 = content ∧
      (copyContent contentLength spool i q content).2.1 = q := by
  fun_induction copyContent contentLength spool i q content with
  | case1 => exact ⟨rfl, rfl⟩
  | case2 => exact ⟨rfl, rfl⟩
  | case3 => exact ⟨rfl, rfl⟩
  | case4 i c q content _ _ toRead content' q' ok heq ih =>
    have hzero : toRead = 0 := by omega
    rw [hzero, List.take_zero, List.append_nil] at ih heq
    rw [heq] at ih
    obtain ⟨hcontent, rfl⟩ := ih h
    rw [hzero]
    exact ⟨hcontent, rfl⟩

/-- **The content is taken from the front**; a chunk that is not taken whole is the last one that is
looked at. -/
theorem copyContent_append_pending (contentLength : ℕ) (spool : ℕ → Bool) (i : ℕ) (q : List Chunk)
    (content : Bytes) : ∃ data, (copyContent contentLength spool i q content).1 = content ++ data ∧
      data ++ pending (copyContent contentLength spool i q content).2.1 = pending q := by
  fun_induction copyContent contentLength spool i q content with
  | case1 => exact ⟨[], (List.append_nil _).symm, rfl⟩
  | case2 => exact ⟨[], (List.append_nil _).symm, rfl⟩
  | case3 => exact ⟨[], (List.append_nil _).symm, rfl⟩
  | case4 i c q content hlength _ toRead content' q' ok heq ih =>
    have htake := c.take_append_data toRead
    rcases Nat.le_total c.data.length (contentLength - content.length) with hle | hle
    · obtain ⟨data, hcontent, hdata⟩ := ih
      rw [heq] at hcontent hdata
      have hall : toRead = c.data.length := Nat.min_eq_left hle
      have hempty : Chunk.data { c with offset := c.offset + toRead } = [] := by
        rw [hall, List.take_length] at htake
        rw [hall]
        exact List.append_right_eq_self.mp htake
      refine ⟨c.data ++ data, ?_, ?_⟩
      · rw [hcontent, hall, List.take_length, List.append_assoc]
      · rw [pending_cons, pending_cons, hempty, List.nil_append, List.append_assoc, hdata]
    · have hfull : contentLength ≤ (content ++ c.data.take toRead).length := by
        rw [List.length_append, List.length_take]
        omega
      obtain ⟨hcontent, hqueue⟩ := copyContent_of_le spool (i + 1) q _ hfull
      rw [heq] at hcontent hqueue
      obtain rfl : q' = q := hqueue
      refine ⟨c.data.take toRead, hcontent, ?_⟩
      rw [pending_cons, pending_cons, ← List.append_assoc, htake]

theorem pending_removeFinished (q : List Chunk) :
    pending (chunkqueueRemoveFinishedChunks q) = pending q :=
  pending_dropWhile (fun _ => Chunk.data_of_finished) q

theorem pending_arrived (got : Option Received) (q : List Chunk) :
    pending (arrived got q) = pending q ++ arrivedData got := by
  rw [arrived, pending_dropEmpty]
  rcases got with _ | r
  · exact (List.append_nil _).symm
  · exact pending_connectionHandleRead r q

/-- **One call for the header**: what was to be read and what has arrived is what is taken and what
is left. -/
theorem readCall_pending {r : Reader} (hstate : r.state = .read) (got : Option Received)
    (spool : ℕ → Bool) :
    takenBytes (headerEvents (connectionHandleReadState got spool r)) ++
        pending (connectionHandleReadState got spool r).queue =
      pending r.queue ++ arrivedData got := by
  rcases connectionHandleReadState_cases got spool r with ⟨rfl, heq⟩ | ⟨closed, heq⟩
  · rw [heq, pending_append]
    rfl
  · rw [heq, ← pending_arrived]
    rcases handleArrived_read hstate closed spool (arrived got r.queue) with
      ⟨i, n, -, heq'⟩ | ⟨-, state, hstate', heq'⟩
    · rw [heq', headerEvents, pending_removeFinished]
      simpa [takenBytes] using copyHeader_append_pending i n (arrived got r.queue)
    · rw [heq', headerEvents, pending_removeFinished]
      rcases hstate' with rfl | rfl | rfl <;> rfl

/-- **One call for the content.** -/
theorem contentCall_pending {r : Reader} (hstate : r.state = .readPost) (got : Option Received)
    (spool : ℕ → Bool) :
    (connectionHandleReadState got spool r).content.drop r.content.length ++
        pending (connectionHandleReadState got spool r).queue =
      pending r.queue ++ arrivedData got := by
  rcases connectionHandleReadState_cases got spool r with ⟨rfl, heq⟩ | ⟨closed, heq⟩
  · rw [heq, pending_append, List.drop_length]
    rfl
  · obtain ⟨state, -, heq'⟩ := handleArrived_readPost hstate closed spool (arrived got r.queue)
    obtain ⟨data, hcontent, hdata⟩ := copyContent_append_pending r.contentLength spool 0
      (arrived got r.queue) r.content
    rw [heq, heq', ← pending_arrived, pending_removeFinished, hcontent, List.drop_left, hdata]

/-- **One step.** -/
theorem readerStep_pending {i : ReadInput} {r r' : Reader} (h : (readerStep i r).1 = some r') :
    takenBytes (readerStep i r).2 ++ pending r'.queue =
      pending r.queue ++ receivedBytes (readerStep i r).2 := by
  rcases readerStep_cases i r with ⟨got, spool, hstate, heq⟩ | ⟨got, spool, hstate, heq⟩ |
    ⟨r₁, hqueue, -, heq⟩
  · rw [heq] at h ⊢
    obtain rfl := Option.some.inj h
    rw [receivedBytes_headerEvents]
    exact readCall_pending hstate got spool
  · rw [heq] at h ⊢
    obtain rfl := Option.some.inj h
    have hcall := contentCall_pending hstate got spool
    simpa [takenBytes, receivedBytes] using hcall
  · rw [heq] at h ⊢
    obtain rfl := Option.some.inj h
    rw [hqueue]
    exact (List.append_nil _).symm

/-- **No byte gets lost, and none is taken twice**: in every run, whatever the reads give, what has
arrived is what has been taken for requests and their content, in this order, and what is still in
the queue. -/
theorem received_eq_taken_append (inputs : List ReadInput) {r : Reader}
    (hrun : (reader.run inputs .start).1 = some r) :
    receivedBytes (reader.run inputs .start).2 =
      takenBytes (reader.run inputs .start).2 ++ pending r.queue := by
  refine Machine.run_invariant (fun h r => receivedBytes h = takenBytes h ++ pending r.queue)
    (fun i h s s' hinv hs' => ?_) inputs (h := []) rfl hrun
  rw [receivedBytes_append, takenBytes_append, hinv, List.append_assoc, List.append_assoc]
  exact congrArg _ (readerStep_pending hs').symm

/-- A request and the beginning of the next one. -/
theorem received_eq_taken_append_two :
    ∃ r, (reader.run [.call (some (.bytes 71 [13, 10, 13, 10, 72])) fun _ => true] .start).1 =
        some r ∧
      receivedBytes
          (reader.run [.call (some (.bytes 71 [13, 10, 13, 10, 72])) fun _ => true] .start).2 =
        takenBytes
          (reader.run [.call (some (.bytes 71 [13, 10, 13, 10, 72])) fun _ => true] .start).2 ++
          pending r.queue :=
  ⟨⟨.requestEnd, [⟨some [71, 13, 10, 13, 10, 72], 5⟩], [71, 13, 10, 13, 10], 0, []⟩, rfl,
    received_eq_taken_append _ rfl⟩

end Conservation

end InstantMirror
