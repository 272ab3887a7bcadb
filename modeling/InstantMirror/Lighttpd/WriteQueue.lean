import InstantMirror.Lighttpd.ReadQueue

/-!
# Writing answers

`network_write_chunkqueue`, with `network_write_chunkqueue_linuxsendfile` below it: an answer is a
queue of chunks, pieces of memory and stretches of files. Pieces of memory that follow each other
go out with one `writev`, and a stretch of a file with `sendfile`. Each of these calls may take
less than it is given, or nothing at all; the offsets of the chunks are moved by what it has taken,
and the next time the socket is ready the rest is tried again.

What the client gets is the answer from its beginning, at any time, and all of it when the queue is
reported to be empty, whatever the socket takes at a time
(`InstantMirror.sent_is_answer`); and if it takes something at each call, that is reported after at
most as many calls as there are bytes and chunks, or after one if there are none
(`InstantMirror.exists_complete`).
-/

namespace InstantMirror

/-! ### The queue -/

/-- **A chunk of the write queue.** -/
inductive OutChunk where
  /-- `MEM_CHUNK`. -/
  | mem (c : Chunk) : OutChunk
  /-- `FILE_CHUNK`: so many bytes of a file, from a position on. -/
  | file (name : Bytes) (start length offset : ℕ) : OutChunk

/-- What is left of a chunk; `files` has the bytes of each file. -/
def OutChunk.data (files : Bytes → Bytes) : OutChunk → Bytes
  | .mem c => c.data
  | .file name start length offset => ((files name).drop (start + offset)).take (length - offset)

/-- `chunkqueue_remove_finished_chunks` removes it. -/
def OutChunk.finished : OutChunk → Bool
  | .mem c => c.finished
  | .file _ _ length offset => offset = length

/-- What is still to be sent. -/
def unsent (files : Bytes → Bytes) (q : List OutChunk) : Bytes := (q.map (·.data files)).flatten

/-- `chunkqueue_append_file`. -/
def chunkqueueAppendFile (name : Bytes) (start length : ℕ) (q : List OutChunk) : List OutChunk :=
  if length = 0 then q else q ++ [.file name start length 0]

/-- `chunkqueue_append_buffer`. -/
def chunkqueueAppendBuffer (mem : Option Bytes) (q : List OutChunk) : List OutChunk :=
  if mem.isNone then q else q ++ [.mem ⟨mem, 0⟩]

/-! ### The system calls -/

/-- What `writev` or `sendfile` returns. -/
inductive Sent where
  /-- So many bytes were taken, if there were as many. -/
  | wrote (r : ℕ) : Sent
  /-- `EAGAIN` or `EINTR`. -/
  | again : Sent
  /-- `EPIPE` or `ECONNRESET`. -/
  | closed : Sent
  /-- Any other error, or a file that cannot be opened. -/
  | failed : Sent

/-- What the function returns. -/
inductive SendRet where
  /-- The number of chunks that were written. -/
  | ok : SendRet
  /-- `-1`. -/
  | failed : SendRet
  /-- `-2`. -/
  | closed : SendRet
deriving DecidableEq

/-- What the function does: the queue it leaves, what has gone out, and what it returns. -/
structure SendResult where
  /-- The queue. -/
  queue : List OutChunk
  /-- What the socket has taken. -/
  wire : Bytes
  /-- What is returned. -/
  ret : SendRet

/-- `SSIZE_MAX`. -/
def ssizeMax : ℕ := 9223372036854775807

/-- `UIO_MAXIOV`. -/
def uioMaxiov : ℕ := 1024

/-- The pieces of memory at the front of the queue, as many as one call may have. -/
def frontMem : ℕ → List OutChunk → List Chunk
  | n + 1, .mem c :: q => c :: frontMem n q
  | _, _ => []

/-- **The `iovec`s**: each chunk with its `iov_len`. Where the sum would go beyond `SSIZE_MAX` they
end. -/
def iovs : ℕ → List Chunk → List (Chunk × ℕ)
  | _, [] => []
  | numBytes, c :: cs =>
    if c.mem.isNone then (c, 0) :: iovs numBytes cs
    else
      let toSend := c.bytes.length - c.offset
      if ssizeMax < numBytes + toSend then [(c, ssizeMax - numBytes)]
      else (c, toSend) :: iovs (numBytes + toSend) cs

/-- What the `iovec`s have to be sent. -/
def iovBytes (v : List (Chunk × ℕ)) : Bytes := (v.map fun p => p.1.data.take p.2).flatten

/-- **Which chunks have been written**: the offsets are moved by what was taken; the last component
is `chunk_finished`. -/
def advanceChunks : ℕ → List (Chunk × ℕ) → List Chunk × Bool
  | _, [] => ([], true)
  | r, (c, n) :: v =>
    if n ≤ r then
      let (cs, finished) := advanceChunks (r - n) v
      ({ c with offset := c.offset + n } :: cs, finished)
    else ({ c with offset := c.offset + r } :: v.map Prod.fst, false)

/-- What is done after `writev`. -/
def afterWritev (r : ℕ) (v : List (Chunk × ℕ)) (rest : List OutChunk)
    (next : List OutChunk → SendResult) : SendResult :=
  let taken := (iovBytes v).take r
  let done := advanceChunks taken.length v
  if done.2 then
    ⟨done.1.map .mem ++ (next rest).queue, taken ++ (next rest).wire, (next rest).ret⟩
  else ⟨done.1.map .mem ++ rest, taken, .ok⟩

/-- What is done after `sendfile` has taken so many bytes. -/
def afterSendfile (files : Bytes → Bytes) (r : ℕ) (name : Bytes) (start length offset : ℕ)
    (q : List OutChunk) (next : List OutChunk → SendResult) : SendResult :=
  let taken := (OutChunk.data files (.file name start length offset)).take r
  let c := OutChunk.file name start length (offset + taken.length)
  if offset + taken.length = length then
    ⟨c :: (next q).queue, taken ++ (next q).wire, (next q).ret⟩
  else ⟨c :: q, taken, .ok⟩

/-- `sendfile` is not given more than this. -/
def sendfileMax : ℕ := 1073741823

/-- **Pieces of memory are sent**, from the front of the queue. -/
def sendMem (s : Sent) (q : List OutChunk) (next : List OutChunk → SendResult) : SendResult :=
  let v := iovs 0 (frontMem uioMaxiov q)
  match s with
  | .wrote r => afterWritev r v (q.drop v.length) next
  | .again => afterWritev 0 v (q.drop v.length) next
  | .closed => ⟨q, [], .closed⟩
  | .failed => ⟨q, [], .failed⟩

/-- **A stretch of a file is sent.** -/
def sendFile (files : Bytes → Bytes) (s : Sent) (name : Bytes) (start length offset : ℕ)
    (q : List OutChunk) (next : List OutChunk → SendResult) : SendResult :=
  let c := OutChunk.file name start length offset
  match s with
  | .wrote r =>
    if (c.data files).take (min r sendfileMax) = [] then
      -- the file has shrunk, or the client is gone
      ⟨c :: q, [], if (files name).length < start + offset then .failed else .closed⟩
    else afterSendfile files (min r sendfileMax) name start length offset q next
  | .again => afterSendfile files 0 name start length offset q next
  | .closed => ⟨c :: q, [], .closed⟩
  | .failed => ⟨c :: q, [], .failed⟩

/-- **`network_write_chunkqueue_linuxsendfile`**, with what its system calls return; where there is
no more of that, the socket takes nothing more. -/
def networkWriteChunkqueueLinuxsendfile (files : Bytes → Bytes) :
    List Sent → List OutChunk → SendResult
  | [], q => ⟨q, [], .ok⟩
  | _ :: _, [] => ⟨[], [], .ok⟩
  | s :: results, .mem c :: q =>
    sendMem s (.mem c :: q) (networkWriteChunkqueueLinuxsendfile files results)
  | s :: results, .file name start length offset :: q =>
    sendFile files s name start length offset q (networkWriteChunkqueueLinuxsendfile files results)

/-- **`network_write_chunkqueue`**; `limited` is a connection that has reached its traffic limit. -/
def networkWriteChunkqueue (files : Bytes → Bytes) (limited : Bool) (results : List Sent)
    (q : List OutChunk) : List OutChunk × Bytes × Writing :=
  if limited then (q, [], .wait)
  else
    let result := networkWriteChunkqueueLinuxsendfile files results q
    match result.ret with
    | .ok =>
      let queue := result.queue.dropWhile OutChunk.finished
      (queue, result.wire, if queue.isEmpty then .complete else .wait)
    | _ => (result.queue, result.wire, .failed)

/-! ### Runs -/

/-- **What happens to a write queue.** -/
inductive WriteInput where
  /-- Something is appended. -/
  | append (c : OutChunk) : WriteInput
  /-- A call of `network_write_chunkqueue`. -/
  | write (limited : Bool) (results : List Sent) : WriteInput

/-- What is seen of it. -/
inductive WriteEvent where
  /-- This has been appended. -/
  | appended (c : OutChunk) : WriteEvent
  /-- The socket has taken these bytes. -/
  | sent (data : Bytes) : WriteEvent
  /-- What came of the call. -/
  | status (w : Writing) : WriteEvent

/-- **One step**; after a failure the connection is closed. -/
def writerStep (files : Bytes → Bytes) (i : WriteInput) (q : List OutChunk) :
    Option (List OutChunk) × List WriteEvent :=
  match i with
  | .append c => (some (q ++ [c]), [.appended c])
  | .write limited results =>
    let r := networkWriteChunkqueue files limited results q
    (if r.2.2 = .failed then none else some r.1, [.sent r.2.1, .status r.2.2])

/-- **A write queue**, as a machine. -/
def writer (files : Bytes → Bytes) : Machine WriteInput (List OutChunk) WriteEvent :=
  ⟨writerStep files⟩

/-- All that has been sent. -/
def sentBytes (h : List WriteEvent) : Bytes :=
  h.flatMap fun
    | .sent data => data
    | _ => []

/-- All that has been appended. -/
def appendedChunks (h : List WriteEvent) : List OutChunk :=
  h.flatMap fun
    | .appended c => [c]
    | _ => []

/-! ### One system call -/

section Calls

variable {files : Bytes → Bytes} {q : List OutChunk}

@[simp] theorem unsent_nil : unsent files [] = [] := rfl

@[simp] theorem unsent_cons (c : OutChunk) (q : List OutChunk) :
    unsent files (c :: q) = c.data files ++ unsent files q := rfl

theorem unsent_append (q q' : List OutChunk) :
    unsent files (q ++ q') = unsent files q ++ unsent files q' := by
  rw [unsent, List.map_append, List.flatten_append]
  rfl

theorem unsent_map_mem (cs : List Chunk) : unsent files (cs.map .mem) = pending cs := by
  rw [unsent, List.map_map]
  rfl

theorem OutChunk.data_of_finished {c : OutChunk} (h : c.finished = true) : c.data files = [] := by
  cases c with
  | mem c => exact Chunk.data_of_finished h
  | file name start length offset =>
    rw [OutChunk.data, decide_eq_true_eq.mp h, Nat.sub_self, List.take_zero]

theorem unsent_removeFinished (files : Bytes → Bytes) (q : List OutChunk) :
    unsent files (q.dropWhile OutChunk.finished) = unsent files q := by
  induction q with
  | nil => rfl
  | cons c q ih =>
    rw [List.dropWhile_cons]
    split_ifs with h
    · rw [ih, unsent_cons, OutChunk.data_of_finished h, List.nil_append]
    · rfl

/-- How many bytes of memory there are in the queue. -/
def memLength : List OutChunk → ℕ
  | [] => 0
  | .mem c :: q => c.data.length + memLength q
  | .file _ _ _ _ :: q => memLength q

theorem memLength_append (q q' : List OutChunk) :
    memLength (q ++ q') = memLength q + memLength q' := by
  induction q with
  | nil => exact (Nat.zero_add _).symm
  | cons c q ih =>
    cases c with
    | mem c => rw [List.cons_append, memLength, memLength, ih, Nat.add_assoc]
    | file => rw [List.cons_append, memLength, memLength, ih]

theorem memLength_map_mem (cs : List Chunk) : memLength (cs.map .mem) = (pending cs).length := by
  induction cs with
  | nil => rfl
  | cons c cs ih => rw [List.map_cons, memLength, ih, pending_cons, List.length_append]

/-- The queue begins with the chunks that one call may have. -/
theorem frontMem_append_drop (n : ℕ) (q : List OutChunk) :
    (frontMem n q).map .mem ++ q.drop (frontMem n q).length = q := by
  fun_induction frontMem n q with
  | case1 n c q ih => exact congrArg (OutChunk.mem c :: ·) ih
  | case2 => rfl

/-- **Nothing is cut off** as long as there is no more than `SSIZE_MAX`. -/
theorem iovs_eq {numBytes : ℕ} {cs : List Chunk}
    (h : numBytes + (pending cs).length ≤ ssizeMax) :
    iovs numBytes cs = cs.map fun c => (c, c.data.length) := by
  induction cs generalizing numBytes with
  | nil => rfl
  | cons c cs ih =>
    have hdata : c.data.length = c.bytes.length - c.offset := List.length_drop
    rw [pending_cons, List.length_append] at h
    rw [iovs, List.map_cons]
    dsimp only
    split_ifs with hnone hmax
    · rw [ih (by omega), Chunk.data_of_isNone hnone]
      rfl
    · omega
    · rw [ih (by omega), ← hdata]

theorem iovBytes_eq (cs : List Chunk) :
    iovBytes (cs.map fun c => (c, c.data.length)) = pending cs := by
  rw [iovBytes, List.map_map, pending]
  congr 2
  funext c
  exact List.take_length

/-- **What was taken is what is gone from the chunks**, and if all of them are reported to be
written nothing is left. -/
theorem advanceChunks_pending (r : ℕ) (cs : List Chunk) :
    (pending cs).take r ++ pending (advanceChunks r (cs.map fun c => (c, c.data.length))).1 =
        pending cs ∧
      ((advanceChunks r (cs.map fun c => (c, c.data.length))).2 = true →
        pending (advanceChunks r (cs.map fun c => (c, c.data.length))).1 = []) := by
  induction cs generalizing r with
  | nil => exact ⟨by simp [advanceChunks], fun _ => rfl⟩
  | cons c cs ih =>
    have htake := c.take_append_data
    rw [List.map_cons, advanceChunks]
    split_ifs with hle
    · obtain ⟨hpending, hdone⟩ := ih (r - c.data.length)
      have hnil : Chunk.data { c with offset := c.offset + c.data.length } = [] := by
        have := htake c.data.length
        rwa [List.take_length, List.append_right_eq_self] at this
      simp only [pending_cons, hnil, List.nil_append]
      rw [List.take_append, List.take_of_length_le hle, List.append_assoc, hpending]
      exact ⟨rfl, hdone⟩
    · rw [List.map_map]
      have hmap : cs.map (Prod.fst ∘ fun c => (c, c.data.length)) = cs := List.map_id cs
      rw [hmap, pending_cons, pending_cons, List.take_append_of_le_length (by omega),
        ← List.append_assoc, htake]
      exact ⟨rfl, nofun⟩

theorem length_advanceChunks (r : ℕ) (v : List (Chunk × ℕ)) :
    (advanceChunks r v).1.length = v.length := by
  induction v generalizing r with
  | nil => rfl
  | cons p v ih =>
    rw [advanceChunks]
    split_ifs
    · exact congrArg (· + 1) (ih _)
    · simp

theorem advanceChunks_le {cs : List Chunk} (hcs : ∀ c ∈ cs, c.offset ≤ c.bytes.length) (r : ℕ) :
    ∀ c ∈ (advanceChunks r (cs.map fun c => (c, c.data.length))).1, c.offset ≤ c.bytes.length := by
  induction cs generalizing r with
  | nil => simp [advanceChunks]
  | cons c cs ih =>
    obtain ⟨hc, hcs⟩ := List.forall_mem_cons.mp hcs
    have hdata : c.data.length = c.bytes.length - c.offset := List.length_drop
    rw [List.map_cons, advanceChunks]
    split_ifs with hle
    · refine List.forall_mem_cons.mpr ⟨?_, ih hcs _⟩
      show c.offset + c.data.length ≤ c.bytes.length
      omega
    · refine List.forall_mem_cons.mpr ⟨?_, ?_⟩
      · show c.offset + r ≤ c.bytes.length
        omega
      · rw [List.map_map]
        exact fun d hd => hcs d (by simpa using hd)

/-- **What `writev` leaves**: the chunks without what was taken, and the rest of the queue, with
which it goes on if nothing is left of the chunks. -/
theorem afterWritev_cases (r : ℕ) (cs : List Chunk) (rest : List OutChunk)
    (next : List OutChunk → SendResult) : ∃ cs', (pending cs).take r ++ pending cs' = pending cs ∧
      cs'.length = cs.length ∧
      ((∀ c ∈ cs, c.offset ≤ c.bytes.length) → ∀ c ∈ cs', c.offset ≤ c.bytes.length) ∧
      (pending cs' = [] ∧ afterWritev r (cs.map fun c => (c, c.data.length)) rest next =
          ⟨cs'.map .mem ++ (next rest).queue, (pending cs).take r ++ (next rest).wire,
            (next rest).ret⟩ ∨
        afterWritev r (cs.map fun c => (c, c.data.length)) rest next =
          ⟨cs'.map .mem ++ rest, (pending cs).take r, .ok⟩) := by
  have htake : (pending cs).take ((pending cs).take r).length = (pending cs).take r := by
    rw [List.length_take, ← List.take_take, List.take_length]
  obtain ⟨hpending, hdone⟩ := advanceChunks_pending ((pending cs).take r).length cs
  have hlen :=
    length_advanceChunks ((pending cs).take r).length (cs.map fun c => (c, c.data.length))
  rw [htake] at hpending
  rw [List.length_map] at hlen
  refine ⟨_, hpending, hlen, fun hcs => advanceChunks_le hcs _, ?_⟩
  rw [afterWritev, iovBytes_eq]
  split_ifs with hfinished
  · exact Or.inl ⟨hdone hfinished, rfl⟩
  · exact Or.inr rfl

/-- **The pieces of memory at the front are sent whole.** -/
theorem sendMem_eq (c : Chunk) (q : List OutChunk) (hmem : memLength (.mem c :: q) ≤ ssizeMax) :
    ∃ cs rest, .mem c :: q = (c :: cs).map .mem ++ rest ∧ ∀ s next, sendMem s (.mem c :: q) next =
      match s with
      | .wrote r => afterWritev r ((c :: cs).map fun c => (c, c.data.length)) rest next
      | .again => afterWritev 0 ((c :: cs).map fun c => (c, c.data.length)) rest next
      | .closed => ⟨.mem c :: q, [], .closed⟩
      | .failed => ⟨.mem c :: q, [], .failed⟩ := by
  have hfront : frontMem uioMaxiov (.mem c :: q) = c :: frontMem 1023 q := rfl
  have happend := frontMem_append_drop uioMaxiov (.mem c :: q)
  rw [hfront] at happend
  have hsplit := congrArg memLength happend
  rw [memLength_append, memLength_map_mem] at hsplit
  refine ⟨frontMem 1023 q, _, happend.symm, fun s next => ?_⟩
  rw [sendMem.eq_def, hfront, iovs_eq (by omega)]
  simp only [List.length_map]

/-- What the loop does to a queue: what goes out is taken from its front. -/
structure Sends (files : Bytes → Bytes) (q : List OutChunk) (result : SendResult) : Prop where
  /-- No byte is lost, and none is sent twice. -/
  wire_append : result.wire ++ unsent files result.queue = unsent files q
  /-- Nothing is added. -/
  memLength_le : memLength result.queue ≤ memLength q

theorem Sends.stop (ret : SendRet) : Sends files q ⟨q, [], ret⟩ := ⟨rfl, Nat.le_refl _⟩

/-- **After `writev`.** -/
theorem Sends.afterWritev (cs : List Chunk) {rest : List OutChunk} (r : ℕ)
    {next : List OutChunk → SendResult} (hnext : Sends files rest (next rest)) :
    Sends files (cs.map .mem ++ rest)
      (afterWritev r (cs.map fun c => (c, c.data.length)) rest next) := by
  obtain ⟨cs', hpending, -, -, hcases⟩ := afterWritev_cases r cs rest next
  rcases hcases with ⟨hnil, heq⟩ | heq
  · rw [hnil, List.append_nil] at hpending
    rw [heq]
    refine ⟨?_, ?_⟩
    · rw [unsent_append, unsent_append, unsent_map_mem, unsent_map_mem, hnil, List.nil_append,
        hpending, List.append_assoc, hnext.wire_append]
    · rw [memLength_append, memLength_append, memLength_map_mem, memLength_map_mem, hnil]
      exact Nat.add_le_add (Nat.zero_le _) hnext.memLength_le
  · have hlen := congrArg List.length hpending
    rw [List.length_append] at hlen
    rw [heq]
    refine ⟨?_, ?_⟩
    · rw [unsent_append, unsent_append, unsent_map_mem, unsent_map_mem, ← List.append_assoc,
        hpending]
    · rw [memLength_append, memLength_append, memLength_map_mem, memLength_map_mem]
      omega

/-- A stretch of which something was taken. -/
theorem OutChunk.take_append_file (files : Bytes → Bytes) (name : Bytes)
    (start length offset r : ℕ) :
    (OutChunk.data files (.file name start length offset)).take r ++
        OutChunk.data files (.file name start length
          (offset + ((OutChunk.data files (.file name start length offset)).take r).length)) =
      OutChunk.data files (.file name start length offset) := by
  have hdata : ∀ o, OutChunk.data files (.file name start length o) =
      ((files name).drop (start + o)).take (length - o) := fun _ => rfl
  generalize hn : ((OutChunk.data files (.file name start length offset)).take r).length = n
  have hle : n ≤ length - offset := by
    rw [← hn, hdata, List.length_take, List.length_take]
    omega
  have htake : (OutChunk.data files (.file name start length offset)).take r =
      (OutChunk.data files (.file name start length offset)).take n := by
    rw [← hn, List.length_take, ← List.take_take, List.take_length]
  have hdrop : (OutChunk.data files (.file name start length offset)).drop n =
      OutChunk.data files (.file name start length (offset + n)) := by
    rw [hdata, hdata, List.drop_take, List.drop_drop, Nat.add_assoc, Nat.sub_add_eq]
  rw [htake, ← hdrop, List.take_append_drop]

/-- **After `sendfile`.** -/
theorem Sends.afterSendfile (r : ℕ) (name : Bytes) (start length offset : ℕ)
    {next : List OutChunk → SendResult} (hnext : Sends files q (next q)) :
    Sends files (.file name start length offset :: q)
      (afterSendfile files r name start length offset q next) := by
  have htake := OutChunk.take_append_file files name start length offset r
  rw [InstantMirror.afterSendfile]
  split_ifs with hdone
  · have hnil : OutChunk.data files (.file name start length
        (offset + ((OutChunk.data files (.file name start length offset)).take r).length)) = [] :=
      OutChunk.data_of_finished (decide_eq_true hdone)
    rw [hnil, List.append_nil] at htake
    refine ⟨?_, hnext.memLength_le⟩
    rw [unsent_cons, unsent_cons, hnil, List.nil_append, htake, List.append_assoc,
      hnext.wire_append]
  · refine ⟨?_, Nat.le_refl _⟩
    rw [unsent_cons, unsent_cons, ← List.append_assoc, htake]

/-- **The loop.** -/
theorem sends_networkWriteChunkqueueLinuxsendfile (files : Bytes → Bytes) (results : List Sent)
    (hmem : memLength q ≤ ssizeMax) :
    Sends files q (networkWriteChunkqueueLinuxsendfile files results q) := by
  induction results generalizing q with
  | nil => exact Sends.stop _
  | cons s results ih =>
    rcases q with _ | ⟨c | ⟨name, start, length, offset⟩, q⟩
    · exact Sends.stop _
    · obtain ⟨cs, rest, hsplit, hsend⟩ := sendMem_eq c q hmem
      have hlen := congrArg memLength hsplit
      rw [memLength_append] at hlen
      have hcall := fun r => Sends.afterWritev (c :: cs) r (ih (q := rest) (by omega))
      rw [← hsplit] at hcall
      rw [networkWriteChunkqueueLinuxsendfile, hsend]
      cases s with
      | wrote r => exact hcall r
      | again => exact hcall 0
      | closed => exact Sends.stop _
      | failed => exact Sends.stop _
    · rw [networkWriteChunkqueueLinuxsendfile, sendFile.eq_def]
      cases s with
      | wrote r =>
        dsimp only
        split_ifs
        · exact Sends.stop _
        · exact Sends.stop _
        · exact Sends.afterSendfile _ _ _ _ _ (ih hmem)
      | again => exact Sends.afterSendfile _ _ _ _ _ (ih hmem)
      | closed => exact Sends.stop _
      | failed => exact Sends.stop _

theorem memLength_dropWhile_le (p : OutChunk → Bool) (q : List OutChunk) :
    memLength (q.dropWhile p) ≤ memLength q := by
  have hsplit := congrArg memLength (List.takeWhile_append_dropWhile (p := p) (l := q))
  rw [memLength_append] at hsplit
  omega

/-- **One call of `network_write_chunkqueue`.** -/
theorem networkWriteChunkqueue_spec (files : Bytes → Bytes) (limited : Bool) (results : List Sent)
    (hmem : memLength q ≤ ssizeMax) :
    (networkWriteChunkqueue files limited results q).2.1 ++
          unsent files (networkWriteChunkqueue files limited results q).1 = unsent files q ∧
      memLength (networkWriteChunkqueue files limited results q).1 ≤ memLength q ∧
      ((networkWriteChunkqueue files limited results q).2.2 = .complete →
        (networkWriteChunkqueue files limited results q).1 = []) := by
  have hsends := sends_networkWriteChunkqueueLinuxsendfile files results hmem
  rw [networkWriteChunkqueue]
  split_ifs
  · exact ⟨rfl, Nat.le_refl _, nofun⟩
  · generalize networkWriteChunkqueueLinuxsendfile files results q = result at hsends ⊢
    obtain ⟨queue, wire, ret⟩ := result
    cases ret with
    | ok =>
      refine ⟨?_, ?_, ?_⟩
      · exact (congrArg (wire ++ ·) (unsent_removeFinished files queue)).trans hsends.wire_append
      · exact (memLength_dropWhile_le _ _).trans hsends.memLength_le
      · dsimp only
        split_ifs with hempty
        · exact fun _ => List.isEmpty_iff.mp hempty
        · exact nofun
    | failed => exact ⟨hsends.wire_append, hsends.memLength_le, nofun⟩
    | closed => exact ⟨hsends.wire_append, hsends.memLength_le, nofun⟩

end Calls

/-! ### What the client gets -/

section Answer

variable (files : Bytes → Bytes) (q : List OutChunk)

/-- **The answer**: what was in the queue, and what has been appended to it. -/
def answer (h : List WriteEvent) : Bytes := unsent files q ++ unsent files (appendedChunks h)

/-- **What was sent is the answer**, from its beginning, and all of it where the queue is reported
to be empty. -/
def IsAnswer (before : List WriteEvent) : WriteEvent → Prop
  | .status .complete => sentBytes before = answer files q before
  | _ => sentBytes before <+: answer files q before

/-- There was no more in memory than `SSIZE_MAX` bytes. -/
def MemBound (before : List WriteEvent) (_ : WriteEvent) : Prop :=
  memLength q + memLength (appendedChunks before) ≤ ssizeMax

/-- The invariant: what was sent and what is left is the answer. -/
structure WriterOk (h : List WriteEvent) (q' : List OutChunk) : Prop where
  /-- No byte is lost, and none is sent twice. -/
  bytes : sentBytes h ++ unsent files q' = answer files q h
  /-- There is no more in memory than was put there. -/
  memLength_le : memLength q' ≤ memLength q + memLength (appendedChunks h)

variable {files q}

theorem sentBytes_append (h h' : List WriteEvent) :
    sentBytes (h ++ h') = sentBytes h ++ sentBytes h' := List.flatMap_append

theorem appendedChunks_append (h h' : List WriteEvent) :
    appendedChunks (h ++ h') = appendedChunks h ++ appendedChunks h' := List.flatMap_append

theorem answer_append (h h' : List WriteEvent) :
    answer files q (h ++ h') = answer files q h ++ unsent files (appendedChunks h') := by
  rw [answer, appendedChunks_append, unsent_append, ← List.append_assoc]
  rfl

/-- **One step.** -/
theorem WriterOk.step {h : List WriteEvent} {q' : List OutChunk} (hok : WriterOk files q h q')
    (i : WriteInput) (hmem : memLength q + memLength (appendedChunks h) ≤ ssizeMax) :
    Along (fun before => IsAnswer files q (h ++ before)) (writerStep files i q').2 ∧
      ∀ q'', (writerStep files i q').1 = some q'' →
        WriterOk files q (h ++ (writerStep files i q').2) q'' := by
  have hprefix : sentBytes h <+: answer files q h := ⟨_, hok.bytes⟩
  cases i with
  | append c =>
    refine ⟨along_singleton.mpr (by rwa [List.append_nil]), fun q'' hq'' => ?_⟩
    obtain rfl := Option.some.inj hq''
    refine ⟨?_, ?_⟩
    · rw [sentBytes_append, answer_append, unsent_append, ← hok.bytes]
      simp [writerStep, sentBytes, appendedChunks]
    · have := hok.memLength_le
      rw [appendedChunks_append, memLength_append, memLength_append]
      exact (Nat.add_le_add_right this _).trans (Nat.le_of_eq (Nat.add_assoc _ _ _))
  | write limited results =>
    obtain ⟨hbytes, hle, hdone⟩ := networkWriteChunkqueue_spec files limited results
      (hok.memLength_le.trans hmem)
    rw [writerStep]
    generalize networkWriteChunkqueue files limited results q' = r at *
    obtain ⟨queue, wire, status⟩ := r
    have hanswer : ∀ h', appendedChunks h' = [] → answer files q (h ++ h') = answer files q h := by
      intro h' hnil
      rw [answer_append, hnil, unsent_nil, List.append_nil]
    have hsent : sentBytes (h ++ [.sent wire]) ++ unsent files queue = answer files q h := by
      rw [sentBytes_append, ← hok.bytes, ← hbytes, List.append_assoc]
      simp [sentBytes]
    refine ⟨along_cons.mpr ⟨?_, along_singleton.mpr ?_⟩, fun q'' hq'' => ?_⟩
    · rwa [List.append_nil]
    · cases status with
      | complete =>
        have hnil : queue = [] := hdone rfl
        rw [hnil, unsent_nil, List.append_nil] at hsent
        exact hsent.trans (hanswer [.sent wire] rfl).symm
      | wait => exact ⟨_, hsent.trans (hanswer [.sent wire] rfl).symm⟩
      | failed => exact ⟨_, hsent.trans (hanswer [.sent wire] rfl).symm⟩
    · dsimp only at hq''
      split_ifs at hq''
      obtain rfl := Option.some.inj hq''
      refine ⟨?_, ?_⟩
      · rw [hanswer _ rfl, ← hsent]
        simp [sentBytes]
      · rw [appendedChunks_append]
        simpa [appendedChunks] using hle.trans hok.memLength_le

/-- **The client gets the answer**: whatever is appended and whatever the socket takes at each call,
what was sent is at any time the answer from its beginning, and all of it when the queue is reported
to be empty, as long as there are no more than `SSIZE_MAX` bytes in memory. -/
theorem sent_is_answer (files : Bytes → Bytes) (q : List OutChunk) (inputs : List WriteInput)
    (hmem : memLength q + memLength (appendedChunks ((writer files).run inputs q).2) ≤ ssizeMax) :
    Along (IsAnswer files q) ((writer files).run inputs q).2 := by
  have hstart : WriterOk files q [] q :=
    ⟨(List.append_nil _).symm, Nat.le_refl _⟩
  have hcond : Along (MemBound q) ((writer files).run inputs q).2 := by
    intro before e after h
    rw [h, appendedChunks_append, memLength_append] at hmem
    rw [MemBound]
    omega
  have hstep : ∀ i h q', WriterOk files q h q' →
      Along (fun before => MemBound q (h ++ before)) ((writer files).step i q').2 →
      Along (fun before => IsAnswer files q (h ++ before)) ((writer files).step i q').2 ∧
        ∀ q'', ((writer files).step i q').1 = some q'' →
          WriterOk files q (h ++ ((writer files).step i q').2) q'' := by
    intro i h q' hok hcond
    -- each step has an event, so that the bound holds before it
    have hbound : memLength q + memLength (appendedChunks (h ++ [])) ≤ ssizeMax := by
      cases i with
      | append c => exact hcond [] _ _ rfl
      | write limited results => exact hcond [] _ _ rfl
    rw [List.append_nil] at hbound
    exact hok.step i hbound
  exact (Machine.run_along hstep inputs [] q hstart hcond).1

/-- The file of the next examples has three bytes. -/
def threeBytes : Bytes → Bytes := fun _ => [1, 2, 3]

/-- A header and a file, of which the socket takes two bytes at a time. -/
theorem sent_is_answer_threeBytes :
    Along (IsAnswer threeBytes [.mem ⟨some [72], 0⟩, .file [] 0 3 0])
      ((writer threeBytes).run (List.replicate 2 (.write false [.wrote 2, .wrote 2]))
        [.mem ⟨some [72], 0⟩, .file [] 0 3 0]).2 :=
  sent_is_answer _ _ _ (by decide)

end Answer

/-! ### Every answer gets through -/

section Progress

variable {files : Bytes → Bytes} {q : List OutChunk}

/-- **A chunk that can be sent**: its offset is not behind its end, and a stretch of a file is in
the file and not yet sent. -/
def OutChunk.Ok (files : Bytes → Bytes) : OutChunk → Prop
  | .mem c => c.offset ≤ c.bytes.length
  | .file name start length offset => offset < length ∧ start + length ≤ (files name).length

/-- The socket takes something, or nothing for now. -/
def Sent.Ok : Sent → Prop
  | .wrote r => 0 < r
  | .again => True
  | .closed => False
  | .failed => False

/-- **A call with a socket that is ready**: it takes something at first, and does not fail later. -/
def Ready (results : List Sent) : Prop :=
  ∃ r rest, results = .wrote (r + 1) :: rest ∧ ∀ s ∈ rest, s.Ok

/-- What the loop leaves: chunks that were sent, and chunks that can be. -/
structure Leaves (files : Bytes → Bytes) (q : List OutChunk) (result : SendResult) : Prop where
  /-- The socket did not fail. -/
  ret : result.ret = .ok
  /-- No chunk is added. -/
  length_eq : result.queue.length = q.length
  /-- The chunks that were sent are in front of the others. -/
  ok : ∃ done rest, result.queue = done ++ rest ∧ (∀ c ∈ done, c.finished = true) ∧
    ∀ c ∈ rest, c.Ok files

theorem Leaves.stop (hq : ∀ c ∈ q, c.Ok files) : Leaves files q ⟨q, [], .ok⟩ :=
  ⟨rfl, rfl, [], q, rfl, by simp, hq⟩

/-- A chunk of which nothing is left. -/
theorem Chunk.finished_of_data {c : Chunk} (hc : c.offset ≤ c.bytes.length) (h : c.data = []) :
    c.finished = true := by
  have := List.drop_eq_nil_iff.mp h
  rw [Chunk.finished, Bool.or_eq_true, decide_eq_true_eq]
  exact Or.inr (Nat.le_antisymm hc this)

theorem finished_of_pending {cs : List Chunk} (hcs : ∀ c ∈ cs, c.offset ≤ c.bytes.length)
    (h : pending cs = []) : ∀ c ∈ cs.map OutChunk.mem, c.finished = true := by
  intro c hc
  obtain ⟨d, hd, rfl⟩ := List.mem_map.mp hc
  refine Chunk.finished_of_data (hcs d hd) ?_
  exact List.flatten_eq_nil_iff.mp h _ (List.mem_map_of_mem hd)

theorem offset_le_of_ok {cs : List Chunk} (h : ∀ c ∈ cs.map OutChunk.mem, c.Ok files) :
    ∀ c ∈ cs, c.offset ≤ c.bytes.length := fun _ hc => h _ (List.mem_map_of_mem hc)

/-- **After `writev`.** -/
theorem Leaves.afterWritev {cs : List Chunk} {rest : List OutChunk} (r : ℕ)
    {next : List OutChunk → SendResult} (hcs : ∀ c ∈ cs, c.offset ≤ c.bytes.length)
    (hrest : ∀ c ∈ rest, c.Ok files) (hnext : Leaves files rest (next rest)) :
    Leaves files (cs.map .mem ++ rest)
      (afterWritev r (cs.map fun c => (c, c.data.length)) rest next) := by
  obtain ⟨cs', -, hlen, hle, hcases⟩ := afterWritev_cases r cs rest next
  rcases hcases with ⟨hnil, heq⟩ | heq
  · obtain ⟨hret, hlength, done, rest', hqueue, hdone, hrest'⟩ := hnext
    rw [heq]
    refine ⟨hret, ?_, cs'.map .mem ++ done, rest', ?_, ?_, hrest'⟩
    · rw [List.length_append, List.length_map, hlen, hlength, List.length_append, List.length_map]
    · rw [hqueue, List.append_assoc]
    · intro c hc
      rcases List.mem_append.mp hc with hc | hc
      · exact finished_of_pending (hle hcs) hnil c hc
      · exact hdone c hc
  · rw [heq]
    refine ⟨rfl, ?_, [], cs'.map .mem ++ rest, rfl, by simp, ?_⟩
    · rw [List.length_append, List.length_map, hlen, List.length_append, List.length_map]
    · intro c hc
      rcases List.mem_append.mp hc with hc | hc
      · obtain ⟨d, hd, rfl⟩ := List.mem_map.mp hc
        exact hle hcs d hd
      · exact hrest c hc

/-- **After `sendfile`.** -/
theorem Leaves.afterSendfile (r : ℕ) {name : Bytes} {start length offset : ℕ}
    {next : List OutChunk → SendResult} (hc : OutChunk.Ok files (.file name start length offset))
    (hq : ∀ c ∈ q, c.Ok files) (hnext : Leaves files q (next q)) :
    Leaves files (.file name start length offset :: q)
      (afterSendfile files r name start length offset q next) := by
  have hle : ((OutChunk.data files (.file name start length offset)).take r).length ≤
      length - offset := by
    rw [OutChunk.data, List.length_take, List.length_take]
    omega
  obtain ⟨hlt, hfile⟩ := hc
  rw [InstantMirror.afterSendfile]
  split_ifs with hfinished
  · obtain ⟨hret, hlength, done, rest, heq, hdone, hrest⟩ := hnext
    refine ⟨hret, congrArg (· + 1) hlength, _ :: done, rest, congrArg _ heq, ?_, hrest⟩
    exact List.forall_mem_cons.mpr ⟨decide_eq_true hfinished, hdone⟩
  · refine ⟨rfl, rfl, [], _, rfl, by simp, List.forall_mem_cons.mpr ⟨⟨?_, hfile⟩, hq⟩⟩
    omega

/-- A stretch that can be sent has bytes. -/
theorem OutChunk.Ok.length_data {name : Bytes} {start length offset : ℕ}
    (h : OutChunk.Ok files (.file name start length offset)) :
    (OutChunk.data files (.file name start length offset)).length = length - offset := by
  obtain ⟨hlt, hfile⟩ := h
  rw [OutChunk.data, List.length_take, List.length_drop]
  omega

/-- **The loop.** -/
theorem leaves_networkWriteChunkqueueLinuxsendfile {results : List Sent}
    (hresults : ∀ s ∈ results, s.Ok) (hq : ∀ c ∈ q, c.Ok files) (hmem : memLength q ≤ ssizeMax) :
    Leaves files q (networkWriteChunkqueueLinuxsendfile files results q) := by
  induction results generalizing q with
  | nil => exact Leaves.stop hq
  | cons s results ih =>
    obtain ⟨hs, hresults⟩ := List.forall_mem_cons.mp hresults
    rcases q with _ | ⟨c | ⟨name, start, length, offset⟩, q⟩
    · exact Leaves.stop hq
    · obtain ⟨cs, rest, hsplit, hsend⟩ := sendMem_eq c q hmem
      have hlen := congrArg memLength hsplit
      rw [memLength_append] at hlen
      rw [hsplit] at hq
      obtain ⟨hcs, hrest⟩ := List.forall_mem_append.mp hq
      have hcall := fun r => Leaves.afterWritev r (offset_le_of_ok hcs) hrest
        (ih hresults hrest (by omega))
      rw [← hsplit] at hcall
      rw [networkWriteChunkqueueLinuxsendfile, hsend]
      cases s with
      | wrote r => exact hcall r
      | again => exact hcall 0
      | closed => exact hs.elim
      | failed => exact hs.elim
    · obtain ⟨hc, hq⟩ := List.forall_mem_cons.mp hq
      have hcall := fun r => Leaves.afterSendfile r hc hq (ih hresults hq hmem)
      rw [networkWriteChunkqueueLinuxsendfile, sendFile.eq_def]
      cases s with
      | wrote r =>
        have hsome : (OutChunk.data files (.file name start length offset)).take
            (min r sendfileMax) ≠ [] := by
          have hlen := hc.length_data
          have hlt := hc.1
          have hr : 0 < r := hs
          have hmax : 0 < sendfileMax := Nat.succ_pos _
          rw [ne_eq, List.take_eq_nil_iff, ← List.length_eq_zero_iff]
          omega
        dsimp only
        rw [if_neg hsome]
        exact hcall _
      | again => exact hcall 0
      | closed => exact hs.elim
      | failed => exact hs.elim

/-- **Each call sends something**, or the first chunk was empty. -/
theorem wire_ne_nil_of_ready {results : List Sent} (hready : Ready results) {c : OutChunk}
    (hq : ∀ d ∈ c :: q, d.Ok files) (hmem : memLength (c :: q) ≤ ssizeMax) :
    (networkWriteChunkqueueLinuxsendfile files results (c :: q)).wire ≠ [] ∨
      ∃ d rest, (networkWriteChunkqueueLinuxsendfile files results (c :: q)).queue = d :: rest ∧
        d.finished = true := by
  obtain ⟨r, results, rfl, -⟩ := hready
  rcases c with c | ⟨name, start, length, offset⟩
  · obtain ⟨cs, rest, hsplit, hsend⟩ := sendMem_eq c q hmem
    rw [hsplit] at hq
    have hcs := offset_le_of_ok (List.forall_mem_append.mp hq).1
    obtain ⟨cs', hpending, hlen, hle, hcases⟩ := afterWritev_cases (r + 1) (c :: cs) rest
      (networkWriteChunkqueueLinuxsendfile files results)
    rw [networkWriteChunkqueueLinuxsendfile, hsend]
    dsimp only
    rcases hnil : pending (c :: cs) with _ | ⟨b, bytes⟩
    · -- there was nothing to be sent in these pieces
      rw [hnil, List.take_nil, List.nil_append] at hpending
      obtain ⟨d, cs'', rfl⟩ := List.exists_of_length_succ cs' hlen
      have hfinished := finished_of_pending (hle hcs) hpending (.mem d) List.mem_cons_self
      rcases hcases with ⟨-, heq⟩ | heq
      all_goals exact Or.inr ⟨.mem d, _, congrArg SendResult.queue heq, hfinished⟩
    · rw [hnil] at hcases
      refine Or.inl ?_
      rcases hcases with ⟨-, heq⟩ | heq
      all_goals
        rw [heq]
        exact List.cons_ne_nil _ _
  · have hc := hq _ List.mem_cons_self
    have hlen := hc.length_data
    have hlt := hc.1
    have hsome : (OutChunk.data files (.file name start length offset)).take
        (min (r + 1) sendfileMax) ≠ [] := by
      have hmax : 0 < sendfileMax := Nat.succ_pos _
      rw [ne_eq, List.take_eq_nil_iff, ← List.length_eq_zero_iff]
      omega
    refine Or.inl ?_
    rw [networkWriteChunkqueueLinuxsendfile, sendFile.eq_def]
    dsimp only
    rw [if_neg hsome, afterSendfile]
    split_ifs
    · exact fun h => hsome (List.append_eq_nil_iff.mp h).1
    · exact hsome

/-- **A call with a socket that is ready** reports that the queue is empty, or makes it smaller. -/
theorem networkWriteChunkqueue_of_ready {results : List Sent} (hready : Ready results)
    (hq : ∀ c ∈ q, c.Ok files) (hmem : memLength q ≤ ssizeMax) :
    (networkWriteChunkqueue files false results q).2.2 = .complete ∨
      (networkWriteChunkqueue files false results q).2.2 = .wait ∧
        (networkWriteChunkqueue files false results q).1 ≠ [] ∧
        (∀ c ∈ (networkWriteChunkqueue files false results q).1, c.Ok files) ∧
        (unsent files (networkWriteChunkqueue files false results q).1).length +
            (networkWriteChunkqueue files false results q).1.length <
          (unsent files q).length + q.length := by
  have hresults : ∀ s ∈ results, s.Ok := by
    obtain ⟨r, rest, rfl, hrest⟩ := hready
    exact List.forall_mem_cons.mpr ⟨Nat.succ_pos r, hrest⟩
  have hsends := sends_networkWriteChunkqueueLinuxsendfile files results hmem
  have hleaves := leaves_networkWriteChunkqueueLinuxsendfile hresults hq hmem
  have hwire : q ≠ [] → (networkWriteChunkqueueLinuxsendfile files results q).wire ≠ [] ∨
      ∃ d rest, (networkWriteChunkqueueLinuxsendfile files results q).queue = d :: rest ∧
        d.finished = true := by
    rcases q with _ | ⟨c, q⟩
    · exact fun h => absurd rfl h
    · exact fun _ => wire_ne_nil_of_ready hready hq hmem
  rw [networkWriteChunkqueue, if_neg (Bool.false_ne_true)]
  generalize networkWriteChunkqueueLinuxsendfile files results q = result at *
  obtain ⟨queue, wire, ret⟩ := result
  obtain ⟨hret, hlength, done, rest, hqueue, hdone, hrest⟩ := hleaves
  obtain rfl : ret = .ok := hret
  dsimp only at *
  have hlen := congrArg List.length hsends.wire_append
  rw [List.length_append] at hlen
  have hremoved := unsent_removeFinished files queue
  have hle : (queue.dropWhile OutChunk.finished).length ≤ queue.length :=
    (List.dropWhile_sublist _).length_le
  split_ifs with hempty
  · exact Or.inl rfl
  · refine Or.inr ⟨rfl, by simpa using hempty, ?_, ?_⟩
    · rw [hqueue, List.dropWhile_append_of_pos hdone]
      exact fun c hc => hrest c ((List.dropWhile_sublist _).subset hc)
    · rw [hremoved]
      have hne : q ≠ [] := by
        rintro rfl
        obtain rfl := List.length_eq_zero_iff.mp hlength
        exact hempty rfl
      rcases hwire hne with hwire | ⟨d, rest', rfl, hd⟩
      · have := List.length_pos_iff.mpr hwire
        simp only at hlen
        omega
      · have hlt : ((d :: rest').dropWhile OutChunk.finished).length < (d :: rest').length := by
          rw [List.dropWhile_cons_of_pos hd]
          exact Nat.lt_succ_of_le (List.dropWhile_sublist _).length_le
        simp only at hlen
        omega

/-- **Every answer gets through**: if the socket takes something at each call, the queue is reported
to be empty after as many calls as there are bytes and chunks to be sent, at the latest, and after
one if there are none. -/
theorem exists_complete (files : Bytes → Bytes) (q : List OutChunk) (hq : ∀ c ∈ q, c.Ok files)
    (hmem : memLength q ≤ ssizeMax) (calls : List (List Sent)) (hcalls : ∀ r ∈ calls, Ready r)
    (hmany : max 1 ((unsent files q).length + q.length) ≤ calls.length) :
    .status .complete ∈ ((writer files).run (calls.map (.write false)) q).2 := by
  induction calls generalizing q with
  | nil => exact absurd ((le_max_left 1 _).trans hmany) (by decide)
  | cons results calls ih =>
    obtain ⟨hready, hcalls⟩ := List.forall_mem_cons.mp hcalls
    have hle := (networkWriteChunkqueue_spec files false results hmem).2.1
    have hstep : ∀ w, (networkWriteChunkqueue files false results q).2.2 = w →
        (writer files).step (.write false results) q =
          (if w = .failed then none else some (networkWriteChunkqueue files false results q).1,
            [.sent (networkWriteChunkqueue files false results q).2.1, .status w]) := by
      rintro w rfl
      rfl
    rw [List.map_cons]
    rcases networkWriteChunkqueue_of_ready hready hq hmem with hdone | ⟨hwait, hne, hok, hlt⟩
    · rw [Machine.run_cons_next _ (congrArg Prod.fst (hstep _ hdone)), hstep _ hdone]
      exact List.mem_append_left _ (List.mem_cons_of_mem _ List.mem_cons_self)
    · rw [Machine.run_cons_next _ (congrArg Prod.fst (hstep _ hwait))]
      rw [List.length_cons] at hmany
      have hpos := List.length_pos_iff.mpr hne
      exact List.mem_append_right _ (ih _ hok (hle.trans hmem) hcalls (by omega))

/-- A header and a file, of which the socket takes one byte at a time. -/
theorem exists_complete_threeBytes :
    .status .complete ∈ ((writer threeBytes).run
      ((List.replicate 6 [.wrote 1]).map (.write false))
      [.mem ⟨some [72], 0⟩, .file [] 0 3 0]).2 := by
  refine exists_complete threeBytes _ ?_ (by decide) _ ?_ (by decide)
  · simp [OutChunk.Ok, Chunk.bytes, threeBytes]
  · intro r hr
    exact ⟨0, [], List.eq_of_mem_replicate hr, by simp⟩

end Progress

end InstantMirror
