import InstantMirror.Lib.Search
import InstantMirror.Lighttpd.ReadQueue

/-!
# Where a request ends

The search of `connection_handle_read_state` for the end of a header looks from one chunk only into
the next one. As long as three bytes or more arrive with each read, it finds the end of the header
as soon as it is there, and the requests depend on the stream alone
(`InstantMirror.requests_framed`); if the bytes arrive one by one, no request is ever found
(`InstantMirror.no_request_byte_by_byte`).
-/

namespace InstantMirror

/-! ### Where the header ends -/

section Search

variable {c : Chunk} {q q' : List Chunk} {k : ℕ}

/-- **The header at the front of a stream**: up to the first empty line, with it. -/
def headerOf (stream : Bytes) : Option Bytes :=
  (firstIn headerEnd [] stream).map fun p => stream.take (p + 4)

/-- What the search sees of the next chunk. -/
def lookaheadBytes (lookahead : Option Chunk) : Bytes := (lookahead.map Chunk.bytes).getD []

/-- An empty line that begins in a chunk and ends in the next one. -/
theorem headerEnd_prefix_iff {rest : Bytes} (hrest : rest.length ≤ 4) (bytes : Bytes) :
    headerEnd <+: rest ++ bytes ↔ rest = headerEnd.take rest.length ∧
      bytes.take (4 - rest.length) = headerEnd.drop rest.length := by
  have hlen : headerEnd.length = 4 := rfl
  rw [List.prefix_iff_eq_take, hlen, List.take_append, List.take_of_length_le hrest]
  constructor
  · intro h
    have hsplit := (List.take_append_drop rest.length headerEnd).trans h
    obtain ⟨htake, hdrop⟩ := List.append_inj hsplit (by rw [List.length_take]; omega)
    exact ⟨htake.symm, hdrop.symm⟩
  · rintro ⟨htake, hdrop⟩
    calc headerEnd = headerEnd.take rest.length ++ headerEnd.drop rest.length :=
          (List.take_append_drop _ _).symm
      _ = rest ++ bytes.take (4 - rest.length) := by rw [← htake, hdrop]

theorem Chunk.lt_used_iff (c : Chunk) {n : ℕ} (hn : 0 < n) : n < c.used ↔ n ≤ c.bytes.length := by
  rw [Chunk.used, Chunk.bytes]
  cases c.mem
  · simp only [Option.getD_none, List.length_nil]
    omega
  · exact Nat.lt_succ_iff

/-- **The look-up**: whether the empty line is there, in this chunk and the next one. -/
theorem lookup_eq (lookahead : Option Chunk) (i : ℕ) (rest : Bytes) :
    lookup lookahead i rest =
      if headerEnd <+: rest ++ lookaheadBytes lookahead then
        some (if 4 ≤ rest.length then .here (i + 4) else .next (4 - rest.length))
      else none := by
  have hlen : headerEnd.length = 4 := rfl
  rw [lookup.eq_def]
  by_cases hfour : 4 ≤ rest.length
  · have hiff : rest.take 4 = headerEnd ↔ headerEnd <+: rest ++ lookaheadBytes lookahead := by
      rw [List.prefix_iff_eq_take, hlen, List.take_append_of_le_length hfour, eq_comm]
    simp only [hfour, if_true, hiff]
  · simp only [hfour, if_false]
    simp only [headerEnd_prefix_iff (Nat.le_of_lt (Nat.not_le.mp hfour))]
    rcases lookahead with _ | c
    · refine (if_neg fun hfound => ?_).symm
      have hnil : lookaheadBytes none = [] := rfl
      rw [hnil, List.take_nil] at hfound
      have := List.drop_eq_nil_iff.mp hfound.2.symm
      omega
    · have hbytes : lookaheadBytes (some c) = c.bytes := rfl
      simp only [hbytes, c.lt_used_iff (n := 4 - rest.length) (by omega)]
      split_ifs with hused hfound hfound
      · rfl
      · rfl
      · -- the next chunk is too short
        have := congrArg List.length hfound.2
        rw [List.length_take, List.length_drop] at this
        omega
      · rfl

/-- **The search in one chunk.** -/
theorem scanChunk_eq (lookahead : Option Chunk) (i : ℕ) (rest : Bytes) :
    scanChunk lookahead i rest = (firstIn headerEnd (lookaheadBytes lookahead) rest).map fun p =>
      if p + 4 ≤ rest.length then .here (i + p + 4) else .next (p + 4 - rest.length) := by
  induction rest generalizing i with
  | nil => rfl
  | cons ch rest ih =>
    have hfirst : headerEnd <+: ch :: rest ++ lookaheadBytes lookahead → ch = 13 := by
      intro h
      exact (List.cons_prefix_cons.mp h).1.symm
    rw [scanChunk, firstIn, ih, lookup_eq]
    by_cases hhere : headerEnd <+: ch :: rest ++ lookaheadBytes lookahead
    · rw [if_pos (hfirst hhere), if_pos hhere, if_pos hhere]
      simp only [Option.map_some, Nat.zero_add, Nat.add_zero]
    · simp only [hhere, if_false, ite_self]
      rcases firstIn headerEnd (lookaheadBytes lookahead) rest with _ | p
      · rfl
      · simp only [Option.map_some, List.length_cons, Option.some.injEq]
        have hle : p + 1 + 4 ≤ rest.length + 1 ↔ p + 4 ≤ rest.length := by omega
        simp only [hle]
        split_ifs
        · congr 1
          omega
        · congr 1
          omega

/-- **A queue from the front of which something has been taken.** -/
inductive Consumed : List Chunk → List Chunk → Prop where
  /-- Nothing has. -/
  | keep (q : List Chunk) : Consumed q q
  /-- A part of the first chunk has. -/
  | part (c : Chunk) (q : List Chunk) (n : ℕ) (hn : n ≤ c.data.length) :
      Consumed (c :: q) ({ c with offset := c.offset + n } :: q)
  /-- All of the first chunk has. -/
  | full (c : Chunk) {q q' : List Chunk} (h : Consumed q q') :
      Consumed (c :: q) ({ c with offset := c.bytes.length } :: q')

theorem copyHeader_succ (i n : ℕ) (c : Chunk) (q : List Chunk) : copyHeader (i + 1) n (c :: q) =
    (c.data ++ (copyHeader i n q).1,
      { c with offset := c.bytes.length } :: (copyHeader i n q).2) := rfl

/-- **The search in the queue** is one in its parts, and what is copied is the header. -/
theorem findLast_cases (hq : ∀ c ∈ q.tail, c.offset = 0) :
    searchParts headerEnd (q.map Chunk.data) = none ∧ findLast q = none ∨
      ∃ p i n, searchParts headerEnd (q.map Chunk.data) = some p ∧ findLast q = some (i, n) ∧
        (copyHeader i n q).1 = (pending q).take (p + 4) ∧ Consumed q (copyHeader i n q).2 := by
  induction q with
  | nil => exact Or.inl ⟨rfl, rfl⟩
  | cons c q ih =>
    have hnext : (q.map Chunk.data).head?.getD [] = lookaheadBytes q.head? := by
      rcases q with _ | ⟨next, q⟩
      · rfl
      · exact congrArg (List.drop · next.bytes) (hq next List.mem_cons_self)
    rw [List.map_cons, searchParts, findLast, scanChunk_eq, hnext]
    rcases hfirst : firstIn headerEnd (lookaheadBytes q.head?) c.data with _ | p
    · rcases ih fun d hd => hq d (List.mem_of_mem_tail hd) with
        ⟨hparts, hfind⟩ | ⟨p, i, n, hparts, hfind, hcopy, hconsumed⟩
      · refine Or.inl ⟨?_, ?_⟩
        · simp [hparts]
        · simp [hfind]
      · refine Or.inr ⟨c.data.length + p, i + 1, n, ?_, ?_, ?_, .full c hconsumed⟩
        · simp [hparts]
        · simp [hfind]
        · rw [copyHeader_succ, hcopy, pending_cons, Nat.add_assoc, List.take_length_add_append]
    · refine Or.inr ?_
      obtain ⟨hlt, hpre, -⟩ := firstIn_eq_some hfirst
      simp only [Option.map_some, Nat.zero_add]
      split_ifs with hhere
      · refine ⟨p, 0, p + 4, rfl, rfl, ?_, .part c q _ hhere⟩
        rw [copyHeader, pending_cons, List.take_append_of_le_length hhere]
      · -- the rest of the empty line is at the beginning of the next chunk
        refine ⟨p, 1, p + 4 - c.data.length, rfl, rfl, ?_⟩
        have hlen := hpre.length_le
        rw [List.length_append, List.length_drop, ← hnext] at hlen
        have hfour : headerEnd.length = 4 := rfl
        rcases q with _ | ⟨next, q⟩
        · simp only [List.map_nil, List.head?_nil, Option.getD_none, List.length_nil] at hlen
          omega
        · simp only [List.map_cons, List.head?_cons, Option.getD_some] at hlen
          have hle : p + 4 - c.data.length ≤ next.data.length := by omega
          refine ⟨?_, .full c (.part next q _ hle)⟩
          rw [copyHeader_succ, copyHeader, pending_cons, pending_cons, List.take_append,
            List.take_append_of_le_length hle, List.take_of_length_le (i := p + 4) (by omega)]

/-! ### Reads that are long enough -/

/-- **The queue of a connection with reads of at least `k` bytes**: no chunk is empty, and only the
first one has been read from. -/
structure QueueOk (k : ℕ) (q : List Chunk) : Prop where
  /-- No chunk is empty. -/
  isSome : ∀ c ∈ q, c.mem.isSome
  /-- No chunk has been read beyond its end. -/
  offset_le : ∀ c ∈ q, c.offset ≤ c.bytes.length
  /-- Only the first one has been read from. -/
  offset_eq : ∀ c ∈ q.tail, c.offset = 0
  /-- The others are long enough. -/
  le_length : ∀ c ∈ q.tail, k ≤ c.bytes.length

theorem QueueOk.nil (k : ℕ) : QueueOk k [] := ⟨by simp, by simp, by simp, by simp⟩

theorem QueueOk.tail (h : QueueOk k q) : QueueOk k q.tail :=
  ⟨fun c hc => h.isSome c (List.mem_of_mem_tail hc),
    fun c hc => h.offset_le c (List.mem_of_mem_tail hc),
    fun c hc => h.offset_eq c (List.mem_of_mem_tail hc),
    fun c hc => h.le_length c (List.mem_of_mem_tail hc)⟩

theorem QueueOk.dropWhile (h : QueueOk k q) (p : Chunk → Bool) : QueueOk k (q.dropWhile p) := by
  induction q with
  | nil => exact h
  | cons c q ih =>
    rw [List.dropWhile_cons]
    split_ifs
    · exact ih h.tail
    · exact h

theorem QueueOk.append (h : QueueOk k q) {m : Bytes} (hm : k ≤ m.length) :
    QueueOk k (q ++ [⟨some m, 0⟩]) := by
  refine ⟨?_, ?_, ?_, ?_⟩
  · intro c hc
    rcases List.mem_append.mp hc with hc | hc
    · exact h.isSome c hc
    · rw [List.mem_singleton.mp hc]
      rfl
  · intro c hc
    rcases List.mem_append.mp hc with hc | hc
    · exact h.offset_le c hc
    · rw [List.mem_singleton.mp hc]
      exact Nat.zero_le _
  · intro c hc
    rcases q with _ | ⟨d, q⟩
    · cases hc
    · rcases List.mem_append.mp hc with hc | hc
      · exact h.offset_eq c hc
      · rw [List.mem_singleton.mp hc]
  · intro c hc
    rcases q with _ | ⟨d, q⟩
    · cases hc
    · rcases List.mem_append.mp hc with hc | hc
      · exact h.le_length c hc
      · rw [List.mem_singleton.mp hc]
        exact hm

theorem dropEmptyNext_eq : ∀ {q : List Chunk}, (∀ c ∈ q, c.mem.isSome) → dropEmptyNext q = q
  | [], _ => rfl
  | [_], _ => rfl
  | c :: next :: q, h => by
    have hnext : next.mem.isNone = false := by
      simpa using h next (by simp)
    rw [dropEmptyNext, if_neg (by simp [hnext]), dropEmptyNext_eq fun d hd => h d (by simp_all)]

theorem dropEmptyNext_append_none : ∀ {q : List Chunk}, (∀ c ∈ q, c.mem.isSome) → q ≠ [] →
    dropEmptyNext (q ++ [⟨none, 0⟩]) = q
  | [], _, hne => absurd rfl hne
  | [_], _, _ => rfl
  | c :: next :: q, h, _ => by
    have hnext : next.mem.isNone = false := by
      simpa using h next (by simp)
    rw [List.cons_append, List.cons_append, dropEmptyNext, if_neg (by simp [hnext]),
      ← List.cons_append, dropEmptyNext_append_none (fun d hd => h d (by simp_all)) (by simp)]

/-- **Only what has arrived is added.** -/
theorem arrived_eq (hq : ∀ c ∈ q, c.mem.isSome) (got : Option Received) : arrived got q =
    if arrivedData got = [] then q else q ++ [⟨some (arrivedData got), 0⟩] := by
  have hfirst : ∀ {q : List Chunk}, (∀ c ∈ q, c.mem.isSome) →
      q.dropWhile (·.mem.isNone) = q := by
    intro q hq
    rcases q with _ | ⟨c, q⟩
    · rfl
    · have := Option.isSome_iff_ne_none.mp (hq c List.mem_cons_self)
      rw [List.dropWhile_cons_of_neg (by simpa using this)]
  have hempty : dropEmpty (q ++ [⟨none, 0⟩]) = q := by
    rcases q with _ | ⟨c, q⟩
    · rfl
    · have := Option.isSome_iff_ne_none.mp (hq c List.mem_cons_self)
      rw [dropEmpty, List.cons_append, List.dropWhile_cons_of_neg (by simpa using this)]
      exact dropEmptyNext_append_none hq (List.cons_ne_nil _ _)
  rcases got with _ | (⟨b, data⟩ | _ | _ | _)
  · exact (congrArg dropEmptyNext (hfirst hq)).trans (dropEmptyNext_eq hq)
  · have hq' : ∀ c ∈ q ++ [⟨some (b :: data), 0⟩], c.mem.isSome := by
      intro c hc
      rcases List.mem_append.mp hc with hc | hc
      · exact hq c hc
      · rw [List.mem_singleton.mp hc]
        rfl
    exact (congrArg dropEmptyNext (hfirst hq')).trans (dropEmptyNext_eq hq')
  · exact hempty
  · exact hempty
  · exact hempty

theorem QueueOk.arrived (h : QueueOk k q) {got : Option Received}
    (hgot : arrivedData got = [] ∨ k ≤ (arrivedData got).length) : QueueOk k (arrived got q) := by
  rw [arrived_eq h.isSome]
  split_ifs with hnil
  · exact h
  · exact h.append (hgot.resolve_left hnil)

/-- **What has been read to the end is removed**, so that again only the first chunk has been read
from. -/
theorem QueueOk.removeFinished (h : QueueOk k q) (hconsumed : Consumed q q') :
    QueueOk k (chunkqueueRemoveFinishedChunks q') := by
  rw [chunkqueueRemoveFinishedChunks]
  induction hconsumed with
  | keep q => exact h.dropWhile _
  | part c q n hn =>
    have hpart : QueueOk k ({ c with offset := c.offset + n } :: q) := by
      refine ⟨?_, ?_, h.offset_eq, h.le_length⟩
      · exact List.forall_mem_cons.mpr (List.forall_mem_cons.mp h.isSome)
      · refine List.forall_mem_cons.mpr ⟨?_, (List.forall_mem_cons.mp h.offset_le).2⟩
        have hle := h.offset_le c List.mem_cons_self
        rw [Chunk.data, List.length_drop] at hn
        show c.offset + n ≤ c.bytes.length
        omega
    exact hpart.dropWhile _
  | full c _ ih =>
    rw [List.dropWhile_cons_of_pos (by simp [Chunk.finished, Chunk.bytes])]
    exact ih h.tail

theorem consumed_copyContent (contentLength : ℕ) (spool : ℕ → Bool) (i : ℕ)
    (hq : ∀ c ∈ q, c.offset ≤ c.bytes.length) (content : Bytes) :
    Consumed q (copyContent contentLength spool i q content).2.1 := by
  fun_induction copyContent contentLength spool i q content with
  | case1 => exact .keep _
  | case2 => exact .keep _
  | case3 => exact .keep _
  | case4 i c q content hlength _ toRead content' q' ok heq ih =>
    obtain ⟨hc, hq⟩ := List.forall_mem_cons.mp hq
    have hdata : c.data.length = c.bytes.length - c.offset := List.length_drop
    rcases Nat.le_total c.data.length (contentLength - content.length) with hle | hle
    · have hall : c.offset + toRead = c.bytes.length := by
        have : toRead = c.data.length := Nat.min_eq_left hle
        omega
      rw [hall]
      have hconsumed := ih hq
      rw [heq] at hconsumed
      exact .full c hconsumed
    · have htake : toRead = contentLength - content.length := Nat.min_eq_right hle
      have hfull : contentLength ≤ (content ++ c.data.take toRead).length := by
        rw [List.length_append, List.length_take]
        omega
      have hqueue := (copyContent_of_le spool (i + 1) q _ hfull).2
      rw [heq] at hqueue
      obtain rfl : q' = q := hqueue
      exact .part c q' toRead (by omega)

theorem QueueOk.longParts (h : QueueOk 3 q) : LongParts headerEnd (q.map Chunk.data) := by
  have hlen : ∀ c ∈ q.tail, headerEnd.length ≤ c.data.length + 1 := by
    intro c hc
    rw [Chunk.data, h.offset_eq c hc, List.drop_zero]
    exact Nat.succ_le_succ (h.le_length c hc)
  clear h
  induction q with
  | nil => trivial
  | cons c q ih =>
    rcases q with _ | ⟨next, q⟩
    · trivial
    · exact ⟨fun _ => hlen next List.mem_cons_self,
        ih fun d hd => hlen d (List.mem_of_mem_tail hd)⟩

/-- **The header is found as soon as it is there**, and nothing else is. -/
theorem QueueOk.findLast (h : QueueOk 3 q) :
    headerOf (pending q) = none ∧ findLast q = none ∨
      ∃ i n, findLast q = some (i, n) ∧ headerOf (pending q) = some (copyHeader i n q).1 ∧
        Consumed q (copyHeader i n q).2 := by
  have hsearch : searchParts headerEnd (q.map Chunk.data) = firstIn headerEnd [] (pending q) :=
    searchParts_eq h.longParts
  rcases findLast_cases h.offset_eq with ⟨hparts, hfind⟩ | ⟨p, i, n, hparts, hfind, hcopy, hcons⟩
  · rw [headerOf, ← hsearch, hparts]
    exact Or.inl ⟨rfl, hfind⟩
  · rw [headerOf, ← hsearch, hparts]
    exact Or.inr ⟨i, n, hfind, congrArg some hcopy.symm, hcons⟩

end Search

/-! ### Requests -/

/-- What has arrived and has not been taken. -/
def restOf (h : List ReadEvent) : Bytes := (receivedBytes h).drop (takenBytes h).length

/-- **No read was too short.** -/
def LongReads (k : ℕ) (_ : List ReadEvent) : ReadEvent → Prop
  | .received data => data = [] ∨ k ≤ data.length
  | _ => True

/-- **A request is the header at the front of what has arrived**, and where none is found there is
none. -/
def Framed (before : List ReadEvent) : ReadEvent → Prop
  | .request header => headerOf (restOf before) = some header
  | .waiting => headerOf (restOf before) = none
  | .denied => headerOf (restOf before) = none
  | _ => True

section Framing

variable {h : List ReadEvent} {r r' : Reader}

/-- The invariant: what is in the queue is what is left of the stream. -/
structure ReaderOk (h : List ReadEvent) (r : Reader) : Prop where
  /-- No byte is lost. -/
  bytes : receivedBytes h = takenBytes h ++ pending r.queue
  /-- The queue is in order, unless the connection has failed. -/
  queue : r.state = .error ∨ QueueOk 3 r.queue

/-- **A call for the header.** -/
theorem ReaderOk.readCall (hok : ReaderOk h r) (hstate : r.state = .read) (got : Option Received)
    (spool : ℕ → Bool) (hgot : arrivedData got = [] ∨ 3 ≤ (arrivedData got).length) :
    Along (fun before => Framed (h ++ .received (arrivedData got) :: before))
        (headerEvents (connectionHandleReadState got spool r)) ∧
      ((connectionHandleReadState got spool r).state = .error ∨
        QueueOk 3 (connectionHandleReadState got spool r).queue) := by
  have hqueue := hok.queue.resolve_left (by simp [hstate])
  have hrest : restOf (h ++ [.received (arrivedData got)]) = pending (arrived got r.queue) := by
    rw [restOf, receivedBytes_append, takenBytes_append, hok.bytes, pending_arrived]
    simp [receivedBytes, takenBytes]
  rcases connectionHandleReadState_cases got spool r with ⟨rfl, heq⟩ | ⟨closed, heq⟩
  · rw [heq]
    exact ⟨along_nil _, Or.inl rfl⟩
  · have harrived := hqueue.arrived hgot
    rw [heq]
    rcases handleArrived_read hstate closed spool (arrived got r.queue) with
      ⟨i, n, hfind, heq'⟩ | ⟨hfind, state, hstate', heq'⟩
    · obtain ⟨-, hnone⟩ | ⟨i', n', hfind', hheader, hconsumed⟩ := harrived.findLast
      · rw [hfind] at hnone
        cases hnone
      · rw [hfind] at hfind'
        cases hfind'
        rw [heq']
        refine ⟨along_singleton.mpr ?_, Or.inr (harrived.removeFinished hconsumed)⟩
        rw [Framed, hrest, hheader]
    · obtain ⟨hnone, -⟩ | ⟨i', n', hfind', -⟩ := harrived.findLast
      · rw [heq']
        refine ⟨?_, Or.inr (harrived.removeFinished (.keep _))⟩
        rw [← hrest] at hnone
        rcases hstate' with rfl | rfl | rfl
        · exact along_singleton.mpr hnone
        · exact along_singleton.mpr hnone
        · exact along_nil _
      · rw [hfind] at hfind'
        cases hfind'

/-- **A call for the content.** -/
theorem ReaderOk.contentCall (hok : ReaderOk h r) (hstate : r.state = .readPost)
    (got : Option Received) (spool : ℕ → Bool)
    (hgot : arrivedData got = [] ∨ 3 ≤ (arrivedData got).length) :
    (connectionHandleReadState got spool r).state = .error ∨
      QueueOk 3 (connectionHandleReadState got spool r).queue := by
  have hqueue := hok.queue.resolve_left (by simp [hstate])
  rcases connectionHandleReadState_cases got spool r with ⟨rfl, heq⟩ | ⟨closed, heq⟩
  · rw [heq]
    exact Or.inl rfl
  · obtain ⟨state, -, heq'⟩ := handleArrived_readPost hstate closed spool (arrived got r.queue)
    have harrived := hqueue.arrived hgot
    rw [heq, heq']
    exact Or.inr (harrived.removeFinished (consumed_copyContent _ _ _ harrived.offset_le _))

/-- **One step.** -/
theorem ReaderOk.step (hok : ReaderOk h r) {i : ReadInput}
    (hcond : Along (fun before => LongReads 3 (h ++ before)) (readerStep i r).2) :
    Along (fun before => Framed (h ++ before)) (readerStep i r).2 ∧
      ∀ r', (readerStep i r).1 = some r' → ReaderOk (h ++ (readerStep i r).2) r' := by
  have hbytes : ∀ r', (readerStep i r).1 = some r' →
      receivedBytes (h ++ (readerStep i r).2) =
        takenBytes (h ++ (readerStep i r).2) ++ pending r'.queue := by
    intro r' hr'
    rw [receivedBytes_append, takenBytes_append, hok.bytes, List.append_assoc, List.append_assoc]
    exact congrArg _ (readerStep_pending hr').symm
  rcases readerStep_cases i r with ⟨got, spool, hstate, heq⟩ | ⟨got, spool, hstate, heq⟩ |
    ⟨r₁, hqueue, herror, heq⟩
  · rw [heq] at hcond hbytes ⊢
    obtain ⟨hevents, hqueue⟩ := hok.readCall hstate got spool (along_cons.mp hcond).1
    refine ⟨along_cons.mpr ⟨trivial, hevents⟩, fun r' hr' => ⟨hbytes r' hr', ?_⟩⟩
    obtain rfl := Option.some.inj hr'
    exact hqueue
  · rw [heq] at hcond hbytes ⊢
    refine ⟨along_cons.mpr ⟨trivial, along_singleton.mpr trivial⟩,
      fun r' hr' => ⟨hbytes r' hr', ?_⟩⟩
    obtain rfl := Option.some.inj hr'
    exact hok.contentCall hstate got spool (along_cons.mp hcond).1
  · rw [heq] at hbytes ⊢
    refine ⟨along_nil _, fun r' hr' => ⟨hbytes r' hr', ?_⟩⟩
    obtain rfl := Option.some.inj hr'
    rw [hqueue]
    exact hok.queue.imp_left herror

/-- **The requests are what the stream says**: as long as three bytes or more arrive with each read,
each request is the header at the front of what has arrived and not been taken, and the connection
waits or is denied only where there is none, wherever the stream was cut. -/
theorem requests_framed (inputs : List ReadInput)
    (hreads : Along (LongReads 3) (reader.run inputs .start).2) :
    Along Framed (reader.run inputs .start).2 := by
  have hstart : ReaderOk [] .start := ⟨rfl, Or.inr (.nil 3)⟩
  have hstep : ∀ i h r, ReaderOk h r →
      Along (fun before => LongReads 3 (h ++ before)) (reader.step i r).2 →
      Along (fun before => Framed (h ++ before)) (reader.step i r).2 ∧
        ∀ r', (reader.step i r).1 = some r' → ReaderOk (h ++ (reader.step i r).2) r' :=
    fun i h r hok hcond => hok.step hcond
  exact (Machine.run_along hstep inputs [] .start hstart hreads).1

/-- A header that is cut within the empty line. -/
theorem requests_framed_cut :
    Along Framed (reader.run [.call (some (.bytes 71 [13, 10, 13])) fun _ => true,
      .call (some (.bytes 10 [71, 71])) fun _ => true] .start).2 := by
  refine requests_framed _ ?_
  have hrun : (reader.run [.call (some (.bytes 71 [13, 10, 13])) fun _ => true,
      .call (some (.bytes 10 [71, 71])) fun _ => true] .start).2 =
      [.received [71, 13, 10, 13], .waiting, .received [10, 71, 71],
        .request [71, 13, 10, 13, 10]] := rfl
  rw [hrun]
  refine along_of_forall ?_
  simp [LongReads]

end Framing

/-! ### Reads that are too short -/

section Short

variable {c : Chunk} {q : List Chunk}

/-- No chunk has more than one byte. -/
def ShortChunks (q : List Chunk) : Prop := ∀ m ∈ q.map Chunk.bytes, m.length ≤ 1

/-- **An empty line is not seen** if it is in more than two chunks. -/
theorem findLast_of_shortChunks (h : ShortChunks q) : findLast q = none := by
  induction q with
  | nil => rfl
  | cons c q ih =>
    obtain ⟨hc, hq⟩ := List.forall_mem_cons.mp h
    have hlook : (lookaheadBytes q.head?).length ≤ 1 := by
      rcases q with _ | ⟨next, q⟩
      · exact Nat.zero_le _
      · exact (List.forall_mem_cons.mp hq).1
    have hfirst : firstIn headerEnd (lookaheadBytes q.head?) c.data = none := by
      rcases hfirst : firstIn headerEnd (lookaheadBytes q.head?) c.data with _ | p
      · rfl
      · have hlen := (firstIn_eq_some hfirst).2.1.length_le
        have hfour : headerEnd.length = 4 := rfl
        rw [List.length_append, List.length_drop, Chunk.data, List.length_drop] at hlen
        omega
    rw [findLast, scanChunk_eq, hfirst, ih hq]
    rfl

theorem ShortChunks.of_sublist {q' : List Chunk} (h : ShortChunks q) (hsub : q'.Sublist q) :
    ShortChunks q' := fun m hm => h m ((hsub.map _).subset hm)

theorem dropEmptyNext_sublist (q : List Chunk) : (dropEmptyNext q).Sublist q := by
  fun_induction dropEmptyNext q with
  | case1 c next q _ ih => exact (ih.cons next).cons_cons c
  | case2 c next q _ ih => exact ih.cons_cons c
  | case3 q _ => exact List.Sublist.refl q

theorem ShortChunks.append (h : ShortChunks q) (hc : c.bytes.length ≤ 1) :
    ShortChunks (q ++ [c]) := by
  intro m hm
  rw [List.map_append, List.mem_append] at hm
  rcases hm with hm | hm
  · exact h m hm
  · rwa [List.mem_singleton.mp hm]

theorem ShortChunks.arrived (h : ShortChunks q) {got : Option Received}
    (hgot : (arrivedData got).length ≤ 1) : ShortChunks (arrived got q) := by
  have hdrop : ∀ q, (dropEmpty q).Sublist q := fun q =>
    (dropEmptyNext_sublist _).trans (List.dropWhile_sublist _)
  refine ShortChunks.of_sublist ?_ (hdrop _)
  rcases got with _ | (⟨b, data⟩ | _ | _ | _)
  · exact h
  · exact h.append hgot
  · exact h.append (Nat.zero_le 1)
  · exact h.append (Nat.zero_le 1)
  · exact h.append (Nat.zero_le 1)

theorem bytes_copyContent (contentLength : ℕ) (spool : ℕ → Bool) (i : ℕ) (q : List Chunk)
    (content : Bytes) :
    (copyContent contentLength spool i q content).2.1.map Chunk.bytes = q.map Chunk.bytes := by
  fun_induction copyContent contentLength spool i q content with
  | case1 => rfl
  | case2 => rfl
  | case3 => rfl
  | case4 i c q content _ _ toRead content' q' ok heq ih =>
    rw [heq] at ih
    exact congrArg (c.bytes :: ·) ih

/-- **One byte was read, or nothing.** -/
def ShortReads (_ : List ReadEvent) : ReadEvent → Prop
  | .received data => data.length ≤ 1
  | _ => True

/-- What is not a request. -/
def NoRequest (_ : List ReadEvent) : ReadEvent → Prop
  | .request _ => False
  | _ => True

/-- **A call for the header.** -/
theorem ShortChunks.readCall {r : Reader} (h : ShortChunks r.queue) (hstate : r.state = .read)
    (got : Option Received) (spool : ℕ → Bool) (hgot : (arrivedData got).length ≤ 1) :
    (∀ e ∈ headerEvents (connectionHandleReadState got spool r), NoRequest [] e) ∧
      ShortChunks (connectionHandleReadState got spool r).queue := by
  rcases connectionHandleReadState_cases got spool r with ⟨rfl, heq⟩ | ⟨closed, heq⟩
  · rw [heq]
    exact ⟨fun e he => absurd he List.not_mem_nil, h.append (Nat.zero_le 1)⟩
  · have hnone := findLast_of_shortChunks (h.arrived hgot)
    rcases handleArrived_read hstate closed spool (InstantMirror.arrived got r.queue) with
      ⟨i, n, hfind, -⟩ | ⟨-, state, hstate', heq'⟩
    · rw [hnone] at hfind
      cases hfind
    · rw [heq, heq']
      refine ⟨?_, (h.arrived hgot).of_sublist (List.dropWhile_sublist _)⟩
      rcases hstate' with rfl | rfl | rfl <;> simp [headerEvents, NoRequest]

/-- **One step.** -/
theorem ShortChunks.step {r : Reader} (h : ShortChunks r.queue) {i : ReadInput}
    (hcond : ∀ e ∈ (readerStep i r).2, ShortReads [] e) :
    (∀ e ∈ (readerStep i r).2, NoRequest [] e) ∧
      ∀ r', (readerStep i r).1 = some r' → ShortChunks r'.queue := by
  rcases readerStep_cases i r with ⟨got, spool, hstate, heq⟩ | ⟨got, spool, hstate, heq⟩ |
    ⟨r₁, hqueue, -, heq⟩
  · rw [heq] at hcond ⊢
    obtain ⟨hevents, hqueue⟩ := h.readCall hstate got spool (hcond _ List.mem_cons_self)
    refine ⟨List.forall_mem_cons.mpr ⟨trivial, hevents⟩, fun r' hr' => ?_⟩
    obtain rfl := Option.some.inj hr'
    exact hqueue
  · rw [heq] at hcond ⊢
    refine ⟨by simp [NoRequest], fun r' hr' => ?_⟩
    obtain rfl := Option.some.inj hr'
    rcases connectionHandleReadState_cases got spool r with ⟨rfl, heq'⟩ | ⟨closed, heq'⟩
    · rw [heq']
      exact h.append (Nat.zero_le 1)
    · obtain ⟨state, -, heq''⟩ :=
        handleArrived_readPost hstate closed spool (InstantMirror.arrived got r.queue)
      rw [heq', heq'']
      refine ShortChunks.of_sublist ?_ (List.dropWhile_sublist _)
      rw [ShortChunks, bytes_copyContent]
      exact h.arrived (hcond _ List.mem_cons_self)
  · rw [heq]
    refine ⟨by simp, fun r' hr' => ?_⟩
    obtain rfl := Option.some.inj hr'
    rwa [hqueue]

/-- **A client that sends its bytes one by one is never answered**: in no run where each read gives
at most one byte is a request ever found, whatever the bytes are. -/
theorem no_request_byte_by_byte (inputs : List ReadInput)
    (hreads : Along ShortReads (reader.run inputs .start).2) :
    Along NoRequest (reader.run inputs .start).2 := by
  have hstart : ShortChunks Reader.start.queue := by simp [ShortChunks, Reader.start]
  have hstep : ∀ i (h : List ReadEvent) r, ShortChunks r.queue →
      Along (fun before => ShortReads (h ++ before)) (reader.step i r).2 →
      Along (fun before => NoRequest (h ++ before)) (reader.step i r).2 ∧
        ∀ r', (reader.step i r).1 = some r' → ShortChunks r'.queue := by
    intro i h r hr hcond
    obtain ⟨hevents, hnext⟩ := hr.step (i := i) (along_const.mp hcond)
    exact ⟨along_const.mpr hevents, hnext⟩
  exact (@Machine.run_along _ _ _ reader ShortReads NoRequest (fun _ r => ShortChunks r.queue)
    hstep inputs [] .start hstart hreads).1

/-- A whole request, byte by byte. -/
theorem no_request_byte_by_byte_get :
    Along NoRequest (reader.run ([71, 13, 10, 13, 10].map fun b =>
      .call (some (.bytes b [])) fun _ => true) .start).2 := by
  refine no_request_byte_by_byte _ ?_
  have hrun : (reader.run ([71, 13, 10, 13, 10].map fun b =>
      .call (some (.bytes b [])) fun _ => true) .start).2 =
      [.received [71], .waiting, .received [13], .waiting, .received [10], .waiting,
        .received [13], .waiting, .received [10], .waiting] := rfl
  rw [hrun]
  refine along_of_forall ?_
  simp [ShortReads]

end Short

end InstantMirror
