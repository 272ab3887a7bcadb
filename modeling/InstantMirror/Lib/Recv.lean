import InstantMirror.Lib.Bytes

/-!
# Receiving into a buffer that is used again

One `recv` into a buffer that is neither cleared before nor terminated after: the
bytes received overwrite the start of the buffer, and what stood behind them stays
(`InstantMirror.overwrite`). When the buffer is then read as a C string there are
two cases, and only two. Either a NUL was among the bytes received, and then they
alone decide what is read (`InstantMirror.cstr_overwrite_of_mem`); or none was, and
then the reader goes on into whatever the buffer held before
(`InstantMirror.cstr_overwrite_of_notMem`).
-/

namespace InstantMirror

/-- What one `recv` of at most `cap` bytes takes from the bytes that are ready. -/
def received (cap : ℕ) (ready : Bytes) : Bytes := ready.take cap

theorem length_received (cap : ℕ) (ready : Bytes) : (received cap ready).length ≤ cap := by
  rw [received, List.length_take]
  exact Nat.min_le_left _ _

/-- **The buffer after the message has been received into it.** -/
def overwrite (buf msg : Bytes) : Bytes := msg ++ buf.drop msg.length

/-- A NUL among the bytes received hides the rest of the buffer. -/
theorem cstr_overwrite_of_mem (buf rest : Bytes) {msg : Bytes} (h : (0 : UInt8) ∈ msg) :
    cstr (overwrite buf msg ++ rest) = cstr msg := by
  rw [overwrite, List.append_assoc, cstr_append_of_mem h]

/-- Without a NUL among the bytes received, what stood in the buffer behind them is
read as well. -/
theorem cstr_overwrite_of_notMem (buf rest : Bytes) {msg : Bytes} (h : (0 : UInt8) ∉ msg) :
    cstr (overwrite buf msg ++ rest) = msg ++ cstr (buf.drop msg.length ++ rest) := by
  rw [overwrite, List.append_assoc, cstr_append_of_notMem h]

/-! ### A message and its NUL, whole or cut -/

section Message

variable {s : Bytes} {cap k : ℕ}

/-- A message that has arrived in full, and fits. -/
theorem received_message (h : s.length + 1 ≤ min cap k) :
    received cap ((s ++ [0]).take k) = s ++ [0] := by
  rw [received, List.take_take, List.take_of_length_le]
  simpa using h

/-- A message of which the end has not arrived, or does not fit. -/
theorem received_message_cut (h : ¬ s.length + 1 ≤ min cap k) :
    received cap ((s ++ [0]).take k) = s.take (min cap k) := by
  rw [received, List.take_take, List.take_append_of_le_length (by omega)]

/-- **What is read of a cut message depends on the memory**: on a buffer, and memory behind
it, full of NULs it ends where it was cut, on others it does not. -/
theorem cstr_overwrite_ne {msg : Bytes} {n m : ℕ} (hmsg : (0 : UInt8) ∉ msg)
    (hle : msg.length ≤ n) (hlt : msg.length < n + m) {c : UInt8} (hc : c ≠ 0) :
    cstr (overwrite (List.replicate n 0) msg ++ List.replicate m 0) ≠
      cstr (overwrite (List.replicate n c) msg ++ List.replicate m c) := by
  obtain ⟨j, hj⟩ : ∃ j, n - msg.length + m = j + 1 := ⟨n - msg.length + m - 1, by omega⟩
  have hmem : ∀ d : UInt8, (List.replicate n d).drop msg.length ++ List.replicate m d =
      d :: List.replicate j d := by
    intro d
    rw [List.drop_replicate, List.replicate_append_replicate, hj, List.replicate_succ]
  rw [cstr_overwrite_of_notMem _ _ hmsg, cstr_overwrite_of_notMem _ _ hmsg, hmem, hmem]
  simp [cstr, hc]

end Message

end InstantMirror
