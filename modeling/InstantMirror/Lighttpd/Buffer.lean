import InstantMirror.Lib.Path

/-!
# The strings of the web server

The functions of `buffer.c` that a request URI goes through on its way to a file name.
`buffer_urldecode_path` replaces each escape `%XX` by the byte it stands for, and
`buffer_path_simplify` removes empty components, `.` and `..` in one walk over the
string, with two registers: where the last slash was written, and the last two bytes
read.

Neither ever makes a string longer, and that is most of what has to be known about them:
`InstantMirror.bufferUrldecodePath_eq_self_iff` says that a string without NUL is left
alone by the first exactly if it has no escape, and
`InstantMirror.bufferPathSimplify_of_clean` that the second puts a slash in front of a
path whose components are all proper and does nothing else to it.
-/

namespace InstantMirror

/-! ### Escapes -/

/-- **`hex2int`**, in the arithmetic of `unsigned char`. -/
def hex2int (hex : UInt8) : UInt8 :=
  let d := hex - 48
  let d := if d > 9 then ((d + 48 - 1) ||| 0x20) - 97 + 11 else d
  if d > 15 then 0xFF else d

/-- The byte that an escape with these two digits stands for; control characters are
mapped to `_`. -/
def unescape (high low : UInt8) : UInt8 :=
  let b := (high <<< 4) ||| low
  if b < 32 ∨ b = 127 then 95 else b

/-- The loop of `buffer_urldecode_internal`, without `is_query`, on the bytes before the
NUL. -/
def urldecodeLoop : Bytes → Bytes
  | [] => []
  | 37 :: h :: l :: src =>
    if hex2int h ≠ 0xFF ∧ hex2int l ≠ 0xFF then
      unescape (hex2int h) (hex2int l) :: urldecodeLoop src
    else 37 :: urldecodeLoop (h :: l :: src)
  | c :: src => c :: urldecodeLoop src

/-- **`buffer_urldecode_path`.** -/
def bufferUrldecodePath (url : Bytes) : Bytes := urldecodeLoop (cstr url)

/-- **No two digits stand behind a `%`.** -/
def NoEscape (s : Bytes) : Prop :=
  ∀ before h l after, s = before ++ 37 :: h :: l :: after →
    hex2int h = 0xFF ∨ hex2int l = 0xFF

theorem NoEscape.tail {c : UInt8} {s : Bytes} (hs : NoEscape (c :: s)) : NoEscape s :=
  fun before h l after he => hs (c :: before) h l after (by rw [he, List.cons_append])

/-- Decoding does not make a string longer. -/
theorem length_urldecodeLoop_le (s : Bytes) : (urldecodeLoop s).length ≤ s.length := by
  fun_induction urldecodeLoop s with
  | case1 => exact le_rfl
  | case2 h l src _ ih => simp only [List.length_cons]; omega
  | case3 h l src _ ih => simpa using ih
  | case4 c src _ ih => simpa using ih

/-- A string without escapes is decoded to itself. -/
theorem urldecodeLoop_of_noEscape {s : Bytes} (hs : NoEscape s) : urldecodeLoop s = s := by
  fun_induction urldecodeLoop s with
  | case1 => rfl
  | case2 h l src hdigits ih =>
    rcases hs [] h l src rfl with hbad | hbad
    · exact absurd hbad hdigits.1
    · exact absurd hbad hdigits.2
  | case3 h l src _ ih => rw [ih hs.tail]
  | case4 c src _ ih => rw [ih hs.tail]

/-- Decoding an escape makes a string shorter, so a string that keeps its length has
none. -/
theorem noEscape_of_length_urldecodeLoop {s : Bytes}
    (hs : (urldecodeLoop s).length = s.length) : NoEscape s := by
  fun_induction urldecodeLoop s with
  | case1 => intro before h l after he; simp at he
  | case2 h l src _ ih =>
    have := length_urldecodeLoop_le src
    simp only [List.length_cons] at hs
    omega
  | case3 h l src hdigits ih =>
    intro before h' l' after he
    cases before with
    | nil =>
      obtain ⟨rfl, rfl, -⟩ : h = h' ∧ l = l' ∧ src = after := by simpa using he
      tauto
    | cons d before => exact ih (by simpa using hs) before h' l' after (List.cons.inj he).2
  | case4 c src hc ih =>
    intro before h' l' after he
    cases before with
    | nil => obtain ⟨rfl, rfl⟩ := List.cons.inj he; exact absurd rfl (hc h' l' after rfl)
    | cons d before => exact ih (by simpa using hs) before h' l' after (List.cons.inj he).2

/-- **Decoding is the identity on the strings without escapes, and only there.** -/
theorem bufferUrldecodePath_eq_self_iff {s : Bytes} (hs : 0 ∉ s) :
    bufferUrldecodePath s = s ↔ NoEscape s := by
  rw [bufferUrldecodePath, cstr_of_notMem hs]
  refine ⟨fun h => noEscape_of_length_urldecodeLoop (by rw [h]), urldecodeLoop_of_noEscape⟩

theorem length_bufferUrldecodePath_le (s : Bytes) :
    (bufferUrldecodePath s).length ≤ s.length :=
  (length_urldecodeLoop_le _).trans (List.takeWhile_prefix _).length_le

/-! ### Simplifying a path -/

/-- `pre = (pre << 8) | pre1`, in the arithmetic of `unsigned short`. A byte from 128 on is a
negative `char` and sets all the bits before it. -/
def shiftIn (pre : ℕ) (c : UInt8) : ℕ :=
  if c < 128 then (pre * 256 + c.toNat) % 65536 else 65280 + c.toNat

/-- `out--; while (out > start && *out != '/') out--;`, from `n` on. -/
def backToSlash (out : Bytes) : ℕ → ℕ
  | 0 => 0
  | n + 1 => if n = 0 ∨ out[n]? = some slash then n else backToSlash out n

/-- **The end of a component**, where the walk has read a slash or the NUL: what is left of
the output. The component stands behind the last slash; an empty one and `.` are taken
back to that slash, `..` to the one before it. At the end of the string the slash itself
stays. -/
def simplifyToken (last : Bool) (pre slashAt : ℕ) (out : Bytes) : Bytes :=
  let keep := if last then 1 else 0
  if out.length - slashAt = 3 ∧ pre = 0x2e2e then out.take (backToSlash out slashAt + keep)
  else if out.length - slashAt = 1 ∨ pre = 0x2f2e then out.take (slashAt + keep)
  else out

/-- The loop of `buffer_path_simplify`, on the bytes that are still to be read. -/
def simplifyLoop (pre slashAt : ℕ) (out : Bytes) : Bytes → Bytes
  | [] => simplifyToken true pre slashAt out
  | c :: walk =>
    if c = slash then
      let out₁ := simplifyToken false pre slashAt out
      simplifyLoop (shiftIn pre c) out₁.length (out₁ ++ [c]) walk
    else simplifyLoop (shiftIn pre c) slashAt (out ++ [c]) walk

/-- **`buffer_path_simplify`.** A string of blanks only ends before the loop, with the NUL
that was just copied counted as a byte of the path. -/
def bufferPathSimplify (src : Bytes) : Bytes :=
  match (cstr src).dropWhile (· = 32) with
  | [] => [slash, 0]
  | pre1 :: walk =>
    if pre1 = slash then simplifyLoop (shiftIn 0 pre1) 0 [pre1] walk
    else simplifyLoop (shiftIn (shiftIn 0 slash) pre1) 0 [slash, pre1] walk

example : bufferPathSimplify (ascii "/blah/../foo//./bar/..") = ascii "/foo/" := by decide

/-! ### What simplifying cannot do -/

/-- What is left at the end of a component is a part of the output from its start on, and
at the end of the string not an empty one. -/
theorem simplifyToken_eq_take (last : Bool) (pre slashAt : ℕ) (out : Bytes) :
    ∃ n, simplifyToken last pre slashAt out = out.take n ∧ (last = true → 0 < n) := by
  simp only [simplifyToken]
  split_ifs with hup hlast hstay hlast
  · exact ⟨_, rfl, fun _ => Nat.succ_pos _⟩
  · exact ⟨_, rfl, fun h => absurd h hlast⟩
  · exact ⟨_, rfl, fun _ => Nat.succ_pos _⟩
  · exact ⟨_, rfl, fun h => absurd h hlast⟩
  · exact ⟨out.length + 1, (List.take_of_length_le (Nat.le_succ _)).symm,
      fun _ => Nat.succ_pos _⟩

theorem length_simplifyToken_le (last : Bool) (pre slashAt : ℕ) (out : Bytes) :
    (simplifyToken last pre slashAt out).length ≤ out.length := by
  obtain ⟨n, h, -⟩ := simplifyToken_eq_take last pre slashAt out
  rw [h]
  exact List.length_take_le' n out

/-- The output is not longer than what was written and what is still to be read. -/
theorem length_simplifyLoop_le (pre slashAt : ℕ) (out walk : Bytes) :
    (simplifyLoop pre slashAt out walk).length ≤ out.length + walk.length := by
  fun_induction simplifyLoop pre slashAt out walk with
  | case1 pre slashAt out => exact length_simplifyToken_le true pre slashAt out
  | case2 pre slashAt out walk out₁ ih =>
    have : out₁.length ≤ out.length := length_simplifyToken_le false pre slashAt out
    simp only [List.length_append, List.length_cons, List.length_nil] at ih ⊢
    omega
  | case3 pre slashAt out c walk _ ih =>
    simp only [List.length_append, List.length_cons, List.length_nil] at ih ⊢
    omega

/-- The output begins with a slash. -/
theorem head?_simplifyLoop {pre slashAt : ℕ} {out walk : Bytes}
    (hout : out.head? = some slash) :
    (simplifyLoop pre slashAt out walk).head? = some slash := by
  fun_induction simplifyLoop pre slashAt out walk with
  | case1 pre slashAt out =>
    obtain ⟨n, h, hn⟩ := simplifyToken_eq_take true pre slashAt out
    rw [h, List.head?_take, if_neg (hn rfl).ne', hout]
  | case2 pre slashAt out walk out₁ ih =>
    -- an output that was taken back to its first slash is empty when the next one comes
    refine ih ?_
    obtain ⟨n, h, -⟩ := simplifyToken_eq_take false pre slashAt out
    rcases Nat.eq_zero_or_pos n with rfl | hn
    · simp [out₁, h]
    · simp [out₁, h, List.head?_take, hn.ne', hout]
  | case3 pre slashAt out c walk _ ih => exact ih (by simp [hout])

/-- What is walked over is a part of the string. -/
theorem length_walk_le (src : Bytes) : ((cstr src).dropWhile (· = 32)).length ≤ src.length :=
  (List.dropWhile_suffix _).length_le.trans (List.takeWhile_prefix _).length_le

/-- **A simplified path** is a slash and a string that is no longer than what was to be
simplified, from its first byte on that is not a blank – or the NUL. -/
theorem bufferPathSimplify_eq_cons (src : Bytes) :
    ∃ t, bufferPathSimplify src = slash :: t ∧
      (t = [0] ∨ t.length ≤ ((cstr src).dropWhile (· = 32)).length) := by
  rw [bufferPathSimplify]
  cases (cstr src).dropWhile (· = 32) with
  | nil => exact ⟨[0], rfl, .inl rfl⟩
  | cons pre1 walk =>
    dsimp only
    split_ifs with hpre1
    · subst hpre1
      obtain ⟨t, ht⟩ := List.head?_eq_some_iff.mp
        (@head?_simplifyLoop (shiftIn 0 slash) 0 [slash] walk rfl)
      have hlen := length_simplifyLoop_le (shiftIn 0 slash) 0 [slash] walk
      simp only [ht, List.length_cons, List.length_nil] at hlen ⊢
      exact ⟨t, rfl, .inr (by omega)⟩
    · obtain ⟨t, ht⟩ := List.head?_eq_some_iff.mp
        (@head?_simplifyLoop (shiftIn (shiftIn 0 slash) pre1) 0 [slash, pre1] walk rfl)
      have hlen := length_simplifyLoop_le (shiftIn (shiftIn 0 slash) pre1) 0 [slash, pre1] walk
      simp only [ht, List.length_cons, List.length_nil] at hlen ⊢
      exact ⟨t, rfl, .inr (by omega)⟩

/-! ### Where simplifying does nothing -/

/-- **A path whose components are all proper**: none is empty, `.` or `..`, and there is no
NUL in it. -/
structure CleanPath where
  /-- The path. -/
  bytes : Bytes
  /-- It is a C string. -/
  zero_notMem : (0 : UInt8) ∉ bytes
  /-- Its components are proper. -/
  proper : ∀ c ∈ components bytes, c ≠ [] ∧ c ≠ dot ∧ c ≠ dotdot

/-- What `pre` is when these bytes have been read. -/
def readPre (s : Bytes) : ℕ := s.foldl shiftIn 0

theorem readPre_concat (s : Bytes) (c : UInt8) : readPre (s ++ [c]) = shiftIn (readPre s) c := by
  simp [readPre]

/-- The last byte read is the low byte of `pre`. -/
theorem shiftIn_mod (pre : ℕ) (c : UInt8) : shiftIn pre c % 256 = c.toNat := by
  have hc := c.toNat_lt
  rw [shiftIn]
  split_ifs <;> omega

/-- If `pre` is two ASCII characters, they are the last two bytes read. -/
theorem eq_of_shiftIn_eq {pre : ℕ} {c a b : UInt8} (ha : a < 128)
    (h : shiftIn pre c = a.toNat * 256 + b.toNat) : c = b ∧ pre % 256 = a.toNat := by
  have hc := c.toNat_lt
  have hb := b.toNat_lt
  have ha' : a.toNat < 128 := ha
  rw [shiftIn] at h
  split_ifs at h with hlt
  · have hlt' : c.toNat < 128 := hlt
    exact ⟨UInt8.toNat_inj.mp (by omega), by omega⟩
  · omega

/-- **A proper component stays.** -/
theorem simplifyToken_of_proper {done comp : Bytes} (hslash : slash ∉ comp)
    (hcomp : comp ≠ [] ∧ comp ≠ dot ∧ comp ≠ dotdot) (last : Bool) :
    simplifyToken last (readPre (done ++ slash :: comp)) done.length (done ++ slash :: comp) =
      done ++ slash :: comp := by
  obtain ⟨hnil, hdot, hdotdot⟩ := hcomp
  obtain ⟨init, b, rfl⟩ := (List.eq_nil_or_concat' comp).resolve_left hnil
  have hpre : readPre (done ++ slash :: (init ++ [b])) =
      shiftIn (readPre (done ++ slash :: init)) b := by
    rw [← readPre_concat]
    simp
  rw [simplifyToken, if_neg, if_neg]
  · -- the component is not `.`, and there is no slash in it
    rintro (hlen | hpair)
    · simp at hlen
    · obtain ⟨rfl, hlow⟩ := @eq_of_shiftIn_eq _ b 47 46 (by decide) (hpre.symm.trans hpair)
      rcases List.eq_nil_or_concat' init with rfl | ⟨init, a, rfl⟩
      · exact hdot rfl
      · rw [← List.cons_append, ← List.append_assoc, readPre_concat, shiftIn_mod] at hlow
        have : a = slash := UInt8.toNat_inj.mp hlow
        simp [this] at hslash
  · rintro ⟨hlen, hpair⟩
    obtain ⟨rfl, hlow⟩ := @eq_of_shiftIn_eq _ b 46 46 (by decide) (hpre.symm.trans hpair)
    obtain ⟨a, rfl⟩ : ∃ a, init = [a] := List.length_eq_one_iff.mp (by
      simp only [List.length_append, List.length_cons, List.length_nil] at hlen
      omega)
    rw [show done ++ [slash, a] = done ++ [slash] ++ [a] by simp, readPre_concat,
      shiftIn_mod] at hlow
    obtain rfl : a = 46 := UInt8.toNat_inj.mp hlow
    exact hdotdot rfl

/-- The walk over proper components copies them. -/
theorem simplifyLoop_of_proper (walk : Bytes) : ∀ done comp : Bytes, slash ∉ comp →
    (∀ c ∈ components (comp ++ walk), c ≠ [] ∧ c ≠ dot ∧ c ≠ dotdot) →
    simplifyLoop (readPre (done ++ slash :: comp)) done.length (done ++ slash :: comp) walk =
      done ++ slash :: (comp ++ walk) := by
  induction walk with
  | nil =>
    intro done comp hslash hproper
    rw [List.append_nil, components, List.splitOn_eq_singleton hslash] at hproper
    rw [simplifyLoop, simplifyToken_of_proper hslash (hproper comp (List.mem_singleton_self _)),
      List.append_nil]
  | cons c walk ih =>
    intro done comp hslash hproper
    rw [simplifyLoop]
    split_ifs with hc
    · subst hc
      rw [components_append_slash hslash] at hproper
      rw [simplifyToken_of_proper hslash (hproper comp List.mem_cons_self), ← readPre_concat]
      refine (ih (done ++ slash :: comp) [] (by simp) fun c hc => ?_).trans (by simp)
      exact hproper c (List.mem_cons_of_mem _ hc)
    · have hout : done ++ slash :: comp ++ [c] = done ++ slash :: (comp ++ [c]) := by simp
      rw [← readPre_concat, hout, ih done (comp ++ [c]) (by simp [hslash, Ne.symm hc])
        (by simpa using hproper)]
      simp

/-- A clean path begins with a byte that is not a slash. -/
theorem CleanPath.exists_cons (p : CleanPath) : ∃ c rest, p.bytes = c :: rest ∧ c ≠ slash := by
  rcases hp : p.bytes with _ | ⟨c, rest⟩
  · exact absurd rfl (p.proper [] (by rw [hp]; decide)).1
  · refine ⟨c, rest, rfl, ?_⟩
    rintro rfl
    have hfirst := @components_append_slash [] (by simp) rest
    exact absurd rfl (p.proper [] (by rw [hp, ← List.nil_append (slash :: rest), hfirst]; simp)).1

/-- **Simplifying puts a slash in front of a clean path**, unless it begins with a blank. -/
theorem bufferPathSimplify_of_clean (p : CleanPath) (hblank : p.bytes.head? ≠ some 32) :
    bufferPathSimplify p.bytes = slash :: p.bytes := by
  obtain ⟨c, rest, hp, hc⟩ := p.exists_cons
  have hwalk : (cstr p.bytes).dropWhile (· = 32) = c :: rest := by
    rw [cstr_of_notMem p.zero_notMem, hp, List.dropWhile_cons_of_neg]
    simpa [hp] using hblank
  have hproper := p.proper
  rw [hp] at hproper
  rw [bufferPathSimplify, hwalk]
  simp only [if_neg hc]
  exact (simplifyLoop_of_proper rest [] [c] (by simpa using Ne.symm hc) hproper).trans
    (by simp [hp])

end InstantMirror
