import InstantMirror.Libtorrent.LazyEntry

/-!
# What was encoded is decoded

`lazy_bdecode` on the output of `bencode`. An entry that is defined throughout, and not
nested too deeply (`InstantMirror.Entry.Fits`), comes back as the tree it was
(`InstantMirror.lazyBdecode_bencode`): every integer as its text, every dictionary with its
keys and with the bytes it was written as.

An entry with an undefined value behind the *last* key of some dictionary
(`InstantMirror.Entry.Dangling`) does not come back at all. The decoder finds the `e` of the
dictionary where it expects the value, and fails (`InstantMirror.lazyBdecode_dangling`).

Both are statements about a loop with a stack. A run of it is a chain of
`InstantMirror.Reaches`, which counts the turns against the bytes that were read – so that
as many turns as there are bytes are always enough.
-/

namespace InstantMirror

/-! ### Entries, and the trees they are decoded to -/

mutual

/-- **The tree an entry is decoded to.** -/
def Entry.decoded : Entry → LazyEntry
  | .undefined => .none
  | .int n => .int (intText n)
  | .string s => .string s
  | .list es => .list (Entry.decodedList es)
  | .dict items => .dict (some (Entry.dict items).bencode) (Entry.decodedItems items)

/-- The entries of a list, each decoded. -/
def Entry.decodedList : List Entry → List LazyEntry
  | [] => []
  | e :: es => e.decoded :: Entry.decodedList es

/-- The items of a dictionary, each decoded. -/
def Entry.decodedItems : List (Bytes × Entry) → List (Bytes × LazyEntry)
  | [] => []
  | (key, e) :: items => (key, e.decoded) :: Entry.decodedItems items

end

/-- **An entry that is defined throughout**, with at most so many containers around one
another. -/
inductive Entry.Fits : ℕ → Entry → Prop where
  | int {d : ℕ} (n : ℤ) : Entry.Fits d (.int n)
  | string {d : ℕ} (s : Bytes) : Entry.Fits d (.string s)
  | list {d : ℕ} {es : List Entry} (h : ∀ e ∈ es, Entry.Fits d e) : Entry.Fits (d + 1) (.list es)
  | dict {d : ℕ} {items : List (Bytes × Entry)} (h : ∀ item ∈ items, Entry.Fits d item.2) :
      Entry.Fits (d + 1) (.dict items)

/-- **An entry with a key that nothing stands behind**, in front of the end of a dictionary;
whatever is written before that key is defined. -/
inductive Entry.Dangling : ℕ → Entry → Prop where
  | here {d : ℕ} {items : List (Bytes × Entry)} (key : Bytes)
      (h : ∀ item ∈ items, Entry.Fits d item.2) :
      Entry.Dangling (d + 1) (.dict (items ++ [(key, .undefined)]))
  | list {d : ℕ} {es after : List Entry} {e : Entry} (h : ∀ e ∈ es, Entry.Fits d e)
      (he : Entry.Dangling d e) : Entry.Dangling (d + 1) (.list (es ++ e :: after))
  | dict {d : ℕ} {items after : List (Bytes × Entry)} {key : Bytes} {e : Entry}
      (h : ∀ item ∈ items, Entry.Fits d item.2) (he : Entry.Dangling d e) :
      Entry.Dangling (d + 1) (.dict (items ++ (key, e) :: after))

theorem Entry.bencodeList_append (es es' : List Entry) :
    Entry.bencodeList (es ++ es') = Entry.bencodeList es ++ Entry.bencodeList es' := by
  induction es with
  | nil => rfl
  | cons e es ih => simp [Entry.bencodeList, ih]

theorem Entry.bencodeItems_append (items items' : List (Bytes × Entry)) :
    Entry.bencodeItems (items ++ items') =
      Entry.bencodeItems items ++ Entry.bencodeItems items' := by
  induction items with
  | nil => rfl
  | cons item items ih => simp [Entry.bencodeItems, ih]

/-! ### Reading a length, a string and an integer -/

/-- Digits are read to the last. -/
theorem parseInt_append {delimiter : UInt8} (hdelim : isDigit delimiter = false) {ds : Bytes}
    (hds : ∀ c ∈ ds, isDigit c = true) (rest : Bytes) (val : ℤ) :
    parseInt delimiter (ds ++ rest) val = parseInt delimiter rest (readDigits val ds) := by
  induction ds generalizing val with
  | nil => rfl
  | cons c ds ih =>
    have hdigit := hds c (by simp)
    have hne : c ≠ delimiter := by
      rintro rfl
      rw [hdigit] at hdelim
      cases hdelim
    rw [List.cons_append, parseInt, if_neg hne, if_pos hdigit, ih fun c hc => hds c (by simp [hc])]
    rfl

/-- **The length in front of a string is read** – the first digit has been taken off. -/
theorem parseInt_bencodeString {s rest : Bytes} {t : UInt8} {start : Bytes}
    (h : bencodeString s ++ rest = t :: start) : isDigit t = true ∧
      parseInt 58 start (digitValue t) = ((s.length : ℤ), some (58 :: (s ++ rest))) ∧
      start.length + 1 = numDigits s.length + 1 + (s ++ rest).length := by
  obtain ⟨d, ds, hdec, hd, hds, hval⟩ := exists_decimal_eq_cons s.length
  have hsplit : bencodeString s ++ rest = d :: (ds ++ 58 :: (s ++ rest)) := by
    simp [bencodeString, hdec]
  obtain ⟨rfl, rfl⟩ := List.cons.inj (hsplit.symm.trans h)
  refine ⟨hd, ?_, ?_⟩
  · rw [parseInt_append (by decide) hds, hval, parseInt, if_pos rfl]
  · simp [numDigits, hdec]
    omega

section Construct

variable {below : List Opened} {first start rest s : Bytes} {t : UInt8}

/-- The bytes an entry can begin with differ. -/
theorem ne_of_isDigit (h : isDigit t = true) : t ≠ 100 ∧ t ≠ 108 ∧ t ≠ 105 ∧ t ≠ 101 := by
  refine ⟨?_, ?_, ?_, ?_⟩ <;> (rintro rfl; simp [isDigit] at h)

theorem construct_string (h : bencodeString s ++ rest = t :: start) :
    construct below first t start =
      some (.pop (first.take (first.length - (start.length + 1))) (.string s) below, rest) := by
  obtain ⟨hdigit, hparse, hlen⟩ := parseInt_bencodeString h
  obtain ⟨h₁, h₂, h₃, -⟩ := ne_of_isDigit hdigit
  rw [construct, if_neg h₁, if_neg h₂, if_neg h₃, if_pos hdigit, hparse]
  have hfits : ¬ (((s ++ rest).length : ℤ) < s.length ∨ (58 : UInt8) ≠ 58) :=
    not_or.mpr ⟨by rw [List.length_append]; omega, fun h => h rfl⟩
  simp only [if_neg hfits, Int.toNat_natCast]
  rw [show (s ++ rest).length + 1 + numDigits s.length = start.length + 1 by omega]
  simp

theorem construct_int {n : ℤ} (h : (Entry.int n).bencode ++ rest = t :: start) :
    construct below first t start =
      some (.pop (first.take (first.length - (start.length + 1))) (.int (intText n)) below,
        rest) := by
  have hsplit : (Entry.int n).bencode ++ rest = 105 :: (intText n ++ 101 :: rest) := by
    simp [Entry.bencode]
  obtain ⟨rfl, rfl⟩ := List.cons.inj (hsplit.symm.trans h)
  have hall : ∀ c ∈ intText n, (c ≠ 101 : Bool) = true := fun c hc =>
    decide_eq_true fun he => notMem_intText (by decide) (by decide) n (he ▸ hc)
  have htake : (intText n ++ 101 :: rest).takeWhile (· ≠ 101) = intText n := by
    rw [List.takeWhile_append_of_pos hall]
    simp
  have hdrop : (intText n ++ 101 :: rest).dropWhile (· ≠ 101) = 101 :: rest := by
    rw [List.dropWhile_append_of_pos hall]
    simp
  rw [construct, if_neg (by decide), if_neg (by decide), if_pos rfl, hdrop, htake]

end Construct

/-! ### Turns of the loop -/

/-- **The loop comes from one state to the other**, in at most as many turns as bytes are
read on the way. -/
def Reaches (buf : Bytes) (s s' : Progress × Bytes) : Prop :=
  ∃ k, k + s'.2.length ≤ s.2.length ∧
    ∀ n, decodeLoop buf (n + k) s.1 s.2 = decodeLoop buf n s'.1 s'.2

/-- **The loop fails from this state**, if it is given a turn for every byte. -/
def Fails (buf : Bytes) (s : Progress × Bytes) : Prop :=
  ∀ n, s.2.length ≤ n → decodeLoop buf n s.1 s.2 = none

section Turns

variable {buf : Bytes} {s s' s'' : Progress × Bytes}

theorem Reaches.refl (s : Progress × Bytes) : Reaches buf s s := ⟨0, by omega, fun _ => rfl⟩

theorem Reaches.trans (h : Reaches buf s s') (h' : Reaches buf s' s'') : Reaches buf s s'' := by
  obtain ⟨k, hk, hrun⟩ := h
  obtain ⟨k', hk', hrun'⟩ := h'
  refine ⟨k' + k, by omega, fun n => ?_⟩
  rw [← Nat.add_assoc, hrun, hrun']

theorem Reaches.fails (h : Reaches buf s s') (h' : Fails buf s') : Fails buf s := by
  obtain ⟨k, hk, hrun⟩ := h
  intro n hn
  rw [show n = n - k + k by omega, hrun]
  exact h' (n - k) (by omega)

theorem decodeLoop_complete (n : ℕ) (e : LazyEntry) (start : Bytes) :
    decodeLoop buf n (.complete e) start = some e := by
  cases n <;> rfl

/-- A turn that reads something. -/
theorem reaches_of_turn {top : Opened} {below : List Opened} {start : Bytes}
    (h : turn buf (.inside top below) start = some s) (hlt : s.2.length < start.length) :
    Reaches buf (.inside top below, start) s := by
  refine ⟨1, by simp only; omega, fun n => ?_⟩
  cases start with
  | nil => simp at hlt
  | cons t start => simp only [decodeLoop, h]

theorem fails_of_turn {top : Opened} {below : List Opened} {start : Bytes}
    (h : turn buf (.inside top below) start = none) (hne : start ≠ []) :
    Fails buf (.inside top below, start) := by
  intro n hn
  obtain ⟨t, start, rfl⟩ := List.exists_cons_of_ne_nil hne
  obtain ⟨n, rfl⟩ : ∃ m, n = m + 1 := ⟨n - 1, by simp at hn; omega⟩
  simp only [decodeLoop, h]

variable {below : List Opened} {key begin k start after : Bytes} {items : List LazyEntry}
  {pairs : List (Bytes × LazyEntry)} {t : UInt8}

/-- The head of an entry in a list. -/
theorem turn_list (hdepth : below.length + 1 ≤ depthLimit) (hne : start ≠ []) (ht : t ≠ 101) :
    turn buf (.inside (.list key items) below) (t :: start) =
      construct (.list key items :: below) [] t start := by
  rw [turn, if_neg (by omega), if_neg (fun h => hne h.1)]
  simp only [if_neg ht]

theorem turn_list_end (hdepth : below.length + 1 ≤ depthLimit) :
    turn buf (.inside (.list key items) below) (101 :: start) =
      some (.pop key (.list items) below, start) := by
  rw [turn, if_neg (by omega), if_neg (fun h => h.2 rfl)]
  rfl

/-- **A key, and the head of its value**, unless the buffer ends there. -/
theorem turn_dict (hdepth : below.length + 1 ≤ depthLimit) :
    turn buf (.inside (.dict key begin pairs) below) (bencodeString k ++ t :: start) =
      if start = [] then none
      else construct (.dict key begin pairs :: below) (k ++ t :: start) t start := by
  obtain ⟨c, rest, hsplit⟩ : ∃ c rest, bencodeString k ++ t :: start = c :: rest :=
    List.exists_cons_of_ne_nil (by simp)
  obtain ⟨hdigit, hparse, hlen⟩ := parseInt_bencodeString hsplit
  have hrest : rest ≠ [] := by
    rintro rfl
    rw [List.length_append, List.length_cons, List.length_nil] at hlen
    omega
  rw [hsplit, turn, if_neg (by omega), if_neg (fun h => hrest h.1)]
  simp only [if_neg (ne_of_isDigit hdigit).2.2.2, hparse]
  rcases eq_or_ne start [] with rfl | hne
  · rw [if_pos (Or.inl (by rw [List.length_append, List.length_singleton]; omega)), if_pos rfl]
  · have hpos := List.length_pos_iff.mpr hne
    have hfits : ¬ (((k ++ t :: start).length : ℤ) + 1 < k.length + 3 ∨ (58 : UInt8) ≠ 58 ∨
        k ++ t :: start = []) := by
      rw [List.length_append, List.length_cons]
      refine not_or.mpr ⟨by omega, not_or.mpr ⟨fun h => h rfl, by simp⟩⟩
    rw [if_neg hfits, if_neg hne, advance, if_pos (by omega), Int.toNat_natCast, List.drop_left]

theorem turn_dict_end (hdepth : below.length + 1 ≤ depthLimit) :
    turn buf (.inside (.dict key begin pairs) below) (101 :: start) =
      some (.pop key (.dict (some (begin.take (begin.length - start.length))) pairs) below,
        start) := by
  rw [turn, if_neg (by omega), if_neg (fun h => h.2 rfl)]
  rfl

/-- A turn in which the head of an entry of a list is read. -/
theorem reaches_of_list (hdepth : below.length + 1 ≤ depthLimit) (hne : start ≠ []) (ht : t ≠ 101)
    (hs : construct (.list key items :: below) [] t start = some s)
    (hle : s.2.length ≤ start.length) :
    Reaches buf (.inside (.list key items) below, t :: start) s := by
  refine reaches_of_turn ?_ (Nat.lt_succ_of_le hle)
  rw [turn_list hdepth hne ht, hs]

/-- A turn in which a key and the head of its value are read. -/
theorem reaches_of_dict (hdepth : below.length + 1 ≤ depthLimit) (hne : start ≠ [])
    (hs : construct (.dict key begin pairs :: below) (k ++ t :: start) t start = some s)
    (hle : s.2.length ≤ start.length) :
    Reaches buf (.inside (.dict key begin pairs) below, bencodeString k ++ t :: start) s := by
  refine reaches_of_turn ?_ ?_
  · rw [turn_dict hdepth, if_neg hne, hs]
  · rw [List.length_append, List.length_cons]
    omega

/-- **A key that nothing stands behind.** -/
theorem turn_dict_dangling (hdepth : below.length + 1 ≤ depthLimit) :
    turn buf (.inside (.dict key begin pairs) below) (bencodeString k ++ 101 :: start) = none := by
  rw [turn_dict hdepth]
  split <;> rfl

end Turns

/-! ### Entries that are defined -/

/-- **An entry is decoded**: whatever is open around it and whatever follows it, it is
constructed and, in the end, taken off the stack as the tree it was. -/
def Entry.Decodes (buf : Bytes) (d : ℕ) (e : Entry) : Prop :=
  ∀ (below : List Opened) (first rest : Bytes) (t : UInt8) (start : Bytes),
    below.length + d ≤ depthLimit → e.bencode ++ rest = t :: start →
    ∃ s, construct below first t start = some s ∧ s.2.length ≤ start.length ∧
      Reaches buf s
        (.pop (first.take (first.length - (start.length + 1))) e.decoded below, rest)

/-- The head of an entry is not the end of a container, and something follows it. -/
theorem Entry.exists_bencode_eq {e : Entry} (h : e ≠ .undefined) :
    ∃ t c start, e.bencode = t :: c :: start ∧ t ≠ 101 := by
  have hsecond : ∀ s : Bytes, ∃ c start, s ++ [101] = c :: start := fun s =>
    List.exists_cons_of_ne_nil (by simp)
  cases e with
  | undefined => exact absurd rfl h
  | int n =>
    obtain ⟨c, start, hc⟩ := hsecond (intText n)
    exact ⟨105, c, start, by rw [Entry.bencode, hc], by decide⟩
  | string s =>
    obtain ⟨t, ds, hdec, hdigit, -⟩ := exists_decimal_eq_cons s.length
    obtain ⟨c, start, hc⟩ : ∃ c start, ds ++ 58 :: s = c :: start :=
      List.exists_cons_of_ne_nil (by simp)
    refine ⟨t, c, start, ?_, (ne_of_isDigit hdigit).2.2.2⟩
    rw [Entry.bencode, bencodeString, hdec, List.cons_append, hc]
  | list es =>
    obtain ⟨c, start, hc⟩ := hsecond (Entry.bencodeList es)
    exact ⟨108, c, start, by rw [Entry.bencode, hc], by decide⟩
  | dict items =>
    obtain ⟨c, start, hc⟩ := hsecond (Entry.bencodeItems items)
    exact ⟨100, c, start, by rw [Entry.bencode, hc], by decide⟩

theorem Entry.Fits.ne_undefined {d : ℕ} {e : Entry} (h : e.Fits d) : e ≠ .undefined := by
  rintro rfl
  cases h

theorem Entry.Dangling.ne_undefined {d : ℕ} {e : Entry} (h : e.Dangling d) : e ≠ .undefined := by
  rintro rfl
  cases h

section Containers

variable {buf : Bytes} {below : List Opened} {key begin : Bytes} {d : ℕ}

/-- **The entries of a list are read one after the other.** -/
theorem reaches_list {es : List Entry} (hdepth : below.length + (d + 1) ≤ depthLimit)
    (hes : ∀ e ∈ es, e.Fits d ∧ e.Decodes buf d) (items : List LazyEntry) (after : Bytes) :
    Reaches buf (.inside (.list key items) below, Entry.bencodeList es ++ after)
      (.inside (.list key (items ++ Entry.decodedList es)) below, after) := by
  induction es generalizing items with
  | nil =>
    rw [Entry.bencodeList, Entry.decodedList, List.append_nil]
    exact Reaches.refl _
  | cons e es ih =>
    obtain ⟨hfits, hdec⟩ := hes e (by simp)
    obtain ⟨t, c, start, hb, ht⟩ := Entry.exists_bencode_eq hfits.ne_undefined
    obtain ⟨s, hs, hle, hreach⟩ := hdec (.list key items :: below) []
      (Entry.bencodeList es ++ after) t (c :: start ++ (Entry.bencodeList es ++ after))
      (by simp only [List.length_cons]; omega) (by rw [hb]; rfl)
    have hturn : Reaches buf (.inside (.list key items) below,
        Entry.bencodeList (e :: es) ++ after) s := by
      have hsplit : Entry.bencodeList (e :: es) ++ after =
          t :: (c :: start ++ (Entry.bencodeList es ++ after)) := by
        simp [Entry.bencodeList, hb]
      rw [hsplit]
      exact reaches_of_list (by omega) (by simp) ht hs hle
    have hrest := ih (fun e he => hes e (by simp [he])) (items ++ [e.decoded])
    rw [List.append_assoc] at hrest
    exact (hturn.trans hreach).trans hrest

/-- **The items of a dictionary are read one after the other**, each under the key it was
written with. -/
theorem reaches_dict {items : List (Bytes × Entry)} (hdepth : below.length + (d + 1) ≤ depthLimit)
    (hitems : ∀ item ∈ items, item.2.Fits d ∧ item.2.Decodes buf d)
    (pairs : List (Bytes × LazyEntry)) (after : Bytes) :
    Reaches buf (.inside (.dict key begin pairs) below, Entry.bencodeItems items ++ after)
      (.inside (.dict key begin (pairs ++ Entry.decodedItems items)) below, after) := by
  induction items generalizing pairs with
  | nil =>
    rw [Entry.bencodeItems, Entry.decodedItems, List.append_nil]
    exact Reaches.refl _
  | cons item items ih =>
    obtain ⟨k, e⟩ := item
    obtain ⟨hfits, hdec⟩ := hitems (k, e) (by simp)
    obtain ⟨t, c, start, hb, -⟩ := Entry.exists_bencode_eq hfits.ne_undefined
    obtain ⟨s, hs, hle, hreach⟩ := hdec (.dict key begin pairs :: below)
      (k ++ t :: (c :: start ++ (Entry.bencodeItems items ++ after)))
      (Entry.bencodeItems items ++ after) t (c :: start ++ (Entry.bencodeItems items ++ after))
      (by simp only [List.length_cons]; omega) (by rw [hb]; rfl)
    have hturn : Reaches buf (.inside (.dict key begin pairs) below,
        Entry.bencodeItems ((k, e) :: items) ++ after) s := by
      have hsplit : Entry.bencodeItems ((k, e) :: items) ++ after =
          bencodeString k ++ t :: (c :: start ++ (Entry.bencodeItems items ++ after)) := by
        simp [Entry.bencodeItems, hb]
      rw [hsplit]
      exact reaches_of_dict (by omega) (by simp) hs hle
    have hkey : (k ++ t :: (c :: start ++ (Entry.bencodeItems items ++ after))).take
        ((k ++ t :: (c :: start ++ (Entry.bencodeItems items ++ after))).length -
          ((c :: start ++ (Entry.bencodeItems items ++ after)).length + 1)) = k := by
      rw [List.length_append, List.length_cons, Nat.add_sub_cancel, List.take_left]
    rw [hkey] at hreach
    have hrest := ih (fun item hitem => hitems item (by simp [hitem])) (pairs ++ [(k, e.decoded)])
    rw [List.append_assoc] at hrest
    exact (hturn.trans hreach).trans hrest

end Containers

/-- **Every entry that is defined throughout is decoded.** -/
theorem Entry.Fits.decodes {d : ℕ} {e : Entry} (h : e.Fits d) (buf : Bytes) : e.Decodes buf d := by
  induction h with
  | int n =>
    intro below first rest t start _ hb
    refine ⟨_, construct_int hb, ?_, Reaches.refl _⟩
    have hlen := congrArg List.length hb
    simp only [Entry.bencode, List.length_append, List.length_cons] at hlen
    simp only
    omega
  | string s =>
    intro below first rest t start _ hb
    refine ⟨_, construct_string hb, ?_, Reaches.refl _⟩
    have hlen := congrArg List.length hb
    simp only [Entry.bencode, bencodeString, List.length_append, List.length_cons] at hlen
    simp only
    omega
  | @list d es hes ih =>
    intro below first rest t start hdepth hb
    have hsplit : (Entry.list es).bencode ++ rest =
        108 :: (Entry.bencodeList es ++ 101 :: rest) := by
      simp [Entry.bencode]
    obtain ⟨rfl, rfl⟩ := List.cons.inj (hsplit.symm.trans hb)
    refine ⟨_, rfl, le_rfl, ?_⟩
    refine (reaches_list hdepth (fun e he => ⟨hes e he, ih e he⟩) [] (101 :: rest)).trans ?_
    exact reaches_of_turn (turn_list_end (by omega)) (Nat.lt_succ_self _)
  | @dict d items hitems ih =>
    intro below first rest t start hdepth hb
    have hsplit : (Entry.dict items).bencode ++ rest =
        100 :: (Entry.bencodeItems items ++ 101 :: rest) := by
      simp [Entry.bencode]
    obtain ⟨rfl, rfl⟩ := List.cons.inj (hsplit.symm.trans hb)
    refine ⟨_, rfl, le_rfl, ?_⟩
    refine (reaches_dict hdepth (fun e he => ⟨hitems e he, ih e he⟩) [] (101 :: rest)).trans ?_
    refine reaches_of_turn ?_ (Nat.lt_succ_self _)
    have hdata : ((Entry.dict items).bencode ++ rest).take
        (((Entry.dict items).bencode ++ rest).length - rest.length) =
          (Entry.dict items).bencode := by
      rw [List.length_append, Nat.add_sub_cancel, List.take_left]
    rw [turn_dict_end (by omega), Entry.decoded, ← hb, hdata]
    rfl

/-- The first turn makes the root. -/
theorem lazyBdecode_cons {t : UInt8} {start : Bytes} (hne : start ≠ []) :
    lazyBdecode (t :: start) = (construct [] [] t start).bind fun s =>
      decodeLoop (t :: start) start.length s.1 s.2 := by
  simp only [lazyBdecode, List.length_cons, decodeLoop]
  rw [turn, if_neg fun h => hne h.1]
  rcases construct [] [] t start with _ | s <;> rfl

/-- **`lazy_bdecode` takes back what `bencode` wrote.** -/
theorem lazyBdecode_bencode {d : ℕ} {e : Entry} (h : e.Fits d) (hd : d ≤ depthLimit) :
    lazyBdecode e.bencode = some e.decoded := by
  obtain ⟨t, c, start, hb, -⟩ := Entry.exists_bencode_eq h.ne_undefined
  obtain ⟨s, hs, hle, k, hk, hrun⟩ := h.decodes e.bencode [] [] [] t (c :: start) (by simpa)
    (by rw [hb, List.append_nil])
  have hturns : (c :: start).length = (c :: start).length - k + k := by
    have : k ≤ s.2.length := by simpa using hk
    omega
  rw [hb] at hrun
  rw [hb, lazyBdecode_cons (by simp), hs, Option.bind_some, hturns, hrun]
  exact decodeLoop_complete _ _ _

/-! ### Entries that are not -/

/-- **An entry breaks the decoder**: it is constructed, and then the loop fails. -/
def Entry.Breaks (buf : Bytes) (d : ℕ) (e : Entry) : Prop :=
  ∀ (below : List Opened) (first rest : Bytes) (t : UInt8) (start : Bytes),
    below.length + d ≤ depthLimit → e.bencode ++ rest = t :: start →
    ∃ s, construct below first t start = some s ∧ s.2.length ≤ start.length ∧ Fails buf s

section Breaks

variable {buf : Bytes} {below : List Opened} {key begin : Bytes} {d : ℕ} {e : Entry}

theorem fails_list (hdepth : below.length + (d + 1) ≤ depthLimit) (hne : e ≠ .undefined)
    (he : e.Breaks buf d) (items : List LazyEntry) (after : Bytes) :
    Fails buf (.inside (.list key items) below, e.bencode ++ after) := by
  obtain ⟨t, c, start, hb, ht⟩ := Entry.exists_bencode_eq hne
  obtain ⟨s, hs, hle, hfails⟩ := he (.list key items :: below) [] after t (c :: start ++ after)
    (by simp only [List.length_cons]; omega) (by rw [hb]; rfl)
  rw [hb]
  exact (reaches_of_list (by omega) (by simp) ht hs hle).fails hfails

theorem fails_dict (hdepth : below.length + (d + 1) ≤ depthLimit) (hne : e ≠ .undefined)
    (he : e.Breaks buf d) (pairs : List (Bytes × LazyEntry)) (k after : Bytes) :
    Fails buf (.inside (.dict key begin pairs) below, bencodeString k ++ (e.bencode ++ after)) := by
  obtain ⟨t, c, start, hb, -⟩ := Entry.exists_bencode_eq hne
  obtain ⟨s, hs, hle, hfails⟩ := he (.dict key begin pairs :: below)
    (k ++ t :: (c :: start ++ after)) after t (c :: start ++ after)
    (by simp only [List.length_cons]; omega) (by rw [hb]; rfl)
  rw [hb]
  exact (reaches_of_dict (by omega) (by simp) hs hle).fails hfails

end Breaks

/-- **An entry with a dangling key breaks the decoder.** -/
theorem Entry.Dangling.breaks {d : ℕ} {e : Entry} (h : e.Dangling d) (buf : Bytes) :
    e.Breaks buf d := by
  induction h with
  | @here d items key hitems =>
    intro below first rest t start hdepth hb
    have hsplit : (Entry.dict (items ++ [(key, .undefined)])).bencode ++ rest =
        100 :: (Entry.bencodeItems items ++ (bencodeString key ++ 101 :: rest)) := by
      simp [Entry.bencode, Entry.bencodeItems_append, Entry.bencodeItems]
    obtain ⟨rfl, rfl⟩ := List.cons.inj (hsplit.symm.trans hb)
    refine ⟨_, rfl, le_rfl, ?_⟩
    have hdecodes e (he : e ∈ items) := And.intro (hitems e he) ((hitems e he).decodes buf)
    refine (reaches_dict hdepth hdecodes [] _).fails ?_
    exact fails_of_turn (turn_dict_dangling (by omega)) (by simp)
  | @list d es after e hes he ih =>
    intro below first rest t start hdepth hb
    have hsplit : (Entry.list (es ++ e :: after)).bencode ++ rest =
        108 :: (Entry.bencodeList es ++
          (e.bencode ++ (Entry.bencodeList after ++ 101 :: rest))) := by
      simp [Entry.bencode, Entry.bencodeList_append, Entry.bencodeList]
    obtain ⟨rfl, rfl⟩ := List.cons.inj (hsplit.symm.trans hb)
    refine ⟨_, rfl, le_rfl, ?_⟩
    refine (reaches_list hdepth (fun e he => ⟨hes e he, (hes e he).decodes buf⟩) [] _).fails ?_
    exact fails_list hdepth he.ne_undefined ih _ _
  | @dict d items after key e hitems he ih =>
    intro below first rest t start hdepth hb
    have hsplit : (Entry.dict (items ++ (key, e) :: after)).bencode ++ rest =
        100 :: (Entry.bencodeItems items ++
          (bencodeString key ++ (e.bencode ++ (Entry.bencodeItems after ++ 101 :: rest)))) := by
      simp [Entry.bencode, Entry.bencodeItems_append, Entry.bencodeItems]
    obtain ⟨rfl, rfl⟩ := List.cons.inj (hsplit.symm.trans hb)
    refine ⟨_, rfl, le_rfl, ?_⟩
    have hdecodes e (he : e ∈ items) := And.intro (hitems e he) ((hitems e he).decodes buf)
    refine (reaches_dict hdepth hdecodes [] _).fails ?_
    exact fails_dict hdepth he.ne_undefined ih _ _ _

/-- **`lazy_bdecode` fails on a dangling key.** -/
theorem lazyBdecode_dangling {d : ℕ} {e : Entry} (h : e.Dangling d) (hd : d ≤ depthLimit) :
    lazyBdecode e.bencode = none := by
  obtain ⟨t, c, start, hb, -⟩ := Entry.exists_bencode_eq h.ne_undefined
  obtain ⟨s, hs, hle, hfails⟩ := h.breaks e.bencode [] [] [] t (c :: start) (by simpa)
    (by rw [hb, List.append_nil])
  rw [hb] at hfails
  rw [hb, lazyBdecode_cons (by simp), hs, Option.bind_some]
  exact hfails _ hle

end InstantMirror
