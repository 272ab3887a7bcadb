import InstantMirror.Libtorrent.Bencode

/-!
# `lazy_bdecode`

The decoder of libtorrent. It goes once through the buffer, with a stack of the lists and
dictionaries that are open, and leaves behind a tree of entries that point into the buffer
(`InstantMirror.LazyEntry`). A pointer into the buffer is here the part of the buffer from
there on, so that the distance of two pointers is a difference of lengths.

Some of what the decoder does is worth keeping in mind:

* the end of the buffer is always a good place to stop: whatever is still open is then left
  as it is, without an end;
* the key of a dictionary item is not the string that was read. It is everything from where
  that string began to where its value says it begins, and a string says that by the number
  of digits its *length* has;
* the length of a key is read from any character, and one below `'0'` makes it negative: the
  pointer then moves backwards. So a turn of the loop need not make progress, and the loop
  is given as many turns as there are bytes (`InstantMirror.decodeLoop`).
-/

namespace InstantMirror

/-! ### The tree -/

/-- **A `lazy_entry`.** -/
inductive LazyEntry where
  /-- Nothing was read. -/
  | none : LazyEntry
  /-- An integer, as the text between `i` and `e`. -/
  | int (digits : Bytes) : LazyEntry
  /-- A string. -/
  | string (value : Bytes) : LazyEntry
  /-- A list. -/
  | list (items : List LazyEntry) : LazyEntry
  /-- A dictionary, and the part of the buffer it was read from: `none` where the buffer ends
  inside of it. -/
  | dict (data : Option Bytes) (items : List (Bytes × LazyEntry)) : LazyEntry

/-- `parse_int`: the value that is passed by reference, and the pointer that is returned,
null where something other than a digit stands in front of the delimiter. -/
def parseInt (delimiter : UInt8) : Bytes → ℤ → ℤ × Option Bytes
  | [], val => (val, some [])
  | c :: s, val =>
    if c = delimiter then (val, some (c :: s))
    else if isDigit c then parseInt delimiter s (val * 10 + digitValue c)
    else (val, none)

/-- An integer of 64 bits. -/
def wrap64 (n : ℤ) : ℤ := n.bmod 0x10000000000000000

/-- `int_value`, for the text of an integer. -/
def intValue (digits : Bytes) : ℤ :=
  if digits.head? = some 45 then wrap64 (-(parseInt 101 digits.tail 0).1)
  else wrap64 (parseInt 101 digits 0).1

namespace LazyEntry

/-- `string_value`. An integer has its text where a string has its bytes. -/
def stringValue : LazyEntry → Bytes
  | string value => value
  | int digits => digits
  | _ => []

/-- `dict_find`: the first item with this key. -/
def dictFind (name : Bytes) : LazyEntry → Option LazyEntry
  | dict _ items => items.lookup name
  | _ => Option.none

/-- `dict_find_string_value`. -/
def dictFindStringValue (name : Bytes) (e : LazyEntry) : Bytes :=
  match e.dictFind name with
  | some (string value) => value
  | _ => []

/-- `dict_find_string`. -/
def dictFindString (name : Bytes) (e : LazyEntry) : Option Bytes :=
  match e.dictFind name with
  | some (string value) => some value
  | _ => Option.none

/-- `dict_find_int_value`. -/
def dictFindIntValue (name : Bytes) (e : LazyEntry) (default : ℤ) : ℤ :=
  match e.dictFind name with
  | some (int digits) => intValue digits
  | _ => default

/-- `dict_find_dict`. -/
def dictFindDict (name : Bytes) (e : LazyEntry) : Option LazyEntry :=
  match e.dictFind name with
  | some (dict data items) => some (dict data items)
  | _ => Option.none

/-- `dict_find_list`: the entries of the list. -/
def dictFindList (name : Bytes) (e : LazyEntry) : Option (List LazyEntry) :=
  match e.dictFind name with
  | some (list items) => some items
  | _ => Option.none

end LazyEntry

/-! ### The loop -/

/-- **A list or dictionary on the stack**, with the key it has where it stands in a
dictionary itself. -/
inductive Opened where
  /-- A list. -/
  | list (key : Bytes) (items : List LazyEntry) : Opened
  /-- A dictionary, and the buffer from its `d` on. -/
  | dict (key start : Bytes) (items : List (Bytes × LazyEntry)) : Opened

/-- `list_append` or `dict_append`. -/
def Opened.append (key : Bytes) (e : LazyEntry) : Opened → Opened
  | .list k items => .list k (items ++ [e])
  | .dict k start items => .dict k start (items ++ [(key, e)])

/-- Its key. -/
def Opened.key : Opened → Bytes
  | .list key _ => key
  | .dict key _ _ => key

/-- What it is as long as it is open. -/
def Opened.entry : Opened → LazyEntry
  | .list _ items => .list items
  | .dict _ _ items => .dict none items

/-- What `lazy_bdecode` has made at the head of its loop. -/
inductive Progress where
  /-- Nothing: the root is on the stack, and it is of no type yet. -/
  | blank : Progress
  /-- The entry on top of the stack, and those below it. -/
  | inside (top : Opened) (below : List Opened) : Progress
  /-- Everything: the stack is empty. -/
  | complete (e : LazyEntry) : Progress

/-- `stack.pop_back()`: an entry is finished. -/
def Progress.pop (key : Bytes) (e : LazyEntry) : List Opened → Progress
  | [] => .complete e
  | top :: below => .inside (top.append key e) below

/-- What the buffer that ends here leaves. -/
def Opened.unwind (top : Opened) : List Opened → LazyEntry
  | [] => top.entry
  | next :: below => (next.append top.key top.entry).unwind below

/-- `num_digits`. -/
def numDigits (val : ℕ) : ℕ := (decimal val).length

/-- **The second `switch` of a turn**: an entry that begins with `t`, `start` being what
follows. `first` is where its key begins, if it has one. -/
def construct (below : List Opened) (first : Bytes) (t : UInt8) (start : Bytes) :
    Option (Progress × Bytes) :=
  let key := first.take (first.length - (start.length + 1))
  if t = 100 then some (.inside (.dict key (t :: start) []) below, start)
  else if t = 108 then some (.inside (.list key []) below, start)
  else if t = 105 then
    match start.dropWhile (· ≠ 101) with
    | [] => none
    | _ :: rest => some (.pop key (.int (start.takeWhile (· ≠ 101))) below, rest)
  else if isDigit t then
    match parseInt 58 start (digitValue t) with
    | (len, some (c :: content)) =>
      if content.length < len ∨ c ≠ 58 then none
      else
        -- `construct_string` counts the digits of the length back from the colon
        let key := first.take (first.length - (content.length + 1 + numDigits len.toNat))
        some (.pop key (.string (content.take len.toNat)) below, content.drop len.toNat)
    | _ => none
  else none

/-- `start += len`, in the buffer `buf`. -/
def advance (buf start : Bytes) (len : ℤ) : Option Bytes :=
  if 0 ≤ len then some (start.drop len.toNat)
  else if (buf.length : ℤ) - start.length + len < 0 then none
  else some (buf.drop ((buf.length : ℤ) - start.length + len).toNat)

/-- `depth_limit`. -/
def depthLimit : ℕ := 1000

/-- **A turn of the loop**, from `start`; `none` for `fail_bdecode`. -/
def turn (buf : Bytes) : Progress → Bytes → Option (Progress × Bytes)
  | .blank, t :: start => if start = [] ∧ t ≠ 101 then none else construct [] [] t start
  | .inside top below, t :: start =>
    if below.length + 1 > depthLimit then none
    else if start = [] ∧ t ≠ 101 then none
    else
      match top with
      | .list key items =>
        if t = 101 then some (.pop key (.list items) below, start)
        else construct (top :: below) [] t start
      | .dict key begin items =>
        if t = 101 then
          some (.pop key (.dict (some (begin.take (begin.length - start.length))) items) below,
            start)
        else
          match parseInt 58 start (digitValue t) with
          | (len, some (c :: content)) =>
            if content.length + 1 < len + 3 ∨ c ≠ 58 ∨ content = [] then none
            else
              match advance buf content len with
              | some (t' :: start') => construct (top :: below) content t' start'
              | _ => none
          | _ => none
  | _, _ => none

/-- **The loop of `lazy_bdecode`**, for so many turns. -/
def decodeLoop (buf : Bytes) : ℕ → Progress → Bytes → Option LazyEntry
  | _, .complete e, _ => some e
  | _, .blank, [] => some .none
  | _, .inside top below, [] => some (top.unwind below)
  | 0, _, _ => none
  | turns + 1, progress, start =>
    match turn buf progress start with
    | none => none
    | some (progress', start') => decodeLoop buf turns progress' start'

/-- **`lazy_bdecode`**; `none` where it fails. -/
def lazyBdecode (buf : Bytes) : Option LazyEntry := decodeLoop buf buf.length .blank buf

example : (lazyBdecode (ascii "d1:ai-5e1:bl0:e")).map (LazyEntry.dictFindIntValue [97] · 0) =
    some (-5) := by decide

end InstantMirror
