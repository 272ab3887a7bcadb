import InstantMirror.Lib.Decimal

/-!
# Bencoding

`entry` of libtorrent and `bencode`. An entry is an integer, a string, a list or a
dictionary – or nothing at all: an `entry` that was default-constructed and never
assigned is *undefined*, and `bencode` writes no byte for it. `dict["key"]` alone makes
such an entry, so a dictionary may hold a key that is written without any value behind it.

A dictionary is a `std::map`. It is kept here as the list of its items in the order of the
keys, which is the order `bencode` writes them in.
-/

namespace InstantMirror

/-- **An `entry`.** -/
inductive Entry where
  /-- Constructed and never assigned. -/
  | undefined : Entry
  /-- An integer. -/
  | int (n : ℤ) : Entry
  /-- A string. -/
  | string (s : Bytes) : Entry
  /-- A list. -/
  | list (es : List Entry) : Entry
  /-- A dictionary, by increasing keys. -/
  | dict (items : List (Bytes × Entry)) : Entry

/-- `items[key] = value`, in a `std::map`: an item is replaced, or inserted where the order
of the keys has it. -/
def assign {α : Type*} (key : Bytes) (value : α) : List (Bytes × α) → List (Bytes × α)
  | [] => [(key, value)]
  | item :: items =>
    if key = item.1 then (key, value) :: items
    else if key < item.1 then (key, value) :: item :: items
    else item :: assign key value items

/-- A string: its length, a colon and its bytes. Keys are written in the same way. -/
def bencodeString (s : Bytes) : Bytes := decimal s.length ++ 58 :: s

mutual

/-- **`bencode`.** -/
def Entry.bencode : Entry → Bytes
  | .undefined => []
  | .int n => 105 :: (intText n ++ [101])
  | .string s => bencodeString s
  | .list es => 108 :: (Entry.bencodeList es ++ [101])
  | .dict items => 100 :: (Entry.bencodeItems items ++ [101])

/-- The entries of a list, one after the other. -/
def Entry.bencodeList : List Entry → Bytes
  | [] => []
  | e :: es => e.bencode ++ Entry.bencodeList es

/-- The items of a dictionary, each key in front of its value. -/
def Entry.bencodeItems : List (Bytes × Entry) → Bytes
  | [] => []
  | (key, e) :: items => bencodeString key ++ (e.bencode ++ Entry.bencodeItems items)

end

end InstantMirror
