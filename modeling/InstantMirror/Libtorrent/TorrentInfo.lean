import InstantMirror.Lib.Path
import InstantMirror.Libtorrent.LazyEntry
import InstantMirror.Torrent

/-!
# A `torrent_info`, read from a buffer

`torrent_info.cpp`: what a decoded buffer says about the files of a torrent. Every path goes
through three repairs – components that are no names are dropped, long ones are cut, and
bytes that are no UTF-8 are converted – and a path that differs from an earlier one only in
case is given a number.

A `boost::filesystem::path` is the list of its components (`InstantMirror.FsPath`), and `/=`
appends one – also one with a slash in it, which is no component of a path. The rest of a
torrent – trackers, seeds, comments, dates – is read without any
way to fail and says nothing about the files; it is left out. With
`InstantMirror.TorrentFile.ofBytes`, a `.torrent` file is its bytes.
-/

namespace InstantMirror

/-! ### Paths -/

/-- **A `boost::filesystem::path`**: its components. -/
abbrev FsPath : Type := List Bytes

/-- The text of a path after `/= c`. -/
def appendElement (text c : Bytes) : Bytes :=
  if text = [] ∨ text.getLast? = some slash then text ++ c else text ++ slash :: c

/-- `string()`. -/
def FsPath.string (p : FsPath) : Bytes := p.foldl appendElement []

/-- The path a text stands for. Slashes at its ends are dropped, as `sanitize_path` drops
them. -/
def FsPath.ofString (text : Bytes) : FsPath := (components text).filter (· ≠ [])

/-- `has_parent_path()`. -/
def FsPath.hasParentPath (p : FsPath) : Bool := 1 < p.length

/-- `extension` of a component: everything from the last dot on. -/
def extension (name : Bytes) : Bytes :=
  if rfind name 46 (-1) < 0 then [] else substrFrom name (rfind name 46 (-1))

/-- `replace_extension`, for an extension that starts with a dot. -/
def FsPath.replaceExtension (p : FsPath) (ext : Bytes) : FsPath :=
  match p.getLast? with
  | none => [ext]
  | some name => p.dropLast ++ [name.take (name.length - (extension name).length) ++ ext]

/-! ### The repairs of a path -/

/-- `convert_to_utf8`. -/
def convertToUtf8 (c : UInt8) : Bytes := [(0xc0 : UInt8) ||| (c >>> 6), 0x80 ||| (c &&& 0x3f)]

/-- How many bytes `verify_encoding` takes for the character in front; `0` where it takes
none and converts the first byte. The test for four bytes is the one for three, and one
byte more. -/
def utf8Length : Bytes → ℕ
  | [] => 0
  | a :: s =>
    if a &&& 0x80 = 0 then 1
    else
      match s with
      | [] => 0
      | b :: s =>
        if a &&& 0xe0 = 0xc0 ∧ b &&& 0xc0 = 0x80 then 2
        else
          match s with
          | [] => 0
          | c :: s =>
            if a &&& 0xf0 = 0xe0 ∧ b &&& 0xc0 = 0x80 ∧ c &&& 0xc0 = 0x80 then 3
            else
              match s with
              | [] => 0
              | d :: _ =>
                if a &&& 0xf0 = 0xe0 ∧ b &&& 0xc0 = 0x80 ∧ c &&& 0xc0 = 0x80 ∧ d &&& 0xc0 = 0x80
                then 4
                else 0

/-- The loop of `verify_encoding`, with `more` bytes of a character still to be taken:
`tmp_path` and `valid_encoding`. -/
def verifyLoop : ℕ → Bytes → Bytes × Bool
  | _, [] => ([], true)
  | more + 1, c :: s => (c :: (verifyLoop more s).1, (verifyLoop more s).2)
  | 0, c :: s =>
    match utf8Length (c :: s) with
    | 0 => (convertToUtf8 c ++ (verifyLoop 0 s).1, false)
    | more + 1 => (c :: (verifyLoop more s).1, (verifyLoop more s).2)

/-- **`verify_encoding`**: the string, converted unless it is valid. -/
def verifyEncoding (target : Bytes) : Bytes :=
  if (verifyLoop 0 target).2 then target else (verifyLoop 0 target).1

/-- `verify_encoding` of a path. -/
def FsPath.verifyEncoding (p : FsPath) : FsPath :=
  if (verifyLoop 0 p.string).2 then p else FsPath.ofString (verifyLoop 0 p.string).1

/-- **`valid_path_element`.** -/
def validPathElement (element : Bytes) : Bool :=
  ¬ (element = [] ∨ element = dot ∨ element = dotdot ∨ element.head? = some slash ∨
    element.head? = some 92 ∨ element.getLast? = some 58)

/-- **`trim_path_element`**, with `FILENAME_MAX` for the length. -/
def trimPathElement (element : Bytes) : Bytes :=
  if element.length > 4096 then
    if (extension element).length > 15 then element.take 4096
    else element.take (4096 - (extension element).length) ++ extension element
  else element

/-- **`sanitize_path`.** -/
def sanitizePath (p : FsPath) : FsPath := (p.filter (validPathElement ·)).map trimPathElement

/-! ### Files -/

/-- **A `file_entry`**, with all that is written about it in a torrent. -/
structure StoredFile where
  /-- The path, starting with the name of the torrent. -/
  path : FsPath
  /-- The length in bytes. -/
  size : ℤ
  /-- The modification time. -/
  mtime : ℤ
  /-- Whether the file is there for alignment only. -/
  padFile : Bool
  /-- Whether it is hidden. -/
  hiddenAttribute : Bool
  /-- Whether it is executable. -/
  executableAttribute : Bool
  /-- Whether it is a symbolic link. -/
  symlinkAttribute : Bool
  /-- The target of the link. -/
  symlinkPath : FsPath
deriving DecidableEq

/-- What the daemon reads of it. -/
def StoredFile.fileEntry (f : StoredFile) : FileEntry :=
  ⟨f.path.string, f.size, f.mtime, f.symlinkAttribute, f.symlinkPath.string, f.padFile⟩

/-- `to_lower`. -/
def toLower (c : UInt8) : UInt8 := if 65 ≤ c ∧ c ≤ 90 then c - 65 + 97 else c

/-- `string_equal_no_case`, on the C strings. -/
def stringEqualNoCase (s₁ s₂ : Bytes) : Bool := (cstr s₁).map toLower = (cstr s₂).map toLower

/-- One letter of `attr`. -/
def StoredFile.setAttribute (f : StoredFile) (c : UInt8) : StoredFile :=
  if c = 108 then { f with symlinkAttribute := true, size := 0 }
  else if c = 120 then { f with executableAttribute := true }
  else if c = 104 then { f with hiddenAttribute := true }
  else if c = 112 then { f with padFile := true }
  else f

/-- `attr` and `symlink path` of a file, which both kinds of torrents have. -/
def StoredFile.readAttributes (dict : LazyEntry) (f : StoredFile) : StoredFile :=
  let f := ((dict.dictFindString (ascii "attr")).getD []).foldl StoredFile.setAttribute f
  match dict.dictFindList (ascii "symlink path") with
  | none => f
  | some elements =>
    { f with symlinkPath := f.symlinkPath ++ elements.map (trimPathElement ·.stringValue) }

/-- The mark of a padding file. -/
def StoredFile.markPadding (f : StoredFile) : StoredFile :=
  if findStr (ascii "_____padding_file_") f.path.string < 0 then f else { f with padFile := true }

/-- The elements of a list of strings, unless one of them is no string. -/
def stringElements : List LazyEntry → Option (List Bytes)
  | [] => some []
  | .string s :: es => (stringElements es).map (s :: ·)
  | _ :: _ => none

/-- The time of a file: negative ones are not taken. -/
def readMtime (dict : LazyEntry) : ℤ :=
  if 0 ≤ dict.dictFindIntValue (ascii "mtime") (-1) then dict.dictFindIntValue (ascii "mtime") (-1)
  else 0

/-- **`extract_single_file`**; `none` where it returns `false`. -/
def extractSingleFile (dict : LazyEntry) (rootDir : Bytes) : Option StoredFile :=
  match dict.dictFind (ascii "length") with
  | some (.int digits) =>
    match (dict.dictFindList (ascii "path.utf-8")).or (dict.dictFindList (ascii "path")) with
    | none => none
    | some elements =>
      match stringElements elements with
      | none => none
      | some names =>
        let path := sanitizePath (FsPath.ofString rootDir ++ names.map trimPathElement)
        let f : StoredFile := ⟨path.verifyEncoding, intValue digits, readMtime dict, false, false,
          false, false, []⟩
        some (f.markPadding.readAttributes dict)
  | _ => none

/-- A path that differs from an earlier one only in case is given a number. -/
def StoredFile.renameDuplicate (target : List StoredFile) (e : StoredFile) : StoredFile :=
  let cnt := target.countP fun k => stringEqualNoCase e.path.string k.path.string
  if cnt = 0 then e
  else
    let ext := match e.path.getLast? with
      | none => []
      | some name => extension name
    { e with path := e.path.replaceExtension (46 :: decimal cnt ++ ext) }

/-- **`extract_files`**: the loop, with the files it has added. -/
def extractFiles (rootDir : Bytes) : List LazyEntry → List StoredFile → Option (List StoredFile)
  | [], target => some target
  | dict :: dicts, target =>
    match extractSingleFile dict rootDir with
    | none => none
    | some e => extractFiles rootDir dicts (target ++ [e.renameDuplicate target])

/-! ### The info section -/

/-- An integer of 32 bits. -/
def wrap32 (n : ℤ) : ℤ := n.bmod 0x100000000

/-- `total_size()`, to which each file adds its size. -/
def totalSize (files : List StoredFile) : ℤ :=
  files.foldl (fun total e => wrap64 (total + e.size)) 0

/-- `num_pieces()`, of these files in pieces of this length. -/
def numPieces (files : List StoredFile) (pieceLength : ℤ) : ℤ :=
  wrap32 ((wrap64 (totalSize files + pieceLength - 1)).tdiv pieceLength)

/-- `string_length()`, which is `m_size` whatever the type. -/
def LazyEntry.stringLength : LazyEntry → ℕ
  | .none => 0
  | .int digits => digits.length
  | .string value => value.length
  | .list items => items.length
  | .dict _ items => items.length

/-- Whether it is a string. -/
def LazyEntry.isString : LazyEntry → Bool
  | .string _ => true
  | _ => false

/-- The name of a torrent, repaired; `none` where there is none. -/
def readName (info : LazyEntry) : Option Bytes :=
  let utf8 := info.dictFindStringValue (ascii "name.utf-8")
  let name := if utf8 = [] then info.dictFindStringValue (ascii "name") else utf8
  if name = [] then none
  else
    let name := (sanitizePath (FsPath.ofString name)).string
    if validPathElement name then some (verifyEncoding name) else none

/-- The file of a torrent without a list of files. -/
def readSingle (info : LazyEntry) (name : Bytes) : Option StoredFile :=
  let f : StoredFile := ⟨FsPath.ofString name, info.dictFindIntValue (ascii "length") (-1),
    readMtime info, false, false, false, false, []⟩
  let f := (f.readAttributes info).markPadding
  if f.size < 0 then none else some f

/-- The files of a torrent of this name; `none` where they cannot be read. -/
def readFiles (info : LazyEntry) (name : Bytes) : Option (List StoredFile) :=
  match info.dictFindList (ascii "files") with
  | none => (readSingle info name).map ([·])
  | some dicts => extractFiles name dicts []

/-- Whether the hashes of the pieces are there, and as many as there are pieces. -/
def checkPieces (info : LazyEntry) (count : ℤ) : Bool :=
  match info.dictFind (ascii "pieces"), info.dictFind (ascii "root hash") with
  | some pieces, root =>
    (pieces.isString || (root.map LazyEntry.isString).getD false) &&
      decide ((pieces.stringLength : ℤ) = wrap32 (count * 20))
  | none, some root => root.isString && root.stringLength = 20
  | none, none => false

/-- **`parse_info_section`**; `none` where it returns `false`. A section without an end has no
size that could be hashed. -/
def parseInfoSection (sha1 : Bytes → Bytes) (info : LazyEntry) : Option TorrentInfo :=
  match info with
  | .dict (some data) _ =>
    let pieceLength := wrap32 (info.dictFindIntValue (ascii "piece length") (-1))
    if pieceLength ≤ 0 then none
    else
      match readName info with
      | none => none
      | some name =>
        match readFiles info name with
        | none => none
        | some files =>
          if checkPieces info (numPieces files pieceLength) then
            some ⟨sha1 data, files.map StoredFile.fileEntry, pieceLength⟩
          else none
  | _ => none

/-- **`parse_torrent_file`**; `none` where it returns `false`. -/
def parseTorrentFile (sha1 : Bytes → Bytes) (torrentFile : LazyEntry) : Option TorrentInfo :=
  match torrentFile.dictFindDict (ascii "info") with
  | none => none
  | some info => parseInfoSection sha1 info

/-! ### A `.torrent` file -/

/-- **What a buffer decodes to.** -/
def decodeBuffer (sha1 : Bytes → Bytes) (buf : Bytes) : Decoded :=
  match lazyBdecode buf with
  | none => .invalidBencoding
  | some e =>
    match parseTorrentFile sha1 e with
    | none => .invalidTorrent
    | some ti => .torrent ti

/-- **The `.torrent` file with these bytes.** -/
def TorrentFile.ofBytes (sha1 : Bytes → Bytes) (content : Bytes) (mtime linkMtime : ℤ) :
    TorrentFile :=
  ⟨content.length, true, fun n => decodeBuffer sha1 (content.take n), mtime, linkMtime⟩

end InstantMirror
