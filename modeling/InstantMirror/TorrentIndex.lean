import InstantMirror.Torrent

/-!
# Index pages

`torrentIndex` of `torrentIndex.cpp`: the page that lists one directory of a
torrent. The page is built in one pass over the list of `gettor`, from the *second*
row on, and remembers only the name of the last directory it has listed; a torrent
of one file is listed whatever directory was asked for.

A page is kept as its title and its rows, each row as the arguments of the call of
`addToList` that appends it.
-/

namespace InstantMirror

/-- `enum Type`. -/
inductive RowType where
  /-- `T_DIRECTORY`. -/
  | directory : RowType
  /-- `T_FILE`. -/
  | file : RowType
deriving DecidableEq

/-- **A row**: the arguments of a call of `addToList`. -/
structure Row where
  /-- What is listed. -/
  fileType : RowType
  /-- What the link starts with. -/
  baseurl : Bytes
  /-- The name that is shown, and that the link ends with. -/
  filename : Bytes
  /-- The modification time shown for a file. -/
  mtime : ℤ
  /-- The size shown for a file. -/
  size : ℤ
deriving DecidableEq

/-- **An index page**: what `indexstr` is built from. -/
structure IndexPage where
  /-- The title and the heading. -/
  title : Bytes
  /-- The rows of the table. -/
  rows : List Row
deriving DecidableEq

/-- The constructor of `torrentIndex`: the path that is listed, with a slash at its
end. The string is never empty where the daemon lists one. -/
def indexPath (str : Bytes) : Bytes :=
  if str.getLast? = some slash then str else str ++ [slash]

/-- `addTitleAndHtml`: the title, cut at the first dot of the path. -/
def indexTitle (torrentPath : Bytes) : Bytes :=
  ascii "Index for " ++ substrTo torrentPath (find torrentPath 46)

/-- The loop of `generateIndex`. -/
def generateRows (torrentPath : Bytes) (previousFile : Bytes) : List TorFile → List Row
  | [] => []
  | row :: list =>
    -- only an entry the path stands at the start of is listed
    if findStr torrentPath row.name ≠ 0 then generateRows torrentPath previousFile list
    else
      let localstr := row.name.drop torrentPath.length
      if find localstr slash > 0 then
        let substring := substrTo localstr (find localstr slash)
        if previousFile = substring then generateRows torrentPath previousFile list
        else
          ⟨.directory, torrentPath, substring, 0, 0⟩ :: generateRows torrentPath substring list
      else
        ⟨.file, torrentPath, localstr, row.mtime, row.size⟩ ::
          generateRows torrentPath previousFile list

/-- **`torrentIndex::generateIndex`.** The loop starts at the second entry. -/
def generateIndex (torrentPath : Bytes) : List TorFile → IndexPage
  | [] => ⟨indexTitle torrentPath, []⟩
  | [row] => ⟨indexTitle torrentPath, [⟨.file, [], row.name, row.mtime, row.size⟩]⟩
  | _ :: list => ⟨indexTitle torrentPath, generateRows torrentPath [] list⟩

end InstantMirror
