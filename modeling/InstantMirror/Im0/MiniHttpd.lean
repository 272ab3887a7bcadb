import InstantMirror.Im0.Checks

/-!
# The prototype: routing a request

`handle_request` of `im0` asks the file system up to three times before it knows what to do,
and every `stat` goes to the same global buffer `sb`: the file that was asked for, the
`.torrent` file of that name – then the answer is an index of the torrent – and, if the file is
none of a torrent either, the file once more, or the longest part of its path that leads
somewhere. `do_file` then sends a file, and takes its size and its time from `sb`
(`InstantMirror.Im0.serve`).

The buffer is passed along here: a `stat` that fails leaves it as it is
(`InstantMirror.Im0.statInto`). At the start of a request it is all zeros
(`InstantMirror.Im0.Stat.zero`), since each request has a process of its own and the parent
never fills it.

A file of a torrent that is not there is fetched first, and `getTorrent` – it waits until the
file has been downloaded – leaves another world behind; that is a parameter here.
-/

namespace InstantMirror.Im0

/-! ### The answers -/

/-- **The answer to a request.** -/
inductive Reply where
  /-- `send_error`. -/
  | error (refusal : Refusal) : Reply
  /-- `do_cgi`: what a program makes of the request. -/
  | cgi (file : Bytes) (pathinfo : Option Bytes) : Reply
  /-- A file: the status, `Content-Length`, the time in `Last-Modified`, and how many bytes of
  a body are sent. -/
  | file (status : ℕ) (contentLength : Option ℤ) (lastModified : Option ℤ) (sent : ℕ) : Reply
  /-- `do_torrent_index`, and the time in `Last-Modified`. -/
  | torrentIndex (file : Bytes) (lastModified : Option ℤ) : Reply
  /-- `do_dir`, and the time in `Last-Modified`. -/
  | dir (file : Bytes) (lastModified : Option ℤ) : Reply
  /-- The process exits, and nothing is sent. -/
  | exits : Reply
deriving DecidableEq

/-- The error for what is not there. -/
def fileNotFound : Refusal := ⟨404, ascii "Not Found", [], ascii "File not found."⟩

/-- `Last-Modified`, as `add_headers` sends it. -/
def lastModified (mod : ℤ) : Option ℤ := if mod ≠ -1 then some mod else none

/-- **`add_headers`**, for a file: `-1` stands for no length and for no time. -/
def addHeaders (status : ℕ) (b mod : ℤ) (sent : ℕ) : Reply :=
  .file status (if 0 ≤ b then some b else none) (lastModified mod) sent

/-- `my_sendfile`: how many bytes of the file one `sendfile` sends. -/
def World.sendfile (w : World) (file : Bytes) (nbytes : ℕ) : ℕ :=
  match w.node file with
  | some (.file f) => min (min nbytes f.size) 0x7ffff000
  | _ => 0

/-! ### `do_file` -/

/-- Whether this is a password file. -/
def isAuthFile (file : Bytes) : Bool := file = authFile || (slash :: authFile).isSuffixOf file

/-- The directory that `do_file` checks the authorization for. -/
def dirname (file : Bytes) : Bytes :=
  if rfind file slash file.length = -1 then dot else substrTo file (rfind file slash file.length)

/-- **What `do_file` does before it looks at `sb`**: it may answer with an error, or leave the
request to a program. -/
def answered (cfg : Config) (w : World) (req : Request) (file : Bytes) (pathinfo : Option Bytes) :
    Option Reply :=
  match authCheck cfg w req.authorization (dirname file) with
  | some refusal => some (.error refusal)
  | none =>
    if isAuthFile file then some (.error fileProtected)
    else
      match checkReferer cfg req with
      | some refusal => some (.error refusal)
      | none =>
        if (cfg.cgiPattern.map (matchPattern · file)).getD false then some (.cgi file pathinfo)
        else if pathinfo.isSome then some (.error fileNotFound)
        else if w.readable file then none
        else some (.error fileProtected)

/-- The decision for `304`. -/
def NotModified (req : Request) (mtime : ℤ) : Prop :=
  req.ifModifiedSince ≠ -1 ∧ mtime ≤ req.ifModifiedSince

instance (req : Request) (mtime : ℤ) : Decidable (NotModified req mtime) :=
  inferInstanceAs (Decidable (_ ∧ _))

/-- **What `do_file` sends of a file**, with what is in `sb`. -/
def serve (w : World) (req : Request) (file : Bytes) (sb : Stat) : Reply :=
  if NotModified req sb.mtime then addHeaders 304 (-1) sb.mtime 0
  else addHeaders 200 sb.size sb.mtime (if req.method = .head then 0 else w.sendfile file sb.size)

/-- **`do_file`.** -/
def doFile (cfg : Config) (w : World) (req : Request) (file : Bytes) (pathinfo : Option Bytes)
    (sb : Stat) : Reply :=
  (answered cfg w req file pathinfo).getD (serve w req file sb)

/-! ### The torrents -/

/-- **`gettor`** of the prototype: the names are those inside the torrent; `none` where it calls
`exit(-1)`. -/
def gettor (w : World) (name : Bytes) : Option (List TorFile) :=
  match w.node name with
  | some (.file f) => f.gettor.map fun list => list.map fun row =>
      { row with name := substrFrom row.name (find row.name slash + 1) }
  | _ => some []

/-- **`check`**: the index of the first file of this name, or `-1`. -/
def check (w : World) (torrentName path : Bytes) : Option ℤ :=
  (gettor w (torrentName ++ ascii ".torrent")).map fun list =>
    match list.findIdx? fun row => row.name = path with
    | some i => (i : ℤ)
    | none => -1

/-- **`check_file`**: whether this is a file of a torrent. -/
def checkFile (w : World) (file : Bytes) : Option Bool :=
  (check w (substrTo file (find file slash)) (substrFrom file (find file slash + 1))).map (0 ≤ ·)

/-! ### `handle_request` -/

/-- `sb`, before anything is written to it. -/
def Stat.zero : Stat := ⟨false, 0, 0⟩

/-- What is in `sb` after a `stat`: one that fails leaves it as it is. -/
def statInto (w : World) (path : Bytes) (sb : Stat) : Stat := (w.stat path).getD sb

/-- **`get_pathinfo`**: the longest part of the path before one of the first `i` bytes that is a
slash and that leads somewhere, the rest of the path, and what `stat` said. -/
def getPathinfo (w : World) (file : Bytes) : ℕ → Option (Bytes × Bytes × Stat)
  | 0 => none
  | 1 => none
  | i + 2 =>
    if file[i + 1]? = some slash then
      match w.stat (file.take (i + 1)) with
      | some sb => some (file.take (i + 1), file.drop (i + 2), sb)
      | none => getPathinfo w file (i + 1)
    else getPathinfo w file (i + 1)

/-- The slashes at the end of the name of what is no directory. -/
def stripSlashes (file : Bytes) : Bytes := (file.reverse.dropWhile (· = slash)).reverse

/-- `index_names`. -/
def indexNames : List Bytes :=
  ["index.html", "index.htm", "index.xhtml", "index.xht", "Default.htm", "index.cgi"].map ascii

/-- The end of `handle_request`, for a directory: a file that is its index, or its listing. -/
def handleDirectory (cfg : Config) (w : World) (req : Request) (file : Bytes)
    (pathinfo : Option Bytes) (sb : Stat) : List Bytes → Reply
  | [] => .dir file (lastModified sb.mtime)
  | name :: names =>
    let idx := (file ++ name).take 9999
    match w.stat idx with
    | some sb => doFile cfg w req idx pathinfo sb
    | none => handleDirectory cfg w req file pathinfo sb names

/-- The rest of `handle_request` once something has been found. -/
def handleFound (cfg : Config) (w : World) (req : Request) (file : Bytes)
    (pathinfo : Option Bytes) (sb : Stat) : Reply :=
  if sb.isDir then handleDirectory cfg w req file pathinfo sb indexNames
  else doFile cfg w req (stripSlashes file) pathinfo sb

/-- The second half of `handle_request`, for what is no file of a torrent. -/
def handleFile (cfg : Config) (w : World) (req : Request) : Reply :=
  match w.stat req.file with
  | some sb => handleFound cfg w req req.file none sb
  | none =>
    match getPathinfo w req.file req.file.length with
    | some (file, pathinfo, sb) => handleFound cfg w req file (some pathinfo) sb
    | none => .error fileNotFound

/-- **`do_torrent_file`**: the file is fetched, and then sent with what is in `sb`. -/
def doTorrentFile (cfg : Config) (getTorrent : Bytes → World → World) (w : World) (req : Request)
    (sb : Stat) : Reply :=
  doFile cfg (getTorrent req.file w) req req.file none sb

/-- **`handle_request`**, from the first `stat` on. -/
def handleRequest (cfg : Config) (getTorrent : Bytes → World → World) (w : World)
    (req : Request) : Reply :=
  let sb := statInto w req.file .zero
  if (w.stat req.file).isNone ∨ sb.isDir then
    -- `check_torrent`
    let sb' := statInto w (req.file ++ ascii ".torrent") sb
    if (w.stat (req.file ++ ascii ".torrent")).isSome then
      .torrentIndex req.file (lastModified sb'.mtime)
    else
      match checkFile w req.file with
      | none => .exits
      | some true => doTorrentFile cfg getTorrent w req sb'
      | some false => handleFile cfg w req
  else handleFile cfg w req

end InstantMirror.Im0
