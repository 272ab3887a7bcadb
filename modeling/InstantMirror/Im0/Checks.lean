import InstantMirror.Torrent
import InstantMirror.Libtorrent.TorrentInfo

/-!
# The prototype: what is checked before a file is sent

`im0`, the first prototype, is a `mini_httpd` that fetches what it does not have. This module
has the world a request runs in (`InstantMirror.Im0.World`): the files below the web directory,
the request as it has been parsed and the settings of the server; and the checks that `do_file`
makes before it looks at the file: the password file of the directory
(`InstantMirror.Im0.authCheck`), the name of the file itself, the referer
(`InstantMirror.Im0.checkReferer`). Each of them either lets the request through or answers it
with an error (`InstantMirror.Im0.Refusal`).

None of this reads the global `sb`: `auth_check` has a variable of the same name.
-/

namespace InstantMirror.Im0

/-! ### The world of a request -/

/-- **A `struct stat`**, as far as it is read. -/
structure Stat where
  /-- `S_ISDIR(st_mode)`. -/
  isDir : Bool
  /-- `st_size`. -/
  size : ℕ
  /-- `st_mtime`. -/
  mtime : ℤ
deriving DecidableEq

/-- What a path leads to. -/
inductive Node where
  /-- A regular file. -/
  | file (f : TorrentFile) : Node
  /-- A directory. -/
  | directory (size : ℕ) (mtime : ℤ) : Node

/-- What `stat` says about it. -/
def Node.stat : Node → Stat
  | .file f => ⟨false, f.size, f.mtime⟩
  | .directory size mtime => ⟨true, size, mtime⟩

/-- Whether `open` for reading succeeds. -/
def Node.readable : Node → Bool
  | .file f => f.readable
  | .directory _ _ => true

/-- **The files below the web directory**, at one moment. -/
structure World where
  /-- What a path leads to. -/
  node : Bytes → Option Node
  /-- What successive calls of `fgets` read of a file. -/
  lines : Bytes → List Bytes
  /-- Only a directory is found at a path that ends in a slash. -/
  isDir_of_slash : ∀ {path n}, node (path ++ [slash]) = some n → n.stat.isDir = true

/-- `stat`; `none` where it fails. -/
def World.stat (w : World) (path : Bytes) : Option Stat := (w.node path).map Node.stat

/-- Whether `open( path, O_RDONLY )` succeeds. -/
def World.readable (w : World) (path : Bytes) : Bool := ((w.node path).map Node.readable).getD false

/-- The methods that are implemented. -/
inductive Method where
  /-- `METHOD_GET`. -/
  | get : Method
  /-- `METHOD_HEAD`. -/
  | head : Method
  /-- `METHOD_POST`. -/
  | post : Method
deriving DecidableEq

/-- **A request**, once it has been parsed. -/
structure Request where
  /-- `method`. -/
  method : Method
  /-- `path`. -/
  path : Bytes
  /-- `file`: the path, made relative to the web directory. -/
  file : Bytes
  /-- `authorization`, if there is such a header. -/
  authorization : Option Bytes
  /-- `if_modified_since`, `-1` if there is no such header. -/
  ifModifiedSince : ℤ
  /-- `referer`. -/
  referer : Bytes
  /-- `req_hostname`, with virtual hosts. -/
  reqHostname : Option Bytes

/-- **The settings of the server**, and the `crypt` of its C library. -/
structure Config where
  /-- `vhost`. -/
  vhost : Bool
  /-- `hostname`. -/
  hostname : Option Bytes
  /-- `cgi_pattern`. -/
  cgiPattern : Option Bytes
  /-- `url_pattern`. -/
  urlPattern : Option Bytes
  /-- `local_pattern`. -/
  localPattern : Option Bytes
  /-- `no_empty_referers`. -/
  noEmptyReferers : Bool
  /-- `crypt`. -/
  crypt : Bytes → Bytes → Bytes

/-- **What `send_error` is called with.** -/
structure Refusal where
  /-- The status. -/
  status : ℕ
  /-- Its name. -/
  title : Bytes
  /-- A further header. -/
  extraHeader : Bytes
  /-- The explanation. -/
  text : Bytes
deriving DecidableEq

/-! ### `match` -/

/-- **`match_one`**: `?` stands for any character, `*` for any characters but slashes, `**` for
any at all. -/
def matchOne : Bytes → Bytes → Bool
  | [], string => string.isEmpty
  | [p], string =>
    if p = 42 then slash ∉ string
    else if p = 63 then string.length = 1
    else string = [p]
  | p :: p' :: pattern, string =>
    if p = 42 then
      if p' = 42 then (List.range (string.length + 1)).any fun i => matchOne pattern (string.drop i)
      else (List.range ((string.takeWhile (· ≠ slash)).length + 1)).any fun i =>
        matchOne (p' :: pattern) (string.drop i)
    else
      match string with
      | [] => false
      | c :: string => (p = 63 || p = c) && matchOne (p' :: pattern) string

/-- **`match`**: several patterns are separated by `|`. -/
def matchPattern (pattern string : Bytes) : Bool := (pattern.splitOn 124).any (matchOne · string)

/-! ### `auth_check` -/

/-- `AUTH_FILE`. -/
def authFile : Bytes := ascii ".htpasswd"

/-- `b64_decode_table`. -/
def b64Value (c : UInt8) : Option UInt8 :=
  if 65 ≤ c ∧ c ≤ 90 then some (c - 65)
  else if 97 ≤ c ∧ c ≤ 122 then some (c - 97 + 26)
  else if 48 ≤ c ∧ c ≤ 57 then some (c - 48 + 52)
  else if c = 43 then some 62
  else if c = 47 then some 63
  else none

/-- The loop of **`b64_decode`**: the phase, the last digit, and what is left of the text. -/
def b64Loop : ℕ → UInt8 → Bytes → Bytes
  | _, _, [] => []
  | phase, prev, c :: str =>
    match b64Value c with
    | none => b64Loop phase prev str
    | some d =>
      match phase with
      | 0 => b64Loop 1 d str
      | 1 => ((prev <<< 2) ||| ((d &&& 0x30) >>> 4)) :: b64Loop 2 d str
      | 2 => (((prev &&& 0xf) <<< 4) ||| ((d &&& 0x3c) >>> 2)) :: b64Loop 3 d str
      | _ => (((prev &&& 0x03) <<< 6) ||| d) :: b64Loop 0 d str

/-- **`b64_decode`**, into a buffer of this size. -/
def b64Decode (str : Bytes) (size : ℕ) : Bytes := (b64Loop 0 0 str).take size

/-- What stands before a byte in a string, and what stands behind it, if it is in there. -/
def cutAt (c : UInt8) (s : Bytes) : Option (Bytes × Bytes) :=
  if c ∈ s then some (s.takeWhile (· ≠ c), (s.dropWhile (· ≠ c)).tail) else none

/-- The loop over the password file: the first line for this user decides. -/
def passwordOk (crypt : Bytes → Bytes → Bytes) (user pass : Bytes) : List Bytes → Bool
  | [] => false
  | line :: lines =>
    let line := cstr line
    let line := if line.getLast? = some 10 then line.dropLast else line
    match cutAt 58 line with
    | none => passwordOk crypt user pass lines
    | some (name, cryp) =>
      if name = user then crypt pass cryp = cryp else passwordOk crypt user pass lines

/-- `send_authenticate`. -/
def sendAuthenticate (realm : Bytes) : Refusal :=
  ⟨401, ascii "Unauthorized",
    (ascii "WWW-Authenticate: Basic realm=\"" ++ realm ++ ascii "\"").take 9999,
    ascii "Authorization required."⟩

/-- The error for what must not be read. -/
def fileProtected : Refusal := ⟨403, ascii "Forbidden", [], ascii "File is protected."⟩

/-- **`auth_check`**; `none` where it lets the request through. -/
def authCheck (cfg : Config) (w : World) (authorization : Option Bytes) (dirname : Bytes) :
    Option Refusal :=
  let authpath := ((if dirname.getLast? = some slash then dirname else dirname ++ [slash]) ++
    authFile).take 9999
  if (w.stat authpath).isNone then none
  else
    match authorization with
    | none => some (sendAuthenticate dirname)
    | some authorization =>
      if (ascii "Basic ").isPrefixOf authorization then
        match cutAt 58 (cstr (b64Decode (authorization.drop 6) 499)) with
        | none => some (sendAuthenticate dirname)
        | some (user, authpass) =>
          if w.readable authpath then
            if passwordOk cfg.crypt user (authpass.takeWhile (· ≠ 58)) (w.lines authpath) then none
            else some (sendAuthenticate dirname)
          else some fileProtected
      else some (sendAuthenticate dirname)

/-! ### `check_referer` -/

/-- The host in a referer, in lower case. -/
def refhost (afterSlashes : Bytes) : Bytes :=
  (afterSlashes.takeWhile fun c => c ≠ slash ∧ c ≠ 58).map toLower

/-- What `really_check_referer` compares the host with; `none` where it gives up. -/
def refererPattern (cfg : Config) (req : Request) : Option Bytes :=
  match cfg.localPattern with
  | some lp => some lp
  | none => if cfg.vhost then req.reqHostname else cfg.hostname

/-- **`really_check_referer`.** -/
def reallyCheckReferer (cfg : Config) (req : Request) (urlPattern : Bytes) : Bool :=
  if findStr (ascii "//") req.referer < 0 then
    !(cfg.noEmptyReferers && matchPattern urlPattern req.path)
  else
    match refererPattern cfg req with
    | none => true
    | some lp =>
      matchPattern lp (refhost (substrFrom req.referer (findStr (ascii "//") req.referer + 2))) ||
        !matchPattern urlPattern req.path

/-- **`check_referer`**; `none` where it lets the request through. -/
def checkReferer (cfg : Config) (req : Request) : Option Refusal :=
  match cfg.urlPattern with
  | none => none
  | some urlPattern =>
    if reallyCheckReferer cfg req urlPattern then none
    else some ⟨403, ascii "Forbidden", [], ascii "You must supply a local referer."⟩

end InstantMirror.Im0
