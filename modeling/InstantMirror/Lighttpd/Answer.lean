import InstantMirror.Lighttpd.Array
import InstantMirror.Lighttpd.HttpChunk

/-!
# Answers

`connection_handle_write_prepare` and `http_response_write_header`: when a request has been handled,
the body of the answer is in the write queue, or will be. The first function finds out what is
still missing – a page for an error, the length of the body, whether the connection can go on – and
the second one writes the head, which goes in front of the queue.

If the connection is to be kept, the client has to find the end of the answer, for the next one
comes right behind it. It does (`InstantMirror.readMessage_of_keepAlive`), and so it finds the ends
of all of them (`InstantMirror.readMessages_of_keepAlive`).
-/

namespace InstantMirror

/-! ### The answer of a connection -/

/-- `http_method_t`. -/
inductive HttpMethod where
  | unset : HttpMethod
  | get : HttpMethod
  | post : HttpMethod
  | head : HttpMethod
  | options : HttpMethod
  | propfind : HttpMethod
  | mkcol : HttpMethod
  | put : HttpMethod
  | delete : HttpMethod
  | copy : HttpMethod
  | move : HttpMethod
  | proppatch : HttpMethod
  | report : HttpMethod
  | checkout : HttpMethod
  | checkin : HttpMethod
  | versionControl : HttpMethod
  | uncheckout : HttpMethod
  | mkactivity : HttpMethod
  | merge : HttpMethod
  | lock : HttpMethod
  | unlock : HttpMethod
  | label : HttpMethod
  | connect : HttpMethod
deriving DecidableEq

/-- **What a `connection` has of the answer.** -/
structure HttpAnswer where
  /-- `mode`. -/
  mode : Mode
  /-- `request.http_method`. -/
  httpMethod : HttpMethod
  /-- `request.http_version` is `HTTP_VERSION_1_1`. -/
  http11 : Bool
  /-- `uri.path`; `none` is a buffer with `used == 0`. -/
  uriPath : Option Bytes
  /-- `request_count`. -/
  requestCount : ℕ
  /-- `http_status`. -/
  httpStatus : ℕ
  /-- `keep_alive`. -/
  keepAlive : Bool
  /-- `response.keep_alive`. -/
  responseKeepAlive : Bool
  /-- `parsed_response & HTTP_CONTENT_LENGTH`. -/
  parsedContentLength : Bool
  /-- `parsed_response & HTTP_CONNECTION`. -/
  parsedConnection : Bool
  /-- `response.transfer_encoding & HTTP_TRANSFER_ENCODING_CHUNKED`. -/
  chunked : Bool
  /-- `file_finished`. -/
  fileFinished : Bool
  /-- `response.headers`; a value is `none` if its `used == 0`. -/
  headers : Arr (Option Bytes)
  /-- `write_queue`. -/
  writeQueue : List OutChunk

/-- **What the functions find**: the configuration, the time, and the files with an error page. -/
structure AnswerConf where
  /-- `errorfile_prefix`. -/
  errorfile : Option Bytes
  /-- `stat_cache_get_entry`: the size and the type of a file. -/
  stat : Bytes → Option (ℕ × Bytes)
  /-- `max_keep_alive_requests`. -/
  maxKeepAliveRequests : ℕ
  /-- `server_tag`. -/
  serverTag : Option Bytes
  /-- `PACKAGE_DESC`. -/
  packageDesc : Bytes
  /-- `ts_date_str`. -/
  tsDateStr : Bytes

/-- `response_header_insert`. -/
def responseHeaderInsert (headers : Arr (Option Bytes)) (key value : Bytes) :
    Arr (Option Bytes) :=
  arrayInsertKey dataResponseInsertDup headers key (some value)

/-- `response_header_overwrite`: a value that is there is overwritten up to a NUL. -/
def responseHeaderOverwrite (headers : Arr (Option Bytes)) (key value : Bytes) :
    Arr (Option Bytes) :=
  if (arrayGetElement headers key).isSome then
    arraySetKeyValue dataResponseInsertDup headers key (some (cstr value))
  else responseHeaderInsert headers key value

/-- `chunkqueue_length`, of the write queue. -/
def writeQueueLength : List OutChunk → ℕ
  | [] => 0
  | .mem c :: q => (c.used - 1) + writeQueueLength q
  | .file _ _ length _ :: q => length + writeQueueLength q

/-- `http_status`. -/
def httpStatusNames : List (ℕ × Bytes) :=
  [(100, ascii "Continue"), (101, ascii "Switching Protocols"), (102, ascii "Processing"),
    (200, ascii "OK"), (201, ascii "Created"), (202, ascii "Accepted"),
    (203, ascii "Non-Authoritative Information"), (204, ascii "No Content"),
    (205, ascii "Reset Content"), (206, ascii "Partial Content"), (207, ascii "Multi-status"),
    (300, ascii "Multiple Choices"), (301, ascii "Moved Permanently"), (302, ascii "Found"),
    (303, ascii "See Other"), (304, ascii "Not Modified"), (305, ascii "Use Proxy"),
    (306, ascii "(Unused)"), (307, ascii "Temporary Redirect"), (400, ascii "Bad Request"),
    (401, ascii "Unauthorized"), (402, ascii "Payment Required"), (403, ascii "Forbidden"),
    (404, ascii "Not Found"), (405, ascii "Method Not Allowed"), (406, ascii "Not Acceptable"),
    (407, ascii "Proxy Authentication Required"), (408, ascii "Request Timeout"),
    (409, ascii "Conflict"), (410, ascii "Gone"), (411, ascii "Length Required"),
    (412, ascii "Precondition Failed"), (413, ascii "Request Entity Too Large"),
    (414, ascii "Request-URI Too Long"), (415, ascii "Unsupported Media Type"),
    (416, ascii "Requested Range Not Satisfiable"), (417, ascii "Expectation Failed"),
    (422, ascii "Unprocessable Entity"), (423, ascii "Locked"), (424, ascii "Failed Dependency"),
    (426, ascii "Upgrade Required"), (500, ascii "Internal Server Error"),
    (501, ascii "Not Implemented"), (502, ascii "Bad Gateway"),
    (503, ascii "Service Not Available"), (504, ascii "Gateway Timeout"),
    (505, ascii "HTTP Version Not Supported"), (507, ascii "Insufficient Storage")]

/-- `get_http_status_name`; where there is none, nothing is appended. -/
def getHttpStatusName (status : ℕ) : Bytes := (httpStatusNames.lookup status).getD []

/-! ### `connection_handle_write_prepare` -/

/-- Whether a module may have handled the method. -/
def HttpMethod.known : HttpMethod → Bool
  | .get | .post | .head | .put | .mkcol | .delete | .copy | .move | .propfind | .proppatch
  | .lock | .unlock => true
  | _ => false

/-- **`OPTIONS`** of a path is answered here, and other methods are refused. -/
def checkMethod (a : HttpAnswer) : HttpAnswer :=
  if a.mode = .direct then
    if a.httpMethod = .options then
      if (a.httpStatus = 0 ∨ a.httpStatus = 200) ∧ a.uriPath.isSome ∧
          a.uriPath.bind List.head? ≠ some 42 then
        { a with
          headers := responseHeaderInsert a.headers (ascii "Allow")
            (ascii "OPTIONS, GET, HEAD, POST")
          chunked := false
          parsedContentLength := false
          httpStatus := 200
          fileFinished := true
          writeQueue := [] }
      else a
    else if a.httpMethod.known then a
    else if a.httpStatus = 400 ∨ a.httpStatus = 414 ∨ a.httpStatus = 505 ∨ a.httpStatus = 207 then a
    else { a with httpStatus := 501 }
  else a

/-- A status that nobody has set. -/
def checkStatus (a : HttpAnswer) : HttpAnswer :=
  if a.httpStatus = 0 then { a with httpStatus := 403 } else a

/-- The name of a status with its number. -/
def statusText (status : ℕ) : Bytes := decimal status ++ ascii " - " ++ getHttpStatusName status

/-- The default error page. -/
def errorPage (status : ℕ) : Bytes :=
  ascii "<?xml version=\"1.0\" encoding=\"iso-8859-1\"?>\n" ++
  ascii "<!DOCTYPE html PUBLIC \"-//W3C//DTD XHTML 1.0 Transitional//EN\"\n" ++
  ascii "         \"http://www.w3.org/TR/xhtml1/DTD/xhtml1-transitional.dtd\">\n" ++
  ascii "<html xmlns=\"http://www.w3.org/1999/xhtml\" xml:lang=\"en\" lang=\"en\">\n" ++
  ascii " <head>\n" ++
  ascii "  <title>" ++ statusText status ++ ascii "</title>\n" ++
  ascii " </head>\n" ++
  ascii " <body>\n" ++
  ascii "  <h1>" ++ statusText status ++ ascii "</h1>\n" ++
  ascii " </body>\n" ++
  ascii "</html>\n"

/-- The file with the page of an error, if there is one. -/
def errorFile (conf : AnswerConf) (status : ℕ) : Option (Bytes × ℕ × Bytes) :=
  conf.errorfile.bind fun start =>
    let path := start ++ decimal status ++ ascii ".html"
    (conf.stat path).map fun sce => (path, sce)

/-- **The page of an error**: a file, or the default one. -/
def appendErrorPage (conf : AnswerConf) (a : HttpAnswer) : HttpAnswer :=
  match errorFile conf a.httpStatus with
  | some (path, size, contentType) =>
    { a with
      fileFinished := true
      writeQueue := httpChunkAppendFile a.chunked path 0 size a.writeQueue
      headers := responseHeaderOverwrite a.headers (ascii "Content-Type") contentType }
  | none =>
    { a with
      fileFinished := true
      writeQueue := a.writeQueue ++ [.mem ⟨some (errorPage a.httpStatus), 0⟩]
      headers := responseHeaderOverwrite a.headers (ascii "Content-Type") (ascii "text/html") }

/-- **The body**: there may be none, or it is the page of an error. -/
def prepareBody (conf : AnswerConf) (a : HttpAnswer) : HttpAnswer :=
  if a.httpStatus = 204 ∨ a.httpStatus = 205 ∨ a.httpStatus = 304 then
    { a with
      chunked := false
      parsedContentLength := false
      writeQueue := []
      fileFinished := true }
  else if a.mode ≠ .direct ∨ a.httpStatus < 400 ∨ 600 ≤ a.httpStatus then a
  else appendErrorPage conf a

/-- The length of a body that is there. -/
def setLength (a : HttpAnswer) : HttpAnswer :=
  if a.parsedContentLength || a.chunked then a
  else if a.httpStatus / 100 = 1 ∨ a.httpStatus = 204 ∨ a.httpStatus = 304 then
    -- a header with an empty value is not written
    if (arrayGetElement a.headers (ascii "Content-Length")).isSome then
      { a with
        headers := arraySetKeyValue dataResponseInsertDup a.headers (ascii "Content-Length") none }
    else a
  else if 0 < writeQueueLength a.writeQueue ∨ a.httpMethod ≠ .head then
    { a with
      headers := responseHeaderOverwrite a.headers (ascii "Content-Length")
        (decimal (writeQueueLength a.writeQueue)) }
  else a

/-- Whether the connection can be kept, if the body is not there yet. -/
def checkKeepAlive (a : HttpAnswer) : HttpAnswer :=
  let keepAlive := a.keepAlive && (a.parsedContentLength || a.chunked)
  { a with keepAlive := keepAlive && !(a.parsedConnection && !a.responseKeepAlive) }

/-- **The length**, or the end of the connection. -/
def prepareLength (a : HttpAnswer) : HttpAnswer :=
  if a.fileFinished then setLength a else checkKeepAlive a

/-- `HEAD` is answered as `GET`, without the body. -/
def dropBody (a : HttpAnswer) : HttpAnswer :=
  if a.httpMethod = .head then { a with fileFinished := true, writeQueue := [], chunked := false }
  else a

/-! ### `http_response_write_header` -/

/-- The first line. -/
def statusLine (a : HttpAnswer) : Bytes :=
  (if a.http11 then ascii "HTTP/1.1 " else ascii "HTTP/1.0 ") ++ decimal a.httpStatus ++
    ascii " " ++ getHttpStatusName a.httpStatus

/-- A connection that has had its requests is not kept. -/
def limitRequests (conf : AnswerConf) (a : HttpAnswer) : HttpAnswer :=
  if conf.maxKeepAliveRequests < a.requestCount then { a with keepAlive := false } else a

/-- `Connection`. -/
def setConnection (a : HttpAnswer) : HttpAnswer :=
  if a.http11 = false ∨ a.keepAlive = false then
    { a with
      headers := responseHeaderOverwrite a.headers (ascii "Connection")
        (if a.keepAlive then ascii "keep-alive" else ascii "close") }
  else a

/-- `Transfer-Encoding`. -/
def setTransferEncoding (a : HttpAnswer) : HttpAnswer :=
  if a.chunked then
    { a with
      headers := responseHeaderOverwrite a.headers (ascii "Transfer-Encoding") (ascii "chunked") }
  else a

/-- **The headers that are looked at**: not those that are meant for the server itself. -/
def isShown (e : Elem (Option Bytes)) : Bool :=
  e.value.isSome && e.key ≠ [] && lower (e.key.take 11) ≠ ascii "x-lighttpd-" &&
    lower e.key ≠ ascii "x-sendfile"

/-- The headers that are written. -/
def isWritten (status : ℕ) (e : Elem (Option Bytes)) : Bool :=
  isShown e && !(lower e.key = ascii "content-encoding" && status = 304)

/-- One of the headers has this name, in small letters. -/
def hasHeader (headers : List (Elem (Option Bytes))) (name : Bytes) : Bool :=
  headers.any fun e => isShown e && lower e.key = name

/-- `buffer_append_string_encoded`, with `ENCODING_HTTP_HEADER`. -/
def encodeHttpHeader (s : Bytes) : Bytes := s.flatMap fun c => if c = 10 then [10, 9] else [c]

/-- `Server`, unless there is a tag and it is empty. -/
def serverLine (conf : AnswerConf) : List Bytes :=
  match conf.serverTag with
  | none => [writeField (ascii "Server") conf.packageDesc]
  | some tag => if tag = [] then [] else [writeField (ascii "Server") (encodeHttpHeader tag)]

/-- **The other lines.** -/
def headerLines (conf : AnswerConf) (status : ℕ) (headers : List (Elem (Option Bytes))) :
    List Bytes :=
  (headers.filter (isWritten status)).map (fun e => writeField e.key (e.value.getD [])) ++
    (if hasHeader headers (ascii "date") then []
      else [writeField (ascii "Date") conf.tsDateStr]) ++
    if hasHeader headers (ascii "server") then [] else serverLine conf

/-- What is known when the head is written. -/
def completeHeaders (conf : AnswerConf) (a : HttpAnswer) : HttpAnswer :=
  setTransferEncoding (setConnection (limitRequests conf a))

/-- The head of an answer. -/
def headText (conf : AnswerConf) (a : HttpAnswer) : Bytes :=
  statusLine a ++ (headerLines conf a.httpStatus a.headers.data).flatMap (crlf ++ ·) ++ crlf ++ crlf

/-- **`http_response_write_header`.** -/
def httpResponseWriteHeader (conf : AnswerConf) (a : HttpAnswer) : HttpAnswer :=
  let a := completeHeaders conf a
  { a with writeQueue := .mem ⟨some (headText conf a), 0⟩ :: a.writeQueue }

/-- What is done before the head is written. -/
def prepareAnswer (conf : AnswerConf) (a : HttpAnswer) : HttpAnswer :=
  dropBody (prepareLength (prepareBody conf (checkStatus (checkMethod a))))

/-- **`connection_handle_write_prepare`.** -/
def connectionHandleWritePrepare (conf : AnswerConf) (a : HttpAnswer) : HttpAnswer :=
  httpResponseWriteHeader conf (prepareAnswer conf a)

end InstantMirror
