/- The part of `http.c` that builds a response and sends it. -/

import ComputerSystems.Pserv.Requests

set_option autoImplicit false
set_option relaxedAutoImplicit false

namespace ComputerSystems.Pserv.Responses

open ComputerSystems.Pserv.Strings
open ComputerSystems.Pserv.Buffers
open ComputerSystems.Pserv.Input
open ComputerSystems.Pserv.Requests

/-- `enum http_response_status`. -/
inductive ResponseStatus where
  | HTTP_OK
  | HTTP_PARTIAL_CONTENT
  | HTTP_BAD_REQUEST
  | HTTP_PERMISSION_DENIED
  | HTTP_NOT_FOUND
  | HTTP_METHOD_NOT_ALLOWED
  | HTTP_REQUEST_TIMEOUT
  | HTTP_REQUEST_TOO_LONG
  | HTTP_INTERNAL_ERROR
  | HTTP_NOT_IMPLEMENTED
  | HTTP_SERVICE_UNAVAILABLE
  deriving DecidableEq, Repr

/-- The fields of `struct http_transaction` about the response; after `memset` there is no status. -/
structure Response where
  respStatus : Option ResponseStatus
  respHeaders : Buffer
  respBody : Buffer

/-- What `sendmsg` or `sendfile` does: it returns -1, or accepts everything, or less. -/
inductive Result where
  | failed
  | all
  | short (n : Nat)
  deriving DecidableEq, Repr

/-- How many of the `offered` bytes are accepted. -/
def Result.count (offered : Nat) : Result → Option Nat
  | .failed => none
  | .all => some offered
  | .short n => some (min n (offered - 1))

/-- A socket that is written to: what the calls to come do, and the bytes it has accepted. -/
structure Socket where
  results : List Result
  sent : Bytes

structure Sending where
  response : Response
  socket : Socket

abbrev Send := StateT Sending (Except Stop)

/-- `sendmsg` or `sendfile` for these bytes. -/
def Socket.offer (socket : Socket) (bytes : Bytes) : Int × Socket :=
  match socket.results with
  | [] => (-1, socket)
  | result :: results =>
    match result.count bytes.length with
    | none => (-1, { socket with results := results })
    | some n => (n, ⟨results, socket.sent ++ bytes.take n⟩)

/-- `%d` and `%ld`. -/
def intText (z : Int) : Bytes :=
  (if z < 0 then ascii "-" else []) ++ ascii (Nat.repr z.natAbs)

/-- The characters that `vsnprintf` puts into `size` bytes and that are counted afterwards. -/
def printed (size : Nat) (text : Bytes) : Bytes :=
  (text.take (size - 1) ++ [NUL]).take (if text.length > size then size - 1 else text.length)

/-- `buffer_ensure_capacity`, `vsnprintf` to the place it returns, and the change of `len`. -/
def bufferPrint (buf : Buffer) (size : Nat) (text : Bytes) : Except Stop Buffer := do
  let buf ← bufferEnsureCapacity buf size
  if text.length ≥ 2 ^ 31 then
    throw .overflow
  else
    let buf ← buf.storeAll buf.len (text.take (size - 1) ++ [NUL])
    return { buf with len := int (buf.len + (printed size text).length) }

def MAX_HEADER_LEN : Nat := 2048
def MAX_ERROR_LEN : Nat := 2048

def CRLF : Bytes := [CR, LF]

/-- `http_add_header`; `value` is what the format makes. -/
def httpAddHeader (resp : Buffer) (key value : Bytes) : Except Stop Buffer := do
  let resp ← bufferAppends resp key
  let resp ← bufferAppends resp (ascii ": ")
  let resp ← bufferPrint resp MAX_HEADER_LEN value
  bufferAppends resp CRLF

def addContentLength (res : Buffer) (len : Int) : Except Stop Buffer :=
  httpAddHeader res (ascii "Content-Length") (intText len)

def versionText : Version → Bytes
  | .HTTP_1_0 => ascii "HTTP/1.0 "
  | .HTTP_1_1 => ascii "HTTP/1.1 "

/-- The `switch` on `resp_status`. -/
def statusText : Option ResponseStatus → Bytes
  | some .HTTP_OK => ascii "200 OK"
  | some .HTTP_PARTIAL_CONTENT => ascii "206 Partial Content"
  | some .HTTP_BAD_REQUEST => ascii "400 Bad Request"
  | some .HTTP_PERMISSION_DENIED => ascii "403 Permission Denied"
  | some .HTTP_NOT_FOUND => ascii "404 Not Found"
  | some .HTTP_METHOD_NOT_ALLOWED => ascii "405 Method Not Allowed"
  | some .HTTP_REQUEST_TIMEOUT => ascii "408 Request Timeout"
  | some .HTTP_REQUEST_TOO_LONG => ascii "414 Request Too Long"
  | some .HTTP_NOT_IMPLEMENTED => ascii "501 Not Implemented"
  | some .HTTP_SERVICE_UNAVAILABLE => ascii "503 Service Unavailable"
  | some .HTTP_INTERNAL_ERROR | none => ascii "500 Internal Server Error"

/-- `start_response`; `fresh` is what `malloc` finds in the storage. -/
def startResponse (fresh : Nat → UInt8) (ta : Transaction) (status : Option ResponseStatus) :
    Except Stop Buffer := do
  let res := bufferInit fresh 80
  let res ← bufferAppends res (versionText ta.reqVersion)
  let res ← bufferAppends res (statusText status)
  bufferAppends res CRLF

def bufioSendbuffers (resp : List Buffer) : Send Int := do
  let self ← get
  let (rc, socket) := self.socket.offer (resp.map Buffer.contents).flatten
  set { self with socket := socket }
  return rc

/-- `http_add_header(&ta->resp_headers, ...)`. -/
def addHeader (key value : Bytes) : Send Unit := do
  let self ← get
  let respHeaders ← httpAddHeader self.response.respHeaders key value
  set { self with response := { self.response with respHeaders := respHeaders } }

/-- `add_content_length(&ta->resp_headers, len)`. -/
def setContentLength (len : Int) : Send Unit := do
  let self ← get
  let respHeaders ← addContentLength self.response.respHeaders len
  set { self with response := { self.response with respHeaders := respHeaders } }

/-- `buffer_appends(&ta->resp_headers, CRLF)`. -/
def endHeaders : Send Unit := do
  let self ← get
  let respHeaders ← bufferAppends self.response.respHeaders CRLF
  set { self with response := { self.response with respHeaders := respHeaders } }

/-- `buffer_appends(&ta->resp_body, str)`. -/
def appendBody (str : Bytes) : Send Unit := do
  let self ← get
  let respBody ← bufferAppends self.response.respBody str
  set { self with response := { self.response with respBody := respBody } }

def setStatus (status : ResponseStatus) : Send Unit :=
  modify fun self => { self with response := { self.response with respStatus := some status } }

variable (fresh : Nat → UInt8) (ta : Transaction)

def sendResponseHeader : Send Bool := do
  let response ← startResponse fresh ta (← get).response.respStatus
  endHeaders
  let rc ← bufioSendbuffers [response, (← get).response.respHeaders]
  return int rc ≠ -1

def sendResponse : Send Bool := do
  setContentLength (← get).response.respBody.len
  endHeaders
  let response ← startResponse fresh ta (← get).response.respStatus
  let self ← get
  let rc ← bufioSendbuffers [response, self.response.respHeaders, self.response.respBody]
  return int rc ≠ -1

/-- `send_error`; `text` is what the format makes. -/
def sendError (status : ResponseStatus) (text : Bytes) : Send Bool := do
  let self ← get
  let respBody ← bufferPrint self.response.respBody MAX_ERROR_LEN text
  set { self with response := { self.response with respBody := respBody } }
  setStatus status
  addHeader (ascii "Content-Type") (ascii "text/plain")
  sendResponse fresh ta

/-- `send_not_found`; in `bufio`, the string at `req_path` is `reqPath`. -/
def sendNotFound (reqPath : Bytes) (bufio : Bufio) : Send Bool := do
  let _ ← liftM (bufioOffset2ptr ta.reqPath bufio)
  sendError fresh ta .HTTP_NOT_FOUND (ascii "File " ++ reqPath ++ ascii " not found")

end ComputerSystems.Pserv.Responses
