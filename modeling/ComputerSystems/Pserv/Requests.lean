/- The part of `http.c` that reads a request. -/

import ComputerSystems.Pserv.Input

set_option autoImplicit false
set_option relaxedAutoImplicit false

namespace ComputerSystems.Pserv.Requests

open ComputerSystems.Memory.CStrings
open ComputerSystems.Pserv.Strings
open ComputerSystems.Pserv.Buffers
open ComputerSystems.Pserv.Input

/-- `enum http_method`. -/
inductive Method where
  | HTTP_GET
  | HTTP_POST
  | HTTP_UNKNOWN
  deriving DecidableEq, Repr

/-- `enum http_version`. -/
inductive Version where
  | HTTP_1_0
  | HTTP_1_1
  deriving DecidableEq, Repr

/-- The fields of `struct http_transaction` about the request, after `memset`. -/
structure Transaction where
  reqMethod : Method := .HTTP_GET
  reqVersion : Version := .HTTP_1_0
  reqPath : Nat := 0
  reqBody : Nat := 0
  reqContentLen : Int := 0
  deriving DecidableEq, Repr

/-- `buf[p] = '\0'`. -/
def putNul (p : Int) : Io Unit := do
  let self ← get
  let buf ← self.buf.store p NUL
  set { self with buf := buf }

/-- What a function of the C library finds in the buffer; it may not leave it. -/
def inBuffer {α : Type} (x : Option α) : Io α :=
  match x with
  | some a => pure a
  | none => throw .outOfBounds

/-- `strtok_r`: the token, and where to go on. -/
def strtokR (delim : Bytes) (s : Nat) : Io (Option Nat × Nat) := do
  let self ← get
  let (token, endptr, b) ← inBuffer (self.buf.storage.strtok delim s)
  set { self with buf := { self.buf with buf := b.byte } }
  return (token, endptr)

/-- The string at `p`. -/
def stringAt (p : Nat) : Io Bytes := do
  inBuffer ((← get).buf.storage.text p)

def atoi (p : Nat) : Io Int := do
  inBuffer ((← get).buf.storage.atoi p)

def isBlank (c : UInt8) : Bool := c == SP || c == TAB

/-- `while (*field_value == ' ' || *field_value == '\t') field_value++`. -/
def skipBlanks (fieldValue : Nat) : Io Nat := do
  inBuffer ((← get).buf.storage.find (!isBlank ·) fieldValue)

def methodOf (method : Bytes) : Method :=
  if method = ascii "GET" then .HTTP_GET
  else if method = ascii "POST" then .HTTP_POST
  else .HTTP_UNKNOWN

def versionOf (httpVersion : Bytes) : Option Version :=
  if httpVersion = ascii "HTTP/1.1" then some .HTTP_1_1
  else if httpVersion = ascii "HTTP/1.0" then some .HTTP_1_0
  else none

/-- `http_parse_request`, when the line ends with a NUL. -/
def parseRequestLine (ta : Transaction) (request : Nat) : Io (Option Transaction) := do
  let (method, endptr) ← strtokR [SP] request
  match method with
  | none => return none
  | some method =>
    let reqMethod := methodOf (← stringAt method)
    let (reqPath, endptr) ← strtokR [SP] endptr
    match reqPath with
    | none => return none
    | some reqPath =>
      let reqPath ← bufioPtr2offset reqPath
      let (httpVersion, _) ← strtokR [CR] endptr
      match httpVersion with
      | none => return none
      | some httpVersion =>
        match versionOf (← stringAt httpVersion) with
        | none => return none
        | some reqVersion => return some { ta with reqMethod, reqPath, reqVersion }

/-- `http_parse_request`; `none` is its result `false`. -/
def httpParseRequest (ta : Transaction) : Io (Option Transaction) := do
  let (len, reqOffset) ← bufioReadline
  if len < 2 then
    return none
  else
    let request ← bufioOffset2ptr reqOffset
    putNul (request + len - 2)
    parseRequestLine ta request

/-- A turn of the loop of `http_process_headers`, when the line ends with a NUL. -/
def processHeader (ta : Transaction) (header : Nat) : Io (Option Transaction) := do
  let (fieldName, endptr) ← strtokR [COLON] header
  match fieldName with
  | none => return none
  | some fieldName =>
    let fieldValue ← skipBlanks endptr
    if sameText (← stringAt fieldName) (ascii "Content-Length") then
      let reqContentLen ← atoi fieldValue
      return some { ta with reqContentLen }
    else return some ta

/-- `STARTS_WITH(header, CRLF)`. -/
def startsCrlf (header : Nat) : Io Bool := do
  return sameText ((← get).buf.storage.slice header 2) [CR, LF]

/-- The loop of `http_process_headers` after `bufio_readline`; `next` is its next turn. -/
def headerTurn (next : Transaction → Io (Option Transaction)) (ta : Transaction) (len : Int)
    (headerOffset : Nat) : Io (Option Transaction) := do
  if len ≤ 0 then
    return none
  else
    let header ← bufioOffset2ptr headerOffset
    if len = 2 && (← startsCrlf header) then
      return some ta
    else
      putNul (header + len - 2)
      match ← processHeader ta header with
      | none => return none
      | some ta => next ta

def headersLoop : Nat → Transaction → Io (Option Transaction)
  | 0, _ => throw .steps
  | n + 1, ta => do
    let (len, headerOffset) ← bufioReadline
    headerTurn (headersLoop n) ta len headerOffset

def httpProcessHeaders (ta : Transaction) : Io (Option Transaction) := do
  headersLoop (unread (← get) + 2) ta

/-- The body of the request, in `http_handle_transaction`. -/
def readBody (ta : Transaction) : Io (Option Transaction) := do
  if ta.reqContentLen > 0 then
    let (rc, reqBody) ← bufioRead ta.reqContentLen.toNat
    if rc ≠ ta.reqContentLen then
      return none
    else
      let _ ← bufioOffset2ptr reqBody
      return some { ta with reqBody }
  else return some ta

/-- `http_handle_transaction` up to the response; `none` when it returns `false` before. -/
def readRequest : Io (Option Transaction) := do
  match ← httpParseRequest {} with
  | none => return none
  | some ta =>
    match ← httpProcessHeaders ta with
    | none => return none
    | some ta => readBody ta

end ComputerSystems.Pserv.Requests
