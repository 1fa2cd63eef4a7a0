/- `http_handle_transaction`, with the handlers that it calls. -/

import ComputerSystems.Pserv.Assets
import ComputerSystems.Pserv.Responses

set_option autoImplicit false
set_option relaxedAutoImplicit false

namespace ComputerSystems.Pserv.Transactions

open ComputerSystems.Pserv.Strings
open ComputerSystems.Pserv.Buffers
open ComputerSystems.Pserv.Input
open ComputerSystems.Pserv.Requests
open ComputerSystems.Pserv.Responses
open ComputerSystems.Pserv.Assets (Files Access Handler Reply dispatch assetName guessMimeType GoesUp)

/-- The functions of the token library; `none` is their failure. -/
structure Jwt where
  Token : Type
  new : Option Token
  addGrantInt : Token → Bytes → Int → Option Token
  addGrant : Token → Bytes → Bytes → Option Token
  setAlg : Token → Bytes → Option Token
  encodeStr : Token → Option Bytes
  decode : Bytes → Bytes → Option Token
  getGrantsJson : Token → Option Bytes

/-- What a transaction works with besides its connection. `credentials` stands for `json_loadb` on a
pointer and a length, and `json_unpack` of what it returns; `fresh` is what `malloc` finds. -/
structure Environment where
  files : Files
  content : Bytes → Bytes
  serverRoot : Option Bytes
  credentials : (Nat → UInt8) → Nat → Option (Bytes × Bytes)
  jwt : Jwt
  time : Int
  tokenExpirationTime : Int
  fresh : Nat → UInt8

/-- The pointer and the length that are given to `json_loadb`; an `int` becomes a `size_t`. -/
def jsonArguments (ta : Transaction) : Nat × Nat :=
  (ta.reqBody, (ta.reqContentLen % 2 ^ 64).toNat)

def KEY : Bytes := ascii "key"

/-- The token for a login, up to `jwt_encode_str`. -/
def makeToken (env : Environment) : Option Bytes := do
  let token ← env.jwt.new
  let token ← env.jwt.addGrantInt token (ascii "exp") (env.time + env.tokenExpirationTime)
  let token ← env.jwt.addGrantInt token (ascii "iat") env.time
  let token ← env.jwt.addGrant token (ascii "sub") (ascii "user2023")
  let token ← env.jwt.setAlg token KEY
  env.jwt.encodeStr token

variable (env : Environment) (ta : Transaction) (reqPath : Bytes)

def sendToken : Send Bool := do
  match makeToken env with
  | none => sendError env.fresh ta .HTTP_INTERNAL_ERROR (ascii "Internal Server Error")
  | some jsonString =>
    match env.jwt.decode jsonString KEY with
    | none => sendError env.fresh ta .HTTP_PERMISSION_DENIED (ascii "Forbidden")
    | some newToken =>
      match env.jwt.getGrantsJson newToken with
      | none => sendError env.fresh ta .HTTP_INTERNAL_ERROR (ascii "Internal Error")
      | some claims =>
        setStatus .HTTP_OK
        addHeader (ascii "Set-Cookie") (ascii "auth_token=" ++ jsonString ++
          ascii "; Path=/; Max-Age=" ++ intText env.tokenExpirationTime ++ ascii "; HttpOnly")
        addHeader (ascii "Content-Type") (ascii "application/json")
        appendBody claims
        sendResponse env.fresh ta

/-- The branch of `handle_api` for a login; `bufio` is where the body of the request lies. -/
def login (bufio : Bufio) : Send Bool := do
  match ta.reqMethod with
  | .HTTP_POST =>
    let (body, _) ← liftM (bufioOffset2ptr (jsonArguments ta).1 bufio)
    match env.credentials (fun i => bufio.buf.buf (body + i)) (jsonArguments ta).2 with
    | none => sendError env.fresh ta .HTTP_BAD_REQUEST (ascii "Bad Request")
    | some (username, password) =>
      if username ≠ ascii "user2023" ∨ password ≠ ascii "passwordf23" then
        sendError env.fresh ta .HTTP_PERMISSION_DENIED (ascii "Forbidden")
      else sendToken env ta
  | .HTTP_GET =>
    setStatus .HTTP_OK
    appendBody (ascii "\x7b\x7d")
    sendResponse env.fresh ta
  | .HTTP_UNKNOWN =>
    sendError env.fresh ta .HTTP_NOT_IMPLEMENTED (ascii "API not implemented")

def handleApi (bufio : Bufio) : Send Bool :=
  if (strstr reqPath (ascii "login")).isSome then login env ta bufio
  else sendError env.fresh ta .HTTP_NOT_FOUND (ascii "API not found")

/-- The loop of `handle_static_asset`: `left` is `to + 1 - from`, and `rest` are the bytes of the
file from `from` on. Each turn takes one of the results. -/
def sendFile (left : Nat) (rest sent : Bytes) : List Result → Bool × Socket
  | [] => (left = 0, ⟨[], sent⟩)
  | result :: results =>
    if left = 0 then (true, ⟨result :: results, sent⟩)
    else
      match result.count (rest.take left).length with
      | none => (false, ⟨results, sent⟩)
      | some n =>
        if n = 0 then (false, ⟨results, sent⟩)
        else sendFile (left - n) (rest.drop n) (sent ++ rest.take n) results

/-- `handle_static_asset`; in `bufio`, the string at `req_path` is `reqPath`. -/
def handleStaticAsset (bufio : Bufio) : Send Bool := do
  match env.serverRoot with
  | none => throw .noBaseDirectory
  | some basedir =>
    let _ ← liftM (bufioOffset2ptr ta.reqPath bufio)
    let fname := assetName basedir reqPath
    if GoesUp reqPath then sendNotFound env.fresh ta reqPath bufio
    else
      match env.files.access fname with
      | .EACCES =>
        sendError env.fresh ta .HTTP_PERMISSION_DENIED (ascii "Permission denied.")
      | .other => sendNotFound env.fresh ta reqPath bufio
      | .granted =>
        addHeader (ascii "Accept-Ranges") (ascii "bytes")
        match env.files.stat fname with
        | none => sendError env.fresh ta .HTTP_INTERNAL_ERROR (ascii "Could not stat file.")
        | some size =>
          if env.files.opens fname then
            setStatus .HTTP_OK
            addHeader (ascii "Content-Type") (ascii (guessMimeType fname))
            setContentLength size
            if ← sendResponseHeader env.fresh ta then
              let self ← get
              let (success, socket) :=
                sendFile size (env.content fname) self.socket.sent self.socket.results
              set { self with socket := socket }
              return success
            else return false
          else sendNotFound env.fresh ta reqPath bufio

/-- How a choice of `Assets.handleStaticAsset` is sent. -/
def sendReply (bufio : Bufio) : Reply → Send Bool
  | .error .HTTP_NOT_FOUND message => do
    let _ ← liftM (bufioOffset2ptr ta.reqPath bufio)
    sendError env.fresh ta .HTTP_NOT_FOUND message
  | .error .HTTP_PERMISSION_DENIED message => sendError env.fresh ta .HTTP_PERMISSION_DENIED message
  | .error .HTTP_INTERNAL_ERROR message => sendError env.fresh ta .HTTP_INTERNAL_ERROR message
  | .file fname mime size => do
    setStatus .HTTP_OK
    addHeader (ascii "Content-Type") (ascii mime)
    setContentLength size
    if ← sendResponseHeader env.fresh ta then
      let self ← get
      let (success, socket) := sendFile size (env.content fname) self.socket.sent self.socket.results
      set { self with socket := socket }
      return success
    else return false

/-- `handle_static_asset` sends what is chosen, behind one more field once access is granted. -/
theorem handleStaticAsset_reply {basedir : Bytes} (bufio : Bufio)
    (hroot : env.serverRoot = some basedir) :
    handleStaticAsset env ta reqPath bufio = (do
      let _ ← liftM (bufioOffset2ptr ta.reqPath bufio)
      if ¬ GoesUp reqPath ∧ env.files.access (assetName basedir reqPath) = .granted then
        addHeader (ascii "Accept-Ranges") (ascii "bytes")
      sendReply env ta bufio (Assets.handleStaticAsset env.files basedir reqPath)) := by
  rw [handleStaticAsset, hroot, Assets.handleStaticAsset]
  dsimp only
  by_cases hup : GoesUp reqPath
  · simp only [if_pos hup, hup, not_true_eq_false, false_and, if_false, pure_bind]
    rfl
  · simp only [if_neg hup, hup, not_false_eq_true, true_and]
    cases haccess : env.files.access (assetName basedir reqPath) with
    | EACCES =>
      simp only [reduceCtorEq, if_false, pure_bind]
      rfl
    | other =>
      simp only [reduceCtorEq, if_false, pure_bind]
      rfl
    | granted =>
      simp only [if_true]
      cases hstat : env.files.stat (assetName basedir reqPath) with
      | none => rfl
      | some size =>
        dsimp only
        by_cases hopens : env.files.opens (assetName basedir reqPath) = true
        · simp only [if_pos hopens]
          rfl
        · simp only [if_neg hopens]
          rfl

/-- The handler that `http_handle_transaction` calls. -/
def handle (bufio : Bufio) : Send Bool :=
  match dispatch reqPath with
  | .api => handleApi env ta reqPath bufio
  | .private_ => pure false
  | .asset => handleStaticAsset env ta reqPath bufio

/-- `http_handle_transaction` from the response on. -/
def respond (bufio : Bufio) : Send Bool := do
  addHeader (ascii "Server") (ascii "CS3214-Personal-Server")
  let rc ← handle env ta reqPath bufio
  return ta.reqVersion = .HTTP_1_1 && rc

structure Connection where
  bufio : Bufio
  socket : Socket

/-- `buffer_init` for the fields of the response. -/
def initResponse : Response :=
  ⟨none, bufferInit env.fresh 1024, bufferInit env.fresh 0⟩

def httpHandleTransaction (env : Environment) : StateT Connection (Except Stop) Bool := do
  let self ← get
  let (request, bufio) ← liftM (readRequest self.bufio)
  set { self with bufio := bufio }
  match request with
  | none => return false
  | some ta =>
    let (reqPath, bufio) ← liftM ((do stringAt (← bufioOffset2ptr ta.reqPath) : Io Bytes) bufio)
    let (rc, sending) ← liftM (respond env ta reqPath bufio ⟨initResponse env, self.socket⟩)
    set (⟨bufio, sending.socket⟩ : Connection)
    return rc

end ComputerSystems.Pserv.Transactions
