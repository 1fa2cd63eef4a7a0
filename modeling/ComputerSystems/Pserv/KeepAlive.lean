/- When a transaction is reported as a success, a full response has been sent, if `sendmsg` did not
stop in it. -/

import ComputerSystems.Pserv.Building

set_option autoImplicit false
set_option relaxedAutoImplicit false

namespace ComputerSystems.Pserv.KeepAlive

open ComputerSystems.Systems.Computations
open ComputerSystems.Pserv.Strings
open ComputerSystems.Pserv.Buffers
open ComputerSystems.Pserv.Input
open ComputerSystems.Pserv.Requests
open ComputerSystems.Pserv.Responses
open ComputerSystems.Pserv.Messages
open ComputerSystems.Pserv.Transactions
open ComputerSystems.Pserv.Building
open ComputerSystems.Pserv.Assets (dispatch serve)

/-- The results of `sendfile` take `left` bytes, some with each call. -/
def Completes : Nat → List Result → Prop
  | left, [] => left = 0
  | left, result :: results =>
    left = 0 ∨ ∃ n, result.count left = some n ∧ 0 < n ∧ Completes (left - n) results

/-- A head that goes to `sendmsg`, and a rest that goes to `sendfile`. -/
def deliver (head rest : Bytes) (socket : Socket) : Bool × Socket :=
  if (socket.offer head).1 = -1 then (false, (socket.offer head).2)
  else sendFile rest.length rest (socket.offer head).2.sent (socket.offer head).2.results

/-- What goes to `sendmsg` when the body is a file that goes to `sendfile`. -/
def headOf (m : Message) : Option Bytes → Bytes
  | none => m.bytes
  | some _ => block m.lines

def messageOf (ta : Transaction) (status : Option ResponseStatus) (headers : List Bytes)
    (body : Bytes) : Message :=
  ⟨statusLine ta status, headers ++ [lengthLine body.length], body⟩

/-- The response of `send_error`, when these header lines and this body are there already. -/
def errorMessage (ta : Transaction) (error : ResponseStatus) (headers : List Bytes)
    (body text : Bytes) : Message :=
  messageOf ta (some error) (headers ++ [fieldLine (ascii "Content-Type") (ascii "text/plain")])
    (body ++ printed MAX_ERROR_LEN text)

def Replied (socket : Socket) (file : Option Bytes) (rc : Bool) (socket' : Socket) : Prop :=
  ∃ m, Complete m ∧ (∀ content ∈ file, m.body = content) ∧
    (rc, socket') = deliver (headOf m file) (file.getD []) socket

/-- What is documented of the token library and of `stat`: a token is a line of text, and the size
of a file that does not change is the number of its bytes. -/
structure Documented (env : Environment) : Prop where
  token : ∀ token text, env.jwt.encodeStr token = some text → CR ∉ text ∧ LF ∉ text
  regular : ∀ fname size, env.files.stat fname = some size →
    (env.content fname).length = size ∧ size < 2 ^ 63

def servedFile (env : Environment) (reqPath : Bytes) : Option Bytes :=
  match env.serverRoot with
  | none => none
  | some basedir =>
    match serve env.files basedir reqPath with
    | some (.file fname _ _) => some (env.content fname)
    | _ => none

section Delivery

variable {socket socket' : Socket} {head rest sent : Bytes} {results : List Result}

theorem count_le {result : Result} {left n : Nat} (h : result.count left = some n) : n ≤ left := by
  cases result with
  | failed => cases h
  | all =>
    cases h
    exact Nat.le_refl _
  | short k =>
    cases h
    omega

theorem sendFile_result : ((sendFile rest.length rest sent results).1 = true ↔
    Completes rest.length results) ∧ ((sendFile rest.length rest sent results).1 = true →
      (sendFile rest.length rest sent results).2.sent = sent ++ rest) := by
  induction results generalizing rest sent with
  | nil =>
    refine ⟨by simp [sendFile, Completes], fun h => ?_⟩
    have hrest : rest = [] := by simpa [sendFile] using h
    rw [hrest, List.append_nil]
    rfl
  | cons result results ih =>
    rw [sendFile, Completes]
    by_cases hnone : rest.length = 0
    · rw [if_pos hnone, List.length_eq_zero_iff.mp hnone, List.append_nil]
      simp
    · rw [if_neg hnone, List.take_length]
      cases hcount : result.count rest.length with
      | none => simp [hnone]
      | some n =>
        dsimp only
        have hle := count_le hcount
        by_cases hzero : n = 0
        · rw [if_pos hzero]
          simp [hnone, hzero]
        · have hlength : (rest.drop n).length = rest.length - n := List.length_drop
          have hnext := @ih (rest.drop n) (sent ++ rest.take n)
          rw [hlength, List.append_assoc, List.take_append_drop] at hnext
          rw [if_neg hzero, hnext.1]
          refine ⟨?_, fun h => hnext.2 (hnext.1.mpr h)⟩
          constructor
          · exact fun h => Or.inr ⟨n, rfl, by omega, h⟩
          · rintro (h | ⟨k, hk, -, h⟩)
            · exact absurd h hnone
            · cases hk
              exact h

theorem offer_failed (h : ∀ result results, socket.results = result :: results →
    result.count head.length = none) : (socket.offer head).1 = -1 := by
  rw [Socket.offer]
  split
  · rfl
  · rename_i result results hresults
    rw [h result results hresults]

theorem offer_accepted {result : Result} {n : Nat} (hresults : socket.results = result :: results)
    (hcount : result.count head.length = some n) :
    socket.offer head = ((n : Int), ⟨results, socket.sent ++ head.take n⟩) := by
  rw [Socket.offer, hresults]
  dsimp only
  rw [hcount]

theorem deliver_true (h : deliver head rest socket = (true, socket')) :
    ∃ result results n, socket.results = result :: results ∧ result.count head.length = some n ∧
      Completes rest.length results ∧ socket'.sent = socket.sent ++ (head.take n ++ rest) := by
  rw [deliver] at h
  split at h
  · cases h
  · rename_i hrc
    have hsome : ∃ result results n, socket.results = result :: results ∧
        result.count head.length = some n := by
      by_contra hnone
      refine hrc (offer_failed fun result results hresults => ?_)
      cases hcount : result.count head.length with
      | none => rfl
      | some n => exact absurd ⟨result, results, n, hresults, hcount⟩ hnone
    obtain ⟨result, results, n, hresults, hcount⟩ := hsome
    rw [offer_accepted hresults hcount] at h
    dsimp only at h
    have hfile := @sendFile_result rest (socket.sent ++ head.take n) results
    rw [h] at hfile
    refine ⟨result, results, n, hresults, hcount, hfile.1.mp rfl, ?_⟩
    rw [hfile.2 rfl, List.append_assoc]

theorem deliver_of_completes {result : Result} {n : Nat} (hresults : socket.results = result :: results)
    (hcount : result.count head.length = some n) (hrest : Completes rest.length results) :
    (deliver head rest socket).1 = true := by
  rw [deliver, offer_accepted hresults hcount, if_neg (by omega)]
  exact sendFile_result.1.mpr hrest

end Delivery

section Handlers

variable {env : Environment} {ta : Transaction} {fresh : Nat → UInt8} {st st' : Sending}
  {socket : Socket} {status : Option ResponseStatus} {headers : List Bytes} {body : Bytes} {rc : Bool}

/-- As an `int`, the number of bytes that `sendmsg` accepts is not -1. -/
theorem int_offer {bytes : Bytes} (h : bytes.length < 2 ^ 32 - 1) :
    int (socket.offer bytes).1 = -1 ↔ (socket.offer bytes).1 = -1 := by
  have hrange : -1 ≤ (socket.offer bytes).1 ∧ (socket.offer bytes).1 ≤ bytes.length := by
    rw [Socket.offer]
    split
    · exact ⟨Int.le_refl _, by omega⟩
    · split
      · exact ⟨Int.le_refl _, by omega⟩
      · rename_i n hcount
        have hle := count_le hcount
        exact ⟨by omega, by dsimp only; omega⟩
  rw [int, Int.bmod_def]
  omega

theorem deliver_nil {head : Bytes} :
    deliver head [] socket = (decide ((socket.offer head).1 ≠ -1), (socket.offer head).2) := by
  rw [deliver]
  split
  · rename_i hrc
    simp [hrc]
  · rename_i hrc
    simp only [ne_eq, hrc, not_false_eq_true, decide_true]
    cases hresults : (socket.offer head).2.results with
    | nil =>
      rw [List.length_nil, sendFile, ← hresults]
      rfl
    | cons result results =>
      rw [List.length_nil, sendFile, if_pos rfl, ← hresults]

theorem bufioSendbuffers_ok (resp : List Buffer) : bufioSendbuffers resp st =
    .ok ((st.socket.offer (resp.map Buffer.contents).flatten).1,
      { st with socket := (st.socket.offer (resp.map Buffer.contents).flatten).2 }) :=
  rfl

structure Ended (st : Sending) (socket : Socket) (status : Option ResponseStatus)
    (headers : List Bytes) (body : Bytes) : Prop where
  socket : st.socket = socket
  status : st.response.respStatus = status
  headers : st.response.respHeaders.contents = block headers
  body : st.response.respBody.contents = body

theorem endHeaders_inv {u : Unit} (h : Built st socket status headers body)
    (hok : endHeaders st = .ok (u, st')) : Ended st' socket status headers body := by
  obtain ⟨b, hadd, hset⟩ := lift_bind_inv (get_bind_inv hok)
  cases hset
  obtain ⟨-, hcontents⟩ := bufferAppend_inv h.headers_sound hadd
  exact ⟨h.socket, h.status, by rw [hcontents, h.headers, block], h.body⟩

/-- `send_response` sends the status line, the headers with the content length, and the body. -/
theorem sendResponse_message (h : Built st socket status headers body) (hheaders : Headed headers)
    (hok : sendResponse fresh ta st = .ok (rc, st')) :
    Complete (messageOf ta status headers body) ∧
      (rc, st'.socket) = deliver (messageOf ta status headers body).bytes [] socket := by
  obtain ⟨_, st₁, hset, hok⟩ := bind_inv (get_bind_inv hok)
  have hbody : st.response.respBody.len = (body.length : Nat) := by
    have hnonneg := h.body_sound.nonneg
    rw [← h.body, length_contents]
    omega
  rw [hbody] at hset
  have h₁ := setContentLength_inv h hset
  obtain ⟨_, st₂, hend, hok⟩ := bind_inv hok
  have h₂ := endHeaders_inv h₁ hend
  obtain ⟨response, hstart, hok⟩ := lift_bind_inv (get_bind_inv hok)
  rw [h₂.status] at hstart
  obtain ⟨-, hresponse⟩ := startResponse_inv hstart
  have hbytes : ([response, st₂.response.respHeaders, st₂.response.respBody].map
      Buffer.contents).flatten = (messageOf ta status headers body).bytes := by
    simp only [List.map_cons, List.map_nil, List.flatten_cons, List.flatten_nil, List.append_nil,
      hresponse, h₂.headers, h₂.body]
    simp [messageOf, Message.bytes, Message.lines, block_cons, CRLF]
  have hsmall : body.length < 2 ^ 31 := by
    rw [← h.body, length_contents]
    have hfits := h.body_sound.fits
    have hcap := h.body_sound.small
    omega
  refine ⟨complete_of_plain ta status hheaders.plain (by omega), ?_⟩
  rw [deliver_nil, ← hbytes]
  have hshort : ([response, st₂.response.respHeaders, st₂.response.respBody].map
      Buffer.contents).flatten.length < 2 ^ 32 - 1 := by
    have hhead := length_head ta status body.length hheaders
    rw [hbytes, messageOf, Message.bytes, List.length_append, Message.lines]
    dsimp only
    omega
  obtain ⟨_, _, hsend, hok⟩ := bind_inv (get_bind_inv hok)
  rw [bufioSendbuffers_ok, h₂.socket] at hsend
  cases hsend
  cases hok
  exact congrArg (fun b => (b, _)) (decide_eq_decide.mpr (not_congr (int_offer hshort)))

theorem sendResponse_replied (h : Built st socket status headers body) (hheaders : Headed headers)
    (hok : sendResponse fresh ta st = .ok (rc, st')) : Replied socket none rc st'.socket := by
  obtain ⟨hcomplete, hdelivered⟩ := sendResponse_message h hheaders hok
  exact ⟨_, hcomplete, by simp, hdelivered⟩

theorem plain_contentType {value : Bytes} (h : CR ∉ value ∧ LF ∉ value) :
    Plain (fieldLine (ascii "Content-Type") value) :=
  plain_fieldLine ⟨by decide, by decide, by decide, by decide⟩ (by decide) h

theorem plain_setCookie {value : Bytes} (h : CR ∉ value ∧ LF ∉ value) :
    Plain (fieldLine (ascii "Set-Cookie") value) :=
  plain_fieldLine ⟨by decide, by decide, by decide, by decide⟩ (by decide) h

theorem plain_server : Plain (fieldLine (ascii "Server") (ascii "CS3214-Personal-Server")) :=
  plain_fieldLine ⟨by decide, by decide, by decide, by decide⟩ (by decide) ⟨by decide, by decide⟩

theorem plain_acceptRanges : Plain (fieldLine (ascii "Accept-Ranges") (ascii "bytes")) :=
  plain_fieldLine ⟨by decide, by decide, by decide, by decide⟩ (by decide) ⟨by decide, by decide⟩

/-- `send_error` sends a response with its status, and its text behind what is in the body. -/
theorem sendError_message {error : ResponseStatus} {text : Bytes}
    (h : Built st socket status headers body) (hheaders : Headed headers)
    (hfew : headers.length ≤ 7) (hok : sendError fresh ta error text st = .ok (rc, st')) :
    Complete (errorMessage ta error headers body text) ∧
      (rc, st'.socket) = deliver (errorMessage ta error headers body text).bytes [] socket := by
  obtain ⟨respBody, hprint, hok⟩ := lift_bind_inv (get_bind_inv hok)
  obtain ⟨hsound, hcontents⟩ := bufferPrint_inv h.body_sound hprint
  rw [h.body] at hcontents
  obtain ⟨_, st₁, hstatus, hok⟩ := bind_inv (set_bind_inv hok)
  have h₀ : Built { st with response := { st.response with respBody := respBody } } socket status
      headers (body ++ printed MAX_ERROR_LEN text) :=
    ⟨h.socket, h.status, h.headers_sound, h.headers, hsound, hcontents⟩
  have h₁ := setStatus_inv h₀ hstatus
  obtain ⟨_, st₂, hadd, hok⟩ := bind_inv hok
  have h₂ := addHeader_inv h₁ hadd
  exact sendResponse_message h₂ (hheaders.snoc (plain_contentType ⟨by decide, by decide⟩) hfew) hok

theorem sendError_replied {error : ResponseStatus} {text : Bytes}
    (h : Built st socket status headers body) (hheaders : Headed headers)
    (hfew : headers.length ≤ 7) (hok : sendError fresh ta error text st = .ok (rc, st')) :
    Replied socket none rc st'.socket := by
  obtain ⟨hcomplete, hdelivered⟩ := sendError_message h hheaders hfew hok
  exact ⟨_, hcomplete, by simp, hdelivered⟩

theorem sendNotFound_replied {reqPath : Bytes} {bufio : Bufio} (h : Built st socket status headers body)
    (hheaders : Headed headers) (hfew : headers.length ≤ 7)
    (hok : Responses.sendNotFound fresh ta reqPath bufio st = .ok (rc, st')) :
    Replied socket none rc st'.socket := by
  obtain ⟨_, -, hok⟩ := lift_bind_inv hok
  exact sendError_replied h hheaders hfew hok

def cookieValue (env : Environment) (jsonString : Bytes) : Bytes :=
  ascii "auth_token=" ++ jsonString ++ ascii "; Path=/; Max-Age=" ++
    intText env.tokenExpirationTime ++ ascii "; HttpOnly"

/-- The header lines of a login that succeeds: those for the token, or none. -/
def LoginFields (env : Environment) (fields : List Bytes) : Prop :=
  fields = [] ∨ ∃ jsonString, makeToken env = some jsonString ∧
    fields = [fieldLine (ascii "Set-Cookie") (cookieValue env jsonString),
      fieldLine (ascii "Content-Type") (ascii "application/json")]

/-- A login is answered with an error, which is not 404, or with its header lines and a body. -/
def LoginAnswer (env : Environment) (ta : Transaction) (st : Sending) (rc : Bool) (st' : Sending) :
    Prop :=
  (∃ error text, error ≠ .HTTP_NOT_FOUND ∧ sendError env.fresh ta error text st = .ok (rc, st')) ∨
    ∃ fields text st₁, LoginFields env fields ∧
      (∀ socket status headers body, Built st socket status headers body →
        Built st₁ socket (some .HTTP_OK) (headers ++ fields) (body ++ text)) ∧
      sendResponse env.fresh ta st₁ = .ok (rc, st')

theorem sendToken_answer (hok : sendToken env ta st = .ok (rc, st')) : LoginAnswer env ta st rc st' := by
  rw [sendToken] at hok
  cases htoken : makeToken env with
  | none =>
    rw [htoken] at hok
    exact Or.inl ⟨_, _, by decide, hok⟩
  | some jsonString =>
    rw [htoken] at hok
    dsimp only at hok
    cases hdecode : env.jwt.decode jsonString KEY with
    | none =>
      rw [hdecode] at hok
      exact Or.inl ⟨_, _, by decide, hok⟩
    | some newToken =>
      rw [hdecode] at hok
      dsimp only at hok
      cases hgrants : env.jwt.getGrantsJson newToken with
      | none =>
        rw [hgrants] at hok
        exact Or.inl ⟨_, _, by decide, hok⟩
      | some claims =>
        rw [hgrants] at hok
        obtain ⟨_, st₁, hstatus, hok⟩ := bind_inv hok
        obtain ⟨_, st₂, hcookie, hok⟩ := bind_inv hok
        obtain ⟨_, st₃, htype, hok⟩ := bind_inv hok
        obtain ⟨_, st₄, hbody, hok⟩ := bind_inv hok
        refine Or.inr ⟨_, claims, st₄, Or.inr ⟨jsonString, htoken, rfl⟩,
          fun socket status headers body h => ?_, hok⟩
        have h₄ := appendBody_inv (addHeader_inv (addHeader_inv (setStatus_inv h hstatus) hcookie)
          htype) hbody
        rwa [List.append_assoc] at h₄

theorem login_answer {bufio : Bufio} (hok : login env ta bufio st = .ok (rc, st')) :
    LoginAnswer env ta st rc st' := by
  rw [login] at hok
  cases hmethod : ta.reqMethod with
  | HTTP_POST =>
    rw [hmethod] at hok
    obtain ⟨⟨ptr, _⟩, -, hok⟩ := lift_bind_inv hok
    dsimp only at hok
    cases hcredentials : env.credentials (fun i => bufio.buf.buf (ptr + i)) (jsonArguments ta).2 with
    | none =>
      rw [hcredentials] at hok
      exact Or.inl ⟨_, _, by decide, hok⟩
    | some user =>
      obtain ⟨username, password⟩ := user
      rw [hcredentials] at hok
      dsimp only at hok
      split at hok
      · exact Or.inl ⟨_, _, by decide, hok⟩
      · exact sendToken_answer hok
  | HTTP_GET =>
    rw [hmethod] at hok
    obtain ⟨_, st₁, hstatus, hok⟩ := bind_inv hok
    obtain ⟨_, st₂, hbody, hok⟩ := bind_inv hok
    refine Or.inr ⟨[], ascii "\x7b\x7d", st₂, Or.inl rfl, fun socket status headers body h => ?_, hok⟩
    rw [List.append_nil]
    exact appendBody_inv (setStatus_inv h hstatus) hbody
  | HTTP_UNKNOWN =>
    rw [hmethod] at hok
    exact Or.inl ⟨_, _, by decide, hok⟩

theorem plain_cookie {jsonString : Bytes} (hdoc : Documented env)
    (htoken : makeToken env = some jsonString) :
    Plain (fieldLine (ascii "Set-Cookie") (cookieValue env jsonString)) := by
  have hline : CR ∉ jsonString ∧ LF ∉ jsonString := by
    simp only [makeToken, Option.bind_eq_bind, Option.bind_eq_some_iff] at htoken
    obtain ⟨_, _, _, _, _, _, _, _, token, _, hencode⟩ := htoken
    exact hdoc.token token jsonString hencode
  have hage := intText_line env.tokenExpirationTime
  refine plain_setCookie ?_
  simp only [cookieValue, List.mem_append, not_or]
  exact ⟨⟨⟨⟨⟨by decide, hline.1⟩, by decide⟩, hage.1⟩, by decide⟩,
    ⟨⟨⟨by decide, hline.2⟩, by decide⟩, hage.2⟩, by decide⟩

theorem login_replied {bufio : Bufio} (hdoc : Documented env)
    (h : Built st socket status headers []) (hheaders : Headed headers) (hfew : headers.length ≤ 6)
    (hok : login env ta bufio st = .ok (rc, st')) : Replied socket none rc st'.socket := by
  rcases login_answer hok with ⟨_, _, -, hok⟩ | ⟨fields, text, st₁, hfields, hbuilt, hok⟩
  · exact sendError_replied h hheaders (by omega) hok
  · refine sendResponse_replied (hbuilt _ _ _ _ h) ?_ hok
    rcases hfields with rfl | ⟨jsonString, htoken, rfl⟩
    · rwa [List.append_nil]
    · rw [← List.singleton_append, ← List.append_assoc]
      exact (hheaders.snoc (plain_cookie hdoc htoken) (by omega)).snoc
        (plain_contentType ⟨by decide, by decide⟩) (by simp; omega)

theorem handleApi_replied {bufio : Bufio} {reqPath : Bytes} (hdoc : Documented env)
    (h : Built st socket status headers []) (hheaders : Headed headers) (hfew : headers.length ≤ 6)
    (hok : handleApi env ta reqPath bufio st = .ok (rc, st')) :
    Replied socket none rc st'.socket := by
  rw [handleApi] at hok
  split at hok
  · exact login_replied hdoc h hheaders hfew hok
  · exact sendError_replied h hheaders (by omega) hok

/-- `send_response_header` sends the status line and the headers. -/
theorem sendResponseHeader_inv {n : Nat}
    (h : Built st socket status (headers ++ [lengthLine n]) body) (hheaders : Headed headers)
    (hok : sendResponseHeader fresh ta st = .ok (rc, st')) :
    (rc = true ↔ (socket.offer (block (statusLine ta status :: (headers ++ [lengthLine n])))).1 ≠ -1)
      ∧ st'.socket = (socket.offer (block (statusLine ta status :: (headers ++ [lengthLine n])))).2 := by
  obtain ⟨response, hstart, hok⟩ := lift_bind_inv (get_bind_inv hok)
  rw [h.status] at hstart
  obtain ⟨-, hresponse⟩ := startResponse_inv hstart
  obtain ⟨_, st₁, hend, hok⟩ := bind_inv hok
  have h₁ := endHeaders_inv h hend
  have hbytes : ([response, st₁.response.respHeaders].map Buffer.contents).flatten =
      block (statusLine ta status :: (headers ++ [lengthLine n])) := by
    simp only [List.map_cons, List.map_nil, List.flatten_cons, List.flatten_nil, List.append_nil,
      hresponse, h₁.headers]
    simp [block_cons, CRLF]
  have hshort := length_head ta status n hheaders
  obtain ⟨_, _, hsend, hok⟩ := bind_inv (get_bind_inv hok)
  rw [bufioSendbuffers_ok, h₁.socket, hbytes] at hsend
  cases hsend
  cases hok
  refine ⟨?_, rfl⟩
  rw [decide_eq_true_eq]
  exact not_congr (int_offer (by omega))

theorem mimeType_line (fname : Bytes) :
    CR ∉ ascii (Assets.guessMimeType fname) ∧ LF ∉ ascii (Assets.guessMimeType fname) := by
  rw [Assets.guessMimeType]
  cases strrchr fname DOT with
  | none => decide
  | some suffix =>
    dsimp only
    repeat' split
    all_goals decide

theorem handleStaticAsset_replied {reqPath : Bytes} {bufio : Bufio} (hdoc : Documented env)
    (hasset : dispatch reqPath = .asset) (h : Built st socket status headers [])
    (hheaders : Headed headers) (hfew : headers.length ≤ 6)
    (hok : handleStaticAsset env ta reqPath bufio st = .ok (rc, st')) :
    Replied socket (servedFile env reqPath) rc st'.socket := by
  rw [handleStaticAsset] at hok
  rw [servedFile]
  cases hroot : env.serverRoot with
  | none =>
    rw [hroot] at hok
    cases hok
  | some basedir =>
    rw [hroot] at hok
    obtain ⟨_, -, hok⟩ := lift_bind_inv hok
    dsimp only at hok ⊢
    rw [serve, hasset, Assets.handleStaticAsset]
    dsimp only
    by_cases hup : Assets.GoesUp reqPath
    · rw [if_pos hup] at hok ⊢
      exact sendNotFound_replied h hheaders (by omega) hok
    · rw [if_neg hup] at hok ⊢
      cases haccess : env.files.access (Assets.assetName basedir reqPath) with
      | EACCES =>
        rw [haccess] at hok
        exact sendError_replied h hheaders (by omega) hok
      | other =>
        rw [haccess] at hok
        exact sendNotFound_replied h hheaders (by omega) hok
      | granted =>
        rw [haccess] at hok
        dsimp only at hok ⊢
        obtain ⟨_, st₁, hranges, hok⟩ := bind_inv hok
        have h₁ := addHeader_inv h hranges
        have hheaders₁ := hheaders.snoc plain_acceptRanges (by omega)
        have hfew₁ : (headers ++ [fieldLine (ascii "Accept-Ranges") (ascii "bytes")]).length ≤ 7 := by
          rw [List.length_append, List.length_singleton]
          omega
        cases hstat : env.files.stat (Assets.assetName basedir reqPath) with
        | none =>
          rw [hstat] at hok
          exact sendError_replied h₁ hheaders₁ hfew₁ hok
        | some size =>
          rw [hstat] at hok
          dsimp only at hok ⊢
          by_cases hopens : env.files.opens (Assets.assetName basedir reqPath) = true
          · rw [if_pos hopens] at hok ⊢
            obtain ⟨hlength, hsize⟩ := hdoc.regular _ _ hstat
            obtain ⟨_, st₂, hstatus, hok⟩ := bind_inv hok
            obtain ⟨_, st₃, htype, hok⟩ := bind_inv hok
            obtain ⟨_, st₄, hset, hok⟩ := bind_inv hok
            obtain ⟨success, st₅, hsend, hok⟩ := bind_inv hok
            have h₃ := addHeader_inv (setStatus_inv h₁ hstatus) htype
            have hheaders₃ := hheaders₁.snoc (plain_contentType
              (mimeType_line (Assets.assetName basedir reqPath))) hfew₁
            obtain ⟨hrc, hsocket⟩ := sendResponseHeader_inv (setContentLength_inv h₃ hset) hheaders₃ hsend
            have hcontent : (env.content (Assets.assetName basedir reqPath)).length < 2 ^ 63 := by omega
            refine ⟨_, complete_of_plain ta (some .HTTP_OK) hheaders₃.plain hcontent, ?_, ?_⟩
            · intro content hcontent
              exact Option.some.inj hcontent
            · rw [hlength, headOf, Message.lines, Option.getD_some, deliver, hlength]
              cases success with
              | true =>
                rw [if_neg (hrc.mp rfl), ← hsocket]
                cases hok
                rfl
              | false =>
                have hfailed := mt hrc.mpr Bool.false_ne_true
                rw [if_pos (not_not.mp hfailed), ← hsocket]
                cases hok
                rfl
          · rw [if_neg hopens] at hok ⊢
            exact sendNotFound_replied h₁ hheaders₁ hfew₁ hok

theorem respond_replied {reqPath : Bytes} {bufio : Bufio} (hdoc : Documented env)
    (hok : respond env ta reqPath bufio ⟨initResponse env, socket⟩ = .ok (rc, st')) :
    dispatch reqPath = .private_ ∧ rc = false ∨ dispatch reqPath ≠ .private_ ∧
      ∃ success, rc = (decide (ta.reqVersion = .HTTP_1_1) && success) ∧
        Replied socket (servedFile env reqPath) success st'.socket := by
  obtain ⟨_, st₁, hserver, hok⟩ := bind_inv hok
  have h₁ := addHeader_inv (built_init env) hserver
  have hheaders : Headed ([] ++ [fieldLine (ascii "Server") (ascii "CS3214-Personal-Server")]) :=
    Headed.snoc ⟨fun _ hl => absurd hl List.not_mem_nil, Nat.zero_le _⟩ plain_server (Nat.zero_le _)
  obtain ⟨success, st₂, hhandler, hok⟩ := bind_inv hok
  cases hok
  rw [handle] at hhandler
  cases hdispatch : dispatch reqPath with
  | api =>
    have hfile : servedFile env reqPath = none := by
      rw [servedFile]
      cases env.serverRoot with
      | none => rfl
      | some basedir =>
        dsimp only
        rw [serve, hdispatch]
    rw [hdispatch] at hhandler
    refine Or.inr ⟨by decide, success, rfl, ?_⟩
    rw [hfile]
    exact handleApi_replied hdoc h₁ hheaders (by decide) hhandler
  | private_ =>
    rw [hdispatch] at hhandler
    cases hhandler
    exact Or.inl ⟨rfl, Bool.and_false _⟩
  | asset =>
    rw [hdispatch] at hhandler
    exact Or.inr ⟨by decide, success, rfl,
      handleStaticAsset_replied hdoc hdispatch h₁ hheaders (by decide) hhandler⟩

end Handlers

section Connections

def Asked (conn : Connection) (ta : Transaction) (reqPath : Bytes) : Prop :=
  ∃ bufio bufio', readRequest conn.bufio = .ok (some ta, bufio) ∧
    (do stringAt (← bufioOffset2ptr ta.reqPath) : Io Bytes) bufio = .ok (reqPath, bufio')

/-- The socket has accepted one full response, with the bytes of the file that was asked for. -/
def Answered (env : Environment) (conn conn' : Connection) : Prop :=
  ∃ ta reqPath m, Asked conn ta reqPath ∧ Complete m ∧
    conn'.socket.sent = conn.socket.sent ++ m.bytes ∧
    ∀ content ∈ servedFile env reqPath, m.body = content

/-- `sendmsg` accepts only a part of the response to a HTTP/1.1 request, and all calls of `sendfile`
that follow succeed. -/
def CutShort (env : Environment) (conn : Connection) : Prop :=
  ∃ ta reqPath n results, Asked conn ta reqPath ∧ ta.reqVersion = .HTTP_1_1 ∧
    dispatch reqPath ≠ .private_ ∧ conn.socket.results = .short n :: results ∧
    Completes ((servedFile env reqPath).getD []).length results

variable {env : Environment} {conn conn' : Connection} {ta ta' : Transaction} {socket socket' : Socket}
  {reqPath reqPath' : Bytes} {file : Option Bytes} {rc : Bool}

theorem Asked.unique (h : Asked conn ta reqPath) (h' : Asked conn ta' reqPath') :
    ta = ta' ∧ reqPath = reqPath' := by
  obtain ⟨bufio, _, hread, hpath⟩ := h
  obtain ⟨bufio', _, hread', hpath'⟩ := h'
  rw [hread] at hread'
  cases hread'
  rw [hpath] at hpath'
  cases hpath'
  exact ⟨rfl, rfl⟩

theorem headOf_append {m : Message} (h : ∀ content ∈ file, m.body = content) :
    headOf m file ++ file.getD [] = m.bytes := by
  cases file with
  | none => exact List.append_nil _
  | some content =>
    rw [Option.getD_some, ← h content rfl]
    rfl

theorem headOf_ne_nil {m : Message} : headOf m file ≠ [] := by
  cases file with
  | none => simp [headOf, Message.bytes, block, CRLF]
  | some content => simp [headOf, block, CRLF]

theorem Replied.whole {result : Result} {results : List Result} (h : Replied socket file true socket')
    (hresults : socket.results = result :: results) (hwhole : ∀ n, result ≠ .short n) :
    ∃ m, Complete m ∧ socket'.sent = socket.sent ++ m.bytes ∧ ∀ content ∈ file, m.body = content := by
  obtain ⟨m, hcomplete, hbody, hdeliver⟩ := h
  obtain ⟨result', results', n, hresults', hcount, -, hsent⟩ := deliver_true hdeliver.symm
  rw [hresults] at hresults'
  cases hresults'
  refine ⟨m, hcomplete, ?_, hbody⟩
  have hn : n = (headOf m file).length := by
    cases result with
    | failed => cases hcount
    | all =>
      cases hcount
      rfl
    | short k => exact absurd rfl (hwhole k)
  rw [hsent, hn, List.take_length, headOf_append hbody]

theorem Replied.part {k : Nat} {results : List Result} {m' : Message}
    (h : Replied socket file true socket') (hresults : socket.results = .short k :: results)
    (hcomplete' : Complete m') (hsent' : socket'.sent = socket.sent ++ m'.bytes)
    (hbody' : ∀ content ∈ file, m'.body = content) : False := by
  obtain ⟨m, hcomplete, hbody, hdeliver⟩ := h
  obtain ⟨result, results', n, hresults', hcount, -, hsent⟩ := deliver_true hdeliver.symm
  rw [hresults] at hresults'
  cases hresults'
  cases hcount
  have hlength : 0 < (headOf m file).length := List.length_pos_iff.mpr headOf_ne_nil
  have hshort : (headOf m file).drop (min k ((headOf m file).length - 1)) ≠ [] := by
    rw [Ne, List.drop_eq_nil_iff]
    omega
  rw [hsent] at hsent'
  have hbytes := List.append_cancel_left hsent'
  have hsplit := List.take_append_drop (min k ((headOf m file).length - 1)) (headOf m file)
  refine hshort ?_
  cases file with
  | none =>
    rw [Option.getD_none, List.append_nil] at hbytes
    rw [hbytes] at hsplit
    exact hcomplete'.unique hcomplete hsplit
  | some content =>
    rw [Option.getD_some, Message.bytes, hbody' content rfl] at hbytes
    rw [List.append_cancel_right hbytes] at hsplit
    exact hcomplete'.lines_unique hcomplete hsplit

theorem transaction_inv (hdoc : Documented env)
    (hrun : httpHandleTransaction env conn = .ok (rc, conn')) :
    rc = false ∧ (∀ ta reqPath, ¬ Asked conn ta reqPath) ∨
      ∃ ta reqPath, Asked conn ta reqPath ∧
        (dispatch reqPath = .private_ ∧ rc = false ∨ dispatch reqPath ≠ .private_ ∧
          ∃ success, rc = (decide (ta.reqVersion = .HTTP_1_1) && success) ∧
            Replied conn.socket (servedFile env reqPath) success conn'.socket) := by
  obtain ⟨⟨request, bufio⟩, hread, hrun⟩ := lift_bind_inv (get_bind_inv hrun)
  have hrun := set_bind_inv hrun
  cases request with
  | none =>
    cases hrun
    refine Or.inl ⟨rfl, ?_⟩
    rintro ta reqPath ⟨_, _, hread', -⟩
    rw [hread] at hread'
    cases hread'
  | some ta =>
    obtain ⟨⟨reqPath, bufio'⟩, hpath, hrun⟩ := lift_bind_inv hrun
    obtain ⟨⟨success, sending⟩, hrespond, hrun⟩ := lift_bind_inv hrun
    cases hrun
    exact Or.inr ⟨ta, reqPath, ⟨bufio, bufio', hread, hpath⟩, respond_replied hdoc hrespond⟩

/-- A kept connection has received one full response, exactly when `sendmsg` has not stopped in it
while nothing else made the transaction fail. -/
theorem answered_iff (hdoc : Documented env)
    (hrun : httpHandleTransaction env conn = .ok (rc, conn')) :
    (rc = true → Answered env conn conn') ↔ ¬ CutShort env conn := by
  constructor
  · rintro hanswered ⟨ta, reqPath, k, results, hasked, hversion, hpublic, hresults, hcompletes⟩
    rcases transaction_inv hdoc hrun with ⟨-, hnone⟩ | ⟨ta', reqPath', hasked', hcases⟩
    · exact hnone ta reqPath hasked
    · obtain ⟨rfl, rfl⟩ := hasked.unique hasked'
      rcases hcases with ⟨hprivate, -⟩ | ⟨-, success, hrc, hreplied⟩
      · exact hpublic hprivate
      · obtain ⟨m, hcomplete, hbody, hdeliver⟩ := id hreplied
        have hsuccess : success = true := by
          have hdone : (deliver (headOf m (servedFile env reqPath)) _ _).1 = true :=
            deliver_of_completes hresults rfl hcompletes
          rw [← hdeliver] at hdone
          exact hdone
        subst hsuccess
        have htrue : rc = true := by
          rw [hrc, hversion]
          rfl
        obtain ⟨ta', reqPath', m', hasked', hcomplete', hsent, hbody'⟩ := hanswered htrue
        obtain ⟨rfl, rfl⟩ := hasked.unique hasked'
        exact hreplied.part hresults hcomplete' hsent hbody'
  · rintro hwhole rfl
    rcases transaction_inv hdoc hrun with ⟨hfalse, -⟩ | ⟨ta, reqPath, hasked, hcases⟩
    · cases hfalse
    · rcases hcases with ⟨-, hfalse⟩ | ⟨hpublic, success, hrc, hreplied⟩
      · cases hfalse
      · obtain ⟨hversion, rfl⟩ := Bool.and_eq_true_iff.mp hrc.symm
        rw [decide_eq_true_eq] at hversion
        obtain ⟨m, -, -, hdeliver⟩ := id hreplied
        obtain ⟨result, results, n, hresults, -, hcompletes, -⟩ := deliver_true hdeliver.symm
        have hnotShort : ∀ k, result ≠ .short k := by
          rintro k rfl
          exact hwhole ⟨ta, reqPath, k, results, hasked, hversion, hpublic, hresults, hcompletes⟩
        obtain ⟨m', hcomplete', hsent, hbody⟩ := hreplied.whole hresults hnotShort
        exact ⟨ta, reqPath, m', hasked, hcomplete', hsent, hbody⟩

/-- A server whose only file is `/a`, with two bytes; the token library fails. -/
def site : Environment where
  files := ⟨fun fname => if fname = ascii "/a" then .granted else .other,
    fun fname => if fname = ascii "/a" then some 2 else none, fun fname => fname = ascii "/a"⟩
  content fname := if fname = ascii "/a" then ascii "hi" else []
  serverRoot := some []
  credentials _ _ := none
  jwt := ⟨Unit, none, fun _ _ _ => none, fun _ _ _ => none, fun _ _ => none, fun _ => none,
    fun _ _ => none, fun _ => none⟩
  time := 0
  tokenExpirationTime := 86400
  fresh _ := 0

theorem documented_site : Documented site where
  token _ _ h := nomatch h
  regular fname size h := by
    by_cases hname : fname = ascii "/a"
    · have hsize : size = 2 := by
        simp only [site, hname, if_true, Option.some.injEq] at h
        exact h.symm
      have hcontent : site.content fname = ascii "hi" := if_pos hname
      rw [hcontent, hsize]
      decide
    · simp [site, hname] at h

/-- A client that asks for `/a`, and a socket with these results. -/
def asking (results : List Result) : Connection where
  bufio := bufioCreate (fun _ => 0)
    [⟨ascii "GET /a HTTP/1.1\r\n\r\n", by decide, by decide⟩] .eof
  socket := ⟨results, []⟩

/-- The file is sent with two calls of `sendfile`. -/
theorem answered_sample : ∃ conn',
    httpHandleTransaction site (asking [.all, .short 1, .all]) = .ok (true, conn') ∧
      ((true = true → Answered site (asking [.all, .short 1, .all]) conn') ↔
        ¬ CutShort site (asking [.all, .short 1, .all])) := by
  have hrun : (httpHandleTransaction site (asking [.all, .short 1, .all])).map Prod.fst =
      .ok true := by
    decide +kernel
  cases hresult : httpHandleTransaction site (asking [.all, .short 1, .all]) with
  | error e =>
    rw [hresult] at hrun
    cases hrun
  | ok r =>
    obtain ⟨rc, conn'⟩ := r
    rw [hresult] at hrun
    obtain rfl : rc = true := Except.ok.inj hrun
    exact ⟨conn', rfl, answered_iff documented_site hresult⟩

/-- Ten bytes of the header and the file are taken for a response. -/
theorem unanswered_sample : ¬ ∀ env conn conn', Documented env →
    httpHandleTransaction env conn = .ok (true, conn') → Answered env conn conn' := by
  intro hanswered
  have hrun : (httpHandleTransaction site (asking [.short 10, .all])).map
      (fun r => (r.1, r.2.socket.sent)) = .ok (true, ascii "HTTP/1.1 2hi") := by
    decide +kernel
  cases hresult : httpHandleTransaction site (asking [.short 10, .all]) with
  | error e =>
    rw [hresult] at hrun
    cases hrun
  | ok r =>
    obtain ⟨rc, conn'⟩ := r
    rw [hresult] at hrun
    obtain ⟨rfl, hsent⟩ := Prod.mk.inj (Except.ok.inj hrun)
    obtain ⟨-, -, m, -, -, hbytes, -⟩ := hanswered site _ conn' documented_site hresult
    have hsame : ascii "HTTP/1.1 2hi" = m.bytes := hsent.symm.trans hbytes
    have hcr : CR ∈ m.bytes := by
      simp [Message.bytes, block, CRLF]
    rw [← hsame] at hcr
    exact absurd hcr (by decide)

end Connections

end ComputerSystems.Pserv.KeepAlive
