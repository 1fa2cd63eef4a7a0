/- What the server answers to a request, as a message, and that its handlers send it. -/

import ComputerSystems.Pserv.Logins
import ComputerSystems.Pserv.Outcomes

set_option autoImplicit false
set_option relaxedAutoImplicit false

namespace ComputerSystems.Pserv.Answers

open ComputerSystems.Memory.CStrings
open ComputerSystems.Systems.Computations
open ComputerSystems.Pserv.Strings
open ComputerSystems.Pserv.Buffers
open ComputerSystems.Pserv.Input
open ComputerSystems.Pserv.Receiving
open ComputerSystems.Pserv.Requests
open ComputerSystems.Pserv.Parsing
open ComputerSystems.Pserv.Streams
open ComputerSystems.Pserv.Outcomes
open ComputerSystems.Pserv.Responses
open ComputerSystems.Pserv.Messages
open ComputerSystems.Pserv.Transactions
open ComputerSystems.Pserv.Building
open ComputerSystems.Pserv.KeepAlive
open ComputerSystems.Pserv.Growth
open ComputerSystems.Pserv.Printing
open ComputerSystems.Pserv.Logins
open ComputerSystems.Pserv.Assets (dispatch assetName GoesUp guessMimeType)

section Messages

variable (version : Version) (headers : List Bytes)

def serverLine : Bytes := fieldLine (ascii "Server") (ascii "CS3214-Personal-Server")

def rangesLine : Bytes := fieldLine (ascii "Accept-Ranges") (ascii "bytes")

/-- The message with these header lines, the content length, and this body. -/
def reply (status : ResponseStatus) (body : Bytes) : Message :=
  ⟨versionText version ++ statusText (some status), headers ++ [lengthLine body.length], body⟩

def errorReply (status : ResponseStatus) (text : Bytes) : Message :=
  reply version (headers ++ [fieldLine (ascii "Content-Type") (ascii "text/plain")]) status
    (printed MAX_ERROR_LEN text)

def notFoundReply (path : Bytes) : Message :=
  errorReply version headers .HTTP_NOT_FOUND (ascii "File " ++ path ++ ascii " not found")

variable (env : Environment) (basedir path body : Bytes)

def tokenReply : Message :=
  match makeToken env with
  | none => errorReply version [serverLine] .HTTP_INTERNAL_ERROR (ascii "Internal Server Error")
  | some jsonString =>
    match env.jwt.decode jsonString KEY with
    | none => errorReply version [serverLine] .HTTP_PERMISSION_DENIED (ascii "Forbidden")
    | some newToken =>
      match env.jwt.getGrantsJson newToken with
      | none => errorReply version [serverLine] .HTTP_INTERNAL_ERROR (ascii "Internal Error")
      | some claims => reply version [serverLine, fieldLine (ascii "Set-Cookie") (cookieValue env jsonString),
          fieldLine (ascii "Content-Type") (ascii "application/json")] .HTTP_OK claims

def pointer (body : Bytes) (i : Nat) : UInt8 := body.getD i 0

def loginReply (method : Method) : Message :=
  match method with
  | .HTTP_POST =>
    match env.credentials (pointer body) body.length with
    | none => errorReply version [serverLine] .HTTP_BAD_REQUEST (ascii "Bad Request")
    | some (username, password) =>
      if username ≠ ascii "user2023" ∨ password ≠ ascii "passwordf23" then
        errorReply version [serverLine] .HTTP_PERMISSION_DENIED (ascii "Forbidden")
      else tokenReply version env
  | .HTTP_GET => reply version [serverLine] .HTTP_OK (ascii "\x7b\x7d")
  | .HTTP_UNKNOWN =>
    errorReply version [serverLine] .HTTP_NOT_IMPLEMENTED (ascii "API not implemented")

def assetReply : Message :=
  let fname := assetName basedir path
  if GoesUp path then notFoundReply version [serverLine] path
  else
    match env.files.access fname with
    | .EACCES => errorReply version [serverLine] .HTTP_PERMISSION_DENIED (ascii "Permission denied.")
    | .other => notFoundReply version [serverLine] path
    | .granted =>
      match env.files.stat fname with
      | none =>
        errorReply version [serverLine, rangesLine] .HTTP_INTERNAL_ERROR (ascii "Could not stat file.")
      | some _ =>
        if env.files.opens fname then
          reply version [serverLine, rangesLine, fieldLine (ascii "Content-Type")
            (ascii (guessMimeType fname))] .HTTP_OK (env.content fname)
        else notFoundReply version [serverLine, rangesLine] path

end Messages

def replyTo (env : Environment) (basedir : Bytes) (r : Request) : Option Message :=
  match dispatch r.path with
  | .api =>
    if (strstr r.path (ascii "login")).isSome then some (loginReply r.version env r.body r.method)
    else some (errorReply r.version [serverLine] .HTTP_NOT_FOUND (ascii "API not found"))
  | .private_ => none
  | .asset => some (assetReply r.version env basedir r.path)

/-- What is documented of the libraries besides, and the sizes that they keep to. -/
structure Reasonable (env : Environment) : Prop extends Documented env where
  /-- `json_loadb` looks at the bytes that it is given, and at no others. -/
  credentials : ∀ p q n, (∀ i < n, p i = q i) → env.credentials p n = env.credentials q n
  token_short : ∀ token text, env.jwt.encodeStr token = some text → text.length < 2 ^ 30
  grants_short : ∀ token text, env.jwt.getGrantsJson token = some text →
    0 < text.length ∧ text.length < 2 ^ 30
  expiration : -2 ^ 31 ≤ env.tokenExpirationTime ∧ env.tokenExpirationTime < 2 ^ 31

variable {env : Environment} {ta : Transaction} {st : Sending} {socket : Socket} {headers : List Bytes}
  {m : Message} {file : Option Bytes} {basedir reqPath text : Bytes} {bufio : Bufio}

/-- Header lines have been added to a response, and there is room for more. -/
structure Ready (st : Sending) (socket : Socket) (headers : List Bytes) (few : Nat) : Prop where
  built : ∃ status, Built st socket status headers []
  headed : Headed headers
  room : Ample st.response.respHeaders (12 + 4 * few)
  body : Ample st.response.respBody 11
  count : headers.length = few

def Sends (x : Send Bool) (st : Sending) (socket : Socket) (m : Message) (file : Option Bytes) : Prop :=
  Complete m ∧ (∀ content ∈ file, m.body = content) ∧
    Yields x st fun rc st' => (rc, st'.socket) = deliver (headOf m file) (file.getD []) socket

section Steps

variable {few : Nat} {status : ResponseStatus} {key value : Bytes}

theorem Sends.bind {α : Type} {x : Send α} {f : α → Send Bool} {Q : α → Sending → Prop} (hx : Yields x st Q)
    (hf : ∀ a st', Q a st' → Sends (f a) st' socket m file) : Sends (x >>= f) st socket m file := by
  obtain ⟨a, st', hok, hQ⟩ := hx
  obtain ⟨hcomplete, hbody, hsent⟩ := hf a st' hQ
  exact ⟨hcomplete, hbody, Yields.after hok hsent⟩

theorem Sends.after {α : Type} {x : Send α} {f : α → Send Bool} {a : α} {st' : Sending}
    (hok : x st = .ok (a, st')) (hf : Sends (f a) st' socket m file) : Sends (x >>= f) st socket m file :=
  ⟨hf.1, hf.2.1, Yields.after hok hf.2.2⟩

theorem addHeader_ready (h : Ready st socket headers few) (hfew : few ≤ 2)
    (hkey : 0 < key.length ∧ key.length ≤ MAX_HEADER_LEN) (hvalue : value.length ≤ INT_MAX)
    (hplain : Plain (fieldLine key value)) :
    Yields (addHeader key value) st fun _ st' =>
      Ready st' socket (headers ++ [fieldLine key value]) (few + 1) ∧
        st'.response.respStatus = st.response.respStatus := by
  obtain ⟨status, hbuilt⟩ := h.built
  have hcount := h.count
  refine (addHeader_ample h.room (by omega) hkey hvalue).mono ?_
  rintro _ st' ⟨hadd, hample⟩
  refine ⟨⟨⟨status, addHeader_inv hbuilt hadd⟩, h.headed.snoc hplain (by omega), ?_, ?_, ?_⟩,
    (addHeader_same hadd).status⟩
  · rwa [Nat.mul_add, ← Nat.add_assoc]
  · rw [(addHeader_same hadd).body]
    exact h.body
  · rw [List.length_append, hcount]
    rfl

theorem setStatus_ready (h : Ready st socket headers few) :
    Yields (setStatus status) st fun _ st' =>
      Ready st' socket headers few ∧ st'.response.respStatus = some status := by
  obtain ⟨old, hbuilt⟩ := h.built
  exact Yields.ok rfl ⟨⟨⟨_, setStatus_inv hbuilt rfl⟩, h.headed, h.room, h.body, h.count⟩, rfl⟩

theorem sendError_sends (h : Ready st socket headers few) (hfew : few ≤ 2) (htext : text.length ≤ INT_MAX) :
    Sends (sendError env.fresh ta status text) st socket (errorReply ta.reqVersion headers status text)
      none := by
  obtain ⟨old, hbuilt⟩ := h.built
  have hcount := h.count
  have hyields : Yields (sendError env.fresh ta status text) st fun _ _ => True :=
    sendError_yields hbuilt h.room (by omega) h.body (by decide) htext
  obtain ⟨rc, st', hok, -⟩ := hyields
  obtain ⟨hcomplete, hdelivered⟩ := sendError_message hbuilt h.headed (by omega) hok
  exact ⟨hcomplete, fun content hcontent => absurd hcontent (by simp), rc, st', hok, hdelivered⟩

theorem sendBody_sends (h : Ready st socket headers few) (hfew : few ≤ 3)
    (hstatus : st.response.respStatus = some status) (htext : 0 < text.length ∧ text.length < 2 ^ 30) :
    Sends (do appendBody text; sendResponse env.fresh ta) st socket
      (reply ta.reqVersion headers status text) none := by
  obtain ⟨old, hbuilt⟩ := h.built
  obtain rfl : some status = old := hstatus.symm.trans hbuilt.status
  obtain ⟨l, k, hmeasures, hk⟩ := h.body
  have hempty : k = 0 := by
    have hmax : MAX_HEADER_LEN = 2 ^ 11 := rfl
    omega
  subst hempty
  have hroom : Room l 0 text.length text.length := by
    refine Or.inl ⟨by omega, Or.inr ?_⟩
    rw [int_max]
    omega
  obtain ⟨b, hput, -⟩ := @put_ok st.response.respBody l 0 (plainPart text) hmeasures hroom
  have happend : appendBody text st = .ok (⟨⟩, { st with response := { st.response with respBody := b } }) := by
    have happends : bufferAppends st.response.respBody text = .ok b := hput
    rw [appendBody, bind_ok get_ok, bind_ok (lift_ok happends)]
    exact set_ok
  have hbuilt' := appendBody_inv hbuilt happend
  have hyields : Yields (sendResponse env.fresh ta) _ fun _ _ => True :=
    sendResponse_yields hbuilt' h.room (by omega)
  obtain ⟨rc, st', hok, -⟩ := hyields
  obtain ⟨hcomplete, hdelivered⟩ := sendResponse_message hbuilt' h.headed hok
  exact ⟨hcomplete, fun content hcontent => absurd hcontent (by simp), rc, st',
    (bind_ok happend).trans hok, hdelivered⟩

end Steps

section Logins

theorem length_cookieValue {jsonString : Bytes} (henv : Reasonable env)
    (htoken : makeToken env = some jsonString) : (cookieValue env jsonString).length ≤ INT_MAX := by
  have hshort : jsonString.length < 2 ^ 30 := by
    simp only [makeToken, Option.bind_eq_bind, Option.bind_eq_some_iff] at htoken
    obtain ⟨_, _, _, _, _, _, _, _, token, _, hencode⟩ := htoken
    exact henv.token_short token jsonString hencode
  have hage : (intText env.tokenExpirationTime).length ≤ 20 := by
    have hexpiration := henv.expiration
    have hdigits := length_intText (n := env.tokenExpirationTime.natAbs) (by omega)
    rw [intText, if_neg (by omega), List.nil_append, Int.natAbs_natCast] at hdigits
    rw [intText, List.length_append]
    split
    · rw [show (ascii "-").length = 1 from rfl]
      omega
    · rw [List.length_nil]
      omega
  have htexts : (ascii "auth_token=").length + (ascii "; Path=/; Max-Age=").length +
      (ascii "; HttpOnly").length ≤ 100 := by decide
  simp only [cookieValue, List.length_append]
  rw [int_max]
  omega

theorem sendToken_sends (henv : Reasonable env) (h : Ready st socket [serverLine] 1) :
    Sends (sendToken env ta) st socket (tokenReply ta.reqVersion env) none := by
  rw [sendToken, tokenReply]
  cases htoken : makeToken env with
  | none => exact sendError_sends h (by decide) (show _ ≤ INT_MAX by decide)
  | some jsonString =>
    dsimp only
    cases hdecode : env.jwt.decode jsonString KEY with
    | none => exact sendError_sends h (by decide) (show _ ≤ INT_MAX by decide)
    | some newToken =>
      dsimp only
      cases hgrants : env.jwt.getGrantsJson newToken with
      | none => exact sendError_sends h (by decide) (show _ ≤ INT_MAX by decide)
      | some claims =>
        refine Sends.bind (setStatus_ready h) ?_
        rintro _ st₁ ⟨h₁, hstatus₁⟩
        refine Sends.bind (addHeader_ready h₁ (by decide) (by decide)
          (length_cookieValue henv htoken) (plain_cookie henv.toDocumented htoken)) ?_
        rintro _ st₂ ⟨h₂, hstatus₂⟩
        refine Sends.bind (addHeader_ready h₂ (by decide) (by decide)
          (show (ascii "application/json").length ≤ INT_MAX by decide)
          (plain_contentType ⟨by decide, by decide⟩)) ?_
        rintro _ st₃ ⟨h₃, hstatus₃⟩
        exact sendBody_sends h₃ (by decide) (hstatus₃.trans (hstatus₂.trans hstatus₁))
          (henv.grants_short newToken claims hgrants)

structure Present (bufio : Bufio) (ta : Transaction) (r : Request) : Prop
    extends Understood bufio ta r where
  len : bufio.buf.len = received bufio
  bodyInside : ta.reqBody < received bufio
  few : received bufio < 2 ^ 29
  short : r.body.length < 2 ^ 31
  contentLen_eq : r.contentLen = r.body.length

variable {r : Request}

theorem credentials_body (henv : Reasonable env) (h : Present bufio ta r) :
    env.credentials (fun i => bufio.buf.buf (ta.reqBody + i)) (jsonArguments ta).2 =
      env.credentials (pointer r.body) r.body.length := by
  have hlength : (jsonArguments ta).2 = r.body.length := by
    have hshort := h.short
    rw [jsonArguments, h.contentLen, h.contentLen_eq]
    dsimp only
    omega
  rw [hlength]
  apply henv.credentials
  intro i hi
  have hholds := h.body (by rw [h.contentLen_eq]; omega)
  rw [← List.take_append_drop i r.body, List.drop_eq_getElem_cons hi] at hholds
  have hbyte := hholds.byte_eq
  rw [List.length_take_of_le (by omega)] at hbyte
  rw [pointer, List.getD_eq_getElem?_getD, List.getElem?_eq_getElem hi]
  exact hbyte

theorem login_sends (henv : Reasonable env) (hr : Present bufio ta r) (h : Ready st socket [serverLine] 1) :
    Sends (login env ta bufio) st socket (loginReply r.version env r.body r.method) none := by
  unfold login loginReply
  rw [← hr.method, ← hr.version]
  cases hmethod : ta.reqMethod with
  | HTTP_POST =>
    have hinside : (ta.reqBody : Int) < bufio.buf.len := by
      have hreceived := hr.bodyInside
      rw [hr.len]
      omega
    have hoffset : bufioOffset2ptr (jsonArguments ta).1 bufio = .ok (ta.reqBody, bufio) :=
      bufioOffset2ptr_ok hinside
    refine Sends.after (lift_ok hoffset) ?_
    dsimp only
    rw [credentials_body henv hr]
    cases hcredentials : env.credentials (pointer r.body) r.body.length with
    | none => exact sendError_sends h (by decide) (show _ ≤ INT_MAX by decide)
    | some user =>
      obtain ⟨username, password⟩ := user
      dsimp only
      split
      · exact sendError_sends h (by decide) (show _ ≤ INT_MAX by decide)
      · exact sendToken_sends henv h
  | HTTP_GET =>
    refine Sends.bind (setStatus_ready h) ?_
    rintro _ st₁ ⟨h₁, hstatus₁⟩
    exact sendBody_sends h₁ (by decide) hstatus₁ (by decide)
  | HTTP_UNKNOWN => exact sendError_sends h (by decide) (show _ ≤ INT_MAX by decide)

end Logins

section Handlers

variable {r : Request} {few : Nat}

theorem Present.path_ok (hr : Present bufio ta r) : bufioOffset2ptr ta.reqPath bufio = .ok (ta.reqPath, bufio) := by
  apply bufioOffset2ptr_ok
  have hinside := hr.inside
  rw [hr.len]
  omega

theorem handleApi_sends (henv : Reasonable env) (hr : Present bufio ta r) (h : Ready st socket [serverLine] 1) :
    Sends (handleApi env ta r.path bufio) st socket
      (if (strstr r.path (ascii "login")).isSome then loginReply r.version env r.body r.method
        else errorReply r.version [serverLine] .HTTP_NOT_FOUND (ascii "API not found")) none := by
  unfold handleApi
  split
  · exact login_sends henv hr h
  · rw [← hr.version]
    exact sendError_sends h (by decide) (show _ ≤ INT_MAX by decide)

theorem sendNotFound_sends (hr : Present bufio ta r) (h : Ready st socket headers few) (hfew : few ≤ 2) :
    Sends (Responses.sendNotFound env.fresh ta r.path bufio) st socket
      (notFoundReply r.version headers r.path) none := by
  have hlong : (ascii "File " ++ r.path ++ ascii " not found").length ≤ INT_MAX := by
    have hinside := hr.inside
    have hreceived := hr.few
    have htexts : (ascii "File ").length + (ascii " not found").length ≤ 100 := by decide
    rw [List.length_append, List.length_append, int_max]
    omega
  rw [notFoundReply, ← hr.version]
  exact Sends.after (lift_ok hr.path_ok) (sendError_sends h hfew hlong)

theorem sendResponseHeader_yields {m : Nat} (hample : Ample st.response.respHeaders m) (hm : m ≤ 30) :
    Yields (sendResponseHeader env.fresh ta) st fun _ _ => True := by
  obtain ⟨response, hstart⟩ := startResponse_ok env.fresh ta st.response.respStatus
  refine Yields.after get_ok (Yields.lift_bind hstart ?_)
  refine Yields.bind (endHeaders_yields hample hm) fun _ st₁ _ => ?_
  exact Yields.after get_ok (Yields.after (bufioSendbuffers_ok _) (Yields.ok (pure_ok _) trivial))

theorem sendFile_sends {fname : Bytes} {size : Nat} (henv : Reasonable env) (h : Ready st socket headers few)
    (hfew : few ≤ 3) (hstatus : st.response.respStatus = some .HTTP_OK)
    (hstat : env.files.stat fname = some size) :
    Sends (do
      setContentLength size
      if ← sendResponseHeader env.fresh ta then
        let self ← get
        let (success, socket) := sendFile size (env.content fname) self.socket.sent self.socket.results
        set { self with socket := socket }
        return success
      else return false) st socket (reply ta.reqVersion headers .HTTP_OK (env.content fname))
      (some (env.content fname)) := by
  obtain ⟨hlength, hsize⟩ := henv.regular fname size hstat
  obtain ⟨old, hbuilt⟩ := h.built
  obtain rfl : some ResponseStatus.HTTP_OK = old := hstatus.symm.trans hbuilt.status
  have hdigits : (intText size).length ≤ INT_MAX := by
    have hshort := length_intText hsize
    rw [int_max]
    omega
  refine Sends.bind (addHeader_ample h.room (by omega)
    (show 0 < (ascii "Content-Length").length ∧ _ by decide) hdigits) ?_
  rintro _ st₁ ⟨hset, hample₁⟩
  have h₁ := setContentLength_inv hbuilt hset
  have hyields : Yields (sendResponseHeader env.fresh ta) st₁ fun _ _ => True :=
    sendResponseHeader_yields hample₁ (by omega)
  obtain ⟨success, st₂, hsend, -⟩ := hyields
  obtain ⟨hrc, hsocket⟩ := sendResponseHeader_inv h₁ h.headed hsend
  refine Sends.after hsend ⟨?_, ?_, ?_⟩
  · exact complete_of_plain ta (some .HTTP_OK) h.headed.plain (by omega)
  · intro content hcontent
    exact Option.some.inj hcontent
  · have hhead : block (reply ta.reqVersion headers .HTTP_OK (env.content fname)).lines =
        block (statusLine ta (some .HTTP_OK) :: (headers ++ [lengthLine size])) := by
      rw [← hlength]
      rfl
    rw [headOf, Option.getD_some, deliver, hhead, hlength]
    cases success with
    | true =>
      rw [if_neg (hrc.mp rfl), ← hsocket]
      exact Yields.after get_ok (Yields.after set_ok (Yields.ok (pure_ok _) rfl))
    | false =>
      have hfailed := mt hrc.mpr Bool.false_ne_true
      rw [if_pos (not_not.mp hfailed), ← hsocket]
      exact Yields.ok (pure_ok _) rfl

theorem mimeType_short (fname : Bytes) : (ascii (guessMimeType fname)).length ≤ INT_MAX := by
  rw [guessMimeType]
  cases strrchr fname DOT with
  | none => decide
  | some suffix =>
    dsimp only
    repeat' split
    all_goals decide

theorem handleStaticAsset_sends (henv : Reasonable env) (hroot : env.serverRoot = some basedir)
    (hr : Present bufio ta r) (h : Ready st socket [serverLine] 1) :
    ∃ file, Sends (handleStaticAsset env ta r.path bufio) st socket
      (assetReply r.version env basedir r.path) file := by
  rw [handleStaticAsset, hroot, assetReply]
  dsimp only
  by_cases hup : GoesUp r.path
  · simp only [if_pos hup]
    exact ⟨none, Sends.after (lift_ok hr.path_ok) (sendNotFound_sends hr h (by decide))⟩
  · simp only [if_neg hup]
    cases haccess : env.files.access (assetName basedir r.path) with
    | EACCES =>
      rw [← hr.version]
      exact ⟨none, Sends.after (lift_ok hr.path_ok) (sendError_sends h (by decide)
        (show _ ≤ INT_MAX by decide))⟩
    | other => exact ⟨none, Sends.after (lift_ok hr.path_ok) (sendNotFound_sends hr h (by decide))⟩
    | granted =>
      dsimp only
      have hranges := addHeader_ready h (by decide)
        (show 0 < (ascii "Accept-Ranges").length ∧ _ by decide)
        (show (ascii "bytes").length ≤ INT_MAX by decide) plain_acceptRanges
      obtain ⟨_, st₁, hadd, h₁, -⟩ := hranges
      cases hstat : env.files.stat (assetName basedir r.path) with
      | none =>
        rw [← hr.version]
        exact ⟨none, Sends.after (lift_ok hr.path_ok) (Sends.after hadd
          (sendError_sends h₁ (by decide) (show _ ≤ INT_MAX by decide)))⟩
      | some size =>
        dsimp only
        by_cases hopens : env.files.opens (assetName basedir r.path) = true
        · simp only [if_pos hopens]
          refine ⟨some (env.content (assetName basedir r.path)), Sends.after (lift_ok hr.path_ok) (Sends.after hadd ?_)⟩
          refine Sends.bind (setStatus_ready h₁) ?_
          rintro _ st₂ ⟨h₂, hstatus₂⟩
          refine Sends.bind (addHeader_ready h₂ (by decide)
            (show 0 < (ascii "Content-Type").length ∧ _ by decide) (mimeType_short _)
            (plain_contentType (mimeType_line (assetName basedir r.path)))) ?_
          rintro _ st₃ ⟨h₃, hstatus₃⟩
          rw [← hr.version]
          exact sendFile_sends henv h₃ (by decide) (hstatus₃.trans hstatus₂) hstat
        · simp only [if_neg hopens]
          exact ⟨none, Sends.after (lift_ok hr.path_ok) (Sends.after hadd
            (sendNotFound_sends hr h₁ (by decide)))⟩

theorem handle_sends (henv : Reasonable env) (hroot : env.serverRoot = some basedir)
    (hr : Present bufio ta r) (h : Ready st socket [serverLine] 1) :
    match replyTo env basedir r with
    | none => handle env ta r.path bufio st = .ok (false, st)
    | some m => ∃ file, Sends (handle env ta r.path bufio) st socket m file := by
  unfold handle replyTo
  cases hdispatch : dispatch r.path with
  | api =>
    dsimp only
    have hsends := handleApi_sends henv hr h
    split
    · rename_i hnone
      split at hnone <;> cases hnone
    · rename_i m hm
      refine ⟨none, ?_⟩
      have hsame : m = _ := Option.some.inj (hm.symm.trans (apply_ite some _ _ _).symm)
      rw [hsame]
      exact hsends
  | private_ => rfl
  | asset => exact handleStaticAsset_sends henv hroot hr h

end Handlers

end ComputerSystems.Pserv.Answers
