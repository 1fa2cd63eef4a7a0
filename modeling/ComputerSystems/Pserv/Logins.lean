/- Which paths reach the login, and that the others are answered with 404. -/

import ComputerSystems.Pserv.KeepAlive
import ComputerSystems.Pserv.Printing

set_option autoImplicit false
set_option relaxedAutoImplicit false

namespace ComputerSystems.Pserv.Logins

open ComputerSystems.Systems.Computations
open ComputerSystems.Pserv.Strings
open ComputerSystems.Pserv.Buffers
open ComputerSystems.Pserv.Input
open ComputerSystems.Pserv.Requests
open ComputerSystems.Pserv.Responses
open ComputerSystems.Pserv.Messages
open ComputerSystems.Pserv.Transactions
open ComputerSystems.Pserv.Building
open ComputerSystems.Pserv.KeepAlive
open ComputerSystems.Pserv.Printing
open ComputerSystems.Pserv.Assets (dispatch)
open ComputerSystems.Pserv.Growth (INT_MAX int_max Measures measures_init)

/-- The request is left to the login branch of `handle_api`. -/
def Taken (env : Environment) (ta : Transaction) (reqPath : Bytes) (bufio : Bufio) : Prop :=
  handle env ta reqPath bufio = login env ta bufio

def AnsweredNotFound (env : Environment) (ta : Transaction) (reqPath : Bytes) (bufio : Bufio)
    (socket : Socket) : Prop :=
  ∃ rc st' m, respond env ta reqPath bufio ⟨initResponse env, socket⟩ = .ok (rc, st') ∧ Complete m ∧
    m.statusLine = statusLine ta (some .HTTP_NOT_FOUND) ∧ st'.socket = (socket.offer m.bytes).2

/-- The login is for `/api/login`, and there is nothing at any other path. -/
structure OnlyLogin (env : Environment) (ta : Transaction) (reqPath : Bytes) (bufio : Bufio)
    (socket : Socket) : Prop where
  taken : Taken env ta reqPath bufio ↔ reqPath = ascii "/api/login"
  notFound : reqPath ≠ ascii "/api/login" → AnsweredNotFound env ta reqPath bufio socket

/-- A buffer that can double and take a header `31 - m` times. -/
def Ample (b : Buffer) (m : Nat) : Prop :=
  ∃ l k, Measures b l k ∧ k + MAX_HEADER_LEN ≤ 2 ^ m

section Room

variable {b : Buffer} {m : Nat} {part : Part} {parts : List Part} {key value str : Bytes}

def Modest (part : Part) : Prop := 0 < part.size ∧ part.size ≤ MAX_HEADER_LEN

theorem modest_plain (h : 0 < str.length ∧ str.length ≤ MAX_HEADER_LEN) : Modest (plainPart str) := h

theorem modest_printed : Modest (printedPart str) :=
  ⟨show 0 < MAX_HEADER_LEN by decide, Nat.le_refl MAX_HEADER_LEN⟩

theorem ample_init {fresh : Nat → UInt8} {k : Nat} (h : k + MAX_HEADER_LEN ≤ 2 ^ m) (hk : k ≤ INT_MAX) :
    Ample (bufferInit fresh k) m :=
  ⟨0, k, measures_init fresh hk, h⟩

theorem ample_put (h : Ample b m) (hm : m ≤ 30) (hpart : Modest part) :
    ∃ b', part.put b = .ok b' ∧ Ample b' (m + 1) := by
  obtain ⟨l, k, hmeasures, hk⟩ := h
  obtain ⟨hpos, hsize⟩ := hpart
  have hpow : 2 ^ m ≤ 2 ^ 30 := Nat.pow_le_pow_right (by decide) hm
  have hnext : 2 ^ (m + 1) = 2 ^ m * 2 := Nat.pow_succ ..
  have hmax : MAX_HEADER_LEN = 2048 := rfl
  have hroom : Room l k part.size part.stored.length :=
    Or.inl ⟨by omega, Or.inr (by rw [int_max]; omega)⟩
  obtain ⟨b', hput, hafter⟩ := put_ok hmeasures hroom
  refine ⟨b', hput, _, _, hafter, ?_⟩
  rw [capAfter]
  split <;> omega

theorem ample_puts (h : Ample b m) (hm : m + parts.length ≤ 31) (hparts : ∀ part ∈ parts, Modest part) :
    ∃ b', parts.foldlM Part.put b = .ok b' ∧ Ample b' (m + parts.length) := by
  induction parts generalizing b m with
  | nil => exact ⟨b, rfl, h⟩
  | cons part parts ih =>
    rw [List.length_cons] at hm ⊢
    obtain ⟨b₁, hput, h₁⟩ := ample_put h (by omega) (hparts part List.mem_cons_self)
    obtain ⟨b', hrest, h'⟩ := ih h₁ (by omega) fun p hp => hparts p (List.mem_cons_of_mem part hp)
    refine ⟨b', ?_, by rwa [Nat.add_comm parts.length 1, ← Nat.add_assoc]⟩
    rw [List.foldlM_cons, hput]
    exact hrest

theorem httpAddHeader_ample (h : Ample b m) (hm : m ≤ 27)
    (hkey : 0 < key.length ∧ key.length ≤ MAX_HEADER_LEN) (hvalue : value.length ≤ INT_MAX) :
    ∃ b', httpAddHeader b key value = .ok b' ∧ Ample b' (m + 4) := by
  rw [httpAddHeader_eq hvalue]
  refine ample_puts h (show m + 4 ≤ 31 by omega) fun part hpart => ?_
  simp only [headerParts, List.mem_cons, List.not_mem_nil, or_false] at hpart
  rcases hpart with rfl | rfl | rfl | rfl
  · exact modest_plain hkey
  · exact modest_plain (by decide)
  · exact modest_printed
  · exact modest_plain (by decide)

theorem startResponse_ok (fresh : Nat → UInt8) (ta : Transaction) (status : Option ResponseStatus) :
    ∃ b, startResponse fresh ta status = .ok b := by
  have hversion : Modest (plainPart (versionText ta.reqVersion)) := by
    cases ta.reqVersion with
    | HTTP_1_0 => exact modest_plain (by decide)
    | HTTP_1_1 => exact modest_plain (by decide)
  have hstatus : Modest (plainPart (statusText status)) := by
    cases status with
    | none => exact modest_plain (by decide)
    | some status => cases status <;> exact modest_plain (by decide)
  have hinit : Ample (bufferInit fresh (80 : Nat)) 12 := ample_init (by decide) (by decide)
  have hparts : ∀ part ∈ [plainPart (versionText ta.reqVersion), plainPart (statusText status),
      plainPart CRLF], Modest part := by
    intro part hpart
    simp only [List.mem_cons, List.not_mem_nil, or_false] at hpart
    rcases hpart with rfl | rfl | rfl
    · exact hversion
    · exact hstatus
    · exact modest_plain (by decide)
  obtain ⟨b, hok, -⟩ := ample_puts hinit (by show 15 ≤ 31; omega) hparts
  refine ⟨b, ?_⟩
  simp only [List.foldlM_cons, List.foldlM_nil, bind_pure] at hok
  exact hok

end Room

section Answers

variable {env : Environment} {ta : Transaction} {fresh : Nat → UInt8} {st st' : Sending}
  {socket : Socket} {status : Option ResponseStatus} {headers : List Bytes} {body key value : Bytes}
  {reqPath : Bytes} {bufio : Bufio} {m n : Nat} {rc : Bool}

theorem addHeader_ample (h : Ample st.response.respHeaders m) (hm : m ≤ 27)
    (hkey : 0 < key.length ∧ key.length ≤ MAX_HEADER_LEN) (hvalue : value.length ≤ INT_MAX) :
    Yields (addHeader key value) st fun _ st' =>
      addHeader key value st = .ok (⟨⟩, st') ∧ Ample st'.response.respHeaders (m + 4) := by
  obtain ⟨b, hadd, hample⟩ := httpAddHeader_ample h hm hkey hvalue
  have hok : addHeader key value st = .ok (⟨⟩, { st with response := { st.response with
      respHeaders := b } }) := by
    rw [addHeader, bind_ok get_ok, bind_ok (lift_ok hadd)]
    exact set_ok
  exact Yields.ok hok ⟨hok, hample⟩

theorem endHeaders_yields (h : Ample st.response.respHeaders m) (hm : m ≤ 30) :
    Yields endHeaders st fun _ _ => True := by
  obtain ⟨b, hput, -⟩ := ample_put h hm (modest_plain (show 0 < CRLF.length ∧ _ by decide))
  refine Yields.after get_ok (Yields.lift_bind (a := b) hput ?_)
  exact Yields.ok set_ok trivial

theorem sendResponse_yields (h : Built st socket status headers body)
    (hample : Ample st.response.respHeaders m) (hm : m ≤ 26) :
    Yields (sendResponse fresh ta) st fun _ _ => True := by
  have hlen : st.response.respBody.len = (body.length : Nat) := by
    have hnonneg := h.body_sound.nonneg
    rw [← h.body, length_contents]
    omega
  have hdigits : (intText body.length).length ≤ INT_MAX := by
    have hsmall := h.body_sound.small
    have hfits := h.body_sound.fits
    have hlength := length_intText (show body.length < 2 ^ 63 by omega)
    rw [int_max]
    omega
  refine Yields.after get_ok ?_
  rw [hlen]
  refine Yields.bind (addHeader_ample hample (by omega)
    (show 0 < (ascii "Content-Length").length ∧ _ by decide) hdigits) fun _ st₁ hadd => ?_
  refine Yields.bind (endHeaders_yields hadd.2 (by omega)) fun _ st₂ _ => ?_
  obtain ⟨response, hstart⟩ := startResponse_ok fresh ta st₂.response.respStatus
  refine Yields.after get_ok (Yields.lift_bind hstart (Yields.after get_ok ?_))
  exact Yields.after (bufioSendbuffers_ok _) (Yields.ok (pure_ok _) trivial)

theorem sendError_yields {error : ResponseStatus} {text : Bytes}
    (h : Built st socket status headers body) (hheaders : Ample st.response.respHeaders m) (hm : m ≤ 22)
    (hbody : Ample st.response.respBody n) (hn : n ≤ 30) (htext : text.length ≤ INT_MAX) :
    Yields (sendError fresh ta error text) st fun _ _ => True := by
  obtain ⟨respBody, hput, -⟩ := ample_put hbody hn (@modest_printed text)
  have hprint : bufferPrint st.response.respBody MAX_ERROR_LEN text = .ok respBody :=
    (bufferPrint_eq htext).trans hput
  obtain ⟨hsound, -⟩ := bufferPrint_inv h.body_sound hprint
  have h₀ : Built { st with response := { st.response with respBody := respBody } } socket status
      headers respBody.contents :=
    ⟨h.socket, h.status, h.headers_sound, h.headers, hsound, rfl⟩
  refine Yields.after get_ok (Yields.lift_bind hprint (Yields.after set_ok ?_))
  have hstatus : Yields (setStatus error) { st with response := { st.response with
      respBody := respBody } } fun _ st₁ =>
        Built st₁ socket (some error) headers respBody.contents ∧ Ample st₁.response.respHeaders m :=
    Yields.ok rfl ⟨setStatus_inv h₀ rfl, hheaders⟩
  refine Yields.bind hstatus fun _ st₁ ⟨h₁, hample₁⟩ => ?_
  refine Yields.bind (addHeader_ample hample₁ (by omega)
    (show 0 < (ascii "Content-Type").length ∧ _ by decide)
    (show (ascii "text/plain").length ≤ INT_MAX by decide)) fun _ st₂ ⟨hadd, hample₂⟩ => ?_
  exact sendResponse_yields (addHeader_inv h₁ hadd) hample₂ (by omega)

theorem refusal_yields (env : Environment) (ta : Transaction) (h : Built st socket status headers body)
    (hheaders : Ample st.response.respHeaders m) (hm : m ≤ 22) (hbody : Ample st.response.respBody n)
    (hn : n ≤ 30) : Yields (sendError env.fresh ta .HTTP_NOT_FOUND (ascii "API not found")) st
      fun _ _ => True :=
  sendError_yields h hheaders hm hbody hn (show (ascii "API not found").length ≤ INT_MAX by decide)

theorem login_other (h : Built st socket status headers body)
    (hok : login env ta bufio st = .ok (rc, st')) :
    st'.response.respStatus ≠ some .HTTP_NOT_FOUND := by
  rcases login_answer hok with ⟨error, text, hne, hok⟩ | ⟨fields, text, st₁, -, hbuilt, hok⟩
  · rw [sendError_status hok]
    exact fun heq => hne (Option.some.inj heq)
  · rw [(sendResponse_same hok).status, (hbuilt _ _ _ _ h).status]
    decide

theorem ample_initResponse (env : Environment) :
    Ample (initResponse env).respHeaders 12 ∧ Ample (initResponse env).respBody 11 :=
  ⟨ample_init (k := 1024) (by decide) (by decide), ample_init (k := 0) (by decide) (by decide)⟩

theorem handle_api (hapi : startsWith reqPath (ascii "/api") = true) :
    handle env ta reqPath bufio = handleApi env ta reqPath bufio := by
  rw [handle, dispatch, if_pos hapi]

theorem handle_login (hapi : startsWith reqPath (ascii "/api") = true)
    (hlogin : ascii "login" <:+: reqPath) : Taken env ta reqPath bufio := by
  rw [Taken, handle_api hapi, handleApi, if_pos (strstr_isSome.mpr hlogin)]

theorem handle_other (hapi : startsWith reqPath (ascii "/api") = true)
    (hlogin : ¬ ascii "login" <:+: reqPath) :
    handle env ta reqPath bufio = sendError env.fresh ta .HTTP_NOT_FOUND (ascii "API not found") := by
  rw [handle_api hapi, handleApi, if_neg (mt strstr_isSome.mp hlogin)]

theorem not_taken (hapi : startsWith reqPath (ascii "/api") = true)
    (hlogin : ¬ ascii "login" <:+: reqPath) : ¬ Taken env ta reqPath bufio := by
  intro htaken
  have hbuilt : Built ⟨initResponse env, ⟨[], []⟩⟩ ⟨[], []⟩ none [] [] := built_init env
  obtain ⟨hheaders, hbody⟩ := ample_initResponse env
  obtain ⟨rc, st', hok, -⟩ := refusal_yields env ta hbuilt hheaders (by decide) hbody (by decide)
  have hstatus := sendError_status hok
  rw [← handle_other hapi hlogin, htaken] at hok
  exact login_other hbuilt hok hstatus

theorem answeredNotFound (hapi : startsWith reqPath (ascii "/api") = true)
    (hlogin : ¬ ascii "login" <:+: reqPath) : AnsweredNotFound env ta reqPath bufio socket := by
  obtain ⟨hheaders, hbody⟩ := ample_initResponse env
  have hstart : Ample (⟨initResponse env, socket⟩ : Sending).response.respHeaders 12 := hheaders
  obtain ⟨_, st₁, hok₁, hserver, hheaders₁⟩ := addHeader_ample hstart (by decide)
    (show 0 < (ascii "Server").length ∧ _ by decide)
    (show (ascii "CS3214-Personal-Server").length ≤ INT_MAX by decide)
  have hsame := addHeader_same hserver
  have hbody₁ : Ample st₁.response.respBody 11 := by
    rw [hsame.body]
    exact hbody
  have hbuilt := addHeader_inv (built_init env) hserver
  obtain ⟨rc, st', hok, -⟩ := refusal_yields env ta hbuilt hheaders₁ (by decide) hbody₁ (by decide)
  have hheaded : Headed ([] ++ [fieldLine (ascii "Server") (ascii "CS3214-Personal-Server")]) :=
    Headed.snoc ⟨fun l hl => absurd hl List.not_mem_nil, Nat.zero_le 8⟩ plain_server (Nat.zero_le 7)
  obtain ⟨hcomplete, hdelivered⟩ := sendError_message hbuilt hheaded (by decide) hok
  rw [deliver_nil] at hdelivered
  refine ⟨ta.reqVersion = .HTTP_1_1 && rc, st', _, ?_, hcomplete, rfl, (Prod.mk.inj hdelivered).2⟩
  rw [respond, bind_ok hserver, handle_other hapi hlogin, bind_ok hok]
  exact pure_ok _

/-- Among the paths of the interface only the login reaches the login, and the others are answered
with 404, if and only if the path has no login in it or is the one of the login. -/
theorem onlyLogin_iff (env : Environment) (ta : Transaction) (bufio : Bufio) (socket : Socket)
    (hapi : startsWith reqPath (ascii "/api") = true) :
    OnlyLogin env ta reqPath bufio socket ↔
      (ascii "login" <:+: reqPath → reqPath = ascii "/api/login") := by
  constructor
  · intro honly hlogin
    exact honly.taken.mp (handle_login hapi hlogin)
  · intro hlogin
    have hcontains : reqPath = ascii "/api/login" → ascii "login" <:+: reqPath := by
      rintro rfl
      exact strstr_isSome.mp (by decide +kernel)
    constructor
    · constructor
      · intro htaken
        by_contra hother
        exact not_taken hapi (mt hlogin hother) htaken
      · intro hpath
        exact handle_login hapi (hcontains hpath)
    · intro hother
      exact answeredNotFound hapi (mt hlogin hother)

theorem onlyLogin_sample :
    OnlyLogin site {} (ascii "/api/logi") (asking []).bufio ⟨[.all], []⟩ ↔
      (ascii "login" <:+: ascii "/api/logi" → ascii "/api/logi" = ascii "/api/login") :=
  onlyLogin_iff site {} (asking []).bufio ⟨[.all], []⟩ (by decide +kernel)

/-- The letters behind the login make no difference. -/
theorem login_junk : ¬ ∀ env ta reqPath bufio socket, startsWith reqPath (ascii "/api") = true →
    OnlyLogin env ta reqPath bufio socket := by
  intro honly
  have hjunk := honly site {} (ascii "/api/loginjunk") (asking []).bufio ⟨[.all], []⟩ (by decide +kernel)
  have htaken := hjunk.taken.mp
    (handle_login (by decide +kernel) (strstr_isSome.mp (by decide +kernel)))
  exact absurd htaken (by decide)

end Answers

end ComputerSystems.Pserv.Logins
