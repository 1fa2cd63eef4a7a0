/- What a formatted text leaves in the buffers of a response. -/

import ComputerSystems.Pserv.Building
import ComputerSystems.Pserv.Growth

set_option autoImplicit false
set_option relaxedAutoImplicit false

namespace ComputerSystems.Pserv.Printing

open ComputerSystems.Memory.CStrings
open ComputerSystems.Systems.Computations
open ComputerSystems.Pserv.Strings
open ComputerSystems.Pserv.Buffers
open ComputerSystems.Pserv.Requests
open ComputerSystems.Pserv.Responses
open ComputerSystems.Pserv.Building
open ComputerSystems.Pserv.Growth (INT_MAX int_max Grows Measures)

structure Appended (b b' : Buffer) (text : Bytes) : Prop where
  contents : b'.contents = b.contents ++ text
  len : b'.len = b.len + text.length
  fits : b'.len ≤ b'.cap
  clean : NUL ∉ text

def beginning (size : Nat) (text : Bytes) : Bytes := text.take (min text.length (size - 1))

/-- `http_add_header` adds a line with the beginning of the value. -/
def HeaderExact (resp : Buffer) (key value : Bytes) : Prop :=
  ∃ resp', httpAddHeader resp key value = .ok resp' ∧
    Appended resp resp' (key ++ ascii ": " ++ beginning MAX_HEADER_LEN value ++ CRLF)

/-- `send_error` adds the beginning of the text to the body, which then stays as it is. -/
def ErrorExact (fresh : Nat → UInt8) (ta : Transaction) (status : ResponseStatus) (text : Bytes)
    (st : Sending) : Prop :=
  ∃ respBody, bufferPrint st.response.respBody MAX_ERROR_LEN text = .ok respBody ∧
    Appended st.response.respBody respBody (beginning MAX_ERROR_LEN text) ∧
    ∀ rc st', sendError fresh ta status text st = .ok (rc, st') → st'.response.respBody = respBody

/-- The length of a text is an `int` other than the size that is given to `vsnprintf`. -/
def Measured (size : Nat) (text : Bytes) : Prop := text.length ≤ INT_MAX ∧ text.length ≠ size

/-- A buffer with this length and capacity has room for `size` bytes, or its new capacity is an
`int`; or the length is no `int`, and there is room for the `n` bytes that are written. -/
def Room (l k size n : Nat) : Prop :=
  0 < k + size ∧ Grows l k size ∨ INT_MAX < l + size ∧ l + n ≤ k

/-- The capacity when `size` bytes have been asked for. -/
def capAfter (l k size : Nat) : Nat :=
  if l + size < k ∨ INT_MAX < l + size then k else 2 * k + size

/-- Bytes for the end of a buffer: how many are asked for, which are written, and how many of them
are counted. -/
structure Part where
  size : Nat
  stored : Bytes
  counted : Nat
  counted_le : counted ≤ stored.length
  sized : stored.length = size ∨ stored ≠ [] ∧ stored.length ≤ size ∧ size ≤ 2 ^ 16

def Part.put (b : Buffer) (part : Part) : Except Stop Buffer := do
  let b ← bufferEnsureCapacity b part.size
  let b ← b.storeAll b.len part.stored
  return { b with len := int (b.len + part.counted) }

/-- The parts find room one after the other. -/
def Fits : Nat → Nat → List Part → Prop
  | _, _, [] => True
  | l, k, part :: parts =>
    Room l k part.size part.stored.length ∧ Fits (l + part.counted) (capAfter l k part.size) parts

def plainPart (str : Bytes) : Part := ⟨str.length, str, str.length, Nat.le_refl _, Or.inl rfl⟩

theorem printed_counted (text : Bytes) : (printed MAX_HEADER_LEN text).length ≤
    (text.take (MAX_HEADER_LEN - 1) ++ [NUL]).length := by
  rw [printed]
  exact List.length_take_le' ..

theorem printed_sized (text : Bytes) :
    (text.take (MAX_HEADER_LEN - 1) ++ [NUL]).length ≤ MAX_HEADER_LEN := by
  have htake := List.length_take_le (MAX_HEADER_LEN - 1) text
  have hmax : MAX_HEADER_LEN = 2048 := rfl
  rw [List.length_append, List.length_singleton]
  omega

theorem max_header_small : MAX_HEADER_LEN ≤ 2 ^ 16 := by decide

def printedPart (text : Bytes) : Part where
  size := MAX_HEADER_LEN
  stored := text.take (MAX_HEADER_LEN - 1) ++ [NUL]
  counted := (printed MAX_HEADER_LEN text).length
  counted_le := printed_counted text
  sized := Or.inr ⟨List.append_ne_nil_of_right_ne_nil _ (List.cons_ne_nil _ _),
    printed_sized text, max_header_small⟩

/-- What `http_add_header` puts into a buffer. -/
def headerParts (key value : Bytes) : List Part :=
  [plainPart key, plainPart (ascii ": "), printedPart value, plainPart CRLF]

section Parts

variable {b b' : Buffer} {l k size n : Nat} {stored text : Bytes} {part : Part} {parts : List Part}

theorem measures_of_sound (h : b.Sound) : Measures b b.len.toNat b.cap.toNat := by
  have hnonneg := h.nonneg
  have hfits := h.fits
  have hsmall := h.small
  exact ⟨by omega, by omega, by omega, by rw [int_max]; omega⟩

theorem ensureCapacity_room (h : Measures b l k)
    (hsized : n = size ∨ 0 < n ∧ n ≤ size ∧ size ≤ 2 ^ 16) (hroom : Room l k size n) :
    bufferEnsureCapacity b size = .ok { b with cap := ((capAfter l k size : Nat) : Int) } ∧
      l + n ≤ capAfter l k size ∧ capAfter l k size ≤ INT_MAX := by
  have hfits := h.fits
  have hsmall := h.small
  rcases hroom with ⟨hpos, hgrows⟩ | ⟨hover, hwritten⟩
  · have htotal : l + size ≤ INT_MAX := by
      rcases hgrows with hlt | hle <;> omega
    obtain ⟨-, hok⟩ := Growth.ensureCapacity_grows h hpos htotal hgrows
    have hcap : capAfter l k size = if l + size < k then k else 2 * k + size := by
      rw [capAfter]
      split <;> split <;> omega
    rw [hok, hcap]
    refine ⟨rfl, ?_⟩
    rcases hgrows with hlt | hle
    · rw [if_pos hlt]
      omega
    · split <;> omega
  · have hcap : capAfter l k size = k := if_pos (Or.inr hover)
    have hnegative : int ((l : Int) + size) < k := by
      rw [int_max] at hsmall hover
      rw [int, Int.bmod_def]
      omega
    have hstay : bufferEnsureCapacity b size = .ok b := by
      rw [bufferEnsureCapacity, h.len, h.cap, if_neg (by omega)]
    rw [hstay, hcap, ← h.cap]
    exact ⟨rfl, hwritten, hsmall⟩

theorem room_of_ensureCapacity {cap : Int} (h : Measures b l k)
    (hsized : n = size ∨ 0 < n ∧ n ≤ size ∧ size ≤ 2 ^ 16)
    (hok : bufferEnsureCapacity b size = .ok { b with cap := cap }) (hwritten : n = 0 ∨ (l : Int) + n ≤ cap) :
    Room l k size n := by
  have hfits := h.fits
  have hsmall := h.small
  rw [int_max] at hsmall
  rw [bufferEnsureCapacity, h.len, h.cap] at hok
  rw [Room, Grows, int_max]
  split at hok
  · rename_i hfull
    dsimp only at hok
    split at hok
    · cases hok
    · rename_i hpos
      have hcap := congrArg Buffer.cap (Except.ok.inj hok)
      dsimp only at hcap
      rw [int, Int.bmod_def] at hfull
      rw [int, int, Int.bmod_def, Int.bmod_def] at hcap hpos
      omega
  · rename_i hroom
    have hcap : (k : Int) = cap := h.cap.symm.trans (congrArg Buffer.cap (Except.ok.inj hok))
    rw [int, Int.bmod_def] at hroom
    omega

theorem Part.sized_length (part : Part) : part.stored.length = part.size ∨
    0 < part.stored.length ∧ part.stored.length ≤ part.size ∧ part.size ≤ 2 ^ 16 :=
  part.sized.imp_right fun ⟨hne, hrest⟩ => ⟨List.length_pos_iff.mpr hne, hrest⟩

theorem put_ok (h : Measures b l k) (hroom : Room l k part.size part.stored.length) :
    ∃ b', part.put b = .ok b' ∧ Measures b' (l + part.counted) (capAfter l k part.size) := by
  obtain ⟨hensure, hwritten, hsmall⟩ := ensureCapacity_room h part.sized_length hroom
  have hcounted := part.counted_le
  rw [Part.put, hensure]
  cases b with
  | mk buf len cap =>
    obtain rfl : len = l := h.len
    have hstore : (⟨buf, l, capAfter l k part.size⟩ : Buffer).storeAll l part.stored =
        .ok ⟨overlay buf l part.stored, l, capAfter l k part.size⟩ :=
      storeAll_ok (by show (l : Int) + _ ≤ (capAfter l k part.size : Int); omega)
    have hlen : int ((l : Int) + part.counted) = (l + part.counted : Nat) := by
      rw [int_max] at hsmall
      rw [int_eq (by omega)]
      exact (Int.natCast_add _ _).symm
    refine ⟨⟨overlay buf l part.stored, (l + part.counted : Nat), capAfter l k part.size⟩, ?_, rfl, rfl,
      by omega, hsmall⟩
    change (Buffer.storeAll _ l _).bind _ = _
    rw [hstore, ← hlen]
    rfl

theorem put_room (h : Measures b l k) (hok : part.put b = .ok b') :
    Room l k part.size part.stored.length := by
  obtain ⟨b₁, hensure, hok⟩ := except_inv hok
  obtain ⟨cap, rfl, -⟩ := ensureCapacity_inv h.sound hensure
  obtain ⟨b₂, hstore, -⟩ := except_inv hok
  dsimp only at hstore
  rw [h.len] at hstore
  obtain ⟨-, hwritten⟩ := storeAll_inv (Int.natCast_nonneg l) hstore
  refine room_of_ensureCapacity h part.sized_length hensure ?_
  exact hwritten.imp_left fun hnil => by rw [hnil, List.length_nil]

theorem puts_iff (h : Measures b l k) :
    (∃ b', parts.foldlM Part.put b = .ok b') ↔ Fits l k parts := by
  induction parts generalizing b l k with
  | nil => exact ⟨fun _ => trivial, fun _ => ⟨b, rfl⟩⟩
  | cons part parts ih =>
    rw [List.foldlM_cons, Fits]
    constructor
    · rintro ⟨b', hok⟩
      obtain ⟨b₁, hput, hrest⟩ := except_inv hok
      have hroom := put_room h hput
      obtain ⟨b₂, hput', hmeasures⟩ := put_ok h hroom
      rw [hput] at hput'
      cases hput'
      exact ⟨hroom, (ih hmeasures).mp ⟨b', hrest⟩⟩
    · rintro ⟨hroom, hfits⟩
      obtain ⟨b₁, hput, hmeasures⟩ := put_ok h hroom
      obtain ⟨b', hrest⟩ := (ih hmeasures).mpr hfits
      refine ⟨b', ?_⟩
      rw [hput]
      exact hrest

end Parts

section Texts

variable {b b' resp : Buffer} {key value text : Bytes} {l k size : Nat}

theorem bufferPrint_eq (h : text.length ≤ INT_MAX) :
    bufferPrint b MAX_HEADER_LEN text = (printedPart text).put b := by
  rw [int_max] at h
  have hshort : ¬ text.length ≥ 2 ^ 31 := by omega
  simp only [bufferPrint, if_neg hshort]
  rfl

theorem httpAddHeader_eq (h : value.length ≤ INT_MAX) :
    httpAddHeader resp key value = (headerParts key value).foldlM Part.put resp := by
  simp only [httpAddHeader, headerParts, List.foldlM_cons, List.foldlM_nil, bind_pure,
    bufferPrint_eq h]
  rfl

theorem beginning_eq : beginning size text = text.take (size - 1) := by
  rw [beginning, Nat.min_comm, ← List.take_eq_take_min]

theorem printed_eq (h : text.length ≠ size) : printed size text = beginning size text := by
  rw [beginning_eq]
  rcases Nat.lt_or_ge text.length size with hlt | hge
  · rw [printed_of_short hlt, List.take_of_length_le (by omega)]
  · have hlength : (text.take (size - 1)).length = size - 1 := by
      rw [List.length_take]
      omega
    rw [printed, if_pos (by omega)]
    exact List.take_left' hlength

theorem printed_ne (h : text.length = size) (hsize : 0 < size) :
    (printed size text).length ≠ (beginning size text).length := by
  have hlength : (text.take (size - 1)).length = size - 1 := by
    rw [List.length_take]
    omega
  rw [beginning_eq, hlength, printed, if_neg (by omega), List.length_take, List.length_append, hlength,
    List.length_singleton]
  omega

theorem appended (h : b.Sound) (h' : b'.Sound) (hcontents : b'.contents = b.contents ++ text)
    (hclean : NUL ∉ text) : Appended b b' text := by
  have hnonneg := h.nonneg
  have hnonneg' := h'.nonneg
  have hlength := congrArg List.length hcontents
  rw [List.length_append, length_contents, length_contents] at hlength
  exact ⟨hcontents, by omega, h'.fits, hclean⟩

theorem clean_beginning (h : NUL ∉ text) : NUL ∉ beginning size text :=
  fun hmem => h (List.mem_of_mem_take hmem)

end Texts

section Bodies

variable {fresh : Nat → UInt8} {ta : Transaction} {status : ResponseStatus} {st st' : Sending}
  {key value text : Bytes} {rc : Bool} {u : Unit}

structure SameAnswer (st st' : Sending) : Prop where
  status : st'.response.respStatus = st.response.respStatus
  body : st'.response.respBody = st.response.respBody

theorem SameAnswer.trans {st'' : Sending} (h : SameAnswer st st') (h' : SameAnswer st' st'') :
    SameAnswer st st'' :=
  ⟨h'.status.trans h.status, h'.body.trans h.body⟩

theorem addHeader_same (hok : addHeader key value st = .ok (u, st')) : SameAnswer st st' := by
  obtain ⟨_, -, hset⟩ := lift_bind_inv (get_bind_inv hok)
  cases hset
  exact ⟨rfl, rfl⟩

theorem endHeaders_same (hok : endHeaders st = .ok (u, st')) : SameAnswer st st' := by
  obtain ⟨_, -, hset⟩ := lift_bind_inv (get_bind_inv hok)
  cases hset
  exact ⟨rfl, rfl⟩

theorem bufioSendbuffers_same {resp : List Buffer} {n : Int}
    (hok : bufioSendbuffers resp st = .ok (n, st')) : SameAnswer st st' := by
  cases hok
  exact ⟨rfl, rfl⟩

theorem sendResponse_same (hok : sendResponse fresh ta st = .ok (rc, st')) : SameAnswer st st' := by
  obtain ⟨_, st₁, hset, hok⟩ := bind_inv (get_bind_inv hok)
  obtain ⟨_, st₂, hend, hok⟩ := bind_inv hok
  obtain ⟨_, -, hok⟩ := lift_bind_inv (get_bind_inv hok)
  obtain ⟨_, st₃, hsend, hok⟩ := bind_inv (get_bind_inv hok)
  cases hok
  exact ((addHeader_same hset).trans (endHeaders_same hend)).trans (bufioSendbuffers_same hsend)

theorem sendError_body {respBody : Buffer}
    (hprint : bufferPrint st.response.respBody MAX_ERROR_LEN text = .ok respBody)
    (hok : sendError fresh ta status text st = .ok (rc, st')) : st'.response.respBody = respBody := by
  obtain ⟨respBody', hprint', hok⟩ := lift_bind_inv (get_bind_inv hok)
  rw [hprint] at hprint'
  cases hprint'
  obtain ⟨_, st₁, hstatus, hok⟩ := bind_inv (set_bind_inv hok)
  cases hstatus
  obtain ⟨_, st₂, hadd, hok⟩ := bind_inv hok
  rw [(sendResponse_same hok).body, (addHeader_same hadd).body]

theorem sendError_status (hok : sendError fresh ta status text st = .ok (rc, st')) :
    st'.response.respStatus = some status := by
  obtain ⟨respBody, -, hok⟩ := lift_bind_inv (get_bind_inv hok)
  obtain ⟨_, st₁, hstatus, hok⟩ := bind_inv (set_bind_inv hok)
  cases hstatus
  obtain ⟨_, st₂, hadd, hok⟩ := bind_inv hok
  rw [(sendResponse_same hok).status, (addHeader_same hadd).status]

end Bodies

section Exact

variable {fresh : Nat → UInt8} {ta : Transaction} {status : ResponseStatus} {st : Sending}
  {resp : Buffer} {key value text : Bytes}

theorem headerExact_iff (h : resp.Sound) (hkey : NUL ∉ key) (hvalue : NUL ∉ value) :
    HeaderExact resp key value ↔ Measured MAX_HEADER_LEN value ∧
      Fits resp.len.toNat resp.cap.toNat (headerParts key value) := by
  constructor
  · rintro ⟨resp', hok, happended⟩
    have hlong : value.length ≤ INT_MAX := by
      obtain ⟨_, -, hrest⟩ := except_inv hok
      obtain ⟨_, -, hrest⟩ := except_inv hrest
      obtain ⟨_, hprint, -⟩ := except_inv hrest
      have hfits := (bufferPrint_fits hprint).1
      rw [int_max]
      omega
    refine ⟨⟨hlong, fun hlength => ?_⟩, ?_⟩
    · have hcontents := (httpAddHeader_inv h hok).2
      rw [happended.contents, fieldLine] at hcontents
      have hlengths := congrArg List.length (List.append_cancel_left hcontents)
      simp only [List.length_append] at hlengths
      exact printed_ne hlength (by decide) (by omega)
    · rw [httpAddHeader_eq hlong] at hok
      exact (puts_iff (measures_of_sound h)).mp ⟨resp', hok⟩
  · rintro ⟨⟨hlong, hlength⟩, hfits⟩
    obtain ⟨resp', hok⟩ := (puts_iff (measures_of_sound h)).mpr hfits
    rw [← httpAddHeader_eq hlong] at hok
    obtain ⟨hsound, hcontents⟩ := httpAddHeader_inv h hok
    rw [fieldLine, printed_eq hlength] at hcontents
    refine ⟨resp', hok, appended h hsound hcontents ?_⟩
    simp only [List.mem_append, not_or]
    exact ⟨⟨⟨hkey, by decide⟩, clean_beginning hvalue⟩, by decide⟩

theorem errorExact_iff (h : st.response.respBody.Sound) (htext : NUL ∉ text) :
    ErrorExact fresh ta status text st ↔ Measured MAX_ERROR_LEN text ∧
      Fits st.response.respBody.len.toNat st.response.respBody.cap.toNat [printedPart text] := by
  have hputs : (∃ respBody, (printedPart text).put st.response.respBody = .ok respBody) ↔
      Fits st.response.respBody.len.toNat st.response.respBody.cap.toNat [printedPart text] := by
    rw [← puts_iff (measures_of_sound h), List.foldlM_cons]
    simp only [List.foldlM_nil, bind_pure]
  constructor
  · rintro ⟨respBody, hok, happended, -⟩
    have hlong : text.length ≤ INT_MAX := by
      have hfits := (bufferPrint_fits hok).1
      rw [int_max]
      omega
    refine ⟨⟨hlong, fun hlength => ?_⟩, ?_⟩
    · have hcontents := (bufferPrint_inv h hok).2
      rw [happended.contents] at hcontents
      have hlengths := congrArg List.length (List.append_cancel_left hcontents)
      exact printed_ne hlength (by decide) hlengths.symm
    · exact hputs.mp ⟨respBody, (bufferPrint_eq hlong).symm.trans hok⟩
  · rintro ⟨⟨hlong, hlength⟩, hfits⟩
    obtain ⟨respBody, hok⟩ := hputs.mpr hfits
    have hprint : bufferPrint st.response.respBody MAX_ERROR_LEN text = .ok respBody :=
      (bufferPrint_eq hlong).trans hok
    obtain ⟨hsound, hcontents⟩ := bufferPrint_inv h hprint
    rw [printed_eq hlength] at hcontents
    exact ⟨respBody, hprint, appended h hsound hcontents (clean_beginning htext),
      fun rc st' hsend => sendError_body hprint hsend⟩

/-- Formatted texts are put exactly into the header and into the body, if and only if they do not
have the length of the size that `vsnprintf` is given, and the buffers can grow. -/
theorem formatted_iff (fresh : Nat → UInt8) (ta : Transaction) (status : ResponseStatus)
    (hresp : resp.Sound) (hbody : st.response.respBody.Sound) (hkey : NUL ∉ key)
    (hvalue : NUL ∉ value) (htext : NUL ∉ text) :
    (HeaderExact resp key value ↔ Measured MAX_HEADER_LEN value ∧
        Fits resp.len.toNat resp.cap.toNat (headerParts key value)) ∧
      (ErrorExact fresh ta status text st ↔ Measured MAX_ERROR_LEN text ∧
        Fits st.response.respBody.len.toNat st.response.respBody.cap.toNat [printedPart text]) :=
  ⟨headerExact_iff hresp hkey hvalue, errorExact_iff hbody htext⟩

def unsent : Sending :=
  ⟨⟨none, bufferInit (fun _ => 0) 1024, bufferInit (fun _ => 0) 0⟩, ⟨[], []⟩⟩

theorem formatted_sample :
    (HeaderExact unsent.response.respHeaders (ascii "Accept-Ranges") (ascii "bytes") ↔
        Measured MAX_HEADER_LEN (ascii "bytes") ∧
          Fits 0 1024 (headerParts (ascii "Accept-Ranges") (ascii "bytes"))) ∧
      (ErrorExact (fun _ => 0) ({} : Transaction) .HTTP_PERMISSION_DENIED (ascii "Forbidden") unsent ↔
        Measured MAX_ERROR_LEN (ascii "Forbidden") ∧ Fits 0 0 [printedPart (ascii "Forbidden")]) :=
  formatted_iff (fun _ => 0) _ _ (sound_init (by decide)) (sound_init (by decide)) (by decide)
    (by decide) (by decide)

/-- The error page for a path of 2033 letters ends with a NUL. -/
theorem notFound_inexact : ¬ ∀ fresh ta status text st, st.response.respBody.Sound → NUL ∉ text →
    ErrorExact fresh ta status text st := by
  intro hexact
  have hclean : NUL ∉ ascii "File " ++ List.replicate 2033 97 ++ ascii " not found" := by
    rw [List.mem_append, List.mem_append, List.mem_replicate, not_or, not_or]
    exact ⟨⟨by decide, fun hnul => absurd hnul.2 (by decide)⟩, by decide⟩
  have hsound : unsent.response.respBody.Sound := sound_init (by decide)
  have hmeasured := ((errorExact_iff hsound hclean).mp
    (hexact (fun _ => 0) {} .HTTP_NOT_FOUND _ unsent hsound hclean)).1
  refine hmeasured.2 ?_
  rw [List.length_append, List.length_append, List.length_replicate]
  rfl

end Exact

end ComputerSystems.Pserv.Printing
