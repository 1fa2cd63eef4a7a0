/- The buffers of a response hold its lines and its body. -/

import ComputerSystems.Pserv.Messages
import ComputerSystems.Pserv.Transactions
import ComputerSystems.Systems.Computations

set_option autoImplicit false
set_option relaxedAutoImplicit false

namespace ComputerSystems.Pserv.Building

open ComputerSystems.Memory.CStrings
open ComputerSystems.Systems.Computations
open ComputerSystems.Pserv.Strings
open ComputerSystems.Pserv.Buffers
open ComputerSystems.Pserv.Requests
open ComputerSystems.Pserv.Responses
open ComputerSystems.Pserv.Transactions
open ComputerSystems.Pserv.Messages

/-- The line that `http_add_header` makes. -/
def fieldLine (key value : Bytes) : Bytes :=
  key ++ ascii ": " ++ printed MAX_HEADER_LEN value

section Numbers

theorem digit_toNat {c : Char} (h : c.isDigit = true) :
    c.toUInt8.toNat = c.toNat ∧ isDigit c.toUInt8 = true := by
  simp only [Char.isDigit, ge_iff_le, Bool.and_eq_true, decide_eq_true_eq] at h
  have hlow : 48 ≤ c.toNat := h.1
  have hhigh : c.toNat ≤ 57 := h.2
  have hsame : c.toUInt8.toNat = c.toNat := by
    show c.toNat % 256 = c.toNat
    omega
  refine ⟨hsame, ?_⟩
  rw [isDigit, Bool.and_eq_true, decide_eq_true_eq, decide_eq_true_eq, UInt8.le_iff_toNat_le,
    UInt8.le_iff_toNat_le, hsame]
  exact ⟨hlow, hhigh⟩

theorem decimal_digits {cs : List Char} (h : ∀ c ∈ cs, c.isDigit = true) :
    decimal (cs.map Char.toUInt8) = Nat.ofDigitChars 10 cs 0 := by
  rw [decimal, List.foldl_map, Nat.ofDigitChars_eq_foldl]
  refine List.foldl_ext _ _ 0 fun n c hc => ?_
  rw [(digit_toNat (h c hc)).1]
  rfl

theorem spells_intText (n : Nat) : Spells (intText n) n := by
  have htext : intText n = (Nat.toDigits 10 n).map Char.toUInt8 := by
    rw [intText, if_neg (by omega), List.nil_append, Int.natAbs_natCast, ascii, Nat.toList_repr]
  have hdigits : ∀ c ∈ Nat.toDigits 10 n, c.isDigit = true :=
    fun c hc => Nat.isDigit_of_mem_toDigits (by decide) (by decide) hc
  rw [htext]
  refine ⟨?_, ?_, ?_⟩
  · rw [Ne, List.map_eq_nil_iff]
    exact Nat.toDigits_ne_nil
  · intro c hc
    obtain ⟨d, hd, rfl⟩ := List.mem_map.mp hc
    exact (digit_toNat (hdigits d hd)).2
  · rw [decimal_digits hdigits, Nat.ofDigitChars_ten_toDigits]

theorem length_intText {n : Nat} (h : n < 2 ^ 63) : (intText n).length ≤ 19 := by
  rw [intText, if_neg (by omega), List.nil_append, Int.natAbs_natCast, ascii, Nat.toList_repr,
    List.length_map, Nat.length_toDigits_le_iff (by decide) (by decide)]
  omega

end Numbers

section Printing

variable {b b' : Buffer} {size : Nat} {key value text : Bytes}

theorem printed_of_short (h : text.length < size) : printed size text = text := by
  have htake : text.take (size - 1) = text := List.take_of_length_le (by omega)
  rw [printed, if_neg (by omega), htake, List.take_left]

theorem mem_printed {c : UInt8} (h : c ∈ printed size text) : c ∈ text ∨ c = NUL := by
  have hmem := List.mem_of_mem_take h
  rw [List.mem_append, List.mem_singleton] at hmem
  exact hmem.imp List.mem_of_mem_take fun hc => hc

theorem length_printed : (printed size text).length ≤ size := by
  refine Nat.le_trans (List.length_take_le ..) ?_
  split
  · exact Nat.sub_le size 1
  · omega

theorem bufferPrint_fits (hok : bufferPrint b size text = .ok b') : text.length < 2 ^ 31 ∧ (do
    let b ← bufferEnsureCapacity b size
    let b ← b.storeAll b.len (text.take (size - 1) ++ [NUL])
    return { b with len := int (b.len + (printed size text).length) } : Except Stop Buffer) =
      .ok b' := by
  obtain ⟨b₁, hensure, hok⟩ := except_inv hok
  rw [hensure]
  by_cases hlong : text.length ≥ 2 ^ 31
  · rw [if_pos hlong] at hok
    cases hok
  · rw [if_neg hlong] at hok
    exact ⟨Nat.not_le.mp hlong, hok⟩

theorem bufferPrint_inv (h : b.Sound) (hok : bufferPrint b size text = .ok b') :
    b'.Sound ∧ b'.contents = b.contents ++ printed size text := by
  have hlen : (printed size text).length ≤ (text.take (size - 1) ++ [NUL]).length := by
    rw [printed]
    exact List.length_take_le' ..
  have hstored := store_end h (bufferPrint_fits hok).2 hlen fun hnil => by simp at hnil
  have htake : (text.take (size - 1) ++ [NUL]).take (printed size text).length =
      printed size text := by
    rw [printed, List.length_take, ← List.take_eq_take_min]
  rwa [htake] at hstored

theorem httpAddHeader_inv (h : b.Sound) (hok : httpAddHeader b key value = .ok b') :
    b'.Sound ∧ b'.contents = b.contents ++ (fieldLine key value ++ CRLF) := by
  obtain ⟨b₁, h₁, hok⟩ := except_inv hok
  obtain ⟨b₂, h₂, hok⟩ := except_inv hok
  obtain ⟨b₃, h₃, hok⟩ := except_inv hok
  obtain ⟨hsound₁, hcontents₁⟩ := bufferAppend_inv h h₁
  obtain ⟨hsound₂, hcontents₂⟩ := bufferAppend_inv hsound₁ h₂
  obtain ⟨hsound₃, hcontents₃⟩ := bufferPrint_inv hsound₂ h₃
  obtain ⟨hsound, hcontents⟩ := bufferAppend_inv hsound₃ hok
  refine ⟨hsound, ?_⟩
  rw [hcontents, hcontents₃, hcontents₂, hcontents₁, fieldLine]
  simp only [List.append_assoc]

def statusLine (ta : Transaction) (status : Option ResponseStatus) : Bytes :=
  versionText ta.reqVersion ++ statusText status

theorem startResponse_inv {fresh : Nat → UInt8} {ta : Transaction} {status : Option ResponseStatus}
    (hok : startResponse fresh ta status = .ok b') :
    b'.Sound ∧ b'.contents = statusLine ta status ++ CRLF := by
  obtain ⟨b₁, h₁, hok⟩ := except_inv hok
  obtain ⟨b₂, h₂, hok⟩ := except_inv hok
  obtain ⟨hsound₁, hcontents₁⟩ := bufferAppend_inv (sound_init (by decide)) h₁
  obtain ⟨hsound₂, hcontents₂⟩ := bufferAppend_inv hsound₁ h₂
  obtain ⟨hsound, hcontents⟩ := bufferAppend_inv hsound₂ hok
  refine ⟨hsound, ?_⟩
  rw [hcontents, hcontents₂, hcontents₁, statusLine]
  rfl

end Printing

/-- A header line that can stand in a response beside its content length. -/
structure Plain (l : Bytes) : Prop where
  line : IsLine l
  colon : COLON ∈ l
  name : fieldName l ≠ []
  other : isLength l = false
  short : l.length ≤ 3000

structure Built (st : Sending) (socket : Socket) (status : Option ResponseStatus)
    (headers : List Bytes) (body : Bytes) : Prop where
  socket : st.socket = socket
  status : st.response.respStatus = status
  headers_sound : st.response.respHeaders.Sound
  headers : st.response.respHeaders.contents = joinLines headers
  body_sound : st.response.respBody.Sound
  body : st.response.respBody.contents = body

section Lines

variable {key value : Bytes}

theorem fieldName_fieldLine (hkey : COLON ∉ key) : fieldName (fieldLine key value) = key := by
  have hall : ∀ c ∈ key, (c != COLON) = true := by
    intro c hc
    rw [bne_iff_ne]
    rintro rfl
    exact hkey hc
  rw [fieldName, fieldLine, List.append_assoc, List.takeWhile_append_of_pos hall]
  show key ++ List.takeWhile _ (COLON :: _) = key
  rw [List.takeWhile_cons_of_neg (by decide), List.append_nil]

theorem fieldValue_fieldLine (hkey : COLON ∉ key)
    (hvalue : (printed MAX_HEADER_LEN value).dropWhile isBlank = printed MAX_HEADER_LEN value) :
    fieldValue (fieldLine key value) = printed MAX_HEADER_LEN value := by
  have hall : ∀ c ∈ key, (c != COLON) = true := by
    intro c hc
    rw [bne_iff_ne]
    rintro rfl
    exact hkey hc
  rw [fieldValue, fieldLine, List.append_assoc, List.dropWhile_append_of_pos hall]
  show List.dropWhile isBlank (SP :: printed MAX_HEADER_LEN value) = _
  rw [List.dropWhile_cons_of_pos (by decide), hvalue]

theorem isLine_fieldLine (hkey : CR ∉ key ∧ LF ∉ key) (hvalue : CR ∉ value ∧ LF ∉ value) :
    IsLine (fieldLine key value) := by
  have hmem : ∀ c, c ∉ key → c ∉ value → c ≠ NUL → c ∉ ascii ": " → c ∉ fieldLine key value := by
    intro c hk hv hnul hsep hc
    rw [fieldLine, List.mem_append, List.mem_append] at hc
    rcases hc with (hc | hc) | hc
    · exact hk hc
    · exact hsep hc
    · exact (mem_printed hc).elim hv hnul
  refine ⟨?_, hmem CR hkey.1 hvalue.1 (by decide) (by decide),
    hmem LF hkey.2 hvalue.2 (by decide) (by decide)⟩
  simp [fieldLine, ascii]

structure Key (key : Bytes) : Prop where
  nonempty : key ≠ []
  line : CR ∉ key ∧ LF ∉ key
  colon : COLON ∉ key
  short : key.length ≤ 900

theorem length_fieldLine {key value : Bytes} (hkey : Key key) :
    (fieldLine key value).length ≤ 3000 := by
  have hlen := hkey.short
  have hprinted : (printed MAX_HEADER_LEN value).length ≤ 2048 := length_printed
  have hsep : (ascii ": ").length = 2 := rfl
  rw [fieldLine, List.length_append, List.length_append]
  omega

theorem plain_fieldLine (hkey : Key key) (hother : sameText key (ascii "Content-Length") = false)
    (hvalue : CR ∉ value ∧ LF ∉ value) : Plain (fieldLine key value) where
  line := isLine_fieldLine hkey.line hvalue
  colon := by
    rw [fieldLine, List.mem_append, List.mem_append]
    exact Or.inl (Or.inr (by decide))
  name := by
    rw [fieldName_fieldLine hkey.colon]
    exact hkey.nonempty
  other := by
    rw [isLength, fieldName_fieldLine hkey.colon]
    exact hother
  short := length_fieldLine hkey

def lengthLine (n : Nat) : Bytes := fieldLine (ascii "Content-Length") (intText n)

theorem key_contentLength : Key (ascii "Content-Length") :=
  ⟨by decide, by decide, by decide, by decide⟩

theorem intText_line (z : Int) : CR ∉ intText z ∧ LF ∉ intText z := by
  obtain ⟨-, hdigits, -⟩ := spells_intText z.natAbs
  rw [intText, if_neg (by omega), List.nil_append, Int.natAbs_natCast] at hdigits
  rw [intText, List.mem_append, List.mem_append, not_or, not_or]
  refine ⟨⟨?_, fun h => absurd (hdigits CR h) (by decide)⟩, ?_,
    fun h => absurd (hdigits LF h) (by decide)⟩
  · split <;> decide
  · split <;> decide

theorem spells_lengthLine {n : Nat} (hn : n < 2 ^ 63) :
    Spells (fieldValue (lengthLine n)) n := by
  have hlength := length_intText hn
  have hprinted : printed MAX_HEADER_LEN (intText n) = intText n :=
    printed_of_short (by show _ < 2048; omega)
  have hspells := spells_intText n
  have hblank := hspells.dropBlanks
  rw [lengthLine, fieldValue_fieldLine key_contentLength.colon (by rw [hprinted, hblank]), hprinted]
  exact hspells

theorem isLength_lengthLine (n : Nat) : isLength (lengthLine n) = true := by
  rw [isLength, lengthLine, fieldName_fieldLine key_contentLength.colon]
  exact beq_self_eq_true _

theorem isLine_status (ta : Transaction) (status : Option ResponseStatus) :
    IsLine (statusLine ta status) := by
  rw [statusLine]
  cases ta.reqVersion <;> cases status with
  | none => exact ⟨by decide, by decide, by decide⟩
  | some status => cases status <;> exact ⟨by decide, by decide, by decide⟩

theorem complete_of_plain (ta : Transaction) (status : Option ResponseStatus)
    {headers : List Bytes} {body : Bytes} (h : ∀ l ∈ headers, Plain l)
    (hbody : body.length < 2 ^ 63) :
    Complete ⟨statusLine ta status, headers ++ [lengthLine body.length], body⟩ where
  lines l hl := by
    rcases List.mem_cons.mp hl with rfl | hl
    · exact isLine_status ta status
    · rcases List.mem_append.mp hl with hl | hl
      · exact (h l hl).line
      · rw [List.mem_singleton.mp hl]
        exact isLine_fieldLine key_contentLength.line (intText_line _)
  version := ⟨ta.reqVersion, List.prefix_append ..⟩
  headers l hl := by
    rcases List.mem_append.mp hl with hl | hl
    · exact ⟨(h l hl).colon, (h l hl).name⟩
    · rw [List.mem_singleton.mp hl, lengthLine, fieldName_fieldLine key_contentLength.colon]
      refine ⟨?_, key_contentLength.nonempty⟩
      rw [fieldLine, List.mem_append, List.mem_append]
      exact Or.inl (Or.inr (by decide))
  length := by
    have hnone : headers.filter isLength = [] := by
      rw [List.filter_eq_nil_iff]
      intro l hl
      rw [(h l hl).other]
      exact Bool.false_ne_true
    refine ⟨lengthLine body.length, ?_, spells_lengthLine hbody⟩
    rw [List.filter_append, hnone, List.filter_cons_of_pos (isLength_lengthLine _)]
    rfl

theorem length_joinLines {ls : List Bytes} (h : ∀ l ∈ ls, l.length ≤ 3000) :
    (joinLines ls).length ≤ 3002 * ls.length := by
  induction ls with
  | nil => exact Nat.le_refl 0
  | cons l ls ih =>
    have hl := h l List.mem_cons_self
    have hls := ih fun k hk => h k (List.mem_cons_of_mem l hk)
    simp only [joinLines_cons, List.length_append, List.length_cons]
    omega

theorem length_statusLine (ta : Transaction) (status : Option ResponseStatus) :
    (statusLine ta status).length ≤ 3000 := by
  rw [statusLine]
  cases ta.reqVersion <;> cases status with
  | none => decide
  | some status => cases status <;> decide

structure Headed (headers : List Bytes) : Prop where
  plain : ∀ l ∈ headers, Plain l
  few : headers.length ≤ 8

theorem Headed.snoc {headers : List Bytes} {l : Bytes} (h : Headed headers) (hl : Plain l) (hfew : headers.length ≤ 7) :
    Headed (headers ++ [l]) := by
  refine ⟨fun k hk => ?_, by simpa using Nat.succ_le_succ hfew⟩
  rcases List.mem_append.mp hk with hk | hk
  · exact h.plain k hk
  · rw [List.mem_singleton.mp hk]
    exact hl

theorem length_head (ta : Transaction) (status : Option ResponseStatus) {headers : List Bytes}
    (n : Nat) (h : Headed headers) :
    (block (statusLine ta status :: (headers ++ [lengthLine n]))).length < 2 ^ 16 := by
  have hfew := h.few
  have hlines : (joinLines (statusLine ta status :: (headers ++ [lengthLine n]))).length ≤
      3002 * (statusLine ta status :: (headers ++ [lengthLine n])).length := by
    refine length_joinLines fun l hl => ?_
    rcases List.mem_cons.mp hl with rfl | hl
    · exact length_statusLine ta status
    · rcases List.mem_append.mp hl with hl | hl
      · exact (h.plain l hl).short
      · rw [List.mem_singleton.mp hl]
        exact length_fieldLine key_contentLength
  simp only [List.length_cons, List.length_append, List.length_nil] at hlines
  rw [block, List.length_append, CRLF, List.length_cons, List.length_singleton]
  omega

end Lines

section Steps

variable {st st' : Sending} {socket : Socket} {status : Option ResponseStatus}
  {headers : List Bytes} {body key value : Bytes} {u : Unit}

theorem built_init (env : Environment) :
    Built ⟨initResponse env, socket⟩ socket none [] [] :=
  ⟨rfl, rfl, sound_init (by decide), rfl, sound_init (by decide), rfl⟩

theorem addHeader_inv (h : Built st socket status headers body)
    (hok : addHeader key value st = .ok (u, st')) :
    Built st' socket status (headers ++ [fieldLine key value]) body := by
  obtain ⟨b, hadd, hset⟩ := lift_bind_inv (get_bind_inv hok)
  cases hset
  obtain ⟨hsound, hcontents⟩ := httpAddHeader_inv h.headers_sound hadd
  refine ⟨h.socket, h.status, hsound, ?_, h.body_sound, h.body⟩
  rw [hcontents, h.headers, joinLines_append]
  simp [joinLines]

theorem setContentLength_inv {n : Nat} (h : Built st socket status headers body)
    (hok : setContentLength n st = .ok (u, st')) :
    Built st' socket status (headers ++ [lengthLine n]) body :=
  addHeader_inv h hok

theorem appendBody_inv (h : Built st socket status headers body)
    (hok : appendBody value st = .ok (u, st')) :
    Built st' socket status headers (body ++ value) := by
  obtain ⟨b, hadd, hset⟩ := lift_bind_inv (get_bind_inv hok)
  cases hset
  obtain ⟨hsound, hcontents⟩ := bufferAppend_inv h.body_sound hadd
  exact ⟨h.socket, h.status, h.headers_sound, h.headers, hsound, by rw [hcontents, h.body]⟩

theorem setStatus_inv {new : ResponseStatus} (h : Built st socket status headers body)
    (hok : setStatus new st = .ok (u, st')) : Built st' socket (some new) headers body := by
  cases hok
  exact ⟨h.socket, rfl, h.headers_sound, h.headers, h.body_sound, h.body⟩

end Steps

end ComputerSystems.Pserv.Building
