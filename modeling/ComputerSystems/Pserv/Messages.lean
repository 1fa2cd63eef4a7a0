/- Messages on a connection: a full response, and that no full response begins another one. -/

import ComputerSystems.Memory.CStrings
import ComputerSystems.Pserv.Responses

set_option autoImplicit false
set_option relaxedAutoImplicit false

namespace ComputerSystems.Pserv.Messages

open ComputerSystems.Memory.CStrings
open ComputerSystems.Pserv.Strings
open ComputerSystems.Pserv.Requests
open ComputerSystems.Pserv.Responses

def joinLines (ls : List Bytes) : Bytes := (ls.map (· ++ CRLF)).flatten

def block (ls : List Bytes) : Bytes := joinLines ls ++ CRLF

def IsLine (l : Bytes) : Prop := l ≠ [] ∧ CR ∉ l ∧ LF ∉ l

def fieldName (line : Bytes) : Bytes := line.takeWhile (· != COLON)

def fieldValue (line : Bytes) : Bytes :=
  ((line.dropWhile (· != COLON)).drop 1).dropWhile isBlank

def isLength (line : Bytes) : Bool := sameText (fieldName line) (ascii "Content-Length")

def Spells (digits : Bytes) (n : Nat) : Prop :=
  digits ≠ [] ∧ (∀ c ∈ digits, isDigit c = true) ∧ decimal digits = n

theorem Spells.dropBlanks {digits : Bytes} {n : Nat} (h : Spells digits n) :
    digits.dropWhile isBlank = digits := by
  obtain ⟨c, l, rfl⟩ := List.exists_cons_of_ne_nil h.1
  have hdigit := h.2.1 c List.mem_cons_self
  refine List.dropWhile_cons_of_neg fun hblank => ?_
  rw [isBlank, Bool.or_eq_true, beq_iff_eq, beq_iff_eq] at hblank
  rcases hblank with rfl | rfl
  · exact absurd hdigit (by decide)
  · exact absurd hdigit (by decide)

structure Message where
  statusLine : Bytes
  headers : List Bytes
  body : Bytes

def Message.lines (m : Message) : List Bytes := m.statusLine :: m.headers

def Message.bytes (m : Message) : Bytes := block m.lines ++ m.body

/-- A full response: a status line, header lines with one content length, and that many bytes. -/
structure Complete (m : Message) : Prop where
  lines : ∀ l ∈ m.lines, IsLine l
  version : ∃ v, versionText v <+: m.statusLine
  headers : ∀ l ∈ m.headers, COLON ∈ l ∧ fieldName l ≠ []
  length : ∃ l, m.headers.filter isLength = [l] ∧ Spells (fieldValue l) m.body.length

variable {ls ls' : List Bytes} {x y : Bytes} {m m' : Message}

theorem joinLines_cons {l : Bytes} : joinLines (l :: ls) = l ++ CR :: LF :: joinLines ls := by
  simp [joinLines, CRLF]

theorem joinLines_append : joinLines (ls ++ ls') = joinLines ls ++ joinLines ls' := by
  simp [joinLines]

theorem block_cons {l : Bytes} : block (l :: ls) = l ++ CR :: LF :: block ls := by
  simp [block, joinLines_cons]

theorem append_cons_unique {c : UInt8} {l l' : Bytes} (h : c ∉ l) (h' : c ∉ l')
    (heq : l ++ c :: x = l' ++ c :: y) : l = l' ∧ x = y := by
  induction l generalizing l' with
  | nil =>
    cases l' with
    | nil => exact ⟨rfl, (List.cons.inj heq).2⟩
    | cons d l' => exact absurd (List.mem_cons.mpr (Or.inl (List.cons.inj heq).1)) h'
  | cons d l ih =>
    cases l' with
    | nil => exact absurd (List.mem_cons.mpr (Or.inl (List.cons.inj heq).1.symm)) h
    | cons d' l' =>
      obtain ⟨hd, hrest⟩ := List.cons.inj heq
      obtain ⟨hl, hxy⟩ := ih (fun hc => h (List.mem_cons_of_mem d hc))
        (fun hc => h' (List.mem_cons_of_mem d' hc)) hrest
      exact ⟨by rw [hd, hl], hxy⟩

theorem block_unique (h : ∀ l ∈ ls, IsLine l) (h' : ∀ l ∈ ls', IsLine l)
    (heq : block ls ++ x = block ls' ++ y) : ls = ls' ∧ x = y := by
  -- an empty line is the end: no line of the other list starts with a CR
  have hfirst : ∀ {l : Bytes} {s t : Bytes}, IsLine l → CRLF ++ s ≠ l ++ t := by
    rintro l s t ⟨hne, hcr, -⟩ hsame
    obtain ⟨c, l, rfl⟩ := List.exists_cons_of_ne_nil hne
    have hc : CR = c := (List.cons.inj hsame).1
    exact hcr (hc ▸ List.mem_cons_self)
  induction ls generalizing ls' with
  | nil =>
    cases ls' with
    | nil => exact ⟨rfl, List.append_cancel_left heq⟩
    | cons l' ls' =>
      rw [block_cons, List.append_assoc] at heq
      exact absurd heq (hfirst (h' l' List.mem_cons_self))
  | cons l ls ih =>
    cases ls' with
    | nil =>
      rw [block_cons, List.append_assoc] at heq
      exact absurd heq.symm (hfirst (h l List.mem_cons_self))
    | cons l' ls' =>
      rw [block_cons, block_cons, List.append_assoc, List.append_assoc] at heq
      obtain ⟨hl, hrest⟩ := append_cons_unique (h l List.mem_cons_self).2.1
        (h' l' List.mem_cons_self).2.1 heq
      obtain ⟨hls, hxy⟩ := ih (fun k hk => h k (List.mem_cons_of_mem l hk))
        (fun k hk => h' k (List.mem_cons_of_mem l' hk)) (List.cons.inj hrest).2
      exact ⟨by rw [hl, hls], hxy⟩

theorem Complete.unique (h : Complete m) (h' : Complete m') (heq : m.bytes ++ x = m'.bytes) :
    x = [] := by
  rw [Message.bytes, Message.bytes, List.append_assoc] at heq
  obtain ⟨hlines, hbody⟩ := block_unique h.lines h'.lines heq
  have hheaders : m.headers = m'.headers := (List.cons.inj hlines).2
  obtain ⟨l, hl, -, -, hlength⟩ := h.length
  obtain ⟨l', hl', -, -, hlength'⟩ := h'.length
  rw [hheaders, hl'] at hl
  cases hl
  rw [← hbody, hlength, List.length_append] at hlength'
  exact List.length_eq_zero_iff.mp (by omega)

theorem Complete.lines_unique (h : Complete m) (h' : Complete m')
    (heq : block m.lines ++ x = block m'.lines) : x = [] := by
  rw [← List.append_nil (block m'.lines)] at heq
  exact (block_unique h.lines h'.lines heq).2

end ComputerSystems.Pserv.Messages
