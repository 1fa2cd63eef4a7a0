/- The content length that the server finds, and the one that the headers spell. -/

import ComputerSystems.Pserv.Framing

set_option autoImplicit false
set_option relaxedAutoImplicit false

namespace ComputerSystems.Pserv.Lengths

open ComputerSystems.Memory.CStrings
open ComputerSystems.Systems.Computations
open ComputerSystems.Pserv.Strings
open ComputerSystems.Pserv.Buffers
open ComputerSystems.Pserv.Input
open ComputerSystems.Pserv.Receiving
open ComputerSystems.Pserv.Requests
open ComputerSystems.Pserv.Parsing
open ComputerSystems.Pserv.Streams
open ComputerSystems.Pserv.Outcomes
open ComputerSystems.Pserv.Boundaries
open ComputerSystems.Pserv.Messages
open ComputerSystems.Pserv.Transactions
open ComputerSystems.Pserv.Framing

def EndsCrlf (line : Bytes) : Prop := line.drop (line.length - 2) = [CR, LF]

instance (line : Bytes) : Decidable (EndsCrlf line) :=
  inferInstanceAs (Decidable (_ = _))

def content (line : Bytes) : Bytes :=
  line.take (line.length - if EndsCrlf line then 2 else 1)

def IsLength (line : Bytes) : Prop :=
  COLON ∈ content line ∧ sameText (fieldName (content line)) (ascii "Content-Length") = true

instance (line : Bytes) : Decidable (IsLength line) :=
  inferInstanceAs (Decidable (_ ∧ _))

/-- A decimal in `0..INT_MAX`. -/
def number (value : Bytes) : Option Nat :=
  if value ≠ [] ∧ value.all isDigit = true ∧ decimal value < 2 ^ 31 then some (decimal value)
  else none

/-- The header lines of the request at `pos`. -/
def headerLines (stream : Bytes) (pos : Nat) : List Bytes :=
  ((lines (stream.drop pos)).1.drop 1).takeWhile (· ≠ [CR, LF])

/-- The content length that the headers spell; `none` when the request has to fail. -/
def spelled (ls : List Bytes) : Option Nat :=
  match (ls.filter (IsLength ·)).getLast? with
  | none => some 0
  | some line => number (fieldValue (content line))

/-- The number that the server reads from a line, if it takes it for a content length. -/
def taken (line : Bytes) : Option Int := do
  let (name, rest) ← token [COLON] (lineText line)
  if sameText name (ascii "Content-Length") then some (textToInt (rest.dropWhile isBlank)) else none

/-- Where the body of the request at `pos` starts. -/
def bodyStart (stream : Bytes) (pos : Nat) : Nat :=
  pos + ((lines (stream.drop pos)).1.take 1).flatten.length + (headerLines stream pos).flatten.length + 2

/-- The content length is the one that the headers spell, and what `json_loadb` is given is empty or
that many bytes behind the headers. -/
def Right (stream : Bytes) (pos : Nat) (ta : Transaction) (s : Bufio) : Prop :=
  ∃ n, spelled (headerLines stream pos) = some n ∧ ta.reqContentLen = n ∧
    ((jsonArguments ta).2 = 0 ∨ (jsonArguments ta).2 = n ∧
      s.buf.storage.Holds (jsonArguments ta).1 ((stream.drop (bodyStart stream pos)).take n) ∧
      ((stream.drop (bodyStart stream pos)).take n).length = n)

/-- The last line that the server takes for a content length is one, and spells a number that fits
into an `int`; it ends with CRLF, or the number is zero. A malformed line that is taken for a content
length is read as the number that the proper ones spell. -/
def Exact (ls : List Bytes) : Prop :=
  match (ls.filter (fun line => (taken line).isSome)).getLast? with
  | none => True
  | some line =>
    if IsLength line then
      ∃ n, number (fieldValue (content line)) = some n ∧ (EndsCrlf line ∨ n = 0)
    else ∃ n : Nat, spelled ls = some n ∧ taken line = some (n : Int)

section Lists

variable {α : Type} {P Q : α → Bool} {ls : List α} {l : α}

theorem getLast_filter (hsub : ∀ x ∈ ls, P x = true → Q x = true)
    (h : (ls.filter Q).getLast? = some l) (hl : P l = true) : (ls.filter P).getLast? = some l := by
  obtain ⟨init, hinit⟩ := List.getLast?_eq_some_iff.mp h
  have hfilter : ls.filter P = (ls.filter Q).filter P := by
    rw [List.filter_filter]
    refine List.filter_congr fun x hx => ?_
    cases hP : P x with
    | false => rfl
    | true => rw [hsub x hx hP, Bool.true_and]
  rw [hfilter, hinit, List.filter_append, List.filter_cons_of_pos hl]
  exact List.getLast?_eq_some_iff.mpr ⟨_, rfl⟩

theorem getLast_filter_none (hsub : ∀ x ∈ ls, P x = true → Q x = true)
    (h : (ls.filter Q).getLast? = none) : (ls.filter P).getLast? = none := by
  rw [List.getLast?_eq_none_iff, List.filter_eq_nil_iff] at h ⊢
  exact fun x hx hP => h x hx (hsub x hx hP)

end Lists

section Values

variable {line c name rest : Bytes} {n : Nat}

theorem decimal_append {d : UInt8} (l : Bytes) : decimal (l ++ [d]) = 10 * decimal l + (d.toNat - 48) := by
  rw [decimal, List.foldl_append]
  rfl

theorem decimal_dropLast {digits : Bytes} (hne : digits ≠ []) (hdigits : ∀ c ∈ digits, isDigit c = true) :
    decimal digits.dropLast = decimal digits ↔ decimal digits = 0 := by
  obtain ⟨init, d, rfl⟩ := List.eq_nil_or_concat' digits |>.resolve_left hne
  rw [List.dropLast_concat, decimal_append]
  omega

theorem number_some {value : Bytes} (h : number value = some n) :
    Spells value n ∧ n < 2 ^ 31 := by
  rw [number] at h
  split at h
  · rename_i hvalue
    cases h
    exact ⟨⟨hvalue.1, List.all_eq_true.mp hvalue.2.1, rfl⟩, hvalue.2.2⟩
  · cases h

theorem content_append (h : ∃ l, line = l ++ [LF]) :
    line = content line ++ if EndsCrlf line then [CR, LF] else [LF] := by
  obtain ⟨l, rfl⟩ := h
  rw [content]
  by_cases hcrlf : EndsCrlf (l ++ [LF])
  · rw [if_pos hcrlf, if_pos hcrlf]
    have hsplit := List.take_append_drop ((l ++ [LF]).length - 2) (l ++ [LF])
    rw [show (l ++ [LF]).drop ((l ++ [LF]).length - 2) = [CR, LF] from hcrlf] at hsplit
    exact hsplit.symm
  · rw [if_neg hcrlf, if_neg hcrlf, List.length_append, List.length_singleton,
      Nat.add_sub_cancel, List.take_left]

theorem IsLength.split (h : IsLength line) : ∃ name rest, content line = name ++ COLON :: rest ∧
    COLON ∉ name ∧ name ≠ [] ∧ NUL ∉ name ∧ sameText name (ascii "Content-Length") = true ∧
    fieldValue (content line) = rest.dropWhile isBlank := by
  obtain ⟨hcolon, hname⟩ := h
  have hcolonName : COLON ∉ fieldName (content line) := by
    intro hmem
    have hne := List.mem_takeWhile_imp hmem
    simp at hne
  have hmap : (fieldName (content line)).map toLower = (ascii "Content-Length").map toLower :=
    eq_of_beq hname
  cases hdrop : (content line).dropWhile (· != COLON) with
  | nil =>
    have hall := List.dropWhile_eq_nil_iff.mp hdrop COLON hcolon
    simp at hall
  | cons d rest =>
    have hd : d = COLON := by
      have hhead := List.head?_dropWhile_not (· != COLON) (content line)
      rw [hdrop] at hhead
      simpa using hhead
    subst hd
    refine ⟨fieldName (content line), rest, ?_, hcolonName, ?_, ?_, hname, ?_⟩
    · rw [fieldName, ← hdrop, List.takeWhile_append_dropWhile]
    · intro hnil
      rw [hnil] at hmap
      cases hmap
    · intro hnul
      have hlower : toLower NUL ∈ (ascii "Content-Length").map toLower := by
        rw [← hmap]
        exact List.mem_map_of_mem hnul
      exact absurd hlower (by decide)
    · rw [fieldValue, hdrop]
      rfl

theorem lineText_lf : lineText (c ++ [LF]) = c.dropLast.takeWhile (· != NUL) := by
  rw [lineText, List.length_append, List.length_singleton, List.take_append_of_le_length (by omega),
    List.dropLast_eq_take]
  rfl

theorem lineText_crlf : lineText (c ++ [CR, LF]) = c.takeWhile (· != NUL) := by
  rw [lineText, List.length_append]
  exact congrArg _ List.take_left

/-- What `strtok_r` makes of a content length: with a bare LF, the last byte is missing. -/
theorem token_isLength (hline : ∃ l, line = l ++ [LF]) (hcontent : content line = name ++ COLON :: rest)
    (hcolon : COLON ∉ name) (hne : name ≠ []) (hnul : NUL ∉ name) :
    token [COLON] (lineText line) =
      some (name, (if EndsCrlf line then rest else rest.dropLast).takeWhile (· != NUL)) := by
  have hsplit := content_append hline
  rw [hcontent] at hsplit
  have hkeep : ∀ c ∈ name, (c != NUL) = true := by
    intro c hc
    rw [bne_iff_ne]
    rintro rfl
    exact hnul hc
  have htext : ∀ rest' : Bytes, (name ++ COLON :: rest').takeWhile (· != NUL) =
      name ++ COLON :: rest'.takeWhile (· != NUL) := by
    intro rest'
    rw [List.takeWhile_append_of_pos hkeep, List.takeWhile_cons_of_pos (by decide)]
  by_cases hcrlf : EndsCrlf line
  · rw [if_pos hcrlf] at hsplit ⊢
    rw [hsplit, lineText_crlf, htext, token_first hne hcolon]
  · rw [if_neg hcrlf] at hsplit ⊢
    rw [hsplit, lineText_lf]
    rcases List.eq_nil_or_concat' rest with rfl | ⟨init, d, rfl⟩
    · rw [List.dropLast_concat, List.takeWhile_eq_self_iff.mpr hkeep, token_whole hne hcolon]
      rfl
    · rw [← List.cons_append, ← List.append_assoc, List.dropLast_concat, List.dropLast_concat, htext,
        token_first hne hcolon]

theorem taken_iff (hline : ∃ l, line = l ++ [LF]) (h : IsLength line)
    (hnumber : number (fieldValue (content line)) = some n) :
    taken line = some (n : Int) ↔ EndsCrlf line ∨ n = 0 := by
  obtain ⟨name, rest, hcontent, hcolon, hne, hnul, hname, hvalue⟩ := h.split
  rw [hvalue] at hnumber
  obtain ⟨⟨hdigitsNe, hdigits, hdecimal⟩, hsmall⟩ := number_some hnumber
  have hrest : rest = rest.takeWhile isBlank ++ rest.dropWhile isBlank :=
    List.takeWhile_append_dropWhile.symm
  have hblanks : ∀ c ∈ rest.takeWhile isBlank, isBlank c = true := fun c => List.mem_takeWhile_imp
  have hnotNul : ∀ c, isBlank c = true ∨ isDigit c = true → (c != NUL) = true := by
    rintro c hc
    rw [bne_iff_ne]
    rintro rfl
    revert hc
    decide
  have htext : ∀ c ∈ rest, (c != NUL) = true := by
    intro c hc
    rw [hrest, List.mem_append] at hc
    exact hnotNul c (hc.imp (hblanks c) (hdigits c))
  have hdrop : ∀ digits : Bytes, (∀ c ∈ digits, isDigit c = true) →
      digits.dropWhile isBlank = digits := by
    intro digits hall
    cases digits with
    | nil => rfl
    | cons d digits =>
      refine List.dropWhile_cons_of_neg fun hblank => ?_
      have hdigit := hall d List.mem_cons_self
      rw [isBlank, Bool.or_eq_true, beq_iff_eq, beq_iff_eq] at hblank
      rcases hblank with rfl | rfl
      · exact absurd hdigit (by decide)
      · exact absurd hdigit (by decide)
  rw [taken, token_isLength hline hcontent hcolon hne hnul]
  simp only [Option.bind_eq_bind, Option.bind_some, if_pos hname]
  by_cases hcrlf : EndsCrlf line
  · rw [if_pos hcrlf, List.takeWhile_eq_self_iff.mpr htext, textToInt_digits hdigits (by omega), hdecimal]
    simp [hcrlf]
  · rw [if_neg hcrlf]
    have hlast : rest.dropLast = rest.takeWhile isBlank ++ (rest.dropWhile isBlank).dropLast := by
      conv_lhs => rw [hrest]
      exact List.dropLast_append_of_ne_nil hdigitsNe
    have hlastDigits : ∀ c ∈ (rest.dropWhile isBlank).dropLast, isDigit c = true :=
      fun c hc => hdigits c (List.dropLast_subset _ hc)
    have hle : decimal (rest.dropWhile isBlank).dropLast ≤ decimal (rest.dropWhile isBlank) := by
      obtain ⟨init, d, hinit⟩ := List.eq_nil_or_concat' (rest.dropWhile isBlank) |>.resolve_left hdigitsNe
      rw [hinit, List.dropLast_concat, decimal_append]
      omega
    rw [List.takeWhile_eq_self_iff.mpr fun c hc => htext c (List.dropLast_subset _ hc), hlast,
      List.dropWhile_append_of_pos hblanks, hdrop _ hlastDigits,
      textToInt_digits hlastDigits (by omega), Option.some_inj, Int.natCast_inj, ← hdecimal,
      decimal_dropLast hdigitsNe hdigits]
    simp [hcrlf]

theorem taken_isSome (hline : ∃ l, line = l ++ [LF]) (h : IsLength line) :
    (taken line).isSome = true := by
  obtain ⟨name, rest, hcontent, hcolon, hne, hnul, hname, -⟩ := h.split
  rw [taken, token_isLength hline hcontent hcolon hne hnul]
  simp [hname]

end Values

section Requests

variable {stream tail : Bytes} {ending : Ending} {p : Nat} {ls : List Bytes} {m contentLen : Int}
variable {r : Request} {s s' : Bufio} {ta : Transaction}

def lastTaken (ls : List Bytes) (contentLen : Int) : Int :=
  (ls.filterMap taken).getLast?.getD contentLen

theorem headerLine_taken {line : Bytes} (h : headerLine contentLen (lineText line) = some m) :
    m = (taken line).getD contentLen := by
  rw [headerLine] at h
  rw [taken]
  cases htoken : token [COLON] (lineText line) with
  | none =>
    rw [htoken] at h
    cases h
  | some t =>
    obtain ⟨name, rest⟩ := t
    rw [htoken] at h
    simp only [Option.bind_eq_bind, Option.bind_some] at h ⊢
    by_cases hname : sameText name (ascii "Content-Length") = true
    · rw [if_pos hname] at h ⊢
      cases h
      rfl
    · rw [if_neg hname] at h ⊢
      cases h
      rfl

theorem lastTaken_cons {line : Bytes} :
    lastTaken (line :: ls) contentLen = lastTaken ls ((taken line).getD contentLen) := by
  rw [lastTaken, lastTaken]
  cases htaken : taken line with
  | none => rw [List.filterMap_cons_none htaken, Option.getD_none]
  | some n => rw [List.filterMap_cons_some htaken, List.getLast?_cons, Option.getD_some, Option.getD_some]

theorem lastTaken_eq {line : Bytes}
    (h : (ls.filter (fun line => (taken line).isSome)).getLast? = some line) :
    taken line = some (lastTaken ls contentLen) := by
  obtain ⟨init, hinit⟩ := List.getLast?_eq_some_iff.mp h
  have hmem : line ∈ ls.filter (fun line => (taken line).isSome) := by
    rw [hinit]
    simp
  obtain ⟨n, hn⟩ := Option.isSome_iff_exists.mp (List.mem_filter.mp hmem).2
  have hfilter : ls.filterMap taken = (init ++ [line]).filterMap taken := by
    rw [← hinit, List.filterMap_filter]
    refine List.filterMap_congr fun x _ => ?_
    cases htaken : taken x with
    | none => rfl
    | some k => rfl
  rw [lastTaken, hfilter, List.filterMap_append, List.filterMap_cons_some hn, List.filterMap_nil,
    List.getLast?_concat, hn]
  rfl

theorem lastTaken_none (h : (ls.filter (fun line => (taken line).isSome)).getLast? = none) :
    lastTaken ls contentLen = contentLen := by
  rw [List.getLast?_eq_none_iff, List.filter_eq_nil_iff] at h
  have hnil : ls.filterMap taken = [] := by
    rw [List.filterMap_eq_nil_iff]
    intro line hline
    simpa using h line hline
  rw [lastTaken, hnil]
  rfl

theorem headers_accepted (h : (headers ending tail ls p contentLen).verdict = .accepted m) :
    m = lastTaken (ls.takeWhile (· ≠ [CR, LF])) contentLen ∧
      (headers ending tail ls p contentLen).used =
        p + (ls.takeWhile (· ≠ [CR, LF])).flatten.length + 2 := by
  induction ls generalizing p contentLen with
  | nil =>
    rw [headers, unfinished] at h
    dsimp only at h
    split at h <;> cases h
  | cons l ls ih =>
    rw [headers] at h ⊢
    by_cases hempty : l = [CR, LF]
    · rw [if_pos hempty] at h ⊢
      cases h
      rw [hempty, List.takeWhile_cons_of_neg (by simp)]
      exact ⟨rfl, rfl⟩
    · rw [if_neg hempty] at h ⊢
      rw [List.takeWhile_cons_of_pos (by simpa using hempty)]
      by_cases hshort : l.length = 1
      · rw [if_pos hshort] at h
        cases h
      · rw [if_neg hshort] at h ⊢
        cases hheader : headerLine contentLen (lineText l) with
        | none =>
          rw [hheader] at h
          cases h
        | some n =>
          rw [hheader] at h
          dsimp only at h ⊢
          obtain ⟨hm, hused⟩ := ih h
          rw [lastTaken_cons, ← headerLine_taken hheader, hused, List.flatten_cons,
            List.length_append, Nat.add_assoc p l.length]
          exact ⟨hm, rfl⟩

theorem requestAt_accepted (h : (requestAt ending stream p).verdict = .accepted r) :
    r.contentLen = lastTaken (headerLines stream p) 0 ∧ (0 < r.contentLen →
      r.body = (stream.drop (bodyStart stream p)).take r.contentLen.toNat) := by
  rw [bodyStart, headerLines]
  rw [requestAt] at h
  cases hlines : lines (stream.drop p) with
  | mk ls tail =>
    rw [hlines] at h
    cases ls with
    | nil => cases h
    | cons l ls =>
      dsimp only at h ⊢
      cases hrequest : requestLine (lineText l) with
      | none =>
        rw [hrequest] at h
        cases h
      | some x =>
        obtain ⟨method, path, version⟩ := x
        rw [hrequest] at h
        dsimp only at h
        rw [ofHeaders] at h
        cases hverdict : (headers ending tail ls (p + l.length) 0).verdict with
        | rejected =>
          rw [hverdict] at h
          cases h
        | runsOn =>
          rw [hverdict] at h
          cases h
        | accepted m =>
          rw [hverdict] at h
          dsimp only at h
          obtain ⟨hm, hused⟩ := headers_accepted hverdict
          have hstart : p + (List.take 1 (l :: ls)).flatten.length +
              ((List.drop 1 (l :: ls)).takeWhile (· ≠ [CR, LF])).flatten.length + 2 =
              (headers ending tail ls (p + l.length) 0).used := by
            rw [hused]
            simp
          rw [hstart]
          rw [bodyAt] at h
          split at h
          · rename_i hnone
            cases h
            exact ⟨hm, fun hpos => absurd hnone (by dsimp only at hpos ⊢; omega)⟩
          · split at h
            · cases h
              exact ⟨hm, fun _ => rfl⟩
            · cases h

theorem mem_lines {bytes line : Bytes} (h : line ∈ (lines bytes).1) : ∃ l, line = l ++ [LF] := by
  cases hlines : lines bytes with
  | mk ls tail =>
    rw [hlines] at h
    dsimp only at h
    induction ls generalizing bytes with
    | nil => exact absurd h List.not_mem_nil
    | cons l ls ih =>
      obtain ⟨l', rest, rfl, -, -, hrest⟩ := lines_cons hlines
      rcases List.mem_cons.mp h with rfl | h
      · exact ⟨l', rfl⟩
      · exact ih h hrest

theorem right_iff (hm : ta.reqContentLen = lastTaken (headerLines stream p) 0)
    (hbody : 0 < ta.reqContentLen → s.buf.storage.Holds ta.reqBody
        ((stream.drop (bodyStart stream p)).take ta.reqContentLen.toNat) ∧
      ((stream.drop (bodyStart stream p)).take ta.reqContentLen.toNat).length =
        ta.reqContentLen.toNat)
    (hsmall : ta.reqContentLen < 2 ^ 31) :
    Right stream p ta s ↔ ∃ n : Nat, spelled (headerLines stream p) = some n ∧
      lastTaken (headerLines stream p) 0 = n := by
  constructor
  · rintro ⟨n, hspelled, hn, -⟩
    exact ⟨n, hspelled, by rw [← hm, hn]⟩
  · rintro ⟨n, hspelled, hn⟩
    rw [← hm] at hn
    refine ⟨n, hspelled, hn, ?_⟩
    have hlength : (jsonArguments ta).2 = n := by
      show (ta.reqContentLen % 2 ^ 64).toNat = n
      omega
    rcases Nat.eq_zero_or_pos n with hzero | hpos
    · exact Or.inl (hlength.trans hzero)
    · have hheld := hbody (by omega)
      rw [hn, Int.toNat_natCast] at hheld
      exact Or.inr ⟨hlength, hheld⟩

theorem textToInt_lt (text : Bytes) : textToInt text < 2 ^ 31 := by
  rw [textToInt, signedInt, Int.bmod_def]
  omega

theorem lastTaken_lt (ls : List Bytes) : lastTaken ls 0 < 2 ^ 31 := by
  cases hlast : (ls.filter (fun line => (taken line).isSome)).getLast? with
  | none =>
    rw [lastTaken_none hlast]
    decide
  | some line =>
    have htaken : taken line = some (lastTaken ls 0) := lastTaken_eq hlast
    simp only [taken, Option.bind_eq_bind, Option.bind_eq_some_iff] at htaken
    obtain ⟨⟨name, rest⟩, -, hsome⟩ := htaken
    split at hsome
    · rw [← Option.some.inj hsome]
      exact textToInt_lt _
    · cases hsome

theorem exact_iff (hlines : ∀ line ∈ ls, ∃ l, line = l ++ [LF]) :
    (∃ n : Nat, spelled ls = some n ∧ lastTaken ls 0 = n) ↔ Exact ls := by
  -- every proper content length is a line that the server takes
  have hsub : ∀ line ∈ ls, decide (IsLength line) = true → (taken line).isSome = true :=
    fun line hline hlength => taken_isSome (hlines line hline) (of_decide_eq_true hlength)
  rw [Exact]
  cases hlast : (ls.filter (fun line => (taken line).isSome)).getLast? with
  | none =>
    have hnone := getLast_filter_none hsub hlast
    rw [spelled, hnone, lastTaken_none hlast]
    exact iff_of_true ⟨0, rfl, rfl⟩ trivial
  | some line =>
    have htaken : taken line = some (lastTaken ls 0) := lastTaken_eq hlast
    dsimp only
    by_cases hlength : IsLength line
    · have hmem : line ∈ ls := (List.mem_filter.mp (List.mem_of_getLast? hlast)).1
      have hproper := getLast_filter hsub hlast (decide_eq_true hlength)
      rw [if_pos hlength, spelled, hproper]
      dsimp only
      refine exists_congr fun n => and_congr_right fun hnumber => ?_
      rw [← taken_iff (hlines line hmem) hlength hnumber, htaken, Option.some_inj]
    · rw [if_neg hlength, htaken]
      refine exists_congr fun n => and_congr_right fun _ => ?_
      rw [Option.some_inj]

/-- The content length of a request that was read is right on exact headers, and on no others. -/
theorem contentLength_iff (h : Stands stream p s)
    (hshort : (requestAt s.ending stream p).verdict ≠ .runsOn)
    (hread : readRequest s = .ok (some ta, s')) :
    Right stream p ta s' ↔ Exact (headerLines stream p) := by
  have hruns : Runs AnyChunks (fun _ => False) (requestAt s.ending stream p).used readRequest s
      fun x s₁ => ∀ ta, x = some ta → ∃ r, (requestAt s.ending stream p).verdict = .accepted r ∧
        Understood s₁ ta r := by
    refine readRequest_runs steady_anyChunks h.inv h.bufpos (Nat.le_refl _) ?_
    rw [RequestDecided]
    cases hverdict : (requestAt s.ending stream p).verdict with
    | accepted r =>
      rintro ta s₁ hacc _ hta
      cases hta
      exact ⟨r, rfl, hacc.understood⟩
    | rejected =>
      rintro - s₁ ta hnone
      cases hnone
    | runsOn => exact absurd hverdict hshort
  obtain ⟨r, hverdict, hunderstood⟩ : ∃ r, (requestAt s.ending stream p).verdict = .accepted r ∧
      Understood s' ta r := by
    rcases hruns with ⟨hexit, -⟩ | ⟨_, -, hfalse⟩ | ⟨x, s₁, hok, hall⟩
    · rw [hread] at hexit
      cases hexit
    · exact hfalse.elim
    · rw [hread] at hok
      cases hok
      exact hall ta rfl
  obtain ⟨hlength, hbody⟩ := requestAt_accepted hverdict
  have hm : ta.reqContentLen = lastTaken (headerLines stream p) 0 :=
    hunderstood.contentLen.trans hlength
  rw [right_iff hm ?_ (hm ▸ lastTaken_lt _), exact_iff ?_]
  · intro line hline
    have hmem : line ∈ (lines (stream.drop p)).1 :=
      List.mem_of_mem_drop (List.takeWhile_subset _ hline)
    exact mem_lines hmem
  · rw [hunderstood.contentLen]
    intro hpos
    rw [← hbody hpos]
    exact ⟨hunderstood.body hpos, hunderstood.length⟩

def login (line : Bytes) : Bytes :=
  ascii "POST /api/login HTTP/1.1\r\n" ++ line ++ ascii "\r\n            "

def sending (line : Bytes) (h : (login line).length ≤ READSIZE) : Bufio :=
  bufioCreate (fun _ => 0) [⟨login line, by simp [login, ascii], h⟩] .eof

theorem stands_sending {line : Bytes} {h : (login line).length ≤ READSIZE} :
    Stands (login line) 0 (sending line h) := by
  refine ⟨?_, rfl⟩
  have hstart : AnyChunks 0 [⟨login line, by simp [login, ascii], h⟩] := by
    show 0 < LIMIT + READSIZE
    decide
  have hinv := inv_create (fun _ => 0) .eof hstart
  rwa [show streamOf [⟨login line, _, h⟩] = login line from List.append_nil _] at hinv

/-- The length is that of the body. -/
theorem contentLength_sample : ∃ ta s',
    readRequest (sending (ascii "Content-Length: 12\r\n") (by decide)) = .ok (some ta, s') ∧
      (Right (login (ascii "Content-Length: 12\r\n")) 0 ta s' ↔
        Exact (headerLines (login (ascii "Content-Length: 12\r\n")) 0)) := by
  have hrun : (readRequest (sending (ascii "Content-Length: 12\r\n") (by decide))).map
      (fun r => r.1.map (·.reqContentLen)) = .ok (some 12) := by
    decide +kernel
  cases hresult : readRequest (sending (ascii "Content-Length: 12\r\n") (by decide)) with
  | error e =>
    rw [hresult] at hrun
    cases hrun
  | ok r =>
    obtain ⟨ta, s'⟩ := r
    rw [hresult] at hrun
    obtain ⟨ta, rfl, -⟩ := Option.map_eq_some_iff.mp (Except.ok.inj hrun)
    exact ⟨ta, s', rfl, contentLength_iff stands_sending (by decide +kernel) hresult⟩

/-- The last digit of a line that ends with a LF alone is cut. -/
theorem contentLength_cut : ¬ ∀ stream p s ta s', Stands stream p s →
    readRequest s = .ok (some ta, s') → Right stream p ta s' := by
  intro hright
  have hrun : (readRequest (sending (ascii "Content-Length: 12\n") (by decide))).map
      (fun r => r.1.map (·.reqContentLen)) = .ok (some 1) := by
    decide +kernel
  cases hresult : readRequest (sending (ascii "Content-Length: 12\n") (by decide)) with
  | error e =>
    rw [hresult] at hrun
    cases hrun
  | ok r =>
    obtain ⟨ta, s'⟩ := r
    rw [hresult] at hrun
    obtain ⟨ta, rfl, hone⟩ := Option.map_eq_some_iff.mp (Except.ok.inj hrun)
    obtain ⟨n, hspelled, hlength, -⟩ := hright _ 0 _ _ _ stands_sending hresult
    have htwelve : spelled (headerLines (login (ascii "Content-Length: 12\n")) 0) = some 12 := by
      decide +kernel
    rw [htwelve, Option.some_inj] at hspelled
    omega

end Requests

end ComputerSystems.Pserv.Lengths
