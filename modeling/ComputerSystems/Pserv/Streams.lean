/- What a stream of bytes asks for: its lines, and the request that they make. -/

import ComputerSystems.Pserv.Parsing

set_option autoImplicit false
set_option relaxedAutoImplicit false

namespace ComputerSystems.Pserv.Streams

open ComputerSystems.Pserv.Strings
open ComputerSystems.Pserv.Input
open ComputerSystems.Pserv.Requests
open ComputerSystems.Pserv.Parsing

/-- The lines of a stream, each with its LF, and what follows the last LF. -/
def lines : Bytes → List Bytes × Bytes
  | [] => ([], [])
  | c :: s =>
    if c = LF then ([LF] :: (lines s).1, (lines s).2)
    else
      match (lines s).1 with
      | [] => ([], c :: (lines s).2)
      | l :: ls => ((c :: l) :: ls, (lines s).2)

def lineText (line : Bytes) : Bytes :=
  (line.take (line.length - 2)).takeWhile (· != NUL)

/-- A request as a client means it. -/
structure Request where
  method : Method
  path : Bytes
  version : Version
  contentLen : Int
  body : Bytes
  deriving DecidableEq, Repr

/-- What becomes of a stream. In `runsOn` a header line of a single byte is met, where the parser
reads on behind the line. -/
inductive Verdict (α : Type) where
  | accepted (a : α)
  | rejected
  | runsOn
  deriving DecidableEq, Repr

/-- A verdict, and the number of bytes that it needs; one more than the stream has when it needs to
see the end of the stream. -/
structure Decision (α : Type) where
  verdict : Verdict α
  used : Nat
  atEnd : Bool
  deriving DecidableEq, Repr

def alone : Bytes → Bool
  | [c] => c != NUL
  | _ => false

def unfinished (ending : Ending) (pos : Nat) (tail : Bytes) : Decision Int where
  verdict := if ending = .eof && alone tail then .runsOn else .rejected
  used := pos + tail.length + 1
  atEnd := true

/-- Header lines up to the empty one; the result is the content length. -/
def headers (ending : Ending) (tail : Bytes) : List Bytes → Nat → Int → Decision Int
  | [], pos, _ => unfinished ending pos tail
  | l :: ls, pos, contentLen =>
    if l = [CR, LF] then ⟨.accepted contentLen, pos + l.length, false⟩
    else if l.length = 1 then ⟨.runsOn, pos + l.length, false⟩
    else
      match headerLine contentLen (lineText l) with
      | none => ⟨.rejected, pos + l.length, false⟩
      | some contentLen => headers ending tail ls (pos + l.length) contentLen

/-- The body that follows the headers at `pos`. -/
def bodyAt (stream : Bytes) (r : Request) (pos : Nat) : Decision Request :=
  if r.contentLen ≤ 0 then ⟨.accepted r, pos, false⟩
  else if pos + r.contentLen.toNat ≤ stream.length then
    ⟨.accepted { r with body := (stream.drop pos).take r.contentLen.toNat },
      pos + r.contentLen.toNat, false⟩
  else ⟨.rejected, stream.length + 1, true⟩

def ofHeaders (stream : Bytes) (method : Method) (path : Bytes) (version : Version)
    (d : Decision Int) : Decision Request :=
  match d.verdict with
  | .accepted contentLen => bodyAt stream ⟨method, path, version, contentLen, []⟩ d.used
  | .rejected => ⟨.rejected, d.used, d.atEnd⟩
  | .runsOn => ⟨.runsOn, d.used, d.atEnd⟩

/-- The request at offset `pos` of the stream. -/
def requestAt (ending : Ending) (stream : Bytes) (pos : Nat) : Decision Request :=
  match lines (stream.drop pos) with
  | ([], _) => ⟨.rejected, stream.length + 1, true⟩
  | (l :: ls, tail) =>
    match requestLine (lineText l) with
    | none => ⟨.rejected, pos + l.length, false⟩
    | some (method, path, version) =>
      ofHeaders stream method path version (headers ending tail ls (pos + l.length) 0)

theorem alone_iff {s : Bytes} : alone s = true ↔ ∃ c, s = [c] ∧ c ≠ NUL := by
  constructor
  · intro h
    rw [alone.eq_def] at h
    split at h
    · rename_i c
      exact ⟨c, rfl, by simpa using h⟩
    · cases h
  · rintro ⟨c, rfl, hc⟩
    simpa [alone] using hc

theorem le_headers_used {ending : Ending} {tail : Bytes} {ls : List Bytes} {pos : Nat}
    {contentLen : Int} : pos ≤ (headers ending tail ls pos contentLen).used := by
  induction ls generalizing pos contentLen with
  | nil => exact Nat.le_add_right_of_le (Nat.le_add_right ..)
  | cons l ls ih =>
    rw [headers]
    split
    · exact Nat.le_add_right ..
    · split
      · exact Nat.le_add_right ..
      · split
        · exact Nat.le_add_right ..
        · exact Nat.le_trans (Nat.le_add_right ..) ih

theorem lines_nil {s tail : Bytes} (h : lines s = ([], tail)) : s = tail ∧ LF ∉ s := by
  induction s generalizing tail with
  | nil =>
    cases h
    exact ⟨rfl, List.not_mem_nil⟩
  | cons c s ih =>
    rw [lines] at h
    split at h
    · cases h
    · rename_i hc
      split at h
      · rename_i hnil
        cases h
        obtain ⟨heq, hs⟩ := ih (Prod.ext hnil rfl)
        exact ⟨congrArg (c :: ·) heq, by simp [hs, Ne.symm hc]⟩
      · cases h

theorem lines_cons {s l tail : Bytes} {ls : List Bytes} (h : lines s = (l :: ls, tail)) :
    ∃ l' s', l = l' ++ [LF] ∧ LF ∉ l' ∧ s = l' ++ LF :: s' ∧ lines s' = (ls, tail) := by
  induction s generalizing l ls tail with
  | nil => cases h
  | cons c s ih =>
    rw [lines] at h
    split at h
    · rename_i hc
      cases h
      exact ⟨[], s, rfl, List.not_mem_nil, by rw [hc]; rfl, rfl⟩
    · rename_i hc
      split at h
      · cases h
      · rename_i l₁ ls₁ hcons
        cases h
        obtain ⟨l', s', rfl, hl', hs, hrest⟩ := ih (Prod.ext hcons rfl)
        exact ⟨c :: l', s', rfl, by simp [hl', Ne.symm hc], by rw [hs]; rfl, hrest⟩

theorem lines_length {s tail : Bytes} {ls : List Bytes} (h : lines s = (ls, tail)) :
    ls.length ≤ s.length ∧ ls.flatten.length + tail.length = s.length := by
  induction ls generalizing s with
  | nil =>
    obtain ⟨rfl, -⟩ := lines_nil h
    simp
  | cons l ls ih =>
    obtain ⟨l', s', rfl, -, rfl, hrest⟩ := lines_cons h
    obtain ⟨hcount, hlength⟩ := ih hrest
    simp only [List.length_cons, List.flatten_cons, List.length_append, List.length_nil]
    omega

theorem headers_used_le {ending : Ending} {tail : Bytes} {ls : List Bytes} {pos : Nat}
    {contentLen : Int} :
    (headers ending tail ls pos contentLen).used ≤ pos + ls.flatten.length + tail.length + 1 := by
  induction ls generalizing pos contentLen with
  | nil => exact Nat.le_refl _
  | cons l ls ih =>
    rw [headers, List.flatten_cons, List.length_append]
    split
    · dsimp only
      omega
    · split
      · dsimp only
        omega
      · split
        · dsimp only
          omega
        · rename_i m _
          have hrest := @ih (pos + l.length) m
          omega

theorem le_bodyAt_used {stream : Bytes} {r : Request} {pos : Nat} (hpos : pos ≤ stream.length + 1) :
    pos ≤ (bodyAt stream r pos).used := by
  rw [bodyAt]
  split
  · exact Nat.le_refl _
  · split
    · exact Nat.le_add_right ..
    · exact hpos

theorem le_ofHeaders_used {stream path : Bytes} {method : Method} {version : Version}
    {d : Decision Int} (hd : d.used ≤ stream.length + 1) :
    d.used ≤ (ofHeaders stream method path version d).used := by
  rw [ofHeaders]
  split
  · exact le_bodyAt_used hd
  · exact Nat.le_refl _
  · exact Nat.le_refl _

theorem headers_atEnd {ending : Ending} {tail : Bytes} {ls : List Bytes} {pos : Nat}
    {contentLen m : Int} (h : (headers ending tail ls pos contentLen).verdict = .accepted m) :
    (headers ending tail ls pos contentLen).atEnd = false := by
  induction ls generalizing pos contentLen with
  | nil =>
    rw [headers, unfinished] at h
    dsimp only at h
    split at h <;> cases h
  | cons l ls ih =>
    rw [headers] at h ⊢
    split
    · rfl
    · rename_i hempty
      rw [if_neg hempty] at h
      split
      · rfl
      · rename_i hshort
        rw [if_neg hshort] at h
        split
        · rfl
        · rename_i m' hheader
          rw [hheader] at h
          exact ih h

theorem bodyAt_atEnd {stream : Bytes} {r r' : Request} {pos : Nat}
    (h : (bodyAt stream r pos).verdict = .accepted r') : (bodyAt stream r pos).atEnd = false := by
  rw [bodyAt] at h ⊢
  split at h
  · rename_i hnone
    rw [if_pos hnone]
  · rename_i hsome
    split at h
    · rename_i hroom
      rw [if_neg hsome, if_pos hroom]
    · cases h

theorem requestAt_atEnd {ending : Ending} {stream : Bytes} {pos : Nat} {r : Request}
    (h : (requestAt ending stream pos).verdict = .accepted r) :
    (requestAt ending stream pos).atEnd = false := by
  rw [requestAt] at h ⊢
  split at h
  · cases h
  · split at h
    · cases h
    · rename_i method path version _
      rw [ofHeaders] at h ⊢
      split at h
      · exact bodyAt_atEnd h
      · cases h
      · cases h

theorem headers_used_le_of_atEnd {ending : Ending} {tail : Bytes} {ls : List Bytes} {pos : Nat}
    {contentLen : Int} (h : (headers ending tail ls pos contentLen).atEnd = false) :
    (headers ending tail ls pos contentLen).used ≤ pos + ls.flatten.length := by
  induction ls generalizing pos contentLen with
  | nil => cases h
  | cons l ls ih =>
    rw [headers] at h ⊢
    rw [List.flatten_cons, List.length_append]
    split
    · dsimp only
      omega
    · rename_i hempty
      rw [if_neg hempty] at h
      split
      · dsimp only
        omega
      · rename_i hshort
        rw [if_neg hshort] at h
        split
        · dsimp only
          omega
        · rename_i m hheader
          rw [hheader] at h
          have hrest := ih h
          omega

theorem requestAt_used_le {ending : Ending} {stream : Bytes} {pos : Nat}
    (hpos : pos ≤ stream.length) (h : (requestAt ending stream pos).atEnd = false) :
    (requestAt ending stream pos).used ≤ stream.length := by
  rw [requestAt] at h ⊢
  cases hlines : lines (stream.drop pos) with
  | mk ls tail =>
    rw [hlines] at h
    have hlength := (lines_length hlines).2
    rw [List.length_drop] at hlength
    cases ls with
    | nil => cases h
    | cons l ls =>
      rw [List.flatten_cons, List.length_append] at hlength
      dsimp only at h ⊢
      split
      · dsimp only
        omega
      · rename_i method path version hrequest
        rw [hrequest] at h
        dsimp only at h
        rw [ofHeaders] at h ⊢
        split
        · rename_i m hverdict
          rw [hverdict] at h
          dsimp only at h
          have hatEnd := headers_atEnd hverdict
          have hle := headers_used_le_of_atEnd hatEnd
          rw [bodyAt] at h ⊢
          split
          · dsimp only
            omega
          · rename_i hsome
            rw [if_neg hsome] at h
            split
            · rename_i hroom
              exact hroom
            · rename_i hroom
              rw [if_neg hroom] at h
              cases h
        · rename_i hverdict
          rw [hverdict] at h
          have hle := headers_used_le_of_atEnd h
          dsimp only
          omega
        · rename_i hverdict
          rw [hverdict] at h
          have hle := headers_used_le_of_atEnd h
          dsimp only
          omega

end ComputerSystems.Pserv.Streams
