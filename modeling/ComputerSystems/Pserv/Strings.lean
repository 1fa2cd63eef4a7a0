/- Byte strings and the functions of the C library that the server uses on them. -/

import Mathlib.Data.List.Basic

set_option autoImplicit false
set_option relaxedAutoImplicit false

namespace ComputerSystems.Pserv.Strings

abbrev Bytes := List UInt8

def ascii (s : String) : Bytes :=
  s.toList.map Char.toUInt8

def NUL : UInt8 := 0
def TAB : UInt8 := 9
def LF : UInt8 := 10
def CR : UInt8 := 13
def SP : UInt8 := 32
def DOT : UInt8 := 46
def SLASH : UInt8 := 47
def COLON : UInt8 := 58

/-- `tolower` in the C locale. -/
def toLower (c : UInt8) : UInt8 :=
  if 65 ≤ c ∧ c ≤ 90 then c + 32 else c

/-- `!strcasecmp(s, t)`. -/
def sameText (s t : Bytes) : Bool :=
  s.map toLower == t.map toLower

/-- `STARTS_WITH(s, header)`, that is `!strncasecmp(s, header, sizeof(header) - 1)`. -/
def startsWith (s header : Bytes) : Bool :=
  sameText (s.take header.length) header

/-- `strrchr(s, c)`. -/
def strrchr (s : Bytes) (c : UInt8) : Option Bytes :=
  if c ∈ s then some (c :: (s.reverse.takeWhile (· ≠ c)).reverse) else none

/-- `strstr(s, needle)`. -/
def strstr (s needle : Bytes) : Option Bytes :=
  if needle.isPrefixOf s then some s
  else
    match s with
    | [] => none
    | _ :: s => strstr s needle

theorem strstr_isSome {s needle : Bytes} : (strstr s needle).isSome ↔ needle <:+: s := by
  induction s with
  | nil =>
    unfold strstr
    cases needle with
    | nil => simp
    | cons => simp
  | cons c s ih =>
    unfold strstr
    rw [List.infix_cons_iff]
    by_cases hprefix : needle.isPrefixOf (c :: s)
    · rw [if_pos hprefix]
      simpa using Or.inl (List.isPrefixOf_iff_prefix.mp hprefix)
    · rw [if_neg hprefix, ih, or_iff_right (mt List.isPrefixOf_iff_prefix.mpr hprefix)]

end ComputerSystems.Pserv.Strings
