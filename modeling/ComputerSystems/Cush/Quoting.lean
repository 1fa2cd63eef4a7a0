/- The scanner of command lines, and what becomes of a word in double quotes. -/

import ComputerSystems.Cush.Grammar
import ComputerSystems.Systems.Scanners

set_option autoImplicit false
set_option relaxedAutoImplicit false

namespace ComputerSystems.Cush.Quoting

open ComputerSystems.Cush.Ast
open ComputerSystems.Cush.Grammar
open ComputerSystems.Systems.Scanners
open RegularExpression (char star)

def NUL : UInt8 := 0
def TAB : UInt8 := 9
def LF : UInt8 := 10
def SP : UInt8 := 32
def QUOTE : UInt8 := 34
def AMPERSAND : UInt8 := 38
def SEMICOLON : UInt8 := 59
def LESS : UInt8 := 60
def GREATER : UInt8 := 62
def BACKSLASH : UInt8 := 92
def PIPE : UInt8 := 124

/-- `[^...]`. -/
def except (cs : List UInt8) : RegularExpression UInt8 :=
  oneOf (((List.range 256).map UInt8.ofNat).filter fun c => !cs.contains c)

def special : List UInt8 := [PIPE, AMPERSAND, SEMICOLON, LESS, GREATER, LF]

def blank : List UInt8 := [SP, TAB]

/-- `return *yytext`. -/
def charToken (c : UInt8) : Token :=
  if c = PIPE then .pipe false
  else if c = AMPERSAND then .separator .ampersand
  else if c = SEMICOLON then .separator .semicolon
  else if c = LESS then .less
  else if c = GREATER then .output .greater
  else .newline

/-- What is between the quotes: any character but a quote, or one behind a backslash. -/
def inside : RegularExpression UInt8 :=
  except [BACKSLASH, QUOTE] + char BACKSLASH * except [LF]

/-- `[ \t]*`. -/
def blankRule : Rule UInt8 Token := ⟨star (oneOf blank), fun _ => none⟩

def appendRule : Rule UInt8 Token :=
  ⟨literal [GREATER, GREATER], fun _ => some (.output .greaterGreater)⟩

def outputRule : Rule UInt8 Token :=
  ⟨literal [GREATER, AMPERSAND], fun _ => some (.output .greaterAmpersand)⟩

def pipeRule : Rule UInt8 Token := ⟨literal [PIPE, AMPERSAND], fun _ => some (.pipe true)⟩

def charRule : Rule UInt8 Token := ⟨oneOf special, fun yytext => yytext.head?.map charToken⟩

/-- A quoted token; the action skips the first character and trims the last one. -/
def quotedRule : Rule UInt8 Token :=
  ⟨char QUOTE * (star inside * char QUOTE), fun yytext => some (.WORD (yytext.drop 1).dropLast)⟩

def wordRule : Rule UInt8 Token :=
  ⟨except (special ++ blank) * star (except (special ++ blank)), fun yytext => some (.WORD yytext)⟩

def rules : List (Rule UInt8 Token) :=
  [blankRule, appendRule, outputRule, pipeRule, charRule, quotedRule, wordRule]

def escape : Word → Word
  | [] => []
  | c :: w => if c = QUOTE ∨ c = BACKSLASH then BACKSLASH :: c :: escape w else c :: escape w

def quote (w : Word) : Word := QUOTE :: (escape w ++ [QUOTE])

/-- The end of the input, a blank, or one of the operators. -/
def Delimited (rest : Word) : Prop :=
  ∀ c ∈ rest.head?, c ∈ blank ∨ c ∈ [PIPE, AMPERSAND, SEMICOLON, LESS, GREATER]

/-- The quoted word is scanned as one token with this text, and nothing behind it is read. -/
def ScannedAs (w rest text : Word) : Prop := token rules (quote w ++ rest) = some (.WORD text, rest)

section Classes

variable {s : Word} {cs : List UInt8} {c : UInt8}

theorem mem_except : s ∈ (except cs).matches' ↔ ∃ c, c ∉ cs ∧ s = [c] := by
  have hall : ∀ c : UInt8, c ∈ (List.range 256).map UInt8.ofNat := fun c =>
    List.mem_map.mpr ⟨c.toNat, List.mem_range.mpr c.toNat_lt, UInt8.ofNat_toNat⟩
  rw [except, mem_oneOf]
  constructor
  · rintro ⟨c, hc, rfl⟩
    exact ⟨c, by simpa using (List.mem_filter.mp hc).2, rfl⟩
  · rintro ⟨c, hc, rfl⟩
    exact ⟨c, List.mem_filter.mpr ⟨hall c, by simpa using hc⟩, rfl⟩

theorem plain_of_word (h : s ∈ wordRule.pattern.matches') : ∀ c ∈ s, c ∉ special ++ blank := by
  rw [wordRule, RegularExpression.matches'_mul, Language.mem_mul] at h
  obtain ⟨a, ha, b, hb, rfl⟩ := h
  obtain ⟨d, hd, rfl⟩ := mem_except.mp ha
  intro c hc
  rcases List.mem_append.mp hc with hc | hc
  · rwa [List.mem_singleton.mp hc]
  · have hclass := (List.mem_filter.mp (mem_star_oneOf.mp hb c hc)).2
    simpa using hclass

theorem mem_inside : s ∈ inside.matches' ↔
    (∃ c, c ≠ BACKSLASH ∧ c ≠ QUOTE ∧ s = [c]) ∨ ∃ c, c ≠ LF ∧ s = [BACKSLASH, c] := by
  rw [inside, RegularExpression.matches'_add, Language.mem_add, mem_except,
    RegularExpression.matches'_mul, Language.mem_mul]
  refine or_congr (exists_congr fun c => ?_) ?_
  · rw [← and_assoc]
    refine and_congr_left' ?_
    simp
  · constructor
    · rintro ⟨a, ha, b, hb, rfl⟩
      obtain ⟨c, hc, rfl⟩ := mem_except.mp hb
      rw [show a = [BACKSLASH] from ha]
      exact ⟨c, fun heq => hc (List.mem_singleton.mpr heq), rfl⟩
    · rintro ⟨c, hc, rfl⟩
      exact ⟨[BACKSLASH], rfl, [c], mem_except.mpr ⟨c, fun hmem => hc (List.mem_singleton.mp hmem), rfl⟩,
        rfl⟩

theorem mem_quoted : s ∈ quotedRule.pattern.matches' ↔
    ∃ body, body ∈ (star inside).matches' ∧ s = QUOTE :: (body ++ [QUOTE]) := by
  rw [quotedRule, RegularExpression.matches'_mul, Language.mem_mul]
  constructor
  · rintro ⟨a, ha, b, hb, rfl⟩
    rw [RegularExpression.matches'_mul, Language.mem_mul] at hb
    obtain ⟨body, hbody, d, hd, rfl⟩ := hb
    rw [show a = [QUOTE] from ha, show d = [QUOTE] from hd]
    exact ⟨body, hbody, rfl⟩
  · rintro ⟨body, hbody, rfl⟩
    exact ⟨[QUOTE], rfl, body ++ [QUOTE], ⟨body, hbody, [QUOTE], rfl, rfl⟩, rfl⟩

end Classes

section Escapes

variable {w rest text : Word} {x y : Word}

theorem escape_mem (hw : LF ∉ w) : escape w ∈ (star inside).matches' := by
  rw [RegularExpression.matches'_star]
  induction w with
  | nil => exact Language.nil_mem_kstar _
  | cons c w ih =>
    rw [List.mem_cons, not_or] at hw
    obtain ⟨L, hL, hall⟩ := Language.mem_kstar.mp (ih hw.2)
    rw [escape, hL]
    split
    · refine Language.mem_kstar.mpr ⟨[BACKSLASH, c] :: L, rfl, fun y hy => ?_⟩
      rcases List.mem_cons.mp hy with rfl | hy
      · exact mem_inside.mpr (Or.inr ⟨c, Ne.symm hw.1, rfl⟩)
      · exact hall y hy
    · rename_i hplain
      rw [not_or] at hplain
      refine Language.mem_kstar.mpr ⟨[c] :: L, rfl, fun y hy => ?_⟩
      rcases List.mem_cons.mp hy with rfl | hy
      · exact mem_inside.mpr (Or.inl ⟨c, hplain.2, hplain.1, rfl⟩)
      · exact hall y hy

theorem body_unique {body : Word} (hbody : body ∈ (star inside).matches')
    (heq : body ++ QUOTE :: x = escape w ++ QUOTE :: y) : body = escape w := by
  rw [RegularExpression.matches'_star, Language.mem_kstar] at hbody
  obtain ⟨L, rfl, hall⟩ := hbody
  induction L generalizing w with
  | nil =>
    cases w with
    | nil => rfl
    | cons c w =>
      rw [escape] at heq
      split at heq
      · exact absurd (List.cons.inj heq).1 (by decide)
      · rename_i hplain
        exact absurd (Or.inl (List.cons.inj heq).1.symm) hplain
  | cons piece L ih =>
    have hrest := fun w heq => ih (w := w) (fun y hy => hall y (List.mem_cons_of_mem piece hy)) heq
    rcases mem_inside.mp (hall piece List.mem_cons_self) with ⟨c, hback, hquote, rfl⟩ | ⟨c, -, rfl⟩
    · cases w with
      | nil => exact absurd (List.cons.inj heq).1 hquote
      | cons d w =>
        rw [escape] at heq ⊢
        split at heq
        · exact absurd (List.cons.inj heq).1 hback
        · rename_i hplain
          obtain ⟨rfl, htail⟩ := List.cons.inj heq
          rw [if_neg hplain, ← hrest w htail]
          rfl
    · cases w with
      | nil => exact absurd (List.cons.inj heq).1 (by decide)
      | cons d w =>
        rw [escape] at heq ⊢
        split at heq
        · rename_i hescaped
          obtain ⟨rfl, htail⟩ := List.cons.inj (List.cons.inj heq).2
          rw [if_pos hescaped, ← hrest w htail]
          rfl
        · rename_i hplain
          exact absurd (Or.inr (List.cons.inj heq).1.symm) hplain

theorem escape_eq_iff : escape w = w ↔ QUOTE ∉ w ∧ BACKSLASH ∉ w := by
  have hlonger : ∀ w : Word, w.length ≤ (escape w).length := by
    intro w
    induction w with
    | nil => exact Nat.le_refl 0
    | cons c w ih =>
      rw [escape]
      split <;> simp only [List.length_cons] <;> omega
  induction w with
  | nil => simp [escape]
  | cons c w ih =>
    rw [escape, List.mem_cons, List.mem_cons, not_or, not_or]
    by_cases hescaped : c = QUOTE ∨ c = BACKSLASH
    · rw [if_pos hescaped]
      constructor
      · intro heq
        have hlength := congrArg List.length heq
        have hle := hlonger w
        simp only [List.length_cons] at hlength
        omega
      · rintro ⟨⟨hquote, -⟩, hback, -⟩
        exact absurd hescaped (not_or.mpr ⟨Ne.symm hquote, Ne.symm hback⟩)
    · rw [if_neg hescaped]
      rw [not_or] at hescaped
      refine (List.cons_inj_right c).trans (ih.trans ?_)
      constructor
      · exact fun ⟨hquote, hback⟩ => ⟨⟨Ne.symm hescaped.1, hquote⟩, Ne.symm hescaped.2, hback⟩
      · exact fun ⟨⟨_, hquote⟩, _, hback⟩ => ⟨hquote, hback⟩

end Escapes

section Tokens

variable {w rest s : Word}

theorem blank_atMost {c : UInt8} (hc : c ∉ blank) : AtMost blankRule.pattern (c :: s) 0 := by
  refine atMost_other fun d x hx => ?_
  rintro rfl
  exact hc (mem_star_oneOf.mp hx d List.mem_cons_self)

theorem char_atMost {c : UInt8} (hc : c ∉ special) : AtMost charRule.pattern (c :: s) 0 := by
  refine atMost_other fun d x hx => ?_
  obtain ⟨e, he, heq⟩ := mem_oneOf.mp hx
  rw [(List.cons.inj heq).1]
  rintro rfl
  exact hc he

theorem others_atMost : ∀ r ∈ [blankRule, appendRule, outputRule, pipeRule, charRule],
    AtMost r.pattern (QUOTE :: s) 0 := by
  intro r hr
  simp only [List.mem_cons, List.not_mem_nil, or_false] at hr
  rcases hr with rfl | rfl | rfl | rfl | rfl
  · exact blank_atMost (by decide)
  · exact literal_other (by decide)
  · exact literal_other (by decide)
  · exact literal_other (by decide)
  · exact char_atMost (by decide)

theorem quoted_mem (hw : LF ∉ w) : quote w ∈ quotedRule.pattern.matches' :=
  mem_quoted.mpr ⟨escape w, escape_mem hw, rfl⟩

theorem quoted_atMost : AtMost quotedRule.pattern (quote w ++ rest) (quote w).length := by
  rintro x ⟨y, hxy⟩ hx
  obtain ⟨body, hbody, rfl⟩ := mem_quoted.mp hx
  have hsame : body ++ QUOTE :: y = escape w ++ QUOTE :: rest := by
    have htail := (List.cons.inj hxy).2
    simpa using htail
  rw [body_unique hbody hsame]
  exact Nat.le_refl _

theorem word_atMost (hrest : Delimited rest) : AtMost wordRule.pattern (w ++ rest) w.length := by
  intro x hbegins hx
  by_contra hlonger
  cases rest with
  | nil =>
    rw [List.append_nil] at hbegins
    exact hlonger hbegins.length_le
  | cons c rest =>
    have hmem : c ∈ x := by
      have htake := List.prefix_iff_eq_take.mp hbegins
      obtain ⟨n, hn⟩ : ∃ n, x.length = w.length + (n + 1) := ⟨x.length - w.length - 1, by omega⟩
      rw [hn, List.take_length_add_append, List.take_succ_cons] at htake
      rw [htake]
      exact List.mem_append_right _ List.mem_cons_self
    have hplain := plain_of_word hx c hmem
    rcases hrest c rfl with hblank | hoperator
    · exact hplain (List.mem_append_right special hblank)
    · refine hplain (List.mem_append_left blank ?_)
      exact List.mem_append_left [LF] hoperator

theorem scanned_escaped (hw : LF ∉ w) (hrest : Delimited rest) : ScannedAs w rest (escape w) := by
  have hchoose : choose ([blankRule, appendRule, outputRule, pipeRule, charRule] ++
      quotedRule :: [wordRule]) (quote w ++ rest) = some ((quote w).length, quotedRule) := by
    refine choose_eq (quoted_mem hw) (List.prefix_append ..) quoted_atMost (fun r hr => ?_)
      fun r hr => ?_
    · exact ⟨0, Nat.succ_pos _, others_atMost r hr⟩
    · rw [List.mem_singleton.mp hr]
      exact word_atMost hrest
  refine token_eq hchoose (List.cons_ne_nil _ _) ?_
  show some (Token.WORD (escape w ++ [QUOTE]).dropLast) = _
  rw [List.dropLast_concat]

/-- A quoted word is one token, whose text is the word with its backslashes; that is the word itself
if it has no quote and no backslash. What is behind the closing quote is scanned next. -/
theorem quoted_word (hw : NUL ∉ w ∧ LF ∉ w) (hrest : Delimited rest) :
    ScannedAs w rest (escape w) ∧ scan rules (quote w ++ rest) = .WORD (escape w) :: scan rules rest ∧
      (escape w = w ↔ QUOTE ∉ w ∧ BACKSLASH ∉ w) :=
  ⟨scanned_escaped hw.2 hrest, scan_cons (scanned_escaped hw.2 hrest), escape_eq_iff⟩

/-- `"a b"` before a pipe. -/
theorem quoted_word_sample : ScannedAs [97, SP, 98] [PIPE] [97, SP, 98] ∧
    scan rules (quote [97, SP, 98] ++ [PIPE]) = .WORD [97, SP, 98] :: scan rules [PIPE] ∧
      (escape [97, SP, 98] = [97, SP, 98] ↔ QUOTE ∉ [97, SP, 98] ∧ BACKSLASH ∉ [97, SP, 98]) :=
  quoted_word (by decide) fun c hc => Or.inr (by
    rw [← Option.some.inj hc]
    decide)

/-- The backslash before a quote stays in the text. -/
theorem quote_kept : ¬ ∀ w rest, NUL ∉ w ∧ LF ∉ w → Delimited rest → ScannedAs w rest w := by
  intro hscanned
  have hend : Delimited [] := by simp [Delimited]
  have hkept : ScannedAs [QUOTE] [] (escape [QUOTE]) := scanned_escaped (by decide) hend
  have hstripped := hscanned [QUOTE] [] (by decide) hend
  rw [ScannedAs, hkept] at hstripped
  exact absurd hstripped (by decide)

end Tokens

end ComputerSystems.Cush.Quoting
