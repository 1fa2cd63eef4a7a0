/- Scanners by regular expressions: the longest match, and the first of the rules that have it. -/

import Mathlib.Computability.RegularExpressions

set_option autoImplicit false
set_option relaxedAutoImplicit false

namespace ComputerSystems.Systems.Scanners

open RegularExpression

variable {α τ : Type}

/-- A pattern, and what the action makes of the text that it matches; `none` is no token. -/
structure Rule (α τ : Type) where
  pattern : RegularExpression α
  action : List α → Option τ

def oneOf (cs : List α) : RegularExpression α := cs.foldr (fun c p => char c + p) 0

def literal (cs : List α) : RegularExpression α := cs.foldr (fun c p => char c * p) 1

section Matching

variable [DecidableEq α]

/-- The longest match among those of at most `n` characters. -/
def longest (p : RegularExpression α) (s : List α) : Nat → Option Nat
  | 0 => if p.rmatch [] then some 0 else none
  | n + 1 => if p.rmatch (s.take (n + 1)) then some (n + 1) else longest p s n

def choose : List (Rule α τ) → List α → Option (Nat × Rule α τ)
  | [], _ => none
  | r :: rs, s =>
    match longest r.pattern s s.length, choose rs s with
    | some n, some (m, r') => if n < m then some (m, r') else some (n, r)
    | some n, none => some (n, r)
    | none, best => best

def step (rules : List (Rule α τ)) : List α → Option (Option τ × List α)
  | [] => none
  | c :: s =>
    match choose rules (c :: s) with
    | some (n + 1, r) => some (r.action ((c :: s).take (n + 1)), s.drop n)
    | _ => some (none, s)

/-- The first token after at most `n` matches, and what is left of the text. -/
def next (rules : List (Rule α τ)) : Nat → List α → Option (τ × List α)
  | 0, _ => none
  | n + 1, s =>
    match step rules s with
    | none => none
    | some (some t, rest) => some (t, rest)
    | some (none, rest) => next rules n rest

def token (rules : List (Rule α τ)) (s : List α) : Option (τ × List α) := next rules s.length s

/-- At most `n` tokens. -/
def scanFrom (rules : List (Rule α τ)) : Nat → List α → List τ
  | 0, _ => []
  | n + 1, s =>
    match token rules s with
    | none => []
    | some (t, rest) => t :: scanFrom rules n rest

def scan (rules : List (Rule α τ)) (s : List α) : List τ := scanFrom rules s.length s

/-- The pattern matches no beginning of the text that is longer than `n`. -/
def AtMost (p : RegularExpression α) (s : List α) (n : Nat) : Prop :=
  ∀ x, x <+: s → x ∈ p.matches' → x.length ≤ n

end Matching

section Patterns

variable {s t cs : List α} {c : α} {p : RegularExpression α}

theorem mem_oneOf : s ∈ (oneOf cs).matches' ↔ ∃ c ∈ cs, s = [c] := by
  induction cs with
  | nil => simp [oneOf, Language.notMem_zero]
  | cons c cs ih =>
    rw [oneOf, List.foldr_cons, matches'_add, Language.mem_add, matches'_char]
    change s ∈ ({[c]} : Language α) ∨ s ∈ (oneOf cs).matches' ↔ _
    rw [ih, List.exists_mem_cons_iff]
    exact or_congr_left Iff.rfl

theorem mem_literal : s ∈ (literal cs).matches' ↔ s = cs := by
  induction cs generalizing s with
  | nil => exact Language.mem_one s
  | cons c cs ih =>
    rw [literal, List.foldr_cons, matches'_mul, Language.mem_mul]
    constructor
    · rintro ⟨a, ha, b, hb, rfl⟩
      rw [ih.mp hb, show a = [c] from ha]
      rfl
    · rintro rfl
      exact ⟨[c], rfl, cs, ih.mpr rfl, rfl⟩

theorem mem_star_oneOf : s ∈ (star (oneOf cs)).matches' ↔ ∀ c ∈ s, c ∈ cs := by
  rw [matches'_star, Language.mem_kstar]
  constructor
  · rintro ⟨L, rfl, hL⟩ c hc
    obtain ⟨x, hx, hcx⟩ := List.mem_flatten.mp hc
    obtain ⟨d, hd, rfl⟩ := mem_oneOf.mp (hL x hx)
    rwa [List.mem_singleton.mp hcx]
  · intro hs
    refine ⟨s.map fun c => [c], ?_, fun x hx => ?_⟩
    · induction s with
      | nil => rfl
      | cons c s ih =>
        rw [List.map_cons, List.flatten_cons, ← ih fun d hd => hs d (List.mem_cons_of_mem c hd)]
        rfl
    · obtain ⟨c, hc, rfl⟩ := List.mem_map.mp hx
      exact mem_oneOf.mpr ⟨c, hs c hc, rfl⟩

theorem AtMost.mono {n m : Nat} (h : AtMost p s n) (hle : n ≤ m) : AtMost p s m :=
  fun x hbegins hx => Nat.le_trans (h x hbegins hx) hle

theorem atMost_other (h : ∀ d x, d :: x ∈ p.matches' → d ≠ c) : AtMost p (c :: s) 0 := by
  intro x hbegins hx
  cases x with
  | nil => exact Nat.le_refl 0
  | cons d x => exact absurd (List.cons_prefix_cons.mp hbegins).1 (h d x hx)

theorem literal_other {d : α} (hd : d ≠ c) :
    AtMost (literal (d :: cs)) (c :: s) 0 := by
  refine atMost_other fun e x hx => ?_
  rw [(List.cons.inj (mem_literal.mp hx)).1]
  exact hd

end Patterns

section Choices

variable [DecidableEq α] {s x : List α} {n k : Nat} {p : RegularExpression α} {r : Rule α τ}
  {rules pre post : List (Rule α τ)}

theorem longest_some (h : longest p s n = some k) (hn : n ≤ s.length) :
    ∃ x, x <+: s ∧ x ∈ p.matches' ∧ x.length = k := by
  induction n with
  | zero =>
    rw [longest] at h
    split at h
    · rename_i hmatch
      cases h
      exact ⟨[], List.nil_prefix, (rmatch_iff_matches' p []).mp hmatch, rfl⟩
    · cases h
  | succ n ih =>
    rw [longest] at h
    split at h
    · rename_i hmatch
      cases h
      exact ⟨s.take (n + 1), List.take_prefix .., (rmatch_iff_matches' p _).mp hmatch,
        List.length_take_of_le hn⟩
    · exact ih h (Nat.le_of_succ_le hn)

theorem longest_eq (hx : x ∈ p.matches') (hbegins : x <+: s) (hmost : AtMost p s x.length)
    (hle : x.length ≤ n) (hn : n ≤ s.length) : longest p s n = some x.length := by
  have htake : s.take x.length = x := (List.prefix_iff_eq_take.mp hbegins).symm
  induction n with
  | zero =>
    obtain rfl : x = [] := List.length_eq_zero_iff.mp (Nat.le_zero.mp hle)
    rw [longest, if_pos ((rmatch_iff_matches' p []).mpr hx)]
    rfl
  | succ n ih =>
    rw [longest]
    rcases Nat.eq_or_lt_of_le hle with heq | hlt
    · rw [← heq, htake, if_pos ((rmatch_iff_matches' p x).mpr hx)]
    · rw [if_neg, ih (Nat.lt_succ_iff.mp hlt) (Nat.le_of_succ_le hn)]
      intro hmatch
      have hlonger := hmost _ (List.take_prefix (n + 1) s) ((rmatch_iff_matches' p _).mp hmatch)
      rw [List.length_take_of_le hn] at hlonger
      exact absurd hlonger (Nat.not_le.mpr hlt)

theorem longest_atMost (hmost : AtMost p s n) (h : longest p s s.length = some k) : k ≤ n := by
  obtain ⟨x, hbegins, hx, rfl⟩ := longest_some h (Nat.le_refl _)
  exact hmost x hbegins hx

theorem choose_atMost (hrules : ∀ r ∈ rules, AtMost r.pattern s n) (h : choose rules s = some (k, r)) :
    k ≤ n := by
  induction rules generalizing k r with
  | nil => cases h
  | cons r' rules ih =>
    have hfirst := hrules r' List.mem_cons_self
    have hrest : ∀ {k r}, choose rules s = some (k, r) → k ≤ n :=
      fun h => ih (fun r hr => hrules r (List.mem_cons_of_mem r' hr)) h
    rw [choose] at h
    split at h
    · rename_i hlongest hchoose
      split at h
      · cases h
        exact hrest hchoose
      · cases h
        exact longest_atMost hfirst hlongest
    · rename_i hlongest hchoose
      cases h
      exact longest_atMost hfirst hlongest
    · exact hrest h

theorem choose_eq (hx : x ∈ r.pattern.matches') (hbegins : x <+: s)
    (hmost : AtMost r.pattern s x.length)
    (hpre : ∀ r' ∈ pre, ∃ n < x.length, AtMost r'.pattern s n)
    (hpost : ∀ r' ∈ post, AtMost r'.pattern s x.length) :
    choose (pre ++ r :: post) s = some (x.length, r) := by
  have hlongest := longest_eq hx hbegins hmost hbegins.length_le (Nat.le_refl _)
  induction pre with
  | nil =>
    rw [List.nil_append, choose, hlongest]
    cases hchoose : choose post s with
    | none => rfl
    | some best =>
      obtain ⟨m, r'⟩ := best
      have hle := choose_atMost hpost hchoose
      dsimp only
      rw [if_neg (Nat.not_lt.mpr hle)]
  | cons r' pre ih =>
    obtain ⟨n, hn, hshort⟩ := hpre r' List.mem_cons_self
    rw [List.cons_append, choose, ih fun q hq => hpre q (List.mem_cons_of_mem r' hq)]
    cases hfirst : longest r'.pattern s s.length with
    | none => rfl
    | some m =>
      have hle := longest_atMost hshort hfirst
      dsimp only
      rw [if_pos (Nat.lt_of_le_of_lt hle hn)]

end Choices

section Tokens

variable [DecidableEq α] {s x rest : List α} {n : Nat} {r : Rule α τ} {rules : List (Rule α τ)} {t : τ}

theorem step_eq (h : choose rules (x ++ rest) = some (x.length, r)) (hx : x ≠ []) :
    step rules (x ++ rest) = some (r.action x, rest) := by
  obtain ⟨c, x, rfl⟩ := List.exists_cons_of_ne_nil hx
  rw [List.cons_append] at h ⊢
  rw [step, h, List.length_cons]
  dsimp only
  rw [List.drop_left, ← List.cons_append, ← List.length_cons (a := c), List.take_left]

theorem token_eq (h : choose rules (x ++ rest) = some (x.length, r)) (hx : x ≠ [])
    (ht : r.action x = some t) : token rules (x ++ rest) = some (t, rest) := by
  obtain ⟨n, hn⟩ : ∃ n, (x ++ rest).length = n + 1 :=
    Nat.exists_eq_succ_of_ne_zero (by simp [hx])
  rw [token, hn, next, step_eq h hx, ht]

theorem step_shorter {o : Option τ} (h : step rules s = some (o, rest)) : rest.length < s.length := by
  cases s with
  | nil => cases h
  | cons c s =>
    rw [step] at h
    split at h
    · cases h
      rw [List.length_drop, List.length_cons]
      omega
    · cases h
      exact Nat.lt_succ_self _

theorem next_shorter (h : next rules n s = some (t, rest)) : rest.length < s.length := by
  induction n generalizing s with
  | zero => cases h
  | succ n ih =>
    rw [next] at h
    split at h
    · cases h
    · rename_i hstep
      cases h
      exact step_shorter hstep
    · rename_i hstep
      exact Nat.lt_trans (ih h) (step_shorter hstep)

theorem scanFrom_stable (h : s.length ≤ n) : scanFrom rules n s = scan rules s := by
  induction n using Nat.strong_induction_on generalizing s with
  | _ n ih =>
    have hunfold : ∀ k, s.length ≤ k → scanFrom rules k s =
        match token rules s with
        | none => []
        | some (t, rest) => t :: scanFrom rules (k - 1) rest := by
      intro k hk
      cases k with
      | zero =>
        obtain rfl : s = [] := List.length_eq_zero_iff.mp (Nat.le_zero.mp hk)
        rfl
      | succ k => rfl
    rw [scan, hunfold n h, hunfold s.length (Nat.le_refl _)]
    cases htoken : token rules s with
    | none => rfl
    | some found =>
      obtain ⟨t, rest⟩ := found
      have hshorter := next_shorter htoken
      dsimp only
      rw [ih (n - 1) (by omega) (by omega)]
      rcases Nat.eq_or_lt_of_le h with heq | hlt
      · rw [heq, ih (n - 1) (by omega) (by omega)]
      · rw [ih (s.length - 1) (by omega) (by omega)]

theorem scan_cons (h : token rules s = some (t, rest)) : scan rules s = t :: scan rules rest := by
  have hshorter := next_shorter h
  obtain ⟨n, hn⟩ : ∃ n, s.length = n + 1 := Nat.exists_eq_succ_of_ne_zero (by omega)
  rw [scan, hn, scanFrom, h]
  dsimp only
  rw [scanFrom_stable (by omega)]

end Tokens

end ComputerSystems.Systems.Scanners
