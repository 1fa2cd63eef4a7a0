/- What the request parser makes of a line that lies in the buffer. -/

import ComputerSystems.Pserv.Receiving
import ComputerSystems.Pserv.Requests

set_option autoImplicit false
set_option relaxedAutoImplicit false

namespace ComputerSystems.Pserv.Parsing

open ComputerSystems.Memory.CStrings
open ComputerSystems.Systems.Computations
open ComputerSystems.Pserv.Strings
open ComputerSystems.Pserv.Buffers
open ComputerSystems.Pserv.Input
open ComputerSystems.Pserv.Receiving
open ComputerSystems.Pserv.Requests

def requestLine (text : Bytes) : Option (Method × Bytes × Version) := do
  let (method, rest) ← token [SP] text
  let (path, rest) ← token [SP] rest
  let (version, _) ← token [CR] rest
  let version ← versionOf version
  return (methodOf method, path, version)

def headerLine (contentLen : Int) (text : Bytes) : Option Int := do
  let (name, rest) ← token [COLON] text
  return if sameText name (ascii "Content-Length") then textToInt (rest.dropWhile isBlank)
    else contentLen

/-- Only bytes of the buffer have changed, from `p` on and below `q`. -/
structure Patched (p q : Nat) (s s' : Bufio) : Prop where
  rest : s' = { s with buf := { s.buf with buf := s'.buf.buf } }
  frame : ∀ i, i < p ∨ q ≤ i → s'.buf.buf i = s.buf.buf i

/-- The string `l` is at `p`, and ends there with a NUL. -/
def HoldsText (s : Bufio) (p : Nat) (l : Bytes) : Prop :=
  s.buf.storage.Holds p (l ++ [0])

section Strings

variable {s s' s'' : Bufio} {p q n : Nat} {l after text rest delim : Bytes}

theorem Patched.refl : Patched p q s s := ⟨rfl, fun _ _ => rfl⟩

theorem Patched.trans (h : Patched p q s s') (h' : Patched p q s' s'') : Patched p q s s'' where
  rest := by
    rw [h'.rest, h.rest]
  frame i hi := (h'.frame i hi).trans (h.frame i hi)

theorem Patched.mono {p' q' : Nat} (h : Patched p q s s') (hp : p' ≤ p) (hq : q ≤ q') :
    Patched p' q' s s' :=
  ⟨h.rest, fun i hi => h.frame i (by omega)⟩

theorem Patched.cap (h : Patched p q s s') : s'.buf.cap = s.buf.cap := by
  rw [h.rest]

theorem Patched.bufpos (h : Patched p q s s') : s'.bufpos = s.bufpos := by
  rw [h.rest]

theorem Patched.received (h : Patched p q s s') : received s' = received s := by
  rw [h.rest]
  rfl

theorem Patched.holds {a : Nat} (h : Patched p q s s') (ha : a + l.length ≤ p ∨ q ≤ a)
    (hl : s.buf.storage.Holds a l) : s'.buf.storage.Holds a l :=
  hl.congr (Nat.le_of_eq (congrArg Int.toNat h.cap.symm)) fun i hi hlt => h.frame i (by omega)

theorem stringAt_ok (h : s.buf.storage.Holds p (l ++ 0 :: after)) (hl : 0 ∉ l) :
    stringAt p s = .ok (l, s) := by
  rw [stringAt, bind_ok get_ok, Storage.text_of_holds h hl]
  rfl

theorem atoi_ok (h : s.buf.storage.Holds p (l ++ 0 :: after)) :
    atoi p s = .ok (textToInt l, s) := by
  rw [atoi, bind_ok get_ok, Storage.atoi_of_holds h]
  rfl

theorem skipBlanks_ok (h : s.buf.storage.Holds p (l ++ 0 :: after)) :
    skipBlanks p s = .ok (p + (l.takeWhile isBlank).length, s) := by
  rw [skipBlanks, bind_ok get_ok, Storage.find_takeWhile h rfl]
  rfl

theorem strtokR_none (h : s.buf.storage.Holds p (text ++ 0 :: after)) (hdelim : 0 ∉ delim)
    (ht : token delim text = none) : strtokR delim p s = .ok ((none, p + text.length), s) := by
  rw [strtokR, bind_ok get_ok, Storage.strtok_none h hdelim ht]
  rfl

theorem strtokR_some {t : Bytes} (h : s.buf.storage.Holds p (text ++ 0 :: after)) (htext : 0 ∉ text)
    (ht : token delim text = some (t, rest)) :
    ∃ i j s', strtokR delim p s = .ok ((some i, j), s') ∧ Patched p (p + text.length) s s' ∧
      Storage.Tokenized s.buf.storage s'.buf.storage p i j text t rest after := by
  obtain ⟨i, j, b, hok, htok⟩ := Storage.strtok_some h htext ht
  let s' : Bufio := { s with buf := { s.buf with buf := b.byte } }
  have hstorage : s'.buf.storage = b := by
    have hsize := htok.size
    cases b
    exact congrArg _ hsize.symm
  refine ⟨i, j, s', ?_, ⟨rfl, fun k hk => ?_⟩, hstorage ▸ htok⟩
  · rw [strtokR, bind_ok get_ok, hok]
    rfl
  · exact htok.frame k hk

end Strings

section Lines

variable {s : Bufio} {p : Nat} {text after : Bytes}

theorem bufioPtr2offset_ok {ptr : Nat} (h : (ptr : Int) < s.buf.len) :
    bufioPtr2offset ptr s = .ok (ptr, s) := by
  rw [bufioPtr2offset, assertInside, bind_assoc, bind_ok get_ok, if_pos h]
  rfl

theorem bufioOffset2ptr_ok {offset : Nat} (h : (offset : Int) < s.buf.len) :
    bufioOffset2ptr offset s = .ok (offset, s) :=
  bufioPtr2offset_ok h

theorem parseRequestLine_spec (ta : Transaction)
    (h : s.buf.storage.Holds p (text ++ 0 :: after)) (htext : 0 ∉ text)
    (hinside : (p : Int) + text.length < s.buf.len) :
    ∃ s', Patched p (p + text.length) s s' ∧
      match requestLine text with
      | none => parseRequestLine ta p s = .ok (none, s')
      | some (method, path, version) => ∃ q,
          parseRequestLine ta p s = .ok (some { ta with
            reqMethod := method, reqPath := q, reqVersion := version }, s') ∧
          HoldsText s' q path ∧ p ≤ q ∧ q + path.length ≤ p + text.length ∧ 0 ∉ path := by
  rw [parseRequestLine, requestLine]
  cases hmethod : token [SP] text with
  | none =>
    refine ⟨s, Patched.refl, ?_⟩
    rw [bind_ok (strtokR_none h (by decide) hmethod)]
    rfl
  | some r =>
    obtain ⟨method, rest⟩ := r
    obtain ⟨i, j, s₁, hok, hpatched, htok⟩ := strtokR_some h htext hmethod
    have hsub := token_subset hmethod
    have hends := htok.ends
    have hstart := htok.start
    have hordered := htok.ordered
    rw [bind_ok hok]
    dsimp only
    rw [bind_ok (stringAt_ok htok.token fun h0 => htext (hsub.1 h0))]
    have hrest : 0 ∉ rest := fun h0 => htext (hsub.2 h0)
    cases hpath : token [SP] rest with
    | none =>
      refine ⟨s₁, hpatched, ?_⟩
      rw [bind_ok (strtokR_none htok.following (by decide) hpath)]
      simp [hpath, pure_ok]
    | some r =>
      obtain ⟨path, rest'⟩ := r
      obtain ⟨q, k, s₂, hok', hpatched', htok'⟩ := strtokR_some htok.following hrest hpath
      have hsub' := token_subset hpath
      have hends' := htok'.ends
      have hstart' := htok'.start
      have hordered' := htok'.ordered
      have hpatched₂ := hpatched.trans (hpatched'.mono (by omega) (by omega))
      have hlen : s₂.buf.len = s.buf.len := by
        rw [hpatched₂.rest]
      rw [bind_ok hok']
      dsimp only
      rw [bind_ok (bufioPtr2offset_ok (by omega))]
      cases hversion : token [CR] rest' with
      | none =>
        refine ⟨s₂, hpatched₂, ?_⟩
        rw [bind_ok (strtokR_none htok'.following (by decide) hversion)]
        simp [hpath, hversion, pure_ok]
      | some r =>
        obtain ⟨version, rest''⟩ := r
        have hrest' : 0 ∉ rest' := fun h0 => hrest (hsub'.2 h0)
        obtain ⟨i', j', s₃, hok'', hpatched'', htok''⟩ :=
          strtokR_some htok'.following hrest' hversion
        have hends'' := htok''.ends
        have hsub'' := token_subset hversion
        have hapart : q + path.length < k := by
          refine htok'.apart.resolve_left ?_
          rintro rfl
          cases hversion
        refine ⟨s₃, hpatched₂.trans (hpatched''.mono (by omega) (by omega)), ?_⟩
        rw [bind_ok hok'']
        dsimp only
        rw [bind_ok (stringAt_ok htok''.token fun h0 => hrest' (hsub''.1 h0))]
        cases hv : versionOf version with
        | none => simp [hpath, hversion, hv, pure_ok]
        | some v =>
          have hpath0 : 0 ∉ path := fun h0 => hrest (hsub'.1 h0)
          simp only [hpath, hversion, hv, Option.bind_eq_bind, Option.bind_some]
          refine ⟨q, rfl, hpatched''.holds (Or.inl ?_) htok'.token, by omega, by omega, hpath0⟩
          simp only [List.length_append, List.length_cons, List.length_nil]
          omega

/-- A turn of the loop of `http_process_headers` on a line in the buffer. -/
theorem processHeader_spec (ta : Transaction)
    (h : s.buf.storage.Holds p (text ++ 0 :: after)) (htext : 0 ∉ text) :
    ∃ s', Patched p (p + text.length) s s' ∧
      processHeader ta p s = .ok ((headerLine ta.reqContentLen text).map fun n =>
        { ta with reqContentLen := n }, s') := by
  rw [processHeader, headerLine]
  cases hname : token [COLON] text with
  | none =>
    refine ⟨s, Patched.refl, ?_⟩
    rw [bind_ok (strtokR_none h (by decide) hname)]
    rfl
  | some r =>
    obtain ⟨name, rest⟩ := r
    obtain ⟨i, j, s₁, hok, hpatched, htok⟩ := strtokR_some h htext hname
    refine ⟨s₁, hpatched, ?_⟩
    have hsub := token_subset hname
    have hvalue : s₁.buf.storage.Holds (j + (rest.takeWhile isBlank).length)
        (rest.dropWhile isBlank ++ 0 :: after) := by
      have hfollowing := htok.following
      rw [← List.takeWhile_append_dropWhile (p := isBlank) (l := rest), List.append_assoc] at hfollowing
      exact (Storage.holds_append.mp hfollowing).2
    rw [bind_ok hok]
    dsimp only
    rw [bind_ok (skipBlanks_ok htok.following),
      bind_ok (stringAt_ok htok.token fun h0 => htext (hsub.1 h0))]
    by_cases hlength : sameText name (ascii "Content-Length") = true
    · rw [if_pos hlength, bind_ok (atoi_ok hvalue)]
      simp [hlength, pure_ok]
    · rw [if_neg hlength]
      simp [hlength, pure_ok]

end Lines

end ComputerSystems.Pserv.Parsing
