/- Strings in storage of a fixed size: scans, tokens and numbers, as the C library finds them. -/

import Mathlib.Algebra.Order.Ring.Int
import Mathlib.Data.List.TakeWhile
import Mathlib.Logic.Function.Basic

set_option autoImplicit false
set_option relaxedAutoImplicit false

namespace ComputerSystems.Memory.CStrings

/-- Storage of which the offsets below `size` can be used. -/
structure Storage where
  byte : Nat → UInt8
  size : Nat

/-- The bytes of a list from `p` on, over those of a memory. -/
def overlay (m : Nat → UInt8) (p : Nat) (l : List UInt8) : Nat → UInt8 :=
  fun i => if p ≤ i then l[i - p]?.getD (m i) else m i

section Overlay

variable {m : Nat → UInt8} {p i : Nat} {c : UInt8} {l : List UInt8}

theorem overlay_nil : overlay m p [] = m := by
  ext i
  simp [overlay]

theorem overlay_cons : overlay (Function.update m p c) (p + 1) l = overlay m p (c :: l) := by
  funext i
  rcases Nat.lt_trichotomy i p with h | rfl | h
  · simp [overlay, Nat.not_le.mpr h, Nat.ne_of_lt h, show ¬ p + 1 ≤ i by omega]
  · simp [overlay, show ¬ i + 1 ≤ i by omega]
  · obtain ⟨k, rfl⟩ : ∃ k, i = p + 1 + k := ⟨i - (p + 1), by omega⟩
    have hle : p ≤ p + 1 + k := by omega
    have hne : p + 1 + k ≠ p := by omega
    have hk : p + 1 + k - p = k + 1 := by omega
    simp [overlay, hle, hne, hk]

theorem overlay_outside (h : i < p ∨ p + l.length ≤ i) : overlay m p l i = m i := by
  rcases h with h | h
  · simp [overlay, Nat.not_le.mpr h]
  · have hle : p ≤ i := by omega
    have hget : l[i - p]? = none := List.getElem?_eq_none (by omega)
    simp [overlay, hle, hget]

theorem overlay_inside (h : l[i]? = some c) : overlay m p l (p + i) = c := by
  simp [overlay, h]

end Overlay

namespace Storage

def set (b : Storage) (p : Nat) (c : UInt8) : Storage :=
  { b with byte := Function.update b.byte p c }

/-- The `n` bytes from `p` on. -/
def slice (b : Storage) : Nat → Nat → List UInt8
  | _, 0 => []
  | p, n + 1 => b.byte p :: b.slice (p + 1) n

/-- The first of the next `n` offsets from `p` on whose byte passes the test. -/
def scan (b : Storage) (test : UInt8 → Bool) : Nat → Nat → Option Nat
  | 0, _ => none
  | n + 1, p => if test (b.byte p) then some p else b.scan test n (p + 1)

/-- The first offset from `p` on whose byte passes the test; `none` if a loop over the bytes would
leave the storage. -/
def find (b : Storage) (test : UInt8 → Bool) (p : Nat) : Option Nat :=
  b.scan test (b.size - p) p

/-- The string at `p`. -/
def text (b : Storage) (p : Nat) : Option (List UInt8) :=
  (b.find (· == 0) p).map fun q => b.slice p (q - p)

/-- `strtok_r`: the start of the token, the place to go on from, and the storage afterwards. -/
def strtok (b : Storage) (delim : List UInt8) (s : Nat) : Option (Option Nat × Nat × Storage) := do
  let start ← b.find (fun c => !delim.contains c) s
  if b.byte start = 0 then
    return (none, start, b)
  let stop ← b.find (fun c => c == 0 || delim.contains c) start
  if b.byte stop = 0 then
    return (some start, stop, b)
  return (some start, stop + 1, b.set stop 0)

/-- The bytes from `p` on are those of the list, inside the storage. -/
def Holds (b : Storage) (p : Nat) (l : List UInt8) : Prop :=
  b.slice p l.length = l ∧ p + l.length ≤ b.size

variable {b b' : Storage} {p q n : Nat} {c : UInt8} {l l' : List UInt8} {test : UInt8 → Bool}

@[simp] theorem length_slice : (b.slice p n).length = n := by
  induction n generalizing p with
  | zero => rfl
  | succ n ih => simp [slice, ih]

theorem slice_add {m : Nat} : b.slice p (m + n) = b.slice p m ++ b.slice (p + m) n := by
  induction m generalizing p with
  | zero => simp [slice]
  | succ m ih =>
    rw [Nat.succ_add, slice, slice, List.cons_append, ih]
    congr 3
    omega

theorem getElem?_slice {i : Nat} (h : i < n) : (b.slice p n)[i]? = some (b.byte (p + i)) := by
  induction n generalizing p i with
  | zero => omega
  | succ n ih =>
    cases i with
    | zero => rfl
    | succ i =>
      rw [slice, List.getElem?_cons_succ, ih (Nat.lt_of_succ_lt_succ h), Nat.add_assoc,
        Nat.add_comm 1 i]

theorem slice_congr (h : ∀ i, p ≤ i → i < p + n → b'.byte i = b.byte i) :
    b'.slice p n = b.slice p n := by
  induction n generalizing p with
  | zero => rfl
  | succ n ih =>
    rw [slice, slice, h p (Nat.le_refl p) (by omega), ih fun i hi hlt => h i (by omega) (by omega)]

theorem holds_nil (h : p ≤ b.size) : b.Holds p [] :=
  ⟨rfl, h⟩

theorem holds_cons : b.Holds p (c :: l) ↔ b.byte p = c ∧ b.Holds (p + 1) l := by
  simp only [Holds, List.length_cons, slice, List.cons.injEq, and_assoc]
  constructor
  · rintro ⟨hc, hl, hsize⟩
    exact ⟨hc, hl, by omega⟩
  · rintro ⟨hc, hl, hsize⟩
    exact ⟨hc, hl, by omega⟩

theorem holds_append : b.Holds p (l ++ l') ↔ b.Holds p l ∧ b.Holds (p + l.length) l' := by
  simp only [Holds, List.length_append, slice_add]
  constructor
  · rintro ⟨heq, hsize⟩
    obtain ⟨hl, hl'⟩ := List.append_inj heq length_slice
    exact ⟨⟨hl, by omega⟩, hl', by omega⟩
  · rintro ⟨⟨hl, _⟩, hl', hsize⟩
    exact ⟨by rw [hl, hl'], by omega⟩

theorem Holds.byte_eq (h : b.Holds p (l ++ c :: l')) : b.byte (p + l.length) = c :=
  (holds_cons.mp (holds_append.mp h).2).1

theorem Holds.congr (h : b.Holds p l) (hsize : b.size ≤ b'.size)
    (hbyte : ∀ i, p ≤ i → i < p + l.length → b'.byte i = b.byte i) : b'.Holds p l :=
  ⟨(slice_congr hbyte).trans h.1, Nat.le_trans h.2 hsize⟩

theorem holds_of_getElem (h : ∀ i, i < l.length → l[i]? = some (b.byte (p + i)))
    (hsize : p + l.length ≤ b.size) : b.Holds p l := by
  induction l generalizing p with
  | nil => exact holds_nil hsize
  | cons c l ih =>
    rw [List.length_cons] at hsize
    refine holds_cons.mpr ⟨?_, ih (fun i hi => ?_) (by omega)⟩
    · have hfirst := h 0 (by simp)
      simpa using hfirst.symm
    · have hnext := h (i + 1) (by simpa using hi)
      rw [List.getElem?_cons_succ] at hnext
      rw [hnext]
      congr 2
      omega

theorem scan_of_holds (h : b.Holds p (l ++ c :: l')) (hl : ∀ x ∈ l, test x = false)
    (hc : test c = true) (hn : l.length < n) : b.scan test n p = some (p + l.length) := by
  induction l generalizing p n with
  | nil =>
    obtain ⟨n, rfl⟩ : ∃ m, n = m + 1 := ⟨n - 1, by simp at hn; omega⟩
    obtain ⟨hbyte, -⟩ := holds_cons.mp h
    rw [scan, hbyte, if_pos hc]
    rfl
  | cons x l ih =>
    obtain ⟨n, rfl⟩ : ∃ m, n = m + 1 := ⟨n - 1, by simp at hn; omega⟩
    obtain ⟨hbyte, hrest⟩ := holds_cons.mp h
    rw [scan, hbyte, if_neg (by simp [hl x List.mem_cons_self]),
      ih hrest (fun y hy => hl y (List.mem_cons_of_mem x hy)) (by simpa using hn)]
    simp only [List.length_cons, Option.some.injEq]
    omega

theorem find_of_holds (h : b.Holds p (l ++ c :: l')) (hl : ∀ x ∈ l, test x = false)
    (hc : test c = true) : b.find test p = some (p + l.length) := by
  have hsize := h.2
  simp only [List.length_append, List.length_cons] at hsize
  exact scan_of_holds h hl hc (by omega)

theorem scan_none (h : ∀ i, p ≤ i → i < p + n → test (b.byte i) = false) :
    b.scan test n p = none := by
  induction n generalizing p with
  | zero => rfl
  | succ n ih =>
    rw [scan, if_neg (by simp [h p (Nat.le_refl p) (by omega)])]
    exact ih fun i hi hlt => h i (by omega) (by omega)

theorem find_none (h : ∀ i, p ≤ i → i < b.size → test (b.byte i) = false) :
    b.find test p = none :=
  scan_none fun i hi hlt => h i hi (by omega)

theorem scan_some (h : b.scan test n p = some q) : p ≤ q ∧ q < p + n ∧ test (b.byte q) = true := by
  induction n generalizing p with
  | zero => cases h
  | succ n ih =>
    rw [scan] at h
    split at h
    · rename_i htest
      cases h
      exact ⟨Nat.le_refl _, by omega, htest⟩
    · obtain ⟨hle, hlt, htest⟩ := ih h
      exact ⟨by omega, by omega, htest⟩

theorem find_some (h : b.find test p = some q) : p ≤ q ∧ q < b.size ∧ test (b.byte q) = true := by
  obtain ⟨hle, hlt, htest⟩ := scan_some h
  exact ⟨hle, by omega, htest⟩

theorem exists_text (hbyte : b.byte q = 0) (hp : p ≤ q) (hq : q < b.size) :
    ∃ s after, b.Holds p (s ++ 0 :: after) ∧ 0 ∉ s ∧ p + s.length ≤ q := by
  obtain ⟨n, rfl⟩ : ∃ n, q = p + n := ⟨q - p, by omega⟩
  induction n generalizing p with
  | zero =>
    exact ⟨[], [], holds_cons.mpr ⟨hbyte, holds_nil hq⟩, List.not_mem_nil, Nat.le_refl _⟩
  | succ n ih =>
    by_cases hfirst : b.byte p = 0
    · exact ⟨[], [], holds_cons.mpr ⟨hfirst, holds_nil (by omega)⟩, List.not_mem_nil, by simp⟩
    · have hnext : p + (n + 1) = p + 1 + n := by omega
      rw [hnext] at hbyte hq
      obtain ⟨s, after, hholds, hs, hlen⟩ := ih hbyte (by omega) hq
      refine ⟨b.byte p :: s, after, holds_cons.mpr ⟨rfl, hholds⟩, ?_, ?_⟩
      · simp [hs, Ne.symm hfirst]
      · rw [List.length_cons]
        omega

theorem text_of_holds (h : b.Holds p (l ++ 0 :: l')) (hl : 0 ∉ l) : b.text p = some l := by
  have hfind : b.find (· == 0) p = some (p + l.length) := by
    refine find_of_holds h (fun x hx => ?_) rfl
    simp only [beq_eq_false_iff_ne]
    rintro rfl
    exact hl hx
  rw [text, hfind, Option.map_some, Nat.add_sub_cancel_left, (holds_append.mp h).1.1]

end Storage

section Tokens

def token (delim s : List UInt8) : Option (List UInt8 × List UInt8) :=
  match s.dropWhile (delim.contains ·) with
  | [] => none
  | c :: t =>
    some ((c :: t).takeWhile (!delim.contains ·), ((c :: t).dropWhile (!delim.contains ·)).drop 1)

variable {delim s t rest : List UInt8}

theorem token_some (h : token delim s = some (t, rest)) :
    ∃ lead tail, s = lead ++ (t ++ tail) ∧ rest = tail.drop 1 ∧ t ≠ [] ∧
      (∀ x ∈ lead, x ∈ delim) ∧ (∀ x ∈ t, x ∉ delim) ∧ ∀ d ∈ tail.head?, d ∈ delim := by
  rw [token] at h
  split at h
  · cases h
  · rename_i c u hdrop
    simp only [Option.some.injEq, Prod.mk.injEq] at h
    obtain ⟨rfl, rfl⟩ := h
    have hc : c ∉ delim := by
      have hhead := List.head?_dropWhile_not (delim.contains ·) s
      rw [hdrop] at hhead
      simpa using hhead
    refine ⟨s.takeWhile (delim.contains ·), (c :: u).dropWhile (!delim.contains ·), ?_, rfl, ?_,
      fun x hx => ?_, fun x hx => ?_, fun d hd => ?_⟩
    · rw [List.takeWhile_append_dropWhile, ← hdrop, List.takeWhile_append_dropWhile]
    · simp [hc]
    · simpa using List.mem_takeWhile_imp hx
    · simpa using List.mem_takeWhile_imp hx
    · have hhead := List.head?_dropWhile_not (fun x => !delim.contains x) (c :: u)
      rw [Option.mem_def.mp hd] at hhead
      simpa using hhead

theorem token_subset (h : token delim s = some (t, rest)) : t ⊆ s ∧ rest ⊆ s := by
  obtain ⟨lead, tail, rfl, rfl, -⟩ := token_some h
  constructor
  · intro x hx
    simp [hx]
  · intro x hx
    simp [List.mem_of_mem_drop hx]

namespace Storage

variable {b : Storage} {p : Nat} {after : List UInt8}

/-- What `strtok_r` did to a string at `p`: the token `t` is at `i`, and `rest` at `j`. -/
structure Tokenized (b b' : Storage) (p i j : Nat) (s t rest after : List UInt8) : Prop where
  size : b'.size = b.size
  token : b'.Holds i (t ++ [0])
  following : b'.Holds j (rest ++ 0 :: after)
  start : p ≤ i
  ordered : i + t.length ≤ j
  apart : rest = [] ∨ i + t.length < j
  ends : j + rest.length = p + s.length
  frame : ∀ k, k < p ∨ p + s.length ≤ k → b'.byte k = b.byte k

theorem strtok_none (h : b.Holds p (s ++ 0 :: after)) (hdelim : 0 ∉ delim)
    (ht : CStrings.token delim s = none) : b.strtok delim p = some (none, p + s.length, b) := by
  have hs : ∀ x ∈ s, (!delim.contains x) = false := by
    rw [CStrings.token] at ht
    split at ht
    · rename_i hdrop
      simpa using List.dropWhile_eq_nil_iff.mp hdrop
    · cases ht
  have hfind : b.find (fun c => !delim.contains c) p = some (p + s.length) :=
    find_of_holds h hs (by simpa using hdelim)
  rw [strtok, hfind, Option.bind_eq_bind, Option.bind_some, if_pos h.byte_eq]
  rfl

/-- `strtok_r` leaves a storage that has neither a NUL nor, after the first byte, a delimiter. -/
theorem strtok_overrun (h0 : ∀ i, p ≤ i → i < b.size → b.byte i ≠ 0)
    (hdelim : ∀ i, p < i → i < b.size → b.byte i ∉ delim) : b.strtok delim p = none := by
  rw [strtok]
  cases hstart : b.find (fun c => !delim.contains c) p with
  | none => rfl
  | some start =>
    obtain ⟨hle, hlt, htest⟩ := find_some hstart
    have hstop : b.find (fun c => c == 0 || delim.contains c) start = none := by
      refine find_none fun i hi hisize => ?_
      simp only [Bool.or_eq_false_iff, beq_eq_false_iff_ne]
      refine ⟨h0 i (by omega) hisize, ?_⟩
      rcases Nat.eq_or_lt_of_le hi with rfl | hafter
      · simpa using htest
      · simpa using hdelim i (by omega) hisize
    rw [Option.bind_eq_bind, Option.bind_some, if_neg (h0 start hle hlt), hstop]
    rfl

theorem strtok_some (h : b.Holds p (s ++ 0 :: after)) (hs : 0 ∉ s)
    (ht : CStrings.token delim s = some (t, rest)) :
    ∃ i j b', b.strtok delim p = some (some i, j, b') ∧ Tokenized b b' p i j s t rest after := by
  obtain ⟨lead, tail, rfl, rfl, hne, hlead, htoken, htail⟩ := token_some ht
  obtain ⟨c, u, rfl⟩ := List.exists_cons_of_ne_nil hne
  simp only [List.mem_append, not_or] at hs
  have hc : c ≠ 0 := by
    rintro rfl
    exact hs.2.1 List.mem_cons_self
  rw [List.append_assoc, List.append_assoc] at h
  have hstart : b.find (fun c => !delim.contains c) p = some (p + lead.length) := by
    refine find_of_holds h (fun x hx => by simpa using hlead x hx) ?_
    simpa using htoken c List.mem_cons_self
  have hbyte : b.byte (p + lead.length) ≠ 0 := by
    rwa [h.byte_eq]
  obtain ⟨hskipped, hrest⟩ := holds_append.mp h
  have hpasses : ∀ x ∈ c :: u, (x == 0 || delim.contains x) = false := by
    intro x hx
    simp only [Bool.or_eq_false_iff, beq_eq_false_iff_ne, List.contains_eq_mem, decide_eq_false_iff_not]
    refine ⟨?_, htoken x hx⟩
    rintro rfl
    exact hs.2.1 hx
  cases tail with
  | nil =>
    have hstop : b.find (fun c => c == 0 || delim.contains c) (p + lead.length) =
        some (p + lead.length + (c :: u).length) := find_of_holds hrest hpasses rfl
    refine ⟨p + lead.length, p + lead.length + (c :: u).length, b, ?_, ?_⟩
    · rw [strtok, hstart, Option.bind_eq_bind, Option.bind_some, if_neg hbyte, hstop,
        Option.bind_some, if_pos hrest.byte_eq]
      rfl
    · obtain ⟨hu, hend⟩ := holds_append.mp hrest
      refine ⟨rfl, holds_append.mpr ⟨hu, ?_⟩, hend, by omega, Nat.le_refl _, Or.inl rfl,
        by simp; omega, fun k _ => rfl⟩
      exact (holds_append.mp (show b.Holds _ ([0] ++ after) from hend)).1
  | cons d tail =>
    have hd : d ∈ delim := htail d rfl
    have hd0 : d ≠ 0 := by
      rintro rfl
      exact hs.2.2 List.mem_cons_self
    let stop := p + lead.length + (c :: u).length
    have hstop : b.find (fun c => c == 0 || delim.contains c) (p + lead.length) = some stop :=
      find_of_holds hrest hpasses (by simp [hd])
    have hbyte' : b.byte stop ≠ 0 := by
      rwa [show b.byte stop = d from hrest.byte_eq]
    refine ⟨p + lead.length, stop + 1, b.set stop 0, ?_, ?_⟩
    · rw [strtok, hstart, Option.bind_eq_bind, Option.bind_some, if_neg hbyte, hstop,
        Option.bind_some, if_neg hbyte']
      rfl
    · obtain ⟨hu, hend⟩ := holds_append.mp hrest
      have hset : ∀ k, k ≠ stop → (b.set stop 0).byte k = b.byte k :=
        fun k hk => Function.update_of_ne hk ..
      have hsize := hend.2
      simp only [List.length_append, List.length_cons] at hsize
      refine ⟨rfl, holds_append.mpr ⟨?_, holds_cons.mpr ⟨by simp [set, stop], holds_nil ?_⟩⟩, ?_,
        by omega, by omega, Or.inr (by omega), ?_, fun k hk => hset k ?_⟩
      · exact hu.congr (Nat.le_refl _) fun k _ hk => hset k (by omega)
      · show p + lead.length + (c :: u).length + 1 ≤ b.size
        simp only [List.length_cons]
        omega
      · refine (holds_cons.mp hend).2.congr (Nat.le_refl _) fun k hk _ => hset k (by omega)
      · simp only [stop, List.length_append, List.length_cons, List.drop_one, List.tail_cons]
        omega
      · simp only [stop, List.length_append, List.length_cons] at hk ⊢
        omega

end Storage

end Tokens

section Numbers

/-- `isspace` in the C locale. -/
def isSpace (c : UInt8) : Bool := c == 32 || (9 ≤ c && c ≤ 13)

def isDigit (c : UInt8) : Bool := 48 ≤ c && c ≤ 57

def isSign (c : UInt8) : Bool := c == 43 || c == 45

def decimal (digits : List UInt8) : Nat :=
  digits.foldl (fun n c => 10 * n + (c.toNat - 48)) 0

/-- What `atoi` makes of a sign and digits: `(int) strtol (s, NULL, 10)`, where `strtol` stops at the
limits of a 64-bit `long`. -/
def signedInt (negative : Bool) (n : Nat) : Int :=
  Int.bmod (if negative then max (-n) (-2 ^ 63) else min n (2 ^ 63 - 1)) (2 ^ 32)

/-- `atoi` on the string at `p`. -/
def Storage.atoi (b : Storage) (p : Nat) : Option Int := do
  let start ← b.find (!isSpace ·) p
  let digits := if isSign (b.byte start) then start + 1 else start
  let stop ← b.find (!isDigit ·) digits
  return signedInt (b.byte start == 45) (decimal (b.slice digits (stop - digits)))

/-- `atoi` on a string. -/
def textToInt (s : List UInt8) : Int :=
  let s := s.dropWhile isSpace
  let digits := if s.head?.any isSign then s.drop 1 else s
  signedInt (s.head? == some 45) (decimal (digits.takeWhile isDigit))

variable {b : Storage} {p : Nat} {s after : List UInt8}

theorem Storage.find_takeWhile {test : UInt8 → Bool} (h : b.Holds p (s ++ 0 :: after))
    (h0 : test 0 = false) : b.find (!test ·) p = some (p + (s.takeWhile test).length) := by
  have hpasses : ∀ x ∈ s.takeWhile test, (!test x) = false :=
    fun x hx => by simp [List.mem_takeWhile_imp hx]
  rw [← List.takeWhile_append_dropWhile (p := test) (l := s), List.append_assoc] at h
  cases hdrop : s.dropWhile test with
  | nil =>
    rw [hdrop] at h
    exact find_of_holds h hpasses (by simp [h0])
  | cons c t =>
    rw [hdrop] at h
    have hhead := List.head?_dropWhile_not test s
    rw [hdrop] at hhead
    exact find_of_holds h hpasses (by simpa using hhead)

theorem Storage.digits_of_holds (h : b.Holds p (s ++ 0 :: after)) :
    (b.find (!isDigit ·) p).map (fun stop => b.slice p (stop - p)) =
      some (s.takeWhile isDigit) := by
  rw [find_takeWhile h rfl, Option.map_some, Nat.add_sub_cancel_left]
  rw [← List.takeWhile_append_dropWhile (p := isDigit) (l := s), List.append_assoc] at h
  rw [(holds_append.mp h).1.1]

theorem Storage.atoi_of_holds (h : b.Holds p (s ++ 0 :: after)) :
    b.atoi p = some (textToInt s) := by
  have hstart : b.find (!isSpace ·) p = some (p + (s.takeWhile isSpace).length) :=
    find_takeWhile h rfl
  have hrest : b.Holds (p + (s.takeWhile isSpace).length) (s.dropWhile isSpace ++ 0 :: after) := by
    rw [← List.takeWhile_append_dropWhile (p := isSpace) (l := s), List.append_assoc] at h
    exact (holds_append.mp h).2
  rw [atoi, hstart, Option.bind_eq_bind, Option.bind_some, textToInt]
  cases hdrop : s.dropWhile isSpace with
  | nil =>
    rw [hdrop] at hrest
    have hbyte := (holds_cons.mp hrest).1
    have hdigits := digits_of_holds hrest
    obtain ⟨stop, hstop, hslice⟩ := Option.map_eq_some_iff.mp hdigits
    rw [hbyte, if_neg (by decide)]
    dsimp only
    rw [hstop, Option.bind_some, hslice]
    rfl
  | cons c t =>
    rw [hdrop] at hrest
    have hbyte := (holds_cons.mp hrest).1
    rw [hbyte]
    by_cases hsign : isSign c
    · obtain ⟨stop, hstop, hslice⟩ := Option.map_eq_some_iff.mp
        (digits_of_holds (holds_cons.mp hrest).2)
      rw [if_pos hsign]
      dsimp only
      rw [hstop, Option.bind_some, hslice]
      simp [hsign]
    · obtain ⟨stop, hstop, hslice⟩ := Option.map_eq_some_iff.mp (digits_of_holds hrest)
      rw [if_neg hsign]
      dsimp only
      rw [hstop, Option.bind_some, hslice]
      simp [hsign]

theorem signedInt_small {n : Nat} (h : n < 2 ^ 31) : signedInt false n = n := by
  have hmin : min (n : Int) (2 ^ 63 - 1) = n := by omega
  simp only [signedInt, Bool.false_eq_true, if_false, hmin]
  rw [Int.bmod_def]
  omega

theorem isDigit_first {c : UInt8} (hc : isDigit c = true) :
    isSpace c = false ∧ isSign c = false ∧ c ≠ 45 := by
  have hle : 48 ≤ c.toNat ∧ c.toNat ≤ 57 := by
    simpa [isDigit, UInt8.le_iff_toNat_le] using hc
  refine ⟨?_, ?_, ?_⟩
  · simp only [isSpace, Bool.or_eq_false_iff, beq_eq_false_iff_ne, Bool.and_eq_false_iff,
      decide_eq_false_iff_not, UInt8.le_iff_toNat_le, ne_eq, ← UInt8.toNat_inj]
    simp
    omega
  · simp only [isSign, Bool.or_eq_false_iff, beq_eq_false_iff_ne, ne_eq, ← UInt8.toNat_inj]
    simp
    omega
  · rintro rfl
    simp at hle

/-- A string of digits is the number it spells, up to the limit of an `int`. -/
theorem textToInt_digits (hdigits : ∀ c ∈ s, isDigit c = true) (h : decimal s < 2 ^ 31) :
    textToInt s = decimal s := by
  cases s with
  | nil => rfl
  | cons c t =>
    obtain ⟨hspace, hsign, hminus⟩ := isDigit_first (hdigits c List.mem_cons_self)
    have hdrop : (c :: t).dropWhile isSpace = c :: t := by
      rw [List.dropWhile_cons, if_neg (by simp [hspace])]
    have htake : (c :: t).takeWhile isDigit = c :: t :=
      List.takeWhile_eq_self_iff.mpr hdigits
    have hneg : (some c == some (45 : UInt8)) = false := by simpa using hminus
    simp only [textToInt, hdrop, List.head?_cons, Option.any_some, hsign, Bool.false_eq_true,
      if_false, htake, hneg]
    exact signedInt_small h

end Numbers

end ComputerSystems.Memory.CStrings
