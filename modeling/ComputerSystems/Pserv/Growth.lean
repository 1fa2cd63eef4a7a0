/- A buffer keeps the promise of `buffer_ensure_capacity` as long as its growth is an `int`. -/

import ComputerSystems.Pserv.Buffers

set_option autoImplicit false
set_option relaxedAutoImplicit false

namespace ComputerSystems.Pserv.Growth

open ComputerSystems.Memory.CStrings
open ComputerSystems.Pserv.Strings
open ComputerSystems.Pserv.Buffers

def INT_MAX : Nat := 2 ^ 31 - 1

/-- A call on a buffer; after `buffer_ensure_capacity` some of the bytes are written. -/
inductive Call where
  | append (mem : Bytes)
  | appends (str : Bytes)
  | appendc (c : UInt8)
  | ensureCapacity (len : Nat) (written : Bytes)
  | reset (size : Nat)

def Call.run (b : Buffer) : Call → Except Stop Buffer
  | .append mem => bufferAppend b mem
  | .appends str => bufferAppends b str
  | .appendc c => bufferAppendc b c
  | .ensureCapacity len written => do
    let b ← bufferEnsureCapacity b len
    let b ← b.storeAll b.len written
    return { b with len := int (b.len + written.length) }
  | .reset size => return bufferReset b size

/-- The length that the call asks `buffer_ensure_capacity` for. -/
def Call.request : Call → Option Nat
  | .append mem => some mem.length
  | .appends str => some str.length
  | .appendc _ => some 1
  | .ensureCapacity len _ => some len
  | .reset _ => none

def Call.written : Call → Bytes
  | .append mem => mem
  | .appends str => str
  | .appendc c => [c]
  | .ensureCapacity _ written => written
  | .reset _ => []

/-- The call may be made when this many bytes are in the buffer. -/
def Call.Allowed (total : Nat) (c : Call) : Prop :=
  match c with
  | .reset size => 1 ≤ size ∧ size ≤ INT_MAX
  | c => ∀ n ∈ c.request, 1 ≤ n ∧ total + n ≤ INT_MAX ∧ c.written.length ≤ n

def Call.total (total : Nat) : Call → Nat
  | .reset _ => 0
  | c => total + c.written.length

def Allowed : Nat → List Call → Prop
  | _, [] => True
  | total, c :: cs => c.Allowed total ∧ Allowed (c.total total) cs

/-- The size that `buffer_ensure_capacity` gives to `realloc`, if it calls it. -/
def reallocSize (b : Buffer) (len : Int) : Option Int :=
  if int (b.len + len) ≥ b.cap then some (int (int (b.cap * 2) + len)) else none

/-- What `buffer_ensure_capacity` promises. -/
structure Promised (b : Buffer) (n : Nat) : Prop where
  positive : ∀ size ∈ reallocSize b n, 0 < size
  room : ∃ b', bufferEnsureCapacity b n = .ok b' ∧ b'.len = b.len ∧ 0 ≤ b'.len ∧
    b'.len ≤ b'.cap ∧ n ≤ b'.cap - b'.len ∧ b'.contents = b.contents

/-- Every call in the sequence finds what was promised. -/
def Kept : Buffer → List Call → Prop
  | _, [] => True
  | b, c :: cs => (∀ n ∈ c.request, Promised b n) ∧ ∃ b', c.run b = .ok b' ∧ Kept b' cs

/-- There is room for `n` bytes, or the new capacity is an `int`. -/
def Grows (len cap n : Nat) : Prop := len + n < cap ∨ 2 * cap + n ≤ INT_MAX

def Call.cap (len cap : Nat) (c : Call) : Nat :=
  match c with
  | .reset size => min cap size
  | c => c.request.elim cap fun n => if len + n < cap then cap else 2 * cap + n

/-- No capacity in the sequence is more than an `int`. -/
def Roomy : Nat → Nat → List Call → Prop
  | _, _, [] => True
  | len, cap, c :: cs =>
    (∀ n ∈ c.request, Grows len cap n) ∧ Roomy (c.total len) (c.cap len cap) cs

structure Measures (b : Buffer) (l k : Nat) : Prop where
  len : b.len = l
  cap : b.cap = k
  fits : l ≤ k
  small : k ≤ INT_MAX

section Capacities

variable {b : Buffer} {len cap n : Nat}

theorem int_max : INT_MAX = 2147483647 := rfl

theorem Measures.sound (h : Measures b len cap) : b.Sound := by
  have hfits := h.fits
  have hsmall := h.small
  rw [int_max] at hsmall
  exact ⟨by rw [h.len]; omega, by rw [h.len, h.cap]; omega, by rw [h.cap]; omega⟩

theorem measures_init (fresh : Nat → UInt8) (h : cap ≤ INT_MAX) :
    Measures (bufferInit fresh cap) 0 cap :=
  ⟨rfl, rfl, Nat.zero_le cap, h⟩

theorem reallocSize_none (h : Measures b len cap) (hroom : len + n < cap) :
    reallocSize b n = none := by
  have hsmall := h.small
  rw [int_max] at hsmall
  rw [reallocSize, h.len, h.cap, int_eq (by omega), if_neg (by omega)]

theorem reallocSize_some (h : Measures b len cap) (htotal : len + n ≤ INT_MAX)
    (hfull : cap ≤ len + n) :
    reallocSize b n = some (int (int ((cap : Int) * 2) + n)) := by
  rw [int_max] at htotal
  rw [reallocSize, h.len, h.cap, int_eq (z := (len : Int) + n) (by omega), if_pos (by omega)]

theorem ensureCapacity_eq : bufferEnsureCapacity b n =
    match reallocSize b n with
    | none => .ok b
    | some size => if size ≤ 0 then .error .exit else .ok { b with cap := size } := by
  rw [bufferEnsureCapacity, reallocSize]
  split <;> rfl

theorem ensureCapacity_grows (h : Measures b len cap) (hn : 0 < cap + n) (htotal : len + n ≤ INT_MAX)
    (hgrows : Grows len cap n) :
    (∀ size ∈ reallocSize b n, 0 < size) ∧ bufferEnsureCapacity b n =
      .ok { b with cap := ((if len + n < cap then cap else 2 * cap + n : Nat) : Int) } := by
  by_cases hroom : len + n < cap
  · rw [ensureCapacity_eq, reallocSize_none h hroom, if_pos hroom, ← h.cap]
    exact ⟨fun size hsize => absurd hsize (Option.not_mem_none size), rfl⟩
  · have hsum := hgrows.resolve_left hroom
    rw [int_max] at hsum
    have hnew : int (int ((cap : Int) * 2) + n) = (2 * cap + n : Nat) := by
      rw [int_eq (z := (cap : Int) * 2) (by omega), int_eq (by omega)]
      omega
    rw [ensureCapacity_eq, reallocSize_some h htotal (by omega), hnew, if_neg hroom]
    refine ⟨fun size hsize => ?_, if_neg (by omega)⟩
    obtain rfl := Option.some.inj hsize
    omega

/-- A capacity that is no `int` wraps around, and there is no room. -/
theorem wraps (hcap : cap ≤ INT_MAX) (hn : n ≤ INT_MAX) (hlarge : INT_MAX < 2 * cap + n) :
    int (int ((cap : Int) * 2) + n) < n := by
  rw [int_max] at hcap hn hlarge
  rw [int, int, Int.bmod_def, Int.bmod_def]
  omega

theorem promised_iff (h : Measures b len cap) (hn : 1 ≤ n) (htotal : len + n ≤ INT_MAX) :
    Promised b n ↔ Grows len cap n := by
  have hfits := h.fits
  constructor
  · rintro ⟨-, b', hok, hlen, -, -, hroom, -⟩
    by_contra hnot
    rw [Grows, not_or, Nat.not_lt, Nat.not_le] at hnot
    have hwraps := wraps h.small (Nat.le_of_add_left_le htotal) hnot.2
    rw [ensureCapacity_eq, reallocSize_some h htotal hnot.1] at hok
    dsimp only at hok
    split at hok
    · cases hok
    · cases hok
      rw [h.len] at hroom
      dsimp only at hroom
      omega
  · intro hgrows
    obtain ⟨hpositive, hok⟩ := ensureCapacity_grows h (by omega) htotal hgrows
    refine ⟨hpositive, _, hok, rfl, ?_, ?_, ?_, Storage.slice_congr fun i _ _ => rfl⟩
    · rw [h.len]
      omega
    · rw [h.len]
      dsimp only
      split <;> omega
    · rw [h.len]
      dsimp only
      split <;> omega

end Capacities

section Runs

variable {b : Buffer} {len cap n : Nat} {c : Call} {cs : List Call}

theorem run_eq (h : c.request = some n) : c.run b = (Call.ensureCapacity n c.written).run b := by
  cases c with
  | append mem =>
    cases h
    rfl
  | appends str =>
    cases h
    rfl
  | appendc a =>
    cases h
    show bufferAppendc b a = _
    rw [bufferAppendc, Call.run]
    refine congrArg (bufferEnsureCapacity b 1 >>= ·) (funext fun b₁ => ?_)
    rw [Call.written, Buffer.storeAll]
    cases b₁.store b₁.len a <;> rfl
  | ensureCapacity m written =>
    cases h
    rfl
  | reset size => cases h

theorem Call.Allowed.request (h : c.Allowed len) (hc : c.request = some n) :
    1 ≤ n ∧ len + n ≤ INT_MAX ∧ c.written.length ≤ n := by
  cases c with
  | reset size => cases hc
  | append mem => exact h n hc
  | appends str => exact h n hc
  | appendc a => exact h n hc
  | ensureCapacity m written => exact h n hc

theorem run_ok (h : Measures b len cap) (hallowed : c.Allowed len)
    (hgrows : ∀ n ∈ c.request, Grows len cap n) :
    ∃ b', c.run b = .ok b' ∧ Measures b' (c.total len) (c.cap len cap) := by
  have hfits := h.fits
  have hsmall := h.small
  cases hrequest : c.request with
  | none =>
    cases c with
    | reset size =>
      refine ⟨_, rfl, rfl, ?_, Nat.zero_le _, ?_⟩
      · show (if b.cap > size then (size : Int) else b.cap) = (min cap size : Nat)
        rw [h.cap]
        split <;> omega
      · exact Nat.le_trans (Nat.min_le_left cap size) hsmall
    | append mem => cases hrequest
    | appends str => cases hrequest
    | appendc a => cases hrequest
    | ensureCapacity m written => cases hrequest
  | some n =>
    obtain ⟨hn, htotal, hwritten⟩ := hallowed.request hrequest
    have hroom := hgrows n hrequest
    obtain ⟨-, hensure⟩ := ensureCapacity_grows h (by omega) htotal hroom
    have htotal' : c.total len = len + c.written.length := by
      cases c <;> first | rfl | cases hrequest
    have hcap' : c.cap len cap = if len + n < cap then cap else 2 * cap + n := by
      cases c <;> first | cases hrequest; rfl | cases hrequest
    have hlast : len + n ≤ c.cap len cap ∧ c.cap len cap ≤ INT_MAX := by
      rw [hcap']
      rcases hroom with hlt | hle
      · rw [if_pos hlt]
        omega
      · split <;> omega
    rw [int_max] at htotal
    rw [run_eq hrequest, Call.run, hensure, ← hcap']
    cases b with
    | mk buf l k =>
      obtain rfl : l = len := h.len
      have hstore : (⟨buf, len, c.cap len cap⟩ : Buffer).storeAll len c.written =
          .ok ⟨overlay buf len c.written, len, c.cap len cap⟩ :=
        storeAll_ok (by show (len : Int) + _ ≤ (c.cap len cap : Int); omega)
      have hlen : int ((len : Int) + c.written.length) = (c.total len : Nat) := by
        rw [htotal', int_eq (by omega)]
        exact (Int.natCast_add _ _).symm
      refine ⟨⟨overlay buf len c.written, c.total len, c.cap len cap⟩, ?_, rfl, rfl,
        by omega, hlast.2⟩
      change (Buffer.storeAll _ len _).bind _ = _
      rw [hstore, ← hlen]
      rfl

theorem kept_of_measures (h : Measures b len cap) (hallowed : Allowed len cs) :
    Kept b cs ↔ Roomy len cap cs := by
  induction cs generalizing b len cap with
  | nil => exact Iff.rfl
  | cons c cs ih =>
    obtain ⟨hc, hcs⟩ := hallowed
    have hpromised : (∀ n ∈ c.request, Promised b n) ↔ ∀ n ∈ c.request, Grows len cap n := by
      refine forall_congr' fun n => forall_congr' fun hn => ?_
      obtain ⟨hpos, htotal, -⟩ := hc.request hn
      exact promised_iff h hpos htotal
    rw [Kept, Roomy, hpromised]
    refine and_congr_right fun hgrows => ?_
    obtain ⟨b', hrun, hmeasures⟩ := run_ok h hc hgrows
    rw [← ih hmeasures hcs]
    constructor
    · rintro ⟨b₁, hrun₁, hkept⟩
      rw [hrun] at hrun₁
      cases hrun₁
      exact hkept
    · intro hkept
      exact ⟨b', hrun, hkept⟩

/-- The promise is kept in exactly those sequences in which every growth is an `int`. -/
theorem kept_iff (fresh : Nat → UInt8) {size : Nat} (hsize : size ≤ INT_MAX)
    (hallowed : Allowed 0 cs) : Kept (bufferInit fresh size) cs ↔ Roomy 0 size cs :=
  kept_of_measures (measures_init fresh hsize) hallowed

/-- A buffer without storage that is written to and reset. -/
theorem kept_sample : Kept (bufferInit (fun _ => 0) 0)
      [.appendc 1, .ensureCapacity 2048 [2, 3], .reset 80, .append [4]] ↔
    Roomy 0 0 [.appendc 1, .ensureCapacity 2048 [2, 3], .reset 80, .append [4]] := by
  refine kept_iff (fun _ => 0) (Nat.zero_le INT_MAX) ⟨?_, ?_, ?_, ?_, trivial⟩
  · rintro n ⟨⟩
    decide
  · rintro n ⟨⟩
    decide
  · exact ⟨by decide, by decide⟩
  · rintro n ⟨⟩
    decide

/-- Half of the storage that an `int` can count is reserved twice. -/
theorem promise_broken : ¬ ∀ (fresh : Nat → UInt8) (size : Nat) (cs : List Call),
    size ≤ INT_MAX → Allowed 0 cs → Kept (bufferInit fresh size) cs := by
  intro hkept
  have hallowed : Allowed 0 [.ensureCapacity (2 ^ 30) []] := by
    refine ⟨?_, trivial⟩
    rintro n ⟨⟩
    decide
  obtain ⟨hpromised, -⟩ := hkept (fun _ => 0) (2 ^ 30) _ (by decide) hallowed
  obtain ⟨b', hok, -⟩ := (hpromised (2 ^ 30) rfl).room
  have hexit : bufferEnsureCapacity (bufferInit (fun _ => 0) (2 ^ 30)) (2 ^ 30 : Nat) =
      .error .exit := by
    rw [ensureCapacity_eq]
    rfl
  cases hok.symm.trans hexit

end Runs

end ComputerSystems.Pserv.Growth
