/- The machine that the allocator runs on: 64-bit integers, assertions and the program state. -/

import ComputerSystems.Memory.Bytes
import ComputerSystems.Systems.Computations

set_option autoImplicit false
set_option relaxedAutoImplicit false

namespace ComputerSystems.Malloc.Machine

open ComputerSystems.Memory.Bytes
open ComputerSystems.Systems.Computations (bind_ok bind_inv pure_ok get_ok)

/-- `size_t` and pointer addition. -/
def add64 (a b : Nat) : Nat := (a + b) % 2 ^ 64

/-- `size_t` and pointer subtraction. -/
def sub64 (a b : Nat) : Nat := (a + (2 ^ 64 - b % 2 ^ 64)) % 2 ^ 64

/-- `size_t` multiplication. -/
def mul64 (a b : Nat) : Nat := a * b % 2 ^ 64

/-- Conversion of a `size_t` to `int`: the low 32 bits as two's complement. -/
def toInt (n : Nat) : Int := ((n : Int) + 2 ^ 31) % 2 ^ 32 - 2 ^ 31

/-- Conversion of an `int` to `size_t`: sign extension. -/
def ofInt (z : Int) : Nat := (z % 2 ^ 64).toNat

theorem add64_eq {a b : Nat} (h : a + b < 2 ^ 64) : add64 a b = a + b := Nat.mod_eq_of_lt h

theorem mul64_eq {a b : Nat} (h : a * b < 2 ^ 64) : mul64 a b = a * b := Nat.mod_eq_of_lt h

theorem sub64_eq {a b : Nat} (hb : b ≤ a) (ha : a < 2 ^ 64) : sub64 a b = a - b := by
  unfold sub64
  omega

theorem toInt_eq {n : Nat} (h : n < 2 ^ 31) : toInt n = n := by
  unfold toInt
  omega

theorem ofInt_natCast {n : Nat} (h : n < 2 ^ 64) : ofInt n = n := by
  unfold ofInt
  omega

/-- `config.h`: alignment of payloads in bytes, and the size of the simulated heap in bytes. -/
def ALIGNMENT : Nat := 16
def MAX_HEAP : Nat := 1024 * 2 ^ 20

/-- Where the program's data lies. `ndebug` tells the production build, which drops assertions,
from the debugging build. `mem_init` sets `mem_max_addr` to `mem_start_brk + MAX_HEAP`; a smaller
`heapSize` lets a run exhaust the heap at any earlier point. -/
structure Layout where
  memStartBrk : Nat
  heapSize : Nat
  freeLists : Nat
  ndebug : Bool
  start_pos : 0 < memStartBrk
  start_aligned : memStartBrk % ALIGNMENT = 0
  heapSize_le : heapSize ≤ MAX_HEAP
  start_below : memStartBrk + MAX_HEAP < 2 ^ 63
  lists_pos : 0 < freeLists
  lists_below : freeLists + 400 < 2 ^ 63
  lists_apart : freeLists + 400 ≤ memStartBrk ∨ memStartBrk + heapSize ≤ freeLists

def Layout.memMaxAddr (L : Layout) : Nat := L.memStartBrk + L.heapSize

/-- A call of `insert_free_block` or of `remove_free_block` on a block, with the memory that the
call found. -/
inductive Call where
  | insert (mem : Mem) (blk : Nat)
  | remove (mem : Mem) (blk : Nat)

/-- The memory and the static variables of `memlib.c` and `mm.c`. `calls` is no variable of the
program: it records what the free-list routines were called on. -/
structure State where
  mem : Mem
  memBrk : Nat
  heapListp : Nat
  mid : Nat → Nat
  calls : List Call

inductive Fault where
  | assertion
  | nullPointer
  deriving DecidableEq, Repr

/-- A piece of the program changes the state and returns a value, or a failed assertion or an access
through NULL stops it. -/
abbrev Prog := StateT State (Except Fault)

/-- `assert (c)`. -/
def assert (L : Layout) (c : Bool) : Prog Unit :=
  if L.ndebug || c then pure () else throw Fault.assertion

/-- An access through the pointer `a`: address 0 is never mapped. -/
def access (a : Nat) : Prog Unit :=
  if a = 0 then throw Fault.nullPointer else pure ()

def readWord (a k : Nat) : Prog Nat := do
  access a
  return load (← get).mem a k

def writeWord (a k v : Nat) : Prog Unit := do
  access a
  modify fun s => { s with mem := store s.mem a k v }

/-- `memmove (dst, src, n)`. -/
def memmove (dst src n : Nat) : Prog Unit :=
  modify fun s => { s with mem := move s.mem dst src n }

def record (call : Mem → Call) : Prog Unit :=
  modify fun s => { s with calls := s.calls ++ [call s.mem] }

section Runs

variable {s : State}

theorem modify_ok (f : State → State) : (modify f : Prog Unit) s = .ok ((), f s) := rfl

theorem assert_ok {L : Layout} {c : Bool} (h : c = true) : assert L c s = .ok ((), s) := by
  simp [assert, h, pure_ok]

theorem access_ok {a : Nat} (h : a ≠ 0) : access a s = .ok ((), s) := by
  rw [access, if_neg h, pure_ok]

theorem access_null {a : Nat} (h : a = 0) : access a s = .error .nullPointer := by
  rw [access, if_pos h]
  rfl

theorem readWord_ok {a : Nat} (k : Nat) (h : a ≠ 0) :
    readWord a k s = .ok (load s.mem a k, s) := by
  rw [readWord, bind_ok (access_ok h), bind_ok get_ok, pure_ok]

theorem writeWord_ok {a : Nat} (k v : Nat) (h : a ≠ 0) :
    writeWord a k v s = .ok ((), { s with mem := store s.mem a k v }) := by
  rw [writeWord, bind_ok (access_ok h), modify_ok]

theorem memmove_ok (dst src n : Nat) :
    memmove dst src n s = .ok ((), { s with mem := move s.mem dst src n }) := rfl

theorem record_ok (call : Mem → Call) :
    record call s = .ok ((), { s with calls := s.calls ++ [call s.mem] }) := rfl

end Runs

section Calls

variable {α β : Type} {L : Layout}

theorem exists_of_result {α : Type} {x : Except Fault (α × State)} {a : α}
    (h : x.map Prod.fst = .ok a) : ∃ s, x = .ok (a, s) := by
  cases x with
  | error e => cases h
  | ok r =>
    cases h
    exact ⟨r.2, rfl⟩

/-- Whatever the program does, it relates the states before and after. -/
def Ensures (R : State → State → Prop) (x : Prog α) : Prop :=
  ∀ s a s', x s = .ok (a, s') → R s s'

abbrev KeepsCalls (x : Prog α) : Prop := Ensures (fun s s' => s.calls ⊆ s'.calls) x

abbrev ReadOnly (x : Prog α) : Prop := Ensures (fun s s' => s' = s) x

structure Stable (R : State → State → Prop) : Prop where
  refl : ∀ s, R s s
  trans : ∀ {s t u}, R s t → R t u → R s u
  write : ∀ s m, R s { s with mem := m }
  record : ∀ s call, R s { s with calls := s.calls ++ [call] }
  sbrk : ∀ s n, R s { s with memBrk := s.memBrk + n }

variable {R : State → State → Prop} {x : Prog α} {f : α → Prog β}

theorem Ensures.bind_of_trans (htrans : ∀ {s t u}, R s t → R t u → R s u) (hx : Ensures R x)
    (hf : ∀ a, Ensures R (f a)) : Ensures R (x >>= f) := by
  intro s b s' h
  obtain ⟨a, t, hxs, hft⟩ := bind_inv h
  exact htrans (hx s a t hxs) (hf a t b s' hft)

theorem ReadOnly.bind (hx : ReadOnly x) (hf : ∀ a, ReadOnly (f a)) : ReadOnly (x >>= f) :=
  hx.bind_of_trans (fun h h' => h'.trans h) hf

theorem Stable.bind (hR : Stable R) (hx : Ensures R x) (hf : ∀ a, Ensures R (f a)) :
    Ensures R (x >>= f) :=
  hx.bind_of_trans hR.trans hf

theorem ensures_ite {c : Prop} [Decidable c] {y : Prog α} (hx : Ensures R x) (hy : Ensures R y) :
    Ensures R (if c then x else y) := by
  split
  · exact hx
  · exact hy

theorem Stable.readOnly (hR : Stable R) (hx : ReadOnly x) : Ensures R x := by
  intro s a s' h
  rw [hx s a s' h]
  exact hR.refl s

theorem readOnly_pure (a : α) : ReadOnly (pure a : Prog α) := by
  intro s b s' h
  cases h
  rfl

theorem readOnly_get : ReadOnly (get : Prog State) := by
  intro s b s' h
  cases h
  rfl

theorem readOnly_access (a : Nat) : ReadOnly (access a) := by
  intro s b s' h
  unfold access at h
  split at h
  · cases h
  · exact readOnly_pure () s b s' h

theorem readOnly_assert (c : Bool) : ReadOnly (assert L c) := by
  intro s b s' h
  unfold assert at h
  split at h
  · exact readOnly_pure () s b s' h
  · cases h

theorem readOnly_readWord (a k : Nat) : ReadOnly (readWord a k) :=
  (readOnly_access a).bind fun _ => readOnly_get.bind fun _ => readOnly_pure _

theorem Stable.writeWord (hR : Stable R) (a k v : Nat) : Ensures R (writeWord a k v) := by
  refine hR.bind (hR.readOnly (readOnly_access a)) fun _ => ?_
  intro s b s' h
  cases h
  exact hR.write s _

theorem Stable.memmove (hR : Stable R) (dst src n : Nat) : Ensures R (memmove dst src n) := by
  intro s b s' h
  cases h
  exact hR.write s _

theorem Stable.recordCall (hR : Stable R) (call : Mem → Call) : Ensures R (Machine.record call) := by
  intro s b s' h
  cases h
  exact hR.record s _

theorem stable_calls : Stable fun s s' : State => s.calls ⊆ s'.calls where
  refl s := List.Subset.refl _
  trans h h' := List.Subset.trans h h'
  write s m := List.Subset.refl _
  record s call := List.subset_append_left _ _
  sbrk s n := List.Subset.refl _

end Calls

end ComputerSystems.Malloc.Machine
