/- `buffer.h`: growing buffers with `int` fields. -/

import ComputerSystems.Memory.CStrings
import ComputerSystems.Pserv.Strings

set_option autoImplicit false
set_option relaxedAutoImplicit false

namespace ComputerSystems.Pserv.Buffers

open ComputerSystems.Memory.CStrings
open ComputerSystems.Pserv.Strings

/-- Why the server stops, or has no defined behaviour: an access outside of its storage, a failed
assertion on an offset, the failed assertion that there is a base directory, a text for `vsnprintf`
whose length is no `int`, `exit`, or a loop that has used up the steps it is given. -/
inductive Stop where
  | outOfBounds
  | assertion
  | noBaseDirectory
  | overflow
  | exit
  | steps
  deriving DecidableEq, Repr

/-- Arithmetic on `int`. -/
def int (z : Int) : Int := Int.bmod z (2 ^ 32)

/-- `buffer_t`. -/
structure Buffer where
  buf : Nat → UInt8
  len : Int
  cap : Int

def Buffer.storage (b : Buffer) : Storage := ⟨b.buf, b.cap.toNat⟩

def Buffer.contents (b : Buffer) : Bytes := b.storage.slice 0 b.len.toNat

/-- `buf[p] = c`. -/
def Buffer.store (b : Buffer) (p : Int) (c : UInt8) : Except Stop Buffer :=
  if 0 ≤ p ∧ p < b.cap then .ok { b with buf := Function.update b.buf p.toNat c }
  else .error .outOfBounds

/-- `memcpy(&buf[p], l, length of l)`. -/
def Buffer.storeAll (b : Buffer) : Int → Bytes → Except Stop Buffer
  | _, [] => .ok b
  | p, c :: l => do
    let b ← b.store p c
    b.storeAll (p + 1) l

/-- `buffer_init`; `fresh` is what `malloc` finds in the storage. -/
def bufferInit (fresh : Nat → UInt8) (initialsize : Int) : Buffer :=
  ⟨fresh, 0, initialsize⟩

def bufferReset (b : Buffer) (size : Int) : Buffer :=
  { b with len := 0, cap := if b.cap > size then size else b.cap }

/-- `buffer_ensure_capacity`, which returns the offset `len`. A size that is not positive is more
than `realloc` can give. -/
def bufferEnsureCapacity (b : Buffer) (len : Int) : Except Stop Buffer :=
  if int (b.len + len) ≥ b.cap then
    let cap := int (int (b.cap * 2) + len)
    if cap ≤ 0 then .error .exit else .ok { b with cap := cap }
  else .ok b

def bufferAppend (b : Buffer) (mem : Bytes) : Except Stop Buffer := do
  let b ← bufferEnsureCapacity b mem.length
  let b ← b.storeAll b.len mem
  return { b with len := int (b.len + mem.length) }

def bufferAppendc (b : Buffer) (c : UInt8) : Except Stop Buffer := do
  let b ← bufferEnsureCapacity b 1
  let b ← b.store b.len c
  return { b with len := int (b.len + 1) }

def bufferAppends (b : Buffer) (str : Bytes) : Except Stop Buffer :=
  bufferAppend b str

section Stores

variable {b : Buffer} {p n : Nat} {c : UInt8} {l : Bytes}

theorem int_eq {z : Int} (h : -2 ^ 31 ≤ z ∧ z < 2 ^ 31) : int z = z := by
  rw [int, Int.bmod_def]
  omega

theorem store_ok (h : (p : Int) < b.cap) :
    b.store p c = .ok { b with buf := Function.update b.buf p c } := by
  rw [Buffer.store, if_pos ⟨Int.natCast_nonneg p, h⟩, Int.toNat_natCast]

theorem storeAll_ok (h : (p : Int) + l.length ≤ b.cap) :
    b.storeAll p l = .ok { b with buf := overlay b.buf p l } := by
  induction l generalizing b p with
  | nil => rw [Buffer.storeAll, overlay_nil]
  | cons c l ih =>
    simp only [List.length_cons] at h
    rw [Buffer.storeAll, store_ok (by omega)]
    have hrest := ih (b := { b with buf := Function.update b.buf p c }) (p := p + 1) (by
      show ((p + 1 : Nat) : Int) + l.length ≤ b.cap
      omega)
    rw [overlay_cons] at hrest
    exact hrest

theorem int_lt {z : Int} : int z < 2 ^ 31 := by
  rw [int, Int.bmod_def]
  omega

theorem storeAll_inv {b' : Buffer} {p : Int} (hp : 0 ≤ p) (h : b.storeAll p l = .ok b') :
    b' = { b with buf := overlay b.buf p.toNat l } ∧ (l = [] ∨ p + l.length ≤ b.cap) := by
  induction l generalizing b p with
  | nil =>
    cases h
    exact ⟨by rw [overlay_nil], Or.inl rfl⟩
  | cons c l ih =>
    rw [Buffer.storeAll] at h
    by_cases hroom : 0 ≤ p ∧ p < b.cap
    · rw [Buffer.store, if_pos hroom] at h
      obtain ⟨hb', hfits⟩ := ih (by omega) h
      have hnext : (p + 1).toNat = p.toNat + 1 := by omega
      refine ⟨?_, Or.inr ?_⟩
      · rw [hb', hnext, overlay_cons]
      · rw [List.length_cons]
        rcases hfits with rfl | hfits
        · simp only [List.length_nil]
          omega
        · dsimp only at hfits
          omega
    · rw [Buffer.store, if_neg hroom] at h
      cases h

end Stores

structure Buffer.Sound (b : Buffer) : Prop where
  nonneg : 0 ≤ b.len
  fits : b.len ≤ b.cap
  small : b.cap < 2 ^ 31

section Contents

variable {b b' : Buffer} {l text : Bytes} {n : Nat}

theorem sound_init {fresh : Nat → UInt8} {size : Nat} (h : size < 2 ^ 31) :
    (bufferInit fresh size).Sound :=
  ⟨Int.le_refl 0, Int.natCast_nonneg size, by show (size : Int) < 2 ^ 31; omega⟩

theorem length_contents : b.contents.length = b.len.toNat := Storage.length_slice

/-- Bytes are put behind the end of a buffer, and `n` of them are counted. -/
theorem contents_overlay {cap : Int} (h : b.Sound) (hn : n ≤ l.length) :
    (⟨overlay b.buf b.len.toNat l, b.len + n, cap⟩ : Buffer).contents =
      b.contents ++ l.take n := by
  have hnonneg := h.nonneg
  have hlen : (b.len + n).toNat = b.len.toNat + n := by omega
  rw [Buffer.contents, Buffer.contents, hlen, Storage.slice_add]
  congr 1
  · exact Storage.slice_congr fun i _ hi => overlay_outside (Or.inl (by omega))
  · have hholds : (⟨overlay b.buf b.len.toNat l, b.len.toNat + l.length⟩ : Storage).Holds
        b.len.toNat l := by
      refine Storage.holds_of_getElem (fun i hi => ?_) (Nat.le_refl _)
      show l[i]? = some (overlay b.buf b.len.toNat l (b.len.toNat + i))
      rw [overlay_inside (List.getElem?_eq_getElem hi), List.getElem?_eq_getElem hi]
    rw [← List.take_append_drop n l] at hholds
    have hslice := (Storage.holds_append.mp hholds).1.1
    rw [List.length_take, Nat.min_eq_left hn, List.take_append_drop] at hslice
    rw [Nat.zero_add, ← hslice]
    exact Storage.slice_congr fun i _ _ => rfl

theorem ensureCapacity_cap {size : Int} (hok : bufferEnsureCapacity b size = .ok b') :
    ∃ cap, b' = { b with cap := cap } ∧ (b.cap < 2 ^ 31 → cap < 2 ^ 31) := by
  rw [bufferEnsureCapacity] at hok
  dsimp only at hok
  split at hok
  · split at hok
    · cases hok
    · cases hok
      exact ⟨_, rfl, fun _ => int_lt⟩
  · cases hok
    exact ⟨b.cap, rfl, fun h => h⟩

theorem ensureCapacity_inv (h : b.Sound) (hok : bufferEnsureCapacity b n = .ok b') :
    ∃ cap, b' = { b with cap := cap } ∧ cap < 2 ^ 31 ∧ (n = 0 → b.len ≤ cap) := by
  have hnonneg := h.nonneg
  have hfits := h.fits
  have hsmall := h.small
  rw [bufferEnsureCapacity] at hok
  split at hok
  · dsimp only at hok
    split at hok
    · cases hok
    · rename_i hpos
      cases hok
      refine ⟨_, rfl, int_lt, ?_⟩
      rintro rfl
      rw [int, int, Int.bmod_def, Int.bmod_def] at hpos ⊢
      omega
  · cases hok
    exact ⟨b.cap, rfl, hsmall, fun _ => hfits⟩

theorem store_end (h : b.Sound) {size : Nat} (hok : (do
      let b ← bufferEnsureCapacity b size
      let b ← b.storeAll b.len l
      return { b with len := int (b.len + n) } : Except Stop Buffer) = .ok b')
    (hn : n ≤ l.length) (hsize : l = [] → size = 0) :
    b'.Sound ∧ b'.contents = b.contents ++ l.take n := by
  have hnonneg := h.nonneg
  cases hensure : bufferEnsureCapacity b size with
  | error e =>
    rw [hensure] at hok
    cases hok
  | ok b₁ =>
    rw [hensure] at hok
    obtain ⟨cap, rfl, hsmall, hempty⟩ := ensureCapacity_inv h hensure
    cases hstore : ({ b with cap := cap } : Buffer).storeAll b.len l with
    | error e =>
      change (Buffer.storeAll _ b.len l).bind _ = _ at hok
      rw [hstore] at hok
      cases hok
    | ok b₂ =>
      change (Buffer.storeAll _ b.len l).bind _ = _ at hok
      rw [hstore] at hok
      obtain ⟨rfl, hroom⟩ := storeAll_inv hnonneg hstore
      cases hok
      have hfits : b.len + n ≤ cap := by
        rcases hroom with rfl | hroom
        · have hle := hempty (hsize rfl)
          simp only [List.length_nil] at hn
          omega
        · dsimp only at hroom
          omega
      have hlen : int (b.len + n) = b.len + n := int_eq (by omega)
      dsimp only
      rw [hlen]
      exact ⟨⟨by show 0 ≤ b.len + n; omega, hfits, hsmall⟩, contents_overlay h hn⟩

theorem bufferAppend_inv (h : b.Sound) (hok : bufferAppend b l = .ok b') :
    b'.Sound ∧ b'.contents = b.contents ++ l := by
  have hstored := store_end h hok (Nat.le_refl _) fun hl => by rw [hl, List.length_nil]
  rwa [List.take_length] at hstored

end Contents

end ComputerSystems.Pserv.Buffers
