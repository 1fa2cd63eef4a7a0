/- Byte-addressed memories: little-endian words and the bytes that a store reaches. -/

import Mathlib.Data.Nat.Basic
import Mathlib.Tactic.Linarith
import Mathlib.Tactic.Ring

set_option autoImplicit false
set_option relaxedAutoImplicit false

namespace ComputerSystems.Memory.Bytes

/-- A memory gives every address its byte; which addresses are mapped is not its concern. -/
abbrev Mem := Nat → UInt8

/-- The `k`-byte little-endian word at address `a`. -/
def load (m : Mem) (a : Nat) : Nat → Nat
  | 0 => 0
  | k + 1 => (m a).toNat + 256 * load m (a + 1) k

/-- Overwrite the `k` bytes from `a` on with the little-endian word `v`. -/
def store (m : Mem) (a k v : Nat) : Mem := fun x =>
  if a ≤ x ∧ x < a + k then UInt8.ofNat (v / 256 ^ (x - a)) else m x

/-- Copy `k` bytes from `src` to `dst`; all source bytes are read before any is written. -/
def move (m : Mem) (dst src k : Nat) : Mem := fun x =>
  if dst ≤ x ∧ x < dst + k then m (src + (x - dst)) else m x

/-- Two memories hold the same bytes from `a` up to, not including, `b`. -/
def Agree (m m' : Mem) (a b : Nat) : Prop := ∀ x, a ≤ x → x < b → m' x = m x

theorem Agree.refl (m : Mem) (a b : Nat) : Agree m m a b := fun _ _ _ => rfl

theorem Agree.trans {m m' m'' : Mem} {a b : Nat} (h : Agree m m' a b) (h' : Agree m' m'' a b) :
    Agree m m'' a b := fun x hx hx' => (h' x hx hx').trans (h x hx hx')

theorem Agree.mono {m m' : Mem} {a b c d : Nat} (h : Agree m m' a b) (hc : a ≤ c) (hd : d ≤ b) :
    Agree m m' c d := fun x hx hx' => h x (by omega) (by omega)

theorem store_outside {m : Mem} {a k v x : Nat} (h : x < a ∨ a + k ≤ x) :
    store m a k v x = m x := by
  unfold store
  rw [if_neg (by omega)]

theorem store_agree {m : Mem} {a k v c d : Nat} (h : d ≤ a ∨ a + k ≤ c) :
    Agree m (store m a k v) c d := fun _ _ _ => store_outside (by omega)

theorem move_outside {m : Mem} {dst src k x : Nat} (h : x < dst ∨ dst + k ≤ x) :
    move m dst src k x = m x := by
  unfold move
  rw [if_neg (by omega)]

theorem move_inside {m : Mem} {dst src k i : Nat} (h : i < k) :
    move m dst src k (dst + i) = m (src + i) := by
  unfold move
  rw [if_pos (by omega), Nat.add_sub_cancel_left]

theorem load_congr {m m' : Mem} {a k : Nat} (h : Agree m m' a (a + k)) :
    load m' a k = load m a k := by
  induction k generalizing a with
  | zero => rfl
  | succ k ih =>
    have htail : Agree m m' (a + 1) (a + 1 + k) := h.mono (by omega) (by omega)
    simp only [load, h a le_rfl (by omega), ih htail]

theorem load_store_disjoint {m : Mem} {a k v b j : Nat} (h : b + j ≤ a ∨ a + k ≤ b) :
    load (store m a k v) b j = load m b j :=
  load_congr (store_agree (by omega))

/-- Reading the bytes `i, i + 1, ..` of a stored word gives the corresponding digits of it. -/
private theorem load_store_suffix (m : Mem) (a k v : Nat) (j i : Nat) (h : i + j ≤ k) :
    load (store m a k v) (a + i) j = v / 256 ^ i % 256 ^ j := by
  induction j generalizing i with
  | zero => simp [load, Nat.mod_one]
  | succ j ih =>
    have hbyte : (store m a k v (a + i)).toNat = v / 256 ^ i % 256 := by
      unfold store
      rw [if_pos (by omega), Nat.add_sub_cancel_left, UInt8.toNat_ofNat']
    have htail := ih (i + 1) (by omega)
    rw [load, hbyte, Nat.add_assoc, htail, Nat.pow_succ 256 i, ← Nat.div_div_eq_div_mul,
      Nat.pow_succ', Nat.mod_mul]

theorem load_store_same {m : Mem} {a k v : Nat} (h : v < 256 ^ k) :
    load (store m a k v) a k = v := by
  have hsuffix := load_store_suffix m a k v k 0 (by omega)
  simpa [Nat.mod_eq_of_lt h] using hsuffix

theorem load_lt (m : Mem) (a k : Nat) : load m a k < 256 ^ k := by
  induction k generalizing a with
  | zero => simp [load]
  | succ k ih =>
    have hbyte := (m a).toNat_lt
    have htail := ih (a + 1)
    rw [load, Nat.pow_succ]
    omega

end ComputerSystems.Memory.Bytes
