/- Stretches of an array, between two inclusive bounds. -/

import Mathlib.Data.List.Range
import Mathlib.Data.Int.Basic

set_option autoImplicit false
set_option relaxedAutoImplicit false

namespace ComputerSystems.Memory.Segments

variable {α : Type}

/-- The values at `l..r`; none when `r` is less than `l`. -/
def segment (f : Int → α) (l r : Int) : List α :=
  (List.range (r + 1 - l).toNat).map fun i : Nat => f (l + i)

variable {f g : Int → α} {l m r : Int}

theorem segment_nil (h : r < l) : segment f l r = [] := by
  have hlength : (r + 1 - l).toNat = 0 := by omega
  rw [segment, hlength]
  rfl

theorem segment_single : segment f l l = [f l] := by
  have hlength : (l + 1 - l).toNat = 1 := by omega
  rw [segment, hlength]
  simp

theorem segment_split (hl : l ≤ m + 1) (hr : m ≤ r) :
    segment f l r = segment f l m ++ segment f (m + 1) r := by
  have hlength : (r + 1 - l).toNat = (m + 1 - l).toNat + (r + 1 - (m + 1)).toNat := by omega
  rw [segment, hlength, List.range_add, List.map_append, List.map_map]
  refine congrArg _ (List.map_congr_left fun i _ => congrArg f ?_)
  dsimp only
  omega

theorem segment_cons (h : l ≤ r) : segment f l r = f l :: segment f (l + 1) r := by
  rw [segment_split (by omega : l ≤ l + 1) h, segment_single]
  rfl

theorem segment_concat (h : l ≤ r) : segment f l r = segment f l (r - 1) ++ [f r] := by
  rw [segment_split (by omega : l ≤ r - 1 + 1) (by omega), Int.sub_add_cancel, segment_single]

theorem segment_congr (h : ∀ i, l ≤ i → i ≤ r → f i = g i) : segment f l r = segment g l r := by
  refine List.map_congr_left fun i hi => h _ ?_ ?_
  · omega
  · have hlt := List.mem_range.mp hi
    omega

theorem segment_inj (h : segment f l r = segment g l r) (i : Int) (hl : l ≤ i) (hr : i ≤ r) :
    f i = g i := by
  have hpoint := List.map_inj_left.mp h (i - l).toNat (List.mem_range.mpr (by omega))
  have hi : l + ((i - l).toNat : Int) = i := by omega
  rwa [hi] at hpoint

theorem mem_segment {x : α} : x ∈ segment f l r ↔ ∃ i, l ≤ i ∧ i ≤ r ∧ f i = x := by
  simp only [segment, List.mem_map, List.mem_range]
  constructor
  · rintro ⟨i, hi, rfl⟩
    exact ⟨l + i, by omega, by omega, rfl⟩
  · rintro ⟨i, hl, hr, rfl⟩
    exact ⟨(i - l).toNat, by omega, congrArg f (by omega)⟩

theorem pairwise_segment {R : α → α → Prop} :
    (segment f l r).Pairwise R ↔ ∀ i j, l ≤ i → i < j → j ≤ r → R (f i) (f j) := by
  rw [segment, List.pairwise_map, List.pairwise_iff_getElem]
  simp only [List.length_range, List.getElem_range]
  constructor
  · intro h i j hi hij hj
    have hpair := h (i - l).toNat (j - l).toNat (by omega) (by omega) (by omega)
    have hi' : l + ((i - l).toNat : Int) = i := by omega
    have hj' : l + ((j - l).toNat : Int) = j := by omega
    rwa [hi', hj'] at hpair
  · intro h i j hi hj hij
    exact h _ _ (by omega) (by omega) (by omega)

end ComputerSystems.Memory.Segments
