/- The two merge sorts, and the places that each of their parts keeps to. -/

import ComputerSystems.Systems.ForkJoin
import Mathlib.Tactic.Linarith

set_option autoImplicit false
set_option relaxedAutoImplicit false

namespace ComputerSystems.Mergesort.Program

open ComputerSystems.Systems.ForkJoin

inductive Place where
  | array (i : Int)
  | tmp (i : Int)
deriving DecidableEq

abbrev Code := Prog Place Int

abbrev Store := Memory Place Int

def INT_MAX : Int := 2147483647

def SERIAL_MERGE_SORT_THRESHOLD : Int := 1000

def minTaskSize : Int := SERIAL_MERGE_SORT_THRESHOLD

def INSERTION_SORT_THRESHOLD : Int := 16

def insertionSortThreshold : Int := INSERTION_SORT_THRESHOLD

/-- The inner loop of `insertionsort`, and the write behind it. -/
def insertLoop (lo t j : Int) : Code :=
  if _h : j > lo then
    .read (.array (j - 1)) fun x =>
      if t < x then
        .read (.array (j - 1)) fun x => .write (.array j) x (insertLoop lo t (j - 1))
      else .write (.array j) t .done
  else .write (.array j) t .done
termination_by (j - lo).toNat

def insertionsortLoop (lo hi i : Int) : Code :=
  if _h : i ≤ hi then
    .read (.array i) fun t => (insertLoop lo t i).andThen (insertionsortLoop lo hi (i + 1))
  else .done
termination_by (hi + 1 - i).toNat

def insertionsort (lo hi : Int) : Code := insertionsortLoop lo hi (lo + 1)

/-- Copies `n` elements, those from `s` on to those from `d` on. -/
def memcpy (dst src : Int → Place) (d s : Int) : Nat → Code
  | 0 => .done
  | n + 1 => .read (src s) fun x => .write (dst d) x (memcpy dst src (d + 1) (s + 1) n)

/-- The loop of `merge`, and the copy of what is left behind it. -/
def mergeLoop (b right i j k : Int) : Code :=
  if _h : k < j ∧ j ≤ right then
    .read (.tmp (b + i)) fun x => .read (.array j) fun y =>
      if x < y then
        .read (.tmp (b + i)) fun x => .write (.array k) x (mergeLoop b right (i + 1) j (k + 1))
      else .read (.array j) fun y => .write (.array k) y (mergeLoop b right i (j + 1) (k + 1))
  else memcpy .array .tmp k (b + i) (j - k).toNat
termination_by (right + 1 - k).toNat

/-- `b` is an offset into the temporary array. -/
def merge (b bstart left m right : Int) : Code :=
  .read (.array m) fun x => .read (.array (m + 1)) fun y =>
    if x ≤ y then .done
    else
      (memcpy .tmp .array (b + bstart) left (m - left + 1).toNat).andThen
        (mergeLoop b right bstart (m + 1) left)

/-- `tmp` is an offset into the temporary array. A sum that does not fit an `int` has no defined
value. -/
def mergesortInternal (tmp left right : Int) : Code :=
  if _h : right - left < insertionSortThreshold then insertionsort left right
  else if left + right ≤ INT_MAX then
    let m := (left + right) / 2
    (mergesortInternal tmp left m).andThen
      ((mergesortInternal tmp (m + 1) right).andThen (merge tmp 0 left m right))
  else .stuck
termination_by (right - left).toNat
decreasing_by all_goals simp only [insertionSortThreshold, INSERTION_SORT_THRESHOLD] at _h; omega

def mergesortSerial (n : Int) : Code :=
  if n < insertionSortThreshold then insertionsort 0 n else mergesortInternal 0 0 (n - 1)

/-- The left half is submitted to the pool; `future_get` joins it. -/
def mergesortInternalParallel (tmp left right : Int) : Code :=
  if _h : right - left ≤ minTaskSize then mergesortInternal (tmp + left) left right
  else if left + right ≤ INT_MAX then
    let m := (left + right) / 2
    .fork (mergesortInternalParallel tmp left m) (mergesortInternalParallel tmp (m + 1) right)
      (merge tmp left left m right)
  else .stuck
termination_by (right - left).toNat
decreasing_by all_goals simp only [minTaskSize, SERIAL_MERGE_SORT_THRESHOLD] at _h; omega

def mergesortParallel (n : Int) : Code := mergesortInternalParallel 0 0 (n - 1)

/-- The array from `l` to `r` and the temporary array from `a` to `e`. -/
def Cells (l r a e : Int) : Place → Prop
  | .array i => l ≤ i ∧ i ≤ r
  | .tmp i => a ≤ i ∧ i ≤ e

section Bounds

variable {lo hi t i j k b bstart tmp left m right l r l' r' a e a' e' : Int} {p : Place}

theorem cells_mono (hl : l' ≤ l) (hr : r ≤ r') (ha : a' ≤ a) (he : e ≤ e')
    (p : Place) (h : Cells l r a e p) : Cells l' r' a' e' p := by
  cases p with
  | array i => exact ⟨hl.trans h.1, h.2.trans hr⟩
  | tmp i => exact ⟨ha.trans h.1, h.2.trans he⟩

theorem cells_apart (hr : r < l') (he : e < a') (p : Place) (h : Cells l r a e p) :
    ¬ Cells l' r' a' e' p := by
  intro h'
  cases p with
  | array i => exact absurd (h.2.trans_lt hr) (not_lt.mpr h'.1)
  | tmp i => exact absurd (h.2.trans_lt he) (not_lt.mpr h'.1)

theorem insertLoop_confined (hlo : lo ≤ j) (hr : j ≤ r) :
    Confined (insertLoop lo t j) (Cells lo r a e) := by
  induction hn : (j - lo).toNat generalizing j with
  | zero =>
    rw [insertLoop, dif_neg (by omega)]
    exact .write ⟨hlo, hr⟩ .done
  | succ n ih =>
    rw [insertLoop, dif_pos (by omega)]
    refine .read ⟨by omega, by omega⟩ ?_
    intro x
    split
    · refine .read ⟨by omega, by omega⟩ ?_
      intro x
      exact .write ⟨hlo, hr⟩ (ih (by omega) (by omega) (by omega))
    · exact .write ⟨hlo, hr⟩ .done

theorem insertionsortLoop_confined (hi' : lo ≤ i) :
    Confined (insertionsortLoop lo hi i) (Cells lo hi a e) := by
  induction hn : (hi + 1 - i).toNat generalizing i with
  | zero =>
    rw [insertionsortLoop, dif_neg (by omega)]
    exact .done
  | succ n ih =>
    rw [insertionsortLoop, dif_pos (by omega)]
    refine .read ⟨hi', by omega⟩ ?_
    intro t
    exact (insertLoop_confined hi' (by omega)).andThen (ih (by omega) (by omega))

theorem insertionsort_confined : Confined (insertionsort lo hi) (Cells lo hi a e) :=
  insertionsortLoop_confined (by omega)

theorem insertionsort_done (h : hi ≤ lo) : insertionsort lo hi = .done := by
  rw [insertionsort, insertionsortLoop, dif_neg (by omega)]

theorem memcpy_confined {dst src : Int → Place} {d s : Int} {n : Nat} {R : Place → Prop}
    (hd : ∀ i, d ≤ i → i < d + n → R (dst i)) (hs : ∀ i, s ≤ i → i < s + n → R (src i)) :
    Confined (memcpy dst src d s n) R := by
  induction n generalizing d s with
  | zero => exact .done
  | succ n ih =>
    refine .read (hs s (by omega) (by omega)) fun x => .write (hd d (by omega) (by omega)) ?_
    exact ih (fun i hl hr => hd i (by omega) (by omega)) fun i hl hr => hs i (by omega) (by omega)

/-- What is not yet merged of the left half is as long as the gap between `k` and `j`. -/
theorem mergeLoop_confined (hk : left ≤ k) (hkj : k ≤ j) (hj : j ≤ right + 1) (ha : a ≤ b + i)
    (he : b + i + (j - k) ≤ e + 1) :
    Confined (mergeLoop b right i j k) (Cells left right a e) := by
  induction hn : (right + 1 - k).toNat generalizing i j k with
  | zero =>
    rw [mergeLoop, dif_neg (by omega)]
    exact memcpy_confined (fun i hl hr => ⟨by omega, by omega⟩) fun i hl hr => ⟨by omega, by omega⟩
  | succ n ih =>
    rw [mergeLoop]
    split
    · refine .read ⟨ha, by omega⟩ ?_
      intro x
      refine .read ⟨by omega, by omega⟩ ?_
      intro y
      split
      · refine .read ⟨ha, by omega⟩ ?_
        intro x
        exact .write ⟨hk, by omega⟩
          (ih (by omega) (by omega) hj (by omega) (by omega) (by omega))
      · refine .read ⟨by omega, by omega⟩ ?_
        intro y
        exact .write ⟨hk, by omega⟩
          (ih (by omega) (by omega) (by omega) ha (by omega) (by omega))
    · exact memcpy_confined (fun i hl hr => ⟨by omega, by omega⟩)
        fun i hl hr => ⟨by omega, by omega⟩

theorem merge_confined (hl : left ≤ m) (hr : m + 1 ≤ right) :
    Confined (merge b bstart left m right)
      (Cells left right (b + bstart) (b + bstart + (m - left))) := by
  refine .read ⟨hl, by omega⟩ ?_
  intro x
  refine .read ⟨by omega, hr⟩ ?_
  intro y
  split
  · exact .done
  · refine .andThen (memcpy_confined ?_ ?_) (mergeLoop_confined ?_ ?_ ?_ ?_ ?_)
    · exact fun i hl hr => ⟨hl, by omega⟩
    · exact fun i hl hr => ⟨hl, by omega⟩
    all_goals omega

theorem mergesortInternal_confined :
    Confined (mergesortInternal tmp left right)
      (Cells left right tmp (tmp + (right - left) / 2)) := by
  induction hn : (right - left).toNat using Nat.strong_induction_on generalizing left right with
  | _ n ih =>
    rw [mergesortInternal]
    split
    · exact insertionsort_confined
    · rename_i hsize
      simp only [insertionSortThreshold, INSERTION_SORT_THRESHOLD] at hsize
      split
      · refine .andThen ?_ (.andThen ?_ ?_)
        · exact (ih _ (by omega) rfl).mono
            (cells_mono (by omega) (by omega) (by omega) (by omega))
        · exact (ih _ (by omega) rfl).mono
            (cells_mono (by omega) (by omega) (by omega) (by omega))
        · exact (merge_confined (by omega) (by omega)).mono
            (cells_mono (by omega) (by omega) (by omega) (by omega))
      · exact .stuck

theorem mergesortInternalParallel_confined (h : left ≤ right + 1) :
    Confined (mergesortInternalParallel tmp left right)
      (Cells left right (tmp + left) (tmp + right)) := by
  induction hn : (right - left).toNat using Nat.strong_induction_on generalizing left right with
  | _ n ih =>
    rw [mergesortInternalParallel]
    split
    · exact mergesortInternal_confined.mono
        (cells_mono (by omega) (by omega) (by omega) (by omega))
    · rename_i hsize
      simp only [minTaskSize, SERIAL_MERGE_SORT_THRESHOLD] at hsize
      split
      · refine .fork (ih _ ?_ ?_ rfl) (ih _ ?_ ?_ rfl) ?_ ?_ ?_ ?_
        any_goals omega
        · exact cells_apart (by omega) (by omega)
        · exact cells_mono (by omega) (by omega) (by omega) (by omega)
        · exact cells_mono (by omega) (by omega) (by omega) (by omega)
        · exact (merge_confined (by omega) (by omega)).mono
            (cells_mono (by omega) (by omega) (by omega) (by omega))
      · exact .stuck

end Bounds

end ComputerSystems.Mergesort.Program
