/- The two merge sorts sort and stay in bounds, except for the lengths at which they do not. -/

import ComputerSystems.Mergesort.Passes

set_option autoImplicit false
set_option relaxedAutoImplicit false

namespace ComputerSystems.Mergesort.Sorting

open ComputerSystems.Memory.Segments
open ComputerSystems.Mergesort.Passes
open ComputerSystems.Mergesort.Program
open ComputerSystems.Systems.ForkJoin

/-- From any memory the program sorts the array from `l` to `r`. -/
def Sorts (x : Code) (l r : Int) : Prop := ∀ m, ∃ n, x.run m = some n ∧ Sorted m l r n

section Halves

variable {x y : Code} {l m r a e a' e' b bstart : Int}

theorem halves_sorts (hl : l ≤ m) (hr : m + 1 ≤ r) (hx : Sorts x l m) (hy : Sorts y (m + 1) r)
    (hx' : Confined x (Cells l m a e)) (hy' : Confined y (Cells (m + 1) r a' e')) :
    Sorts (x.andThen (y.andThen (merge b bstart l m r))) l r := by
  intro m₀
  obtain ⟨m₁, hrunx, hsortx, hpermx⟩ := hx m₀
  obtain ⟨m₂, hruny, hsorty, hpermy⟩ := hy m₁
  have hleft : contents m₂ l m = contents m₁ l m :=
    contents_congr fun i _ hi => hy'.run_outside (fun h => by have := h.1; omega) hruny
  have hright : contents m₁ (m + 1) r = contents m₀ (m + 1) r :=
    contents_congr fun i hi _ => hx'.run_outside (fun h => by have := h.2; omega) hrunx
  rw [← hleft] at hsortx hpermx
  rw [hright] at hpermy
  have hmerge : ∃ n, (merge b bstart l m r).run m₂ = some n ∧ Sorted m₂ l r n :=
    merge_sorts hl hr hsortx hsorty
  obtain ⟨n, hrun, hsort, hperm⟩ := hmerge
  refine ⟨n, ?_, hsort, ?_⟩
  · rw [run_andThen, hrunx, Option.bind_some, run_andThen, hruny]
    exact hrun
  · have hsplit : ∀ m', contents m' l r = contents m' l m ++ contents m' (m + 1) r :=
      fun m' => segment_split (by omega) (by omega)
    rw [hsplit m₂] at hperm
    rw [hsplit m₀]
    exact hperm.trans (hpermx.append hpermy)

end Halves

/-- Segments whose bounds can be added: those below `2 ^ 30`, and those on the way to the last
element of an array that is not much longer. -/
def Fits (l r : Int) : Prop :=
  0 ≤ l ∧ (r < 1073741824 ∨
    r < 1073741840 ∧ ∃ k : Nat, 16 * 2 ^ k ≤ r + 1 - l ∧ r + 1 - l < 17 * 2 ^ k)

section Sizes

variable {l r tmp : Int}

theorem fits_whole {n : Int} (hn : n ≤ 1073741840) : Fits 0 (n - 1) := by
  refine ⟨le_rfl, ?_⟩
  rcases lt_or_ge (n - 1) 1073741824 with hlt | hge
  · exact Or.inl hlt
  · refine Or.inr ⟨by omega, 26, ?_, ?_⟩
    · norm_num
      omega
    · norm_num
      omega

theorem Fits.size (h : Fits l r) (hsize : 16 ≤ r - l) :
    r < 1073741824 ∨ r < 1073741840 ∧ ∃ k : Nat,
      16 * 2 ^ (k + 1) ≤ r + 1 - l ∧ r + 1 - l < 17 * 2 ^ (k + 1) := by
  obtain ⟨hl, hlt | ⟨hlt, k, hlow, hhigh⟩⟩ := h
  · exact Or.inl hlt
  · cases k with
    | zero => omega
    | succ k => exact Or.inr ⟨hlt, k, hlow, hhigh⟩

theorem Fits.halve (h : Fits l r) (hsize : 16 ≤ r - l) :
    l + r ≤ INT_MAX ∧ Fits l ((l + r) / 2) ∧ Fits ((l + r) / 2 + 1) r := by
  have hl := h.1
  rw [INT_MAX]
  rcases h.size hsize with hlt | ⟨hlt, k, hlow, hhigh⟩
  · exact ⟨by omega, ⟨hl, Or.inl (by omega)⟩, by omega, Or.inl hlt⟩
  · have hpow : (1 : Int) ≤ 2 ^ k := one_le_pow₀ (by norm_num)
    rw [pow_succ] at hlow hhigh
    refine ⟨by omega, ⟨hl, Or.inl (by omega)⟩, by omega, Or.inr ⟨hlt, k, by omega, by omega⟩⟩

theorem mergesortInternal_sorts (h : Fits l r) : Sorts (mergesortInternal tmp l r) l r := by
  induction hn : (r - l).toNat using Nat.strong_induction_on generalizing l r with
  | _ n ih =>
    rw [mergesortInternal]
    split
    · exact fun m => insertionsort_sorts
    · rename_i hsize
      simp only [insertionSortThreshold, INSERTION_SORT_THRESHOLD] at hsize
      obtain ⟨hsum, hleft, hright⟩ := h.halve (by omega)
      rw [if_pos hsum]
      exact halves_sorts (by omega) (by omega) (ih _ (by omega) hleft rfl)
        (ih _ (by omega) hright rfl) mergesortInternal_confined mergesortInternal_confined

theorem mergesortInternalParallel_sorts (h : Fits l r) :
    Sorts (mergesortInternalParallel tmp l r) l r := by
  induction hn : (r - l).toNat using Nat.strong_induction_on generalizing l r with
  | _ n ih =>
    rw [mergesortInternalParallel]
    split
    · exact mergesortInternal_sorts h
    · rename_i hsize
      simp only [minTaskSize, SERIAL_MERGE_SORT_THRESHOLD] at hsize
      obtain ⟨hsum, hleft, hright⟩ := h.halve (by omega)
      rw [if_pos hsum]
      intro m
      rw [run_fork]
      exact halves_sorts (by omega) (by omega) (ih _ (by omega) hleft rfl)
        (ih _ (by omega) hright rfl) (mergesortInternalParallel_confined (by omega))
        (mergesortInternalParallel_confined (by omega)) m

/-- On the way to the last element of a longer array a sum does not fit an `int`. -/
theorem mergesortInternal_overflows {m : Store} {k d : Nat} (hr : 1073741840 ≤ r)
    (hkd : k + d = 25) (hsize : 32 * 2 ^ k ≤ r + 1 - l) (hlast : (r + 1 - l) * 2 ^ d ≤ r + 1) :
    (mergesortInternal tmp l r).run m = none := by
  induction k generalizing l d m with
  | zero =>
    obtain rfl : d = 25 := by omega
    norm_num at hsize hlast
    rw [mergesortInternal, dif_neg, if_neg]
    · rfl
    · rw [INT_MAX]
      omega
    · rw [insertionSortThreshold, INSERTION_SORT_THRESHOLD]
      omega
  | succ k ih =>
    have hpow : (1 : Int) ≤ 2 ^ k := one_le_pow₀ (by norm_num)
    rw [pow_succ] at hsize
    rw [mergesortInternal, dif_neg]
    · split
      · rw [run_andThen]
        cases (mergesortInternal tmp l ((l + r) / 2)).run m with
        | none => rfl
        | some m₁ =>
          have hhalf : (r + 1 - ((l + r) / 2 + 1)) * 2 ^ (d + 1) ≤ r + 1 := by
            have htwice : (r + 1 - ((l + r) / 2 + 1)) * 2 ≤ r + 1 - l := by omega
            have hscaled := Int.mul_le_mul_of_nonneg_right htwice
              (by positivity : (0 : Int) ≤ 2 ^ d)
            rw [pow_succ]
            linarith
          rw [Option.bind_some, run_andThen, ih (by omega) (by omega) hhalf]
          rfl
      · rfl
    · rw [insertionSortThreshold, INSERTION_SORT_THRESHOLD]
      omega

end Sizes

/-- Both sorts sort, both keep to their part of the two arrays, and subtasks that may run at the
same time share no element. -/
structure Meets (n : Nat) (m : Store) : Prop where
  serial_sorts : Ends (mergesortSerial n) m (Sorted m 0 (n - 1))
  parallel_sorts : Ends (mergesortParallel n) m (Sorted m 0 (n - 1))
  serial_bounds : ∀ p, Accessed (mergesortSerial n) m p → Cells 0 (n - 1) 0 (n / 2) p
  parallel_bounds : ∀ p, Accessed (mergesortParallel n) m p → Cells 0 (n - 1) 0 (n - 1) p
  apart : ∀ x m' y z p, Runs (mergesortParallel n, m) (x, m') → Beside x y z →
    y.Touches p → ¬ z.Touches p

section Lengths

variable {n : Nat} {m : Store}

theorem mergesortParallel_confined :
    Confined (mergesortParallel n) (Cells 0 (n - 1) 0 (n - 1)) := by
  have h : Confined (mergesortInternalParallel 0 0 (n - 1)) _ :=
    mergesortInternalParallel_confined (by omega)
  rwa [Int.zero_add, Int.zero_add] at h

theorem mergesortSerial_confined (hn : n = 0 ∨ 16 ≤ n) :
    Confined (mergesortSerial n) (Cells 0 (n - 1) 0 (n / 2)) := by
  rw [mergesortSerial, insertionSortThreshold, INSERTION_SORT_THRESHOLD]
  split_ifs with hsmall
  · rw [insertionsort_done (by omega)]
    exact .done
  · exact mergesortInternal_confined.mono (cells_mono le_rfl le_rfl le_rfl (by omega))

theorem mergesortSerial_sorts (hn : n = 0 ∨ 16 ≤ n ∧ n ≤ 2 ^ 30 + 16) :
    Sorts (mergesortSerial n) 0 (n - 1) := by
  rw [mergesortSerial, insertionSortThreshold, INSERTION_SORT_THRESHOLD]
  split_ifs with hsmall
  · intro m
    have hempty : contents m 0 (n - 1) = [] := segment_nil (by omega)
    rw [insertionsort_done (by omega)]
    refine ⟨m, rfl, ?_, List.Perm.refl _⟩
    rw [hempty]
    exact List.Pairwise.nil
  · exact mergesortInternal_sorts (fits_whole (by omega))

theorem meets_of_length (hn : n = 0 ∨ 16 ≤ n ∧ n ≤ 2 ^ 30 + 16) : Meets n m := by
  have hserial : Confined (mergesortSerial n) (Cells 0 (n - 1) 0 (n / 2)) :=
    mergesortSerial_confined (by omega)
  have hparallel := mergesortParallel_confined (n := n)
  have hsorts : Sorts (mergesortParallel n) 0 (n - 1) :=
    mergesortInternalParallel_sorts (fits_whole (by omega))
  exact {
    serial_sorts := (ends_iff hserial.separate).mpr (mergesortSerial_sorts hn m)
    parallel_sorts := (ends_iff hparallel.separate).mpr (hsorts m)
    serial_bounds := fun p hp => hserial.touches p (hp.touches hserial.separate)
    parallel_bounds := fun p hp => hparallel.touches p (hp.touches hparallel.separate)
    apart := fun _ _ _ _ _ hruns hbeside => hruns.apart hparallel.separate hbeside }

theorem insertionsortLoop_reads {lo hi i : Int} (hlo : lo ≤ i) (hle : i ≤ hi) :
    Accessed (insertionsortLoop lo hi i) m (.array hi) := by
  induction hc : (hi - i).toNat generalizing i m with
  | zero =>
    obtain rfl : i = hi := by omega
    rw [insertionsortLoop, dif_pos le_rfl]
    exact .read _
  | succ c ih =>
    rw [insertionsortLoop, dif_pos hle]
    obtain ⟨n, hrun, -⟩ := insertLoop_run (m := m) (t := m (.array i)) hlo
    exact .tail (.andThen hrun (ih (by omega) (by omega) (by omega)))

theorem not_meets_short (hpos : 1 ≤ n) (hshort : n < 16) : ¬ Meets n m := by
  intro h
  have hread : Accessed (mergesortSerial n) m (.array n) := by
    rw [mergesortSerial, insertionSortThreshold, INSERTION_SORT_THRESHOLD, if_pos (by omega),
      insertionsort]
    exact insertionsortLoop_reads (by omega) (by omega)
  have hin := (h.serial_bounds _ hread).2
  omega

theorem not_meets_long (hlong : 2 ^ 30 + 16 < n) : ¬ Meets n m := by
  intro h
  have hsep := (mergesortSerial_confined (n := n) (by omega)).separate
  obtain ⟨m', hrun, -⟩ := (ends_iff hsep).mp h.serial_sorts
  rw [mergesortSerial, insertionSortThreshold, INSERTION_SORT_THRESHOLD, if_neg (by omega),
    mergesortInternal_overflows (k := 25) (d := 0) (by omega) rfl] at hrun
  · cases hrun
  · norm_num
    omega
  · norm_num

/-- The two sorts do what they promise, except for short arrays that are not empty, and for the
longest ones. -/
theorem meets_iff (n : Nat) (m : Store) : Meets n m ↔ n = 0 ∨ 16 ≤ n ∧ n ≤ 2 ^ 30 + 16 := by
  constructor
  · intro h
    by_contra hout
    rcases lt_or_ge n 16 with hshort | hlong
    · exact not_meets_short (by omega) hshort h
    · exact not_meets_long (by omega) h
  · exact meets_of_length

/-- An array of one element. -/
theorem single_reads_past : ¬ Meets 1 fun _ => 0 :=
  not_meets_short le_rfl (by decide)

end Lengths

end ComputerSystems.Mergesort.Sorting
