/- Both quicksorts sort, in every interleaving and at every depth, and never leave the array. -/

import ComputerSystems.Memory.Segments
import ComputerSystems.Quicksort.Program
import Mathlib.Data.List.Nodup
import Mathlib.Logic.Equiv.Basic

set_option autoImplicit false
set_option relaxedAutoImplicit false

namespace ComputerSystems.Quicksort.Sorting

open ComputerSystems.Memory.Segments
open ComputerSystems.Quicksort.Program
open ComputerSystems.Systems.ForkJoin

variable {m n : Store} {left right current last split a b l r : Int} {next : Code}

section Swaps

def swapped (m : Store) (a b : Int) : Store :=
  Function.update (Function.update m a (m b)) b (m a)

theorem swap_run : (swap a b next).run m = next.run (swapped m a b) := rfl

theorem swapped_left : swapped m a b a = m b := by
  unfold swapped
  by_cases hab : a = b
  · rw [hab, Function.update_self]
  · rw [Function.update_of_ne hab, Function.update_self]

theorem swapped_right : swapped m a b b = m a := Function.update_self _ _ _

theorem swapped_of_ne {i : Int} (ha : i ≠ a) (hb : i ≠ b) : swapped m a b i = m i := by
  rw [swapped, Function.update_of_ne hb, Function.update_of_ne ha]

theorem swapped_eq (i : Int) : swapped m a b i = m (Equiv.swap a b i) := by
  by_cases ha : i = a
  · rw [ha, swapped_left, Equiv.swap_apply_left]
  · by_cases hb : i = b
    · rw [hb, swapped_right, Equiv.swap_apply_right]
    · rw [swapped_of_ne ha hb, Equiv.swap_apply_of_ne_of_ne ha hb]

theorem segment_swapped (ha : l ≤ a ∧ a ≤ r) (hb : l ≤ b ∧ b ≤ r) :
    (segment (swapped m a b) l r).Perm (segment m l r) := by
  have hmap : ∀ f : Int → Int, segment f l r = (segment (fun i => i) l r).map f := by
    intro f
    simp [Memory.Segments.segment, Function.comp_def]
  have hnodup : (segment (fun i : Int => i) l r).Nodup :=
    pairwise_segment.mpr fun i j _ hij _ => by omega
  have hindices : ((segment (fun i => i) l r).map (Equiv.swap a b)).Perm (segment (fun i => i) l r) := by
    refine (List.perm_ext_iff_of_nodup (hnodup.map (Equiv.swap a b).injective) hnodup).mpr ?_
    intro i
    rw [← hmap, mem_segment, mem_segment]
    constructor
    · rintro ⟨j, hl, hr, rfl⟩
      refine ⟨Equiv.swap a b j, ?_, ?_, rfl⟩ <;> rw [Equiv.swap_apply_def] <;> split_ifs <;> omega
    · rintro ⟨j, hl, hr, rfl⟩
      refine ⟨Equiv.swap a b j, ?_, ?_, Equiv.swap_apply_self a b j⟩ <;>
        rw [Equiv.swap_apply_def] <;> split_ifs <;> omega
  rw [hmap, hmap m]
  have hcomp : (segment (fun i => i) l r).map (swapped m a b) =
      ((segment (fun i => i) l r).map (Equiv.swap a b)).map m := by
    rw [List.map_map]
    exact List.map_congr_left fun i _ => swapped_eq i
  rw [hcomp]
  exact hindices.map m

end Swaps

section Partition

/-- The element at `split` is greater than all in front of it and not greater than any behind. -/
structure Splits (m : Store) (left right split : Int) (n : Store) : Prop where
  below : ∀ i, left ≤ i → i < split → n i < n split
  above : ∀ i, split < i → i ≤ right → n split ≤ n i
  perm : (segment n left right).Perm (segment m left right)

/-- The pivot waits at `left`; up to `last` the elements are less than it, from there to `current`
they are not. -/
theorem partitionLoop_run {next : (split : Int) → left ≤ split ∧ split ≤ right → Code}
    (hlast : left ≤ last ∧ last < current) (hcurrent : current ≤ right + 1)
    (hless : ∀ i, left < i → i ≤ last → m i < m left)
    (hnotless : ∀ i, last < i → i < current → m left ≤ m i) :
    ∃ split h n, (partitionLoop left right current last hlast hcurrent next).run m =
      (next split h).run n ∧ Splits m left right split n := by
  induction hn : (right + 1 - current).toNat generalizing current last m with
  | zero =>
    rw [partitionLoop, dif_neg (by omega), swap_run]
    refine ⟨last, _, _, rfl, ?_, ?_, segment_swapped ⟨by omega, by omega⟩ ⟨by omega, by omega⟩⟩
    · intro i hl hi
      rw [swapped_right]
      by_cases heq : i = left
      · rw [heq, swapped_left]
        exact hless last (by omega) le_rfl
      · rw [swapped_of_ne heq (by omega)]
        exact hless i (by omega) (by omega)
    · intro i hi hr
      rw [swapped_right, swapped_of_ne (by omega) (by omega)]
      exact hnotless i hi (by omega)
  | succ k ih =>
    rw [partitionLoop, dif_pos (by omega)]
    simp only [Prog.run]
    split
    · rename_i hlt
      rw [swap_run]
      have hleft : swapped m (last + 1) current left = m left :=
        swapped_of_ne (by omega) (by omega)
      have hstep : ∃ split h n, _ ∧ Splits (swapped m (last + 1) current) left right split n :=
        @ih (swapped m (last + 1) current) (current + 1) (last + 1)
          (by omega) (by omega) ?_ ?_ (by omega)
      · obtain ⟨split, h, n, hrun, hsplits⟩ := hstep
        refine ⟨split, h, n, hrun, hsplits.below, hsplits.above, hsplits.perm.trans ?_⟩
        exact segment_swapped ⟨by omega, by omega⟩ ⟨by omega, by omega⟩
      · intro i hl hi
        rw [hleft]
        by_cases heq : i = last + 1
        · rw [heq, swapped_left]
          exact hlt
        · rw [swapped_of_ne heq (by omega)]
          exact hless i hl (by omega)
      · intro i hl hi
        rw [hleft]
        by_cases heq : i = current
        · rw [heq, swapped_right]
          exact hnotless (last + 1) (by omega) (by omega)
        · rw [swapped_of_ne (by omega) heq]
          exact hnotless i (by omega) (by omega)
    · rename_i hge
      refine ih (by omega) (by omega) hless ?_ (by omega)
      intro i hl hi
      by_cases heq : i = current
      · rw [heq]
        omega
      · exact hnotless i hl (by omega)

theorem qsortPartition_run {next : (split : Int) → left ≤ split ∧ split ≤ right → Code}
    (h : left < right) :
    ∃ split h' n, (qsortPartition left right h next).run m = (next split h').run n ∧
      Splits m left right split n := by
  rw [qsortPartition, swap_run]
  obtain ⟨split, h', n, hrun, hsplits⟩ := @partitionLoop_run
    (swapped m left (left + (right - left) / 2)) left right (left + 1) left next
    (by omega) (by omega) (fun i hl hi => by omega)
    fun i hl hi => by omega
  refine ⟨split, h', n, hrun, hsplits.below, hsplits.above, hsplits.perm.trans ?_⟩
  exact segment_swapped ⟨le_rfl, by omega⟩ ⟨by omega, by omega⟩

end Partition

section Sorts

/-- A sorted permutation of what was at `l..r`. -/
def Sorted (m : Store) (l r : Int) (n : Store) : Prop :=
  (segment n l r).Pairwise (· ≤ ·) ∧ (segment n l r).Perm (segment m l r)

/-- From any array the program sorts the stretch from `l` to `r`. -/
def Sorts (x : Code) (l r : Int) : Prop := ∀ m, ∃ n, x.run m = some n ∧ Sorted m l r n

theorem sorted_short (h : r ≤ l) : Sorted m l r m := by
  refine ⟨?_, List.Perm.refl _⟩
  rcases lt_or_eq_of_le h with hlt | rfl
  · rw [segment_nil hlt]
    exact List.Pairwise.nil
  · rw [segment_single]
    exact List.pairwise_singleton _ _

theorem segment_around (hl : l ≤ split) (hr : split ≤ r) :
    segment m l r = segment m l (split - 1) ++ m split :: segment m (split + 1) r := by
  rw [segment_split (m := split - 1) (by omega) (by omega), Int.sub_add_cancel, segment_cons hr]

theorem sides_sort {x y : Code} {m₀ : Store} (hl : left ≤ split) (hr : split ≤ right)
    (hm : Splits m₀ left right split m) (hx : Sorts x left (split - 1))
    (hy : Sorts y (split + 1) right) (hx' : Confined x (Between left (split - 1)))
    (hy' : Confined y (Between (split + 1) right)) :
    ∃ n, (x.andThen y).run m = some n ∧ Sorted m₀ left right n := by
  obtain ⟨m₁, hrunx, hsortx, hpermx⟩ := hx m
  obtain ⟨m₂, hruny, hsorty, hpermy⟩ := hy m₁
  have hkeptx : ∀ i, split ≤ i → m₁ i = m i :=
    fun i hi => hx'.run_outside (fun h => by have := h.2; omega) hrunx
  have hkepty : ∀ i, i ≤ split → m₂ i = m₁ i :=
    fun i hi => hy'.run_outside (fun h => by have := h.1; omega) hruny
  have hleft : segment m₂ left (split - 1) = segment m₁ left (split - 1) :=
    segment_congr fun i _ hi => hkepty i (by omega)
  have hright : segment m₁ (split + 1) right = segment m (split + 1) right :=
    segment_congr fun i hi _ => hkeptx i (by omega)
  have hpivot : m₂ split = m split := (hkepty split le_rfl).trans (hkeptx split le_rfl)
  rw [← hleft] at hsortx hpermx
  rw [hright] at hpermy
  -- what was less than the pivot, or not, still is
  have hbelow : ∀ v ∈ segment m₂ left (split - 1), v < m split := by
    intro v hv
    obtain ⟨i, hi, hi', rfl⟩ := mem_segment.mp (hpermx.mem_iff.mp hv)
    exact hm.below i hi (by omega)
  have habove : ∀ v ∈ segment m₂ (split + 1) right, m split ≤ v := by
    intro v hv
    obtain ⟨i, hi, hi', rfl⟩ := mem_segment.mp (hpermy.mem_iff.mp hv)
    exact hm.above i (by omega) hi'
  refine ⟨m₂, ?_, ?_, ?_⟩
  · rw [run_andThen, hrunx, Option.bind_some, hruny]
  · rw [segment_around hl hr, hpivot]
    refine List.pairwise_append.mpr ⟨hsortx, List.pairwise_cons.mpr ⟨habove, hsorty⟩, ?_⟩
    intro v hv w hw
    have hlt := hbelow v hv
    rcases List.mem_cons.mp hw with rfl | hw
    · exact hlt.le
    · exact hlt.le.trans (habove w hw)
  · refine List.Perm.trans ?_ hm.perm
    rw [segment_around hl hr, segment_around (m := m) hl hr, hpivot]
    exact hpermx.append (hpermy.cons _)

theorem qsortInternalSerial_sorts : Sorts (qsortInternalSerial left right) left right := by
  induction hn : (right - left).toNat using Nat.strong_induction_on generalizing left right with
  | _ k ih =>
    intro m
    rw [qsortInternalSerial]
    split
    · exact ⟨m, rfl, sorted_short (by omega)⟩
    · obtain ⟨split, h, m₁, hrun, hsplits⟩ := @qsortPartition_run m left right _ (by omega)
      rw [hrun]
      exact sides_sort h.1 h.2 hsplits (ih _ (by omega) rfl) (ih _ (by omega) rfl)
        qsortInternalSerial_confined qsortInternalSerial_confined

theorem qsortInternalParallel_sorts {depth : Int} :
    Sorts (qsortInternalParallel depth left right) left right := by
  induction hn : (right - left).toNat using Nat.strong_induction_on
    generalizing left right depth with
  | _ k ih =>
    intro m
    rw [qsortInternalParallel]
    split
    · exact ⟨m, rfl, sorted_short (by omega)⟩
    · obtain ⟨split, h, m₁, hrun, hsplits⟩ := @qsortPartition_run m left right _ (by omega)
      rw [hrun]
      split
      · exact sides_sort h.1 h.2 hsplits qsortInternalSerial_sorts qsortInternalSerial_sorts
          qsortInternalSerial_confined qsortInternalSerial_confined
      · have hconfined {l r : Int} :
            Confined (qsortInternalParallel (depth - 1) l r) (Between l r) :=
          qsortInternalParallel_confined
        have hsides := sides_sort h.1 h.2 hsplits (ih _ (by omega) rfl) (ih _ (by omega) rfl)
          hconfined hconfined
        rwa [run_fork_done]

end Sorts

section Results

theorem sorted_unique {n' : Store} (h : Sorted m l r n) (h' : Sorted m l r n')
    (hout : ∀ i, ¬ Between l r i → n i = m i) (hout' : ∀ i, ¬ Between l r i → n' i = m i) :
    n = n' := by
  have hsegment : segment n l r = segment n' l r :=
    (h.2.trans h'.2.symm).eq_of_pairwise (fun x y _ _ hxy hyx => le_antisymm hxy hyx) h.1 h'.1
  funext i
  by_cases hi : Between l r i
  · exact segment_inj hsegment i hi.1 hi.2
  · exact (hout i hi).trans (hout' i hi).symm

theorem checkSorted_of_sorted {k : Nat} (h : (segment n 0 (k - 1)).Pairwise (· ≤ ·)) :
    checkSorted n k = true := by
  rw [checkSorted, List.all_eq_true]
  intro i hi
  have hlt := List.mem_range.mp hi
  have hpair := pairwise_segment.mp h i (i + 1) (by omega) (by omega) (by omega)
  simpa using hpair

/-- Whatever the array, its length, the depth and the order in which the tasks take their steps, the
parallel sort comes to an end, passes the check of the benchmark and has permuted the array. No step
leaves the array, tasks that may run at the same time touch no common element, and the serial sort
ends with the same array. -/
theorem qsortParallel_sorts (depth : Int) (k : Nat) (m : Store) :
    Ends (qsortParallel depth k) m (fun n => checkSorted n k = true ∧
      (segment n 0 (k - 1)).Perm (segment m 0 (k - 1)) ∧ (qsortSerial k).run m = some n) ∧
    (∀ i, Accessed (qsortParallel depth k) m i → 0 ≤ i ∧ i < k) ∧
    ∀ x n y z, Runs (qsortParallel depth k, m) (x, n) → Beside x y z →
      ∀ i, y.Touches i → ¬ z.Touches i := by
  have hparallel : Confined (qsortParallel depth k) (Between 0 (k - 1)) :=
    qsortInternalParallel_confined
  have hserial : Confined (qsortSerial k) (Between 0 (k - 1)) := qsortInternalSerial_confined
  refine ⟨(ends_iff hparallel.separate).mpr ?_, fun i hi => ?_, fun x n y z hruns hbeside i hy =>
    Runs.apart hruns hparallel.separate hbeside hy⟩
  · obtain ⟨n, hrun, hsorted⟩ := @qsortInternalParallel_sorts _ _ depth m
    obtain ⟨n', hrun', hsorted'⟩ := qsortInternalSerial_sorts m
    have hsame : n' = n := sorted_unique hsorted' hsorted
      (fun i hi => hserial.run_outside hi hrun') fun i hi => hparallel.run_outside hi hrun
    exact ⟨n, hrun, checkSorted_of_sorted hsorted.1, hsorted.2, hsame ▸ hrun'⟩
  · have hin := hparallel.touches i (hi.touches hparallel.separate)
    exact ⟨hin.1, by have := hin.2; omega⟩

end Results

end ComputerSystems.Quicksort.Sorting
