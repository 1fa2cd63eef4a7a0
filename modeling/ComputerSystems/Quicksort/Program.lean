/- The two quicksorts, and the places that each of their parts keeps to. -/

import ComputerSystems.Systems.ForkJoin
import Mathlib.Tactic.Linarith

set_option autoImplicit false
set_option relaxedAutoImplicit false

namespace ComputerSystems.Quicksort.Program

open ComputerSystems.Systems.ForkJoin

abbrev Code := Prog Int Int

abbrev Store := Memory Int Int

def swap (a b : Int) (next : Code) : Code :=
  .read a fun tmp => .read b fun x => .write a x (.write b tmp next)

/-- The loop of `qsort_partition`, and the swap behind it. What goes on with the split knows that it
lies between the two bounds. -/
def partitionLoop (left right current last : Int) (hlast : left ≤ last ∧ last < current)
    (hcurrent : current ≤ right + 1)
    (next : (split : Int) → left ≤ split ∧ split ≤ right → Code) : Code :=
  if h : current ≤ right then
    .read current fun x => .read left fun pivot =>
      if x < pivot then
        swap (last + 1) current
          (partitionLoop left right (current + 1) (last + 1) (by omega) (by omega) next)
      else partitionLoop left right (current + 1) last (by omega) (by omega) next
  else swap left last (next last (by omega))
termination_by (right + 1 - current).toNat

def qsortPartition (left right : Int) (h : left < right)
    (next : (split : Int) → left ≤ split ∧ split ≤ right → Code) : Code :=
  let middle := left + (right - left) / 2
  swap left middle (partitionLoop left right (left + 1) left (by omega) (by omega) next)

def qsortInternalSerial (left right : Int) : Code :=
  if h : left ≥ right then .done
  else
    qsortPartition left right (by omega) fun split _ =>
      (qsortInternalSerial left (split - 1)).andThen (qsortInternalSerial (split + 1) right)
termination_by (right - left).toNat

def qsortSerial (n : Int) : Code := qsortInternalSerial 0 (n - 1)

/-- The left part is submitted to the pool; `future_get` joins it. -/
def qsortInternalParallel (depth left right : Int) : Code :=
  if h : left ≥ right then .done
  else
    qsortPartition left right (by omega) fun split _ =>
      if depth < 1 then
        (qsortInternalSerial left (split - 1)).andThen (qsortInternalSerial (split + 1) right)
      else
        .fork (qsortInternalParallel (depth - 1) left (split - 1))
          (qsortInternalParallel (depth - 1) (split + 1) right) .done
termination_by (right - left).toNat

def qsortParallel (depth n : Int) : Code := qsortInternalParallel depth 0 (n - 1)

/-- `check_sorted`, by which the benchmark tells whether the sort has failed. -/
def checkSorted (a : Store) (n : Int) : Bool :=
  (List.range (n - 1).toNat).all fun i : Nat => !decide (a i > a (i + 1))

/-- The elements from `l` to `r`. -/
def Between (l r i : Int) : Prop := l ≤ i ∧ i ≤ r

section Bounds

variable {l r l' r' a b left right current last : Int}

theorem between_mono (hl : l' ≤ l) (hr : r ≤ r') (i : Int) (h : Between l r i) :
    Between l' r' i :=
  ⟨hl.trans h.1, h.2.trans hr⟩

theorem swap_confined {next : Code} {R : Int → Prop} (ha : R a) (hb : R b) (h : Confined next R) :
    Confined (swap a b next) R :=
  .read ha fun _ => .read hb fun _ => .write ha (.write hb h)

theorem partitionLoop_confined {next : (split : Int) → left ≤ split ∧ split ≤ right → Code}
    (hlast : left ≤ last ∧ last < current) (hcurrent : current ≤ right + 1)
    (hnext : ∀ split h, Confined (next split h) (Between left right)) :
    Confined (partitionLoop left right current last hlast hcurrent next) (Between left right) := by
  induction hn : (right + 1 - current).toNat generalizing current last with
  | zero =>
    rw [partitionLoop, dif_neg (by omega)]
    exact swap_confined ⟨by omega, by omega⟩ ⟨hlast.1, by omega⟩ (hnext last _)
  | succ n ih =>
    rw [partitionLoop, dif_pos (by omega)]
    refine .read ⟨by omega, by omega⟩ fun x => .read ⟨by omega, by omega⟩ fun pivot => ?_
    split
    · exact swap_confined ⟨by omega, by omega⟩ ⟨by omega, by omega⟩ (ih _ _ (by omega))
    · exact ih _ _ (by omega)

theorem qsortPartition_confined {next : (split : Int) → left ≤ split ∧ split ≤ right → Code}
    (h : left < right) (hnext : ∀ split h, Confined (next split h) (Between left right)) :
    Confined (qsortPartition left right h next) (Between left right) :=
  swap_confined ⟨le_rfl, by omega⟩ ⟨by omega, by omega⟩ (partitionLoop_confined _ _ hnext)

theorem qsortInternalSerial_confined :
    Confined (qsortInternalSerial left right) (Between left right) := by
  induction hn : (right - left).toNat using Nat.strong_induction_on generalizing left right with
  | _ n ih =>
    rw [qsortInternalSerial]
    split
    · exact .done
    · refine qsortPartition_confined (by omega) fun split h => .andThen ?_ ?_
      · exact (ih _ (by omega) rfl).mono (between_mono le_rfl (by omega))
      · exact (ih _ (by omega) rfl).mono (between_mono (by omega) le_rfl)

theorem qsortInternalParallel_confined {depth : Int} :
    Confined (qsortInternalParallel depth left right) (Between left right) := by
  induction hn : (right - left).toNat using Nat.strong_induction_on
    generalizing left right depth with
  | _ n ih =>
    rw [qsortInternalParallel]
    split
    · exact .done
    · refine qsortPartition_confined (by omega) fun split h => ?_
      split
      · refine .andThen ?_ ?_
        · exact qsortInternalSerial_confined.mono (between_mono le_rfl (by omega))
        · exact qsortInternalSerial_confined.mono (between_mono (by omega) le_rfl)
      · refine .fork (ih _ (by omega) rfl) (ih _ (by omega) rfl) ?_ ?_ ?_ .done
        · intro i hi hi'
          have := hi.2
          have := hi'.1
          omega
        · exact between_mono le_rfl (by omega)
        · exact between_mono (by omega) le_rfl

end Bounds

end ComputerSystems.Quicksort.Program
