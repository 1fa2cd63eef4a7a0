/- The allocator on tilings and lists does the same wherever the heap starts. -/

import ComputerSystems.Malloc.Allocator

set_option autoImplicit false
set_option relaxedAutoImplicit false

namespace ComputerSystems.Malloc.Offsets

open ComputerSystems.Memory.Tiling
open ComputerSystems.Malloc.Mm
open ComputerSystems.Malloc.Blocks
open ComputerSystems.Malloc.Operations
open ComputerSystems.Malloc.FindFit
open ComputerSystems.Malloc.Allocator

/-- Every block starts `d` bytes higher. -/
def shiftLists (d : Nat) (lists : Lists) : Lists := fun i => (lists i).map (· + d)

def shift (d : Nat) (h : Heap) : Heap := ⟨h.blocks, shiftLists d h.lists⟩

variable {a c d size asize : Nat} {l r bs : List Blk} {lists : Lists} {h : Heap}

theorem shift_drop : (shiftLists d lists).drop (c + d) = shiftLists d (lists.drop c) := by
  funext i
  have hinj : Function.Injective fun x : Nat => x + d := fun x y h => Nat.add_right_cancel h
  exact (List.map_erase hinj ..).symm

theorem shift_push : (shiftLists d lists).push (c + d) size = shiftLists d (lists.push c size) := by
  unfold Lists.push
  cases findFitIndex size with
  | none => rfl
  | some i =>
    funext j
    by_cases hj : j = i
    · subst hj
      simp only [shiftLists, Function.update_self]
      split_ifs
      · rfl
      · rw [List.map_append]
        rfl
    · simp only [shiftLists, Function.update_of_ne hj]

theorem shift_focus : focus (a + d) (c + d) l bs = focus a c l bs := by
  induction bs generalizing a l with
  | nil => rfl
  | cons b bs ih =>
    have hnext : a + d + b.bytes = a + b.bytes + d := by omega
    rw [focus, focus, hnext, ih]
    simp only [Nat.add_right_cancel_iff]

theorem focus_start {l' : List Blk} {b : Blk} (hfocus : focus a c l bs = some (l', b, r)) :
    c + span Blk.bytes l = a + span Blk.bytes l' := by
  induction bs generalizing a l with
  | nil => cases hfocus
  | cons x bs ih =>
    rw [focus] at hfocus
    split_ifs at hfocus with hac
    · cases hfocus
      rw [hac]
    · have htail := ih hfocus
      rw [span_cons] at htail
      omega

theorem focus_blocks {l' : List Blk} {b : Blk} (hfocus : focus a c l bs = some (l', b, r)) :
    l.reverse ++ bs = l'.reverse ++ b :: r := by
  induction bs generalizing a l with
  | nil => cases hfocus
  | cons x bs ih =>
    rw [focus] at hfocus
    split_ifs at hfocus with hac
    · cases hfocus
      rfl
    · have htail := ih hfocus
      rwa [List.reverse_cons, List.append_assoc, List.singleton_append] at htail

theorem shift_sizeAt : sizeAt (a + d) bs (c + d) = sizeAt a bs c := by
  rw [sizeAt, shift_focus]
  rfl

theorem shift_fitIn {cs : List Nat} :
    fitIn (a + d) bs asize (cs.map (· + d)) = (fitIn a bs asize cs).map (· + d) := by
  rw [fitIn, fitIn, ← List.map_take, List.find?_map]
  congr 2
  funext x
  exact congrArg (fun size => decide (asize ≤ size)) shift_sizeAt

theorem shift_fit : fit (a + d) (shift d h) asize = (fit a h asize).map (· + d) := by
  unfold fit
  cases findFitIndex asize with
  | none => rfl
  | some i =>
    have hown : (if asize < ranges.getD i 0 / 2 then shiftLists d h.lists i
        else (shiftLists d h.lists i).reverse) =
        (if asize < ranges.getD i 0 / 2 then h.lists i else (h.lists i).reverse).map (· + d) := by
      split_ifs
      · rfl
      · exact List.map_reverse.symm
    have hhigher : ∀ js : List Nat,
        (js.findSome? fun j => fitIn (a + d) h.blocks asize (shiftLists d h.lists j)) =
          (js.findSome? fun j => fitIn a h.blocks asize (h.lists j)).map (· + d) := by
      intro js
      induction js with
      | nil => rfl
      | cons j js ih =>
        rw [List.findSome?_cons, List.findSome?_cons, ih, shiftLists, shift_fitIn]
        cases fitIn a h.blocks asize (h.lists j) <;> rfl
    dsimp only [shift]
    rw [hown, shift_fitIn, hhigher, Option.map_or]

theorem shift_mergeNext : mergeNext (c + d) size (shiftLists d lists) r =
    ((mergeNext c size lists r).1, (mergeNext c size lists r).2.1,
      shiftLists d (mergeNext c size lists r).2.2) := by
  match r with
  | [] => rfl
  | ⟨n, true⟩ :: r => rfl
  | ⟨n, false⟩ :: r =>
    have hnext : c + d + WSIZE * size = c + WSIZE * size + d := by omega
    rw [mergeNext, hnext, shift_drop]
    rfl

theorem shift_mergePrev (hc : c = a + span Blk.bytes l) :
    mergePrev (c + d) size (shiftLists d lists) l =
      ((mergePrev c size lists l).1 + d, (mergePrev c size lists l).2.1,
        (mergePrev c size lists l).2.2.1, shiftLists d (mergePrev c size lists l).2.2.2) := by
  match l, hc with
  | [], _ => rfl
  | ⟨n, true⟩ :: l, _ => rfl
  | ⟨n, false⟩ :: l, hc =>
    have hle : WSIZE * n ≤ c := by
      have hbytes : WSIZE * n = Blk.bytes ⟨n, false⟩ := rfl
      rw [hc, span_cons, hbytes]
      omega
    have hprev : c + d - WSIZE * n = c - WSIZE * n + d := by omega
    rw [mergePrev, hprev, shift_drop]
    rfl

theorem shift_coalesceAt (hc : c = a + span Blk.bytes l) :
    coalesceAt (c + d) size l r (shiftLists d lists) =
      ((coalesceAt c size l r lists).1 + d, shift d (coalesceAt c size l r lists).2) := by
  unfold coalesceAt
  rw [shift_mergeNext]
  dsimp only
  rw [shift_mergePrev hc]
  dsimp only [shift]
  rw [shift_push]

theorem shift_placeAt {n : Nat} :
    placeAt (c + d) asize n l r (shiftLists d lists) = shift d (placeAt c asize n l r lists) := by
  have hrest : c + d + WSIZE * asize = c + WSIZE * asize + d := by omega
  unfold placeAt
  rw [shift_drop, hrest, shift_push]
  split_ifs
  · rfl
  · rfl

theorem shift_placeIn : placeIn (a + d) (c + d) asize (shift d h) = shift d (placeIn a c asize h) := by
  unfold placeIn
  rw [shift_focus]
  dsimp only [shift]
  cases focus a c [] h.blocks with
  | none => rfl
  | some found => exact shift_placeAt

theorem shift_extendBy {words : Nat} : extendBy (a + d) words (shift d h) =
    ((extendBy a words h).1 + d, shift d (extendBy a words h).2) := by
  have hend : a + d + span Blk.bytes h.blocks = a + span Blk.bytes h.blocks + d := by omega
  have hstart : a + span Blk.bytes h.blocks = a + span Blk.bytes h.blocks.reverse := by
    rw [span_reverse]
  unfold extendBy
  dsimp only [shift]
  rw [hend, shift_coalesceAt hstart]
  rfl

theorem shift_freeAt : freeAt (a + d) (c + d) (shift d h) = shift d (freeAt a c h) := by
  unfold freeAt
  rw [shift_focus]
  dsimp only [shift]
  cases hfocus : focus a c [] h.blocks with
  | none => rfl
  | some found =>
    obtain ⟨l, b, r⟩ := found
    have hstart : c = a + span Blk.bytes l := by
      have hlead := focus_start hfocus
      rwa [span_nil, Nat.add_zero] at hlead
    dsimp only
    rw [shift_coalesceAt hstart]
    rfl

/-- The pointer with an offset from the start of the heap; NULL has none. -/
def pointer (start p : Nat) : Nat := if p = 0 then 0 else p + start

theorem shift_allocate {limit : Nat} : allocate (a + d) (limit + d) size (shift d h) =
    (pointer d (allocate a limit size h).1, shift d (allocate a limit size h).2) := by
  have hpointer : ∀ x, x + d + PAYLOAD = pointer d (x + PAYLOAD) := by
    intro x
    rw [pointer, if_neg (by unfold PAYLOAD; omega)]
    omega
  unfold allocate
  by_cases hzero : size = 0
  · rw [if_pos hzero, if_pos hzero]
    rfl
  rw [if_neg hzero, if_neg hzero, shift_fit]
  cases hfit : fit a h (wordsFor size) with
  | some c =>
    dsimp only [Option.map_some]
    rw [hpointer, shift_placeIn]
  | none =>
    dsimp only [Option.map_none]
    have hroom : a + d + span Blk.bytes (shift d h).blocks + WSIZE +
          4 * max (wordsFor size) CHUNKSIZE ≤ limit + d ↔
        a + span Blk.bytes h.blocks + WSIZE + 4 * max (wordsFor size) CHUNKSIZE ≤ limit := by
      dsimp only [shift]
      omega
    simp only [hroom]
    split_ifs
    · rw [shift_extendBy]
      dsimp only
      rw [hpointer, shift_placeIn]
    · rfl

end ComputerSystems.Malloc.Offsets
