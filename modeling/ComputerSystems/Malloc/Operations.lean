/- The allocator on tilings and lists, without memory: merging, placing, extending and fitting. -/

import ComputerSystems.Malloc.Blocks

set_option autoImplicit false
set_option relaxedAutoImplicit false

namespace ComputerSystems.Malloc.Operations

open ComputerSystems.Memory.Tiling
open ComputerSystems.Malloc.Machine (ALIGNMENT)
open ComputerSystems.Malloc.Mm
open ComputerSystems.Malloc.Blocks

/-- What is known about the free neighbour behind a block at `c`: its words join the block. -/
def mergeNext (c size : Nat) (lists : Lists) : List Blk → Nat × List Blk × Lists
  | ⟨n, false⟩ :: r => (size + n, r, lists.drop (c + WSIZE * size))
  | r => (size, r, lists)

/-- The blocks in front are given nearest first; the result has the new first address as well. -/
def mergePrev (c size : Nat) (lists : Lists) : List Blk → Nat × Nat × List Blk × Lists
  | ⟨n, false⟩ :: l => (c - WSIZE * n, n + size, l, lists.drop (c - WSIZE * n))
  | l => (c, size, l, lists)

/-- Join the unlisted block of `size` words at `c` with its free neighbours and list the result.
`l` holds the blocks in front of it, nearest first, and `r` those behind it. -/
def coalesceAt (c size : Nat) (l r : List Blk) (lists : Lists) : Nat × Heap :=
  let (size, r, lists) := mergeNext c size lists r
  let (c, size, l, lists) := mergePrev c size lists l
  (c, ⟨l.reverse ++ ⟨size, false⟩ :: r, lists.push c size⟩)

/-- Cut the block list at the block that starts at `c`; the blocks in front come nearest first. -/
def focus (a c : Nat) : List Blk → List Blk → Option (List Blk × Blk × List Blk)
  | _, [] => none
  | l, b :: r => if a = c then some (l, b, r) else focus (a + b.bytes) c (b :: l) r

theorem focus_split {a : Nat} {l l' r : List Blk} {b : Blk}
    (hpos : ∀ x ∈ l, 0 < x.bytes) :
    focus a (a + span Blk.bytes l) l' (l ++ b :: r) = some (l.reverse ++ l', b, r) := by
  induction l generalizing a l' with
  | nil => simp [focus]
  | cons x l ih =>
    have hx := hpos x (by simp)
    have htail : focus (a + x.bytes) (a + x.bytes + span Blk.bytes l) (x :: l') (l ++ b :: r) =
        some (l.reverse ++ x :: l', b, r) := ih fun y hy => hpos y (List.mem_cons_of_mem x hy)
    rw [List.cons_append, focus, if_neg (by simp; omega), span_cons, ← Nat.add_assoc, htail]
    simp

section Merge

variable {base c size : Nat} {l r : List Blk} {lists : Lists}

theorem mergeNext_ok (hc : c = base + span Blk.bytes l)
    (h : Ok base (l ++ ⟨size, true⟩ :: r) lists) :
    Ok base (l ++ ⟨(mergeNext c size lists r).1, true⟩ :: (mergeNext c size lists r).2.1)
        (mergeNext c size lists r).2.2 ∧
      ∀ q ∈ (mergeNext c size lists r).2.1.head?, q.used = true := by
  match r, h with
  | [], h => exact ⟨h, by simp [mergeNext]⟩
  | ⟨n, true⟩ :: r, h => exact ⟨h, by simp [mergeNext]⟩
  | ⟨n, false⟩ :: r, h =>
    have htake : Ok base ((l ++ [⟨size, true⟩]) ++ ⟨n, true⟩ :: r)
        (lists.drop (base + span Blk.bytes (l ++ [⟨size, true⟩]))) :=
      Ok.take (by simpa using h)
    have haddr : base + span Blk.bytes (l ++ [⟨size, true⟩]) = c + WSIZE * size := by
      simp [hc, Blk.bytes, Nat.add_assoc]
    have hfuse : Ok base (l ++ ⟨size + n, true⟩ :: r) (lists.drop (c + WSIZE * size)) :=
      Ok.fuse (by rw [haddr] at htake; simpa using htake)
    refine ⟨hfuse, ?_⟩
    have hchain := h.noAdjacent
    rw [List.isChain_append, List.isChain_cons_cons, List.isChain_cons] at hchain
    intro q hq
    simpa using hchain.2.1.2.1 q hq

theorem mergePrev_ok (hc : c = base + span Blk.bytes l)
    (h : Ok base (l.reverse ++ ⟨size, true⟩ :: r) lists) :
    Ok base ((mergePrev c size lists l).2.2.1.reverse ++
          ⟨(mergePrev c size lists l).2.1, true⟩ :: r) (mergePrev c size lists l).2.2.2 ∧
      (∀ p ∈ (mergePrev c size lists l).2.2.1.head?, p.used = true) ∧
      (mergePrev c size lists l).1 =
        base + span Blk.bytes (mergePrev c size lists l).2.2.1 := by
  match l, hc, h with
  | [], hc, h => exact ⟨h, by simp [mergePrev], hc⟩
  | ⟨n, true⟩ :: l, hc, h => exact ⟨h, by simp [mergePrev], hc⟩
  | ⟨n, false⟩ :: l, hc, h =>
    have haddr : base + span Blk.bytes l.reverse = c - WSIZE * n := by
      simp [hc, Blk.bytes]
      omega
    have htake : Ok base (l.reverse ++ ⟨n, true⟩ :: ⟨size, true⟩ :: r)
        (lists.drop (base + span Blk.bytes l.reverse)) :=
      Ok.take (by simpa using h)
    rw [haddr] at htake
    refine ⟨htake.fuse, ?_, by simpa [mergePrev] using haddr.symm⟩
    have hchain := h.noAdjacent
    simp only [List.reverse_cons, List.append_assoc, List.singleton_append] at hchain
    rw [List.isChain_append] at hchain
    intro p hp
    have hp : p ∈ l.head? := hp
    have hlast := hchain.2.2 p (by simpa [List.getLast?_reverse] using hp) ⟨n, false⟩ (by simp)
    simpa using hlast

theorem coalesceAt_ok (hc : c = base + span Blk.bytes l)
    (h : Ok base (l.reverse ++ ⟨size, true⟩ :: r) lists) :
    Ok base (coalesceAt c size l r lists).2.blocks (coalesceAt c size l r lists).2.lists := by
  obtain ⟨hnext, hq⟩ := mergeNext_ok (by simpa using hc) h
  obtain ⟨hprev, hp, haddr⟩ := mergePrev_ok hc hnext
  have hrelease := hprev.release (by simpa [List.getLast?_reverse] using hp) hq
  simpa [coalesceAt, haddr] using hrelease

theorem mergeNext_used (c size : Nat) (r : List Blk) (lists : Lists) {d n : Nat} (a : Nat) :
    (d, ⟨n, true⟩) ∈ located Blk.bytes (a + WSIZE * (mergeNext c size lists r).1)
        (mergeNext c size lists r).2.1 ↔
      (d, ⟨n, true⟩) ∈ located Blk.bytes (a + WSIZE * size) r := by
  match r with
  | [] => simp [mergeNext]
  | ⟨m, true⟩ :: r => simp [mergeNext]
  | ⟨m, false⟩ :: r => simp [mergeNext, Blk.bytes, Nat.mul_add, Nat.add_assoc]

theorem coalesceAt_used (hc : c = base + span Blk.bytes l) {d n : Nat} :
    (d, ⟨n, true⟩) ∈ located Blk.bytes base (coalesceAt c size l r lists).2.blocks ↔
      (d, ⟨n, true⟩) ∈ located Blk.bytes base l.reverse ∨
        (d, ⟨n, true⟩) ∈ located Blk.bytes (c + WSIZE * size) r := by
  have hnext := mergeNext_used c size r lists (d := d) (n := n) c
  unfold coalesceAt
  generalize mergeNext c size lists r = merged at hnext
  obtain ⟨size', r', lists'⟩ := merged
  simp only at hnext ⊢
  rw [← hnext]
  match l, hc with
  | [], hc => simp [mergePrev, hc, Blk.bytes]
  | ⟨m, true⟩ :: l, hc =>
    have hend : base + span Blk.bytes l + WSIZE * m + WSIZE * size' = c + WSIZE * size' := by
      simp only [hc, span_cons, Blk.bytes]
      ring
    simp only [mergePrev] at hend ⊢
    simp [Blk.bytes, hend, or_assoc]
  | ⟨m, false⟩ :: l, hc =>
    have hend : base + span Blk.bytes l + WSIZE * (m + size') = c + WSIZE * size' := by
      simp only [hc, span_cons, Blk.bytes]
      ring
    simp [mergePrev, Blk.bytes, hend]

theorem mergeNext_span (c size : Nat) (r : List Blk) (lists : Lists) :
    WSIZE * (mergeNext c size lists r).1 + span Blk.bytes (mergeNext c size lists r).2.1 =
      WSIZE * size + span Blk.bytes r := by
  match r with
  | [] => rfl
  | ⟨n, true⟩ :: r => rfl
  | ⟨n, false⟩ :: r => simp [mergeNext, Blk.bytes, Nat.mul_add, Nat.add_assoc]

theorem mergePrev_span (c size : Nat) (l : List Blk) (lists : Lists) :
    span Blk.bytes (mergePrev c size lists l).2.2.1 + WSIZE * (mergePrev c size lists l).2.1 =
      span Blk.bytes l + WSIZE * size := by
  match l with
  | [] => rfl
  | ⟨n, true⟩ :: l => rfl
  | ⟨n, false⟩ :: l =>
    simp only [mergePrev, span_cons, Blk.bytes]
    ring

theorem coalesceAt_span :
    span Blk.bytes (coalesceAt c size l r lists).2.blocks =
      span Blk.bytes l + WSIZE * size + span Blk.bytes r := by
  have hnext := mergeNext_span c size r lists
  unfold coalesceAt
  generalize mergeNext c size lists r = merged at hnext
  obtain ⟨size', r', lists'⟩ := merged
  have hprev := mergePrev_span c size' l lists'
  simp only
  generalize mergePrev c size' lists' l = merged at hprev
  obtain ⟨c'', size'', l'', lists''⟩ := merged
  simp only [span_append, span_reverse, span_cons, bytes_eq] at hnext hprev ⊢
  unfold WSIZE at *
  omega

end Merge

/-- Take the first `asize` words of the free block of `n` words at `c`; a rest that is large enough
stays free. -/
def placeAt (c asize n : Nat) (l r : List Blk) (lists : Lists) : Heap :=
  if MIN_BLOCK_SIZE_WORDS ≤ n - asize then
    ⟨l.reverse ++ ⟨asize, true⟩ :: ⟨n - asize, false⟩ :: r,
      (lists.drop c).push (c + WSIZE * asize) (n - asize)⟩
  else
    ⟨l.reverse ++ ⟨n, true⟩ :: r, lists.drop c⟩

/-- The size of the block that `placeAt` puts in use. -/
def placedSize (asize n : Nat) : Nat :=
  if MIN_BLOCK_SIZE_WORDS ≤ n - asize then asize else n

section Place

variable {base c asize n : Nat} {l r : List Blk} {lists : Lists}

theorem behind_used (h : Ok base (l ++ ⟨n, false⟩ :: r) lists) :
    ∀ q ∈ r.head?, q.used = true := by
  have hchain := h.noAdjacent
  rw [List.isChain_append, List.isChain_cons] at hchain
  intro q hq
  simpa using hchain.2.1.1 q hq

theorem placeAt_ok (hc : c = base + span Blk.bytes l) (hasize : MIN_BLOCK_SIZE_WORDS ≤ asize)
    (hfour : asize % 4 = 0) (h : Ok base (l.reverse ++ ⟨n, false⟩ :: r) lists) :
    Ok base (placeAt c asize n l r lists).blocks (placeAt c asize n l r lists).lists := by
  have htake := h.take
  rw [span_reverse, ← hc] at htake
  unfold placeAt
  split
  · rename_i hrest
    obtain ⟨k, rfl⟩ : ∃ k, n = asize + k := ⟨n - asize, by
      unfold MIN_BLOCK_SIZE_WORDS at hrest
      omega⟩
    rw [Nat.add_sub_cancel_left] at hrest ⊢
    have hsplit : Ok base ((l.reverse ++ [⟨asize, true⟩]) ++ ⟨k, true⟩ :: r) (lists.drop c) := by
      simpa using htake.split ⟨hasize, hfour⟩ hrest
    have haddr : base + span Blk.bytes (l.reverse ++ [⟨asize, true⟩]) = c + WSIZE * asize := by
      simp [hc, Blk.bytes, Nat.add_assoc]
    have hrelease := hsplit.release (by simp) (behind_used h)
    rw [haddr] at hrelease
    simpa using hrelease
  · exact htake

theorem placeAt_used (hc : c = base + span Blk.bytes l) (hle : asize ≤ n) {d m : Nat} :
    (d, ⟨m, true⟩) ∈ located Blk.bytes base (placeAt c asize n l r lists).blocks ↔
      (d, ⟨m, true⟩) ∈ located Blk.bytes base (l.reverse ++ ⟨n, false⟩ :: r) ∨
        (d = c ∧ m = placedSize asize n) := by
  unfold placeAt placedSize
  split
  · have hend : c + WSIZE * asize + WSIZE * (n - asize) = c + WSIZE * n := by
      rw [Nat.add_assoc, ← Nat.mul_add, Nat.add_sub_cancel' hle]
    simp only [located_append, located_cons, List.mem_append, List.mem_cons, span_reverse,
      Blk.bytes, hend, ← hc, Prod.mk.injEq, Blk.mk.injEq, and_true, Bool.true_eq_false, and_false,
      false_or]
    tauto
  · simp only [located_append, located_cons, List.mem_append, List.mem_cons, span_reverse,
      Blk.bytes, ← hc, Prod.mk.injEq, Blk.mk.injEq, and_true, Bool.true_eq_false, and_false,
      false_or]
    tauto

theorem placeAt_span (hle : asize ≤ n) :
    span Blk.bytes (placeAt c asize n l r lists).blocks =
      span Blk.bytes (l.reverse ++ ⟨n, false⟩ :: r) := by
  unfold placeAt
  split
  · simp only [span_append, span_cons, Blk.bytes, WSIZE]
    omega
  · simp [Blk.bytes]

end Place

/-- `words` more words at the end of the heap, joined with a free last block. -/
def extendBy (a words : Nat) (h : Heap) : Nat × Heap :=
  coalesceAt (a + span Blk.bytes h.blocks) words h.blocks.reverse [] h.lists

def placeIn (a c asize : Nat) (h : Heap) : Heap :=
  match focus a c [] h.blocks with
  | some (l, b, r) => placeAt c asize b.size l r h.lists
  | none => h

def freeAt (a c : Nat) (h : Heap) : Heap :=
  match focus a c [] h.blocks with
  | some (l, b, r) => (coalesceAt c b.size l r h.lists).2
  | none => h

end ComputerSystems.Malloc.Operations
