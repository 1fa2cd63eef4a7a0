/- What the allocator keeps: a tiling of the heap by blocks and ten lists of the free ones. -/

import ComputerSystems.Malloc.Mm
import ComputerSystems.Memory.Tiling
import Mathlib.Data.List.Chain
import Mathlib.Data.List.Nodup

set_option autoImplicit false
set_option relaxedAutoImplicit false

namespace ComputerSystems.Malloc.Blocks

open ComputerSystems.Memory.Tiling
open ComputerSystems.Malloc.Machine (ALIGNMENT add64 add64_eq)
open ComputerSystems.Malloc.Mm

/-- A block without its address; `size` is in words. -/
structure Blk where
  size : Nat
  used : Bool
  deriving DecidableEq, Repr

def Blk.bytes (b : Blk) : Nat := WSIZE * b.size

/-- The words of a block for `size` bytes, and at least `least` words: two tags more, a multiple of
the alignment. -/
def blockWords (least size : Nat) : Nat :=
  max least ((size + 2 * WSIZE + (ALIGNMENT - 1)) / ALIGNMENT * ALIGNMENT / WSIZE)

abbrev Lists := Nat → List Nat

structure Heap where
  blocks : List Blk
  lists : Lists

/-- Blocks below `mid` enter their list at the front, the others at the back. -/
def Lists.push (lists : Lists) (c size : Nat) : Lists :=
  match findFitIndex size with
  | none => lists
  | some i =>
    Function.update lists i
      (if size < ranges.getD i 0 / 2 then c :: lists i else lists i ++ [c])

def Lists.drop (lists : Lists) (c : Nat) : Lists := fun i => (lists i).erase c

/-- The heap invariant, for blocks that start at `base`. -/
structure Ok (base : Nat) (bs : List Blk) (lists : Lists) : Prop where
  sizes : ∀ b ∈ bs, MIN_BLOCK_SIZE_WORDS ≤ b.size ∧ b.size % 4 = 0
  noAdjacent : bs.IsChain (fun a b => a.used = true ∨ b.used = true)
  listed : ∀ i < FREE_LISTS_SIZE, ∀ c, c ∈ lists i ↔
    ∃ size, (c, ⟨size, false⟩) ∈ located Blk.bytes base bs ∧ findFitIndex size = some i
  nodup : ∀ i < FREE_LISTS_SIZE, (lists i).Nodup

theorem bytes_eq (size : Nat) (used : Bool) : Blk.bytes ⟨size, used⟩ = 4 * size := rfl

theorem blockWords_ok {least size : Nat} (hfour : least % 4 = 0) (hleast : least < 2 ^ 30)
    (hsize : size < 2 ^ 31) :
    least ≤ blockWords least size ∧ blockWords least size % 4 = 0 ∧
      size + 2 * WSIZE ≤ 4 * blockWords least size ∧ blockWords least size < 2 ^ 30 := by
  unfold blockWords ALIGNMENT WSIZE
  omega

/-- The rounding in `mm_malloc` and `mm_realloc` does not overflow for such a request. -/
theorem blockWords_rounding (least : Nat) {size : Nat} (hsize : size < 2 ^ 31) :
    ¬ align (add64 size (2 * WSIZE)) < size ∧
      max least (align (add64 size (2 * WSIZE)) / WSIZE) = blockWords least size := by
  have hadd : add64 size (2 * WSIZE) = size + 2 * WSIZE := add64_eq (by unfold WSIZE; omega)
  have hround : add64 (size + 2 * WSIZE) (ALIGNMENT - 1) = size + 2 * WSIZE + (ALIGNMENT - 1) :=
    add64_eq (by unfold WSIZE ALIGNMENT; omega)
  rw [align, hadd, hround, blockWords]
  unfold ALIGNMENT WSIZE
  omega

theorem findFitIndex_lt {words i : Nat} (h : findFitIndex words = some i) :
    i < FREE_LISTS_SIZE := by
  unfold findFitIndex at h
  split_ifs at h <;> first | (cases h; decide) | skip
  split at h
  · rename_i j hj
    have hmem := List.mem_of_find?_eq_some hj
    simp only [SMALL_CLASS_SIZE, FREE_LISTS_SIZE, List.mem_range'_1] at hmem
    cases h
    exact hmem.2
  · cases h
    decide

theorem findFitIndex_isSome {words : Nat} (h : MIN_BLOCK_SIZE_WORDS ≤ words) :
    ∃ i, findFitIndex words = some i ∧ i < FREE_LISTS_SIZE := by
  have hsome : ∃ i, findFitIndex words = some i := by
    unfold findFitIndex
    rw [if_neg (show ¬words < MIN_BLOCK_SIZE_WORDS by omega)]
    split_ifs <;> first | exact ⟨_, rfl⟩ | skip
    split <;> exact ⟨_, rfl⟩
  obtain ⟨i, hi⟩ := hsome
  exact ⟨i, hi, findFitIndex_lt hi⟩

theorem Lists.mem_push {lists : Lists} {c size i d : Nat} :
    d ∈ lists.push c size i ↔ d ∈ lists i ∨ (d = c ∧ findFitIndex size = some i) := by
  unfold Lists.push
  cases hfit : findFitIndex size with
  | none => simp
  | some j =>
    by_cases hij : i = j
    · subst hij
      simp only [Function.update_self, and_true]
      split_ifs <;> simp [or_comm]
    · simp [Function.update_of_ne hij, Ne.symm hij]

theorem Lists.push_nodup {lists : Lists} {c size i : Nat} (h : (lists i).Nodup)
    (hc : c ∉ lists i) : (lists.push c size i).Nodup := by
  unfold Lists.push
  cases hfit : findFitIndex size with
  | none => exact h
  | some j =>
    by_cases hij : i = j
    · subst hij
      have hback : (lists i ++ [c]).Nodup := by
        refine List.nodup_append.mpr ⟨h, by simp, ?_⟩
        intro a ha b hb hab
        simp only [List.mem_singleton] at hb
        exact hc (hb ▸ hab ▸ ha)
      simp only [Function.update_self]
      split_ifs
      · exact List.nodup_cons.mpr ⟨hc, h⟩
      · exact hback
    · simpa [Function.update_of_ne hij] using h

section Moves

variable {base m n : Nat} {l r bs : List Blk} {lists : Lists}

theorem Ok.pos (h : Ok base bs lists) : ∀ b ∈ bs, 0 < b.bytes := by
  intro b hb
  have hsize := (h.sizes b hb).1
  unfold MIN_BLOCK_SIZE_WORDS at hsize
  unfold Blk.bytes WSIZE
  omega

theorem Ok.not_listed (h : Ok base bs lists) {c : Nat} {b : Blk}
    (hb : (c, b) ∈ located Blk.bytes base bs) (hused : b.used = true) {i : Nat}
    (hi : i < FREE_LISTS_SIZE) : c ∉ lists i := by
  intro hc
  obtain ⟨size, hfree, -⟩ := (h.listed i hi c).mp hc
  have heq := located_unique h.pos hb hfree
  subst heq
  cases hused

theorem Ok.take (h : Ok base (l ++ ⟨n, false⟩ :: r) lists) :
    Ok base (l ++ ⟨n, true⟩ :: r) (lists.drop (base + span Blk.bytes l)) := by
  have hpos := h.pos
  refine ⟨?_, ?_, ?_, ?_⟩
  · intro b hb
    simp only [List.mem_append, List.mem_cons] at hb
    rcases hb with hb | rfl | hb
    · exact h.sizes b (by simp [hb])
    · exact h.sizes ⟨n, false⟩ (by simp)
    · exact h.sizes b (by simp [hb])
  · have hchain := h.noAdjacent
    rw [List.isChain_append] at hchain ⊢
    obtain ⟨hl, hr, -⟩ := hchain
    refine ⟨hl, ?_, by simp⟩
    rw [List.isChain_cons] at hr ⊢
    exact ⟨by simp, hr.2⟩
  · intro i hi c
    rw [Lists.drop, (h.nodup i hi).mem_erase_iff, h.listed i hi c]
    constructor
    · rintro ⟨hne, size, hmem, hfit⟩
      refine ⟨size, ?_, hfit⟩
      simp only [located_append, located_cons, List.mem_append, List.mem_cons] at hmem ⊢
      rcases hmem with hmem | hmem | hmem
      · exact Or.inl hmem
      · exact absurd (congrArg Prod.fst hmem) hne
      · exact Or.inr (Or.inr (by simpa [bytes_eq] using hmem))
    · rintro ⟨size, hmem, hfit⟩
      simp only [located_append, located_cons, List.mem_append, List.mem_cons] at hmem
      have hn := hpos ⟨n, false⟩ (by simp)
      rcases hmem with hmem | hmem | hmem
      · have hin := located_within hmem
        have hsize := hpos _ (List.mem_append_left _ (mem_of_located hmem))
        refine ⟨by omega, size, ?_, hfit⟩
        simp [hmem]
      · simp at hmem
      · have hin := located_within hmem
        rw [bytes_eq] at hin hn
        refine ⟨by omega, size, ?_, hfit⟩
        simp only [located_append, located_cons, List.mem_append, List.mem_cons]
        exact Or.inr (Or.inr (by simpa [bytes_eq] using hmem))
  · intro i hi
    exact (h.nodup i hi).erase _

theorem Ok.release (h : Ok base (l ++ ⟨n, true⟩ :: r) lists)
    (hl : ∀ p ∈ l.getLast?, p.used = true) (hr : ∀ q ∈ r.head?, q.used = true) :
    Ok base (l ++ ⟨n, false⟩ :: r) (lists.push (base + span Blk.bytes l) n) := by
  refine ⟨?_, ?_, ?_, ?_⟩
  · intro b hb
    simp only [List.mem_append, List.mem_cons] at hb
    rcases hb with hb | rfl | hb
    · exact h.sizes b (by simp [hb])
    · exact h.sizes ⟨n, true⟩ (by simp)
    · exact h.sizes b (by simp [hb])
  · have hchain := h.noAdjacent
    rw [List.isChain_append] at hchain ⊢
    obtain ⟨hcl, hcr, -⟩ := hchain
    refine ⟨hcl, ?_, ?_⟩
    · rw [List.isChain_cons] at hcr ⊢
      exact ⟨fun q hq => Or.inr (hr q hq), hcr.2⟩
    · intro p hp q hq
      exact Or.inl (hl p hp)
  · intro i hi c
    rw [Lists.mem_push, h.listed i hi c]
    constructor
    · rintro (⟨size, hmem, hfit⟩ | ⟨rfl, hfit⟩)
      · refine ⟨size, ?_, hfit⟩
        simp only [located_append, located_cons, List.mem_append, List.mem_cons] at hmem ⊢
        rcases hmem with hmem | hmem | hmem
        · exact Or.inl hmem
        · simp at hmem
        · exact Or.inr (Or.inr (by simpa [bytes_eq] using hmem))
      · exact ⟨n, located_middle base l r ⟨n, false⟩, hfit⟩
    · rintro ⟨size, hmem, hfit⟩
      simp only [located_append, located_cons, List.mem_append, List.mem_cons] at hmem
      rcases hmem with hmem | hmem | hmem
      · exact Or.inl ⟨size, by simp [hmem], hfit⟩
      · simp only [Prod.mk.injEq, Blk.mk.injEq, and_true] at hmem
        exact Or.inr ⟨hmem.1, hmem.2 ▸ hfit⟩
      · refine Or.inl ⟨size, ?_, hfit⟩
        simp only [located_append, located_cons, List.mem_append, List.mem_cons]
        exact Or.inr (Or.inr (by simpa [bytes_eq] using hmem))
  · intro i hi
    exact Lists.push_nodup (h.nodup i hi) (h.not_listed (located_middle base l r _) rfl hi)

theorem Ok.fuse (h : Ok base (l ++ ⟨m, true⟩ :: ⟨n, true⟩ :: r) lists) :
    Ok base (l ++ ⟨m + n, true⟩ :: r) lists := by
  refine ⟨?_, ?_, ?_, h.nodup⟩
  · intro b hb
    simp only [List.mem_append, List.mem_cons] at hb
    rcases hb with hb | rfl | hb
    · exact h.sizes b (by simp [hb])
    · have hm := h.sizes ⟨m, true⟩ (by simp)
      have hn := h.sizes ⟨n, true⟩ (by simp)
      exact ⟨Nat.le_add_right_of_le hm.1, by simp only at hm hn ⊢; omega⟩
    · exact h.sizes b (by simp [hb])
  · have hchain := h.noAdjacent
    rw [List.isChain_append] at hchain ⊢
    obtain ⟨hl, hr, -⟩ := hchain
    refine ⟨hl, ?_, by simp⟩
    rw [List.isChain_cons_cons, List.isChain_cons] at hr
    rw [List.isChain_cons]
    exact ⟨by simp, hr.2.2⟩
  · intro i hi c
    rw [h.listed i hi c]
    simp [bytes_eq, Nat.mul_add, Nat.add_assoc]

theorem Ok.split (h : Ok base (l ++ ⟨m + n, true⟩ :: r) lists)
    (hm : MIN_BLOCK_SIZE_WORDS ≤ m ∧ m % 4 = 0) (hn : MIN_BLOCK_SIZE_WORDS ≤ n) :
    Ok base (l ++ ⟨m, true⟩ :: ⟨n, true⟩ :: r) lists := by
  refine ⟨?_, ?_, ?_, h.nodup⟩
  · intro b hb
    simp only [List.mem_append, List.mem_cons] at hb
    rcases hb with hb | rfl | rfl | hb
    · exact h.sizes b (by simp [hb])
    · exact hm
    · have hmn := h.sizes ⟨m + n, true⟩ (by simp)
      exact ⟨hn, by simp only at hmn ⊢; omega⟩
    · exact h.sizes b (by simp [hb])
  · have hchain := h.noAdjacent
    rw [List.isChain_append] at hchain ⊢
    obtain ⟨hl, hr, -⟩ := hchain
    refine ⟨hl, ?_, by simp⟩
    rw [List.isChain_cons] at hr
    rw [List.isChain_cons_cons, List.isChain_cons]
    exact ⟨by simp, by simp, hr.2⟩
  · intro i hi c
    rw [h.listed i hi c]
    simp [bytes_eq, Nat.mul_add, Nat.add_assoc]

theorem Ok.append (h : Ok base bs lists) (hn : MIN_BLOCK_SIZE_WORDS ≤ n ∧ n % 4 = 0) :
    Ok base (bs ++ [⟨n, true⟩]) lists := by
  refine ⟨?_, ?_, ?_, h.nodup⟩
  · intro b hb
    simp only [List.mem_append, List.mem_singleton] at hb
    rcases hb with hb | rfl
    · exact h.sizes b hb
    · exact hn
  · rw [List.isChain_append]
    exact ⟨h.noAdjacent, List.isChain_singleton _, by simp⟩
  · intro i hi c
    rw [h.listed i hi c]
    simp

end Moves

end ComputerSystems.Malloc.Blocks
