/- The allocator without memory: a list of blocks, the first of them that fits, and joining. -/

import ComputerSystems.Implicit.Program
import ComputerSystems.Malloc.Blocks
import ComputerSystems.Memory.Joining

set_option autoImplicit false
set_option relaxedAutoImplicit false

namespace ComputerSystems.Implicit.Tilings

open ComputerSystems.Memory.Tiling
open ComputerSystems.Memory.Joining
open ComputerSystems.Malloc.Mm (WSIZE PAYLOAD)
open ComputerSystems.Malloc.Blocks (Blk bytes_eq blockWords blockWords_ok)
open ComputerSystems.Implicit.Program (MIN_BLOCK_SIZE_WORDS CHUNKSIZE)

/-- Every block holds its two tags, and its size keeps payloads aligned. -/
def Whole (b : Blk) : Prop := MIN_BLOCK_SIZE_WORDS ≤ b.size ∧ b.size % 4 = 0

def isFree (b : Blk) : Bool := !b.used

def join (x y : Blk) : Blk := ⟨x.size + y.size, false⟩

def wordsFor (size : Nat) : Nat := blockWords MIN_BLOCK_SIZE_WORDS size

def fits (asize : Nat) (b : Blk) : Bool := isFree b && asize ≤ b.size

/-- Take the first `asize` words of a free block; a rest that is large enough stays free. -/
def cut (asize : Nat) (b : Blk) : List Blk :=
  if MIN_BLOCK_SIZE_WORDS ≤ b.size - asize then [⟨asize, true⟩, ⟨b.size - asize, false⟩]
  else [⟨b.size, true⟩]

def firstFit (a asize : Nat) (bs : List Blk) : Option (Nat × List Blk) :=
  replaceFirst Blk.bytes (fits asize) (cut asize) a bs

/-- `words` more words at the end of the heap. -/
def extend (words : Nat) (bs : List Blk) : List Blk :=
  joinFree isFree join (bs ++ [⟨words, false⟩])

/-- `mm_malloc`: the payload and the heap, which starts at `a` and can grow up to `limit`. -/
def allocate (a limit size : Nat) (bs : List Blk) : Nat × List Blk :=
  if size = 0 then (0, bs)
  else
    match firstFit a (wordsFor size) bs with
    | some (c, bs') => (c + PAYLOAD, bs')
    | none =>
      let words := max (wordsFor size) CHUNKSIZE
      if a + span Blk.bytes bs + WSIZE + 4 * words ≤ limit then
        match firstFit a (wordsFor size) (extend words bs) with
        | some (c, bs') => (c + PAYLOAD, bs')
        | none => (0, bs)
      else (0, bs)

def markFree (c : Nat) : Nat → List Blk → List Blk
  | _, [] => []
  | a, b :: bs => if a = c then ⟨b.size, false⟩ :: bs else b :: markFree c (a + b.bytes) bs

/-- `mm_free` of the block at `c`. -/
def release (a c : Nat) (bs : List Blk) : List Blk := joinFree isFree join (markFree c a bs)

/-- `mm_realloc` of the block at `c`: a new block, and then the old one goes. -/
def reallocate (a limit c size : Nat) (bs : List Blk) : Nat × List Blk :=
  let (q, bs') := allocate a limit size bs
  if q = 0 then (0, bs) else (q, release a c bs')

variable {a c d m n k asize words size limit : Nat} {b x : Blk} {l r bs bs' : List Blk}

section Joining

theorem join_bytes (x y : Blk) : (join x y).bytes = x.bytes + y.bytes := Nat.mul_add ..

theorem isFree_join (x y : Blk) (_ : isFree x = true) (_ : isFree y = true) :
    isFree (join x y) = true := rfl

theorem isFree_of_used (x : Blk) (h : x.used = true) : isFree x = false := by simp [isFree, h]

theorem Whole.join {x y : Blk} (hx : Whole x) (hy : Whole y) : Whole (join x y) := by
  unfold Whole at *
  unfold Tilings.join
  simp only
  omega

theorem Whole.bytes_ge (h : Whole b) : 16 ≤ b.bytes := by
  unfold Whole MIN_BLOCK_SIZE_WORDS at h
  unfold Blk.bytes WSIZE
  omega

theorem joinFree_span : span Blk.bytes (joinFree isFree join bs) = span Blk.bytes bs :=
  Memory.Joining.joinFree_span join_bytes

theorem joinFree_used : (d, ⟨m, true⟩) ∈ located Blk.bytes a (joinFree isFree join bs) ↔
    (d, ⟨m, true⟩) ∈ located Blk.bytes a bs :=
  @joinFree_located _ isFree join ⟨m, true⟩ bs _ (fun x : Blk => x.used = true) a d join_bytes
    isFree_join isFree_of_used rfl

end Joining

section Allocation

theorem wordsFor_ok (hsize : size < 2 ^ 31) :
    MIN_BLOCK_SIZE_WORDS ≤ wordsFor size ∧ wordsFor size % 4 = 0 ∧
      size + 2 * WSIZE ≤ 4 * wordsFor size ∧ wordsFor size < 2 ^ 30 :=
  blockWords_ok (by decide) (by decide) hsize

theorem cut_two {u : Bool} (h : MIN_BLOCK_SIZE_WORDS ≤ n - asize) :
    cut asize ⟨n, u⟩ = [⟨asize, true⟩, ⟨n - asize, false⟩] := if_pos h

theorem cut_one {u : Bool} (h : ¬ MIN_BLOCK_SIZE_WORDS ≤ n - asize) :
    cut asize ⟨n, u⟩ = [⟨n, true⟩] := if_neg h

theorem cut_span (h : asize ≤ b.size) : span Blk.bytes (cut asize b) = b.bytes := by
  obtain ⟨n, u⟩ := b
  unfold cut
  split
  · simp only [span_cons, span_nil, bytes_eq] at h ⊢
    omega
  · rfl

theorem cut_whole (hb : Whole b) (hmin : MIN_BLOCK_SIZE_WORDS ≤ asize) (hfour : asize % 4 = 0) :
    ∀ x ∈ cut asize b, Whole x := by
  unfold cut
  unfold Whole at *
  split
  · rename_i hrest
    simp only [List.forall_mem_cons, List.not_mem_nil, false_implies, implies_true, and_true]
    refine ⟨⟨hmin, hfour⟩, hrest, ?_⟩
    omega
  · simpa using hb

def cutSize (asize n : Nat) : Nat := if MIN_BLOCK_SIZE_WORDS ≤ n - asize then asize else n

theorem cut_used : (d, ⟨m, true⟩) ∈ located Blk.bytes c (cut asize b) ↔
    d = c ∧ m = cutSize asize b.size := by
  unfold cut cutSize
  split <;> simp

theorem le_cutSize (h : asize ≤ n) : asize ≤ cutSize asize n := by
  unfold cutSize
  split
  · exact le_rfl
  · exact h

theorem cut_separated (h : Separated isFree (l ++ b :: r)) (hb : isFree b = true) :
    Separated isFree (l ++ (cut asize b ++ r)) := by
  have hbehind : ∀ y ∈ r.head?, isFree y = false := by
    rw [Separated, List.isChain_append, List.isChain_cons] at h
    exact fun y hy => (h.2.1.1 y hy).resolve_left (by simp [hb])
  rw [Separated, List.isChain_append, List.isChain_cons] at h
  obtain ⟨hl, ⟨-, hr⟩, -⟩ := h
  rw [Separated, List.isChain_append]
  unfold cut
  split
  · refine ⟨hl, ?_, fun x _ y hy => ?_⟩
    · rw [List.cons_append, List.singleton_append, List.isChain_cons_cons, List.isChain_cons]
      exact ⟨Or.inl rfl, fun y hy => Or.inr (hbehind y hy), hr⟩
    · obtain rfl : _ = y := by simpa using hy
      exact Or.inr rfl
  · refine ⟨hl, ?_, fun x _ y hy => ?_⟩
    · rw [List.singleton_append, List.isChain_cons]
      exact ⟨fun y _ => Or.inl rfl, hr⟩
    · obtain rfl : _ = y := by simpa using hy
      exact Or.inr rfl

theorem fits_iff : fits asize b = true ↔ b.used = false ∧ asize ≤ b.size := by
  simp [fits, isFree]

theorem firstFit_some (h : firstFit a asize bs = some (c, bs')) :
    ∃ l n r, bs = l ++ ⟨n, false⟩ :: r ∧ c = a + span Blk.bytes l ∧
      (∀ x ∈ l, fits asize x = false) ∧ asize ≤ n ∧ bs' = l ++ (cut asize ⟨n, false⟩ ++ r) := by
  obtain ⟨l, b, r, hbs, hc, hl, hb, hbs'⟩ := replaceFirst_eq_some.mp h
  obtain ⟨hused, hle⟩ := fits_iff.mp hb
  obtain ⟨n, u⟩ := b
  cases hused
  exact ⟨l, n, r, hbs, hc, hl, hle, hbs'⟩

theorem firstFit_extend (hnone : firstFit a asize bs = none) (hsep : Separated isFree bs)
    (hle : asize ≤ words) :
    ∃ l n, words ≤ n ∧ extend words bs = l ++ [⟨n, false⟩] ∧
      firstFit a asize (extend words bs) =
        some (a + span Blk.bytes l, l ++ (cut asize ⟨n, false⟩ ++ [])) := by
  have hnot := replaceFirst_eq_none.mp hnone
  have hfinish : ∀ l n, words ≤ n → extend words bs = l ++ [⟨n, false⟩] → (∀ x ∈ l, x ∈ bs) →
      ∃ l n, words ≤ n ∧ extend words bs = l ++ [⟨n, false⟩] ∧
        firstFit a asize (extend words bs) =
          some (a + span Blk.bytes l, l ++ (cut asize ⟨n, false⟩ ++ [])) := by
    intro l n hn hext hsub
    refine ⟨l, n, hn, hext, replaceFirst_eq_some.mpr ⟨l, ⟨n, false⟩, [], hext, rfl,
      fun x hx => hnot x (hsub x hx), fits_iff.mpr ⟨rfl, hle.trans hn⟩, rfl⟩⟩
  rcases List.eq_nil_or_concat bs with rfl | ⟨l, b, rfl⟩
  · exact hfinish [] words le_rfl rfl (by simp)
  · rw [List.concat_eq_append] at *
    obtain ⟨n, u⟩ := b
    have hl := List.isChain_append.mp hsep
    cases u with
    | true =>
      refine hfinish _ words le_rfl ?_ fun x hx => hx
      rw [extend, joinFree_append hsep (by simp [isFree])]
      rfl
    | false =>
      refine hfinish l (n + words) (by omega) ?_ fun x hx => List.mem_append_left _ hx
      have hlast : ∀ b ∈ l.getLast?, isFree b = false :=
        fun b hb => (hl.2.2 b hb ⟨n, false⟩ rfl).resolve_right (by simp [isFree])
      rw [extend, List.append_assoc, joinFree_append hl.1 hlast]
      rfl

end Allocation

section Release

abbrev BehindUsed (r : List Blk) : Prop := ∀ x ∈ r.head?, isFree x = false

abbrev FrontUsed (l : List Blk) : Prop := ∀ x ∈ l.getLast?, isFree x = false

theorem joinFree_alone (hl : Separated isFree l) (hfront : FrontUsed l) (hr : Separated isFree r)
    (hbehind : BehindUsed r) :
    joinFree isFree join (l ++ ⟨n, false⟩ :: r) = l ++ ⟨n, false⟩ :: r := by
  rw [joinFree_append hl hfront, joinFree, joinFree_of_separated hr, push_of_front hbehind]

theorem joinFree_next (hl : Separated isFree l) (hfront : FrontUsed l)
    (hr : Separated isFree (⟨m, false⟩ :: r)) :
    joinFree isFree join (l ++ ⟨n, false⟩ :: ⟨m, false⟩ :: r) = l ++ ⟨n + m, false⟩ :: r := by
  rw [joinFree_append hl hfront, joinFree, joinFree_of_separated hr, push_free rfl rfl]
  rfl

theorem frontUsed_of_separated (hl : Separated isFree (l ++ [⟨k, false⟩])) : FrontUsed l :=
  fun x hx => ((List.isChain_append.mp hl).2.2 x hx ⟨k, false⟩ rfl).resolve_right (by simp [isFree])

theorem joinFree_prev (hl : Separated isFree (l ++ [⟨k, false⟩])) (hr : Separated isFree r)
    (hbehind : BehindUsed r) :
    joinFree isFree join (l ++ ⟨k, false⟩ :: ⟨n, false⟩ :: r) = l ++ ⟨k + n, false⟩ :: r := by
  rw [joinFree_append (List.isChain_append.mp hl).1 (frontUsed_of_separated hl), joinFree, joinFree,
    joinFree_of_separated hr, push_of_front hbehind, push_free rfl rfl]
  rfl

theorem joinFree_both (hl : Separated isFree (l ++ [⟨k, false⟩]))
    (hr : Separated isFree (⟨m, false⟩ :: r)) :
    joinFree isFree join (l ++ ⟨k, false⟩ :: ⟨n, false⟩ :: ⟨m, false⟩ :: r) =
      l ++ ⟨k + (n + m), false⟩ :: r := by
  rw [joinFree_append (List.isChain_append.mp hl).1 (frontUsed_of_separated hl), joinFree, joinFree,
    joinFree_of_separated hr, push_free rfl rfl, push_free rfl rfl]
  rfl

theorem markFree_split (hl : ∀ b ∈ l, Whole b) :
    markFree (a + span Blk.bytes l) a (l ++ b :: r) = l ++ ⟨b.size, false⟩ :: r := by
  induction l generalizing a with
  | nil => simp [markFree]
  | cons x l ih =>
    obtain ⟨hx, hl⟩ := List.forall_mem_cons.mp hl
    have hlow := hx.bytes_ge
    rw [List.cons_append, markFree, if_neg (by rw [span_cons]; omega), span_cons,
      ← Nat.add_assoc, ih hl, List.cons_append]

theorem release_split (hl : ∀ b ∈ l, Whole b) (hc : c = a + span Blk.bytes l) :
    release a c (l ++ ⟨n, true⟩ :: r) = joinFree isFree join (l ++ ⟨n, false⟩ :: r) := by
  rw [release, hc, markFree_split hl]

end Release

end ComputerSystems.Implicit.Tilings
