/- `mm_init`, `mm_malloc` and `mm_free` on represented heaps. -/

import ComputerSystems.Malloc.FindFit
import ComputerSystems.Malloc.Place

set_option autoImplicit false
set_option relaxedAutoImplicit false

namespace ComputerSystems.Malloc.Allocator

open ComputerSystems.Memory.Bytes
open ComputerSystems.Memory.Tiling
open ComputerSystems.Lists.DoublyLinked
open ComputerSystems.Systems.Computations (bind_ok pure_ok get_ok)
open ComputerSystems.Malloc.Machine
open ComputerSystems.Malloc.ListC
open ComputerSystems.Malloc.Mm
open ComputerSystems.Malloc.Blocks
open ComputerSystems.Malloc.Operations
open ComputerSystems.Malloc.FreeLists
open ComputerSystems.Malloc.Representation
open ComputerSystems.Malloc.Coalesce
open ComputerSystems.Malloc.FindFit
open ComputerSystems.Malloc.Place

def INT_MAX : Nat := 2 ^ 31 - 1

def wordsFor (size : Nat) : Nat := blockWords MIN_BLOCK_SIZE_WORDS size

/-- `mm_malloc` on tilings and lists; the heap can grow up to `limit`. -/
def allocate (a limit size : Nat) (h : Heap) : Nat × Heap :=
  if size = 0 then (0, h)
  else
    match fit a h (wordsFor size) with
    | some c => (c + PAYLOAD, placeIn a c (wordsFor size) h)
    | none =>
      if a + span Blk.bytes h.blocks + WSIZE + 4 * max (wordsFor size) CHUNKSIZE ≤ limit then
        let (c, h) := extendBy a (max (wordsFor size) CHUNKSIZE) h
        (c + PAYLOAD, placeIn a c (wordsFor size) h)
      else (0, h)

section Abstract

variable {a c size words : Nat} {h : Heap} {l r : List Blk} {lists : Lists}

theorem wordsFor_ok (hsize : size ≤ INT_MAX) :
    MIN_BLOCK_SIZE_WORDS ≤ wordsFor size ∧ wordsFor size % 4 = 0 ∧
      size + 2 * WSIZE ≤ 4 * wordsFor size ∧ wordsFor size < 2 ^ 30 :=
  blockWords_ok (by decide) (by decide) (Nat.lt_of_le_pred (by decide) hsize)

/-- The merged block starts where `coalesceAt` says and has at least the words of the first. -/
theorem coalesceAt_free (hc : c = a + span Blk.bytes l) :
    ∃ k, size ≤ k ∧ ((coalesceAt c size l r lists).1, ⟨k, false⟩) ∈
      located Blk.bytes a (coalesceAt c size l r lists).2.blocks := by
  have hnext : size ≤ (mergeNext c size lists r).1 := by
    match r with
    | [] => exact le_rfl
    | ⟨n, true⟩ :: r => exact le_rfl
    | ⟨n, false⟩ :: r => exact Nat.le_add_right size n
  unfold coalesceAt
  generalize mergeNext c size lists r = merged at hnext
  obtain ⟨size', r', lists'⟩ := merged
  simp only at hnext ⊢
  match l, hc with
  | [], hc => exact ⟨size', hnext, by simp [mergePrev, hc]⟩
  | ⟨m, true⟩ :: l, hc =>
    have hmiddle : _ ∈ located Blk.bytes a _ :=
      located_middle a (⟨m, true⟩ :: l).reverse r' ⟨size', false⟩
    rw [span_reverse, ← hc] at hmiddle
    exact ⟨size', hnext, hmiddle⟩
  | ⟨m, false⟩ :: l, hc =>
    have hstart : c - WSIZE * m = a + span Blk.bytes l := by
      rw [hc, span_cons]
      unfold Blk.bytes
      simp only
      omega
    exact ⟨m + size', by omega, by simp [mergePrev, hstart]⟩

theorem extendBy_free (a words : Nat) (h : Heap) : ∃ k, words ≤ k ∧ ((extendBy a words h).1, ⟨k, false⟩) ∈
    located Blk.bytes a (extendBy a words h).2.blocks :=
  coalesceAt_free (by rw [span_reverse])

theorem extendBy_used {d m : Nat} :
    (d, ⟨m, true⟩) ∈ located Blk.bytes a (extendBy a words h).2.blocks ↔
      (d, ⟨m, true⟩) ∈ located Blk.bytes a h.blocks := by
  have hused : (d, ⟨m, true⟩) ∈ located Blk.bytes a (extendBy a words h).2.blocks ↔ _ :=
    coalesceAt_used (by rw [span_reverse])
  simpa [extendBy] using hused

end Abstract

section Malloc

variable {L : Layout} {s : State} {h : Heap} {size : Nat}

/-- From `h` to `h'` the block of `m` words at `c` was put in use for a request of `size` bytes. -/
structure Allocated (L : Layout) (h h' : Heap) (size c m : Nat) : Prop where
  large : size + 2 * WSIZE ≤ 4 * m
  fresh : ∀ k, ¬ InUse L h c k
  used : ∀ d k, InUse L h' d k ↔ InUse L h d k ∨ (d = c ∧ k = m)

/-- `place` on a large enough free block finishes an allocation. -/
theorem finish_ok {c n : Nat} (hs : Holds L s h) (hsize : size ≤ INT_MAX)
    (hc : (c, ⟨n, false⟩) ∈ located Blk.bytes (base L) h.blocks) (hn : wordsFor size ≤ n) :
    ∃ s', place L c (wordsFor size) s = .ok ((), s') ∧
      Leads L s s' (InUse L h) s.memBrk (placeIn (base L) c (wordsFor size) h) ∧
      Allocated L h (placeIn (base L) c (wordsFor size) h) size c
        (placedSize (wordsFor size) n) := by
  obtain ⟨hmin, hfour, hroom, -⟩ := wordsFor_ok hsize
  obtain ⟨s', hrun, hleads, hused⟩ := place_ok hs hc hmin hfour hn
  refine ⟨s', hrun, hleads, ?_, fun k hk => ?_, hused⟩
  · unfold placedSize
    split <;> omega
  · have heq := located_unique hs.ok.pos hc hk
    cases heq

/-- What `mm_malloc` leaves behind: a new block, or nothing has changed. -/
structure Malloced (L : Layout) (s s' : State) (h h' : Heap) (size p : Nat) : Prop where
  holds : Holds L s' h'
  kept : Kept (InUse L h) s.mem s'.mem
  result : (p = 0 ∧ s' = s ∧ h' = h) ∨ ∃ c m, p = c + PAYLOAD ∧ Allocated L h h' size c m

/-- The rounding in `mm_malloc` and `mm_realloc` for a request that an `int` can hold. -/
theorem rounding_ok (hsize : size ≤ INT_MAX) :
    ¬ align (add64 size (2 * WSIZE)) < size ∧
      max MIN_BLOCK_SIZE_WORDS (align (add64 size (2 * WSIZE)) / WSIZE) = wordsFor size :=
  blockWords_rounding MIN_BLOCK_SIZE_WORDS (Nat.lt_of_le_pred (by decide) hsize)

theorem mmMalloc_ok (size : Nat) (hs : Holds L s h) (hsize : size ≤ INT_MAX) :
    ∃ s', mmMalloc L size s = .ok ((allocate (base L) L.memMaxAddr size h).1, s') ∧
      Malloced L s s' h (allocate (base L) L.memMaxAddr size h).2 size
        (allocate (base L) L.memMaxAddr size h).1 := by
  have hnothing : Malloced L s s h h size 0 :=
    ⟨hs, fun d m hd y hy hy' => rfl, Or.inl ⟨rfl, rfl, rfl⟩⟩
  obtain ⟨hmin, hfour, -, hlt⟩ := wordsFor_ok hsize
  obtain ⟨hround, hwords⟩ := rounding_ok hsize
  rw [mmMalloc, allocate]
  by_cases hzero : size = 0
  · rw [if_pos hzero, if_pos hzero, pure_ok]
    exact ⟨s, rfl, hnothing⟩
  rw [if_neg hzero, if_neg hzero]
  dsimp only
  rw [if_neg hround, hwords, bind_ok (findFit_ok hs.repr hs.ok hs.within hmin)]
  cases hfit : fit (base L) ⟨h.blocks, h.lists⟩ (wordsFor size) with
  | some c =>
    obtain ⟨n, hc, hn⟩ := fit_some hs.ok hfit
    obtain ⟨s', hrun, hleads, hnew⟩ := finish_ok hs hsize hc hn
    have hpos : c ≠ 0 := by
      have hin := (located_within hc).1
      unfold base WSIZE at hin
      omega
    refine ⟨s', ?_, hleads.holds, hleads.kept, Or.inr ⟨c, _, rfl, hnew⟩⟩
    rw [Option.getD_some, if_pos hpos, bind_ok hrun, pure_ok]
  | none =>
    have hends := hs.ends
    rw [Option.getD_none, if_neg (by simp)]
    dsimp only
    have hext : MIN_BLOCK_SIZE_WORDS ≤ max (wordsFor size) CHUNKSIZE ∧
        max (wordsFor size) CHUNKSIZE % 4 = 0 ∧ max (wordsFor size) CHUNKSIZE < 2 ^ 30 := by
      unfold MIN_BLOCK_SIZE_WORDS CHUNKSIZE at *
      omega
    rw [hends]
    split
    · rename_i hfits
      obtain ⟨s₁, hextend, hleads₁⟩ := extendHeap_ok _ hs hext.1 hext.2.1 hfits
      obtain ⟨k, hk, hfree⟩ := extendBy_free (base L) (max (wordsFor size) CHUNKSIZE) h
      have hused : ∀ d m, InUse L (extendBy (base L) (max (wordsFor size) CHUNKSIZE) h).2 d m ↔
          InUse L h d m := fun d m => extendBy_used
      generalize extendBy (base L) (max (wordsFor size) CHUNKSIZE) h = extended at *
      obtain ⟨c, h₁⟩ := extended
      obtain ⟨s', hrun, hleads, hnew⟩ := finish_ok hleads₁.holds hsize hfree (by omega)
      have hpos : c ≠ 0 := by
        have hin := (located_within hfree).1
        unfold base WSIZE at hin
        simp only at hin
        omega
      refine ⟨s', ?_, hleads.holds, ?_, Or.inr ⟨c, _, rfl, hnew.large, fun m hm => ?_, ?_⟩⟩
      · rw [bind_ok hextend, if_neg hpos, bind_ok hrun, pure_ok]
      · exact hleads₁.kept.trans (hleads.kept.mono fun d m hd => (hused d m).mpr hd)
      · exact hnew.fresh m ((hused c m).mpr hm)
      · exact fun d m => by rw [hnew.used d m, hused d m]
    · rename_i hfull
      refine ⟨s, ?_, hnothing⟩
      rw [bind_ok (extendHeap_full hs hext.2.2 (by omega)), if_pos rfl, pure_ok]

end Malloc

section Free

variable {L : Layout} {s : State} {h : Heap} {c n : Nat}

theorem mmFree_ok (hs : Holds L s h) (hc : InUse L h c n) :
    ∃ s', mmFree L (c + PAYLOAD) s = .ok ((), s') ∧
      Leads L s s' (fun d m => InUse L h d m ∧ d ≠ c) s.memBrk (freeAt (base L) c h) ∧
      ∀ d m, InUse L (freeAt (base L) c h) d m ↔ InUse L h d m ∧ d ≠ c := by
  obtain ⟨bs, lists⟩ := h
  obtain ⟨l, r, rfl, hl⟩ := located_split hc
  have hfocus : freeAt (base L) c ⟨l ++ ⟨n, true⟩ :: r, lists⟩ =
      (coalesceAt c n l.reverse r lists).2 := by
    rw [freeAt, hl, focus_split fun x hx => hs.ok.pos x (List.mem_append_left _ hx),
      List.append_nil]
  have hmem : (c, ⟨n, true⟩) ∈ located Blk.bytes (base L) (l ++ ⟨n, true⟩ :: r) := hc
  have hblock := hs.within.block hmem
  have hpos := located_ne_zero hmem
  have hmin := (hs.ok.sizes _ (mem_of_located hmem)).1
  simp only [bytes_eq] at hblock hmin
  have hM : MIN_BLOCK_SIZE_WORDS = 8 := rfl
  have hW : WSIZE = 4 := rfl
  -- every other block lies on one side
  have hothers : ∀ d m, InUse L ⟨l ++ ⟨n, true⟩ :: r, lists⟩ d m ∧ d ≠ c ↔
      (d, ⟨m, true⟩) ∈ located Blk.bytes (base L) l ∨
        (d, ⟨m, true⟩) ∈ located Blk.bytes (c + 4 * n) r := by
    intro d m
    have hin : InUse L ⟨l ++ ⟨n, true⟩ :: r, lists⟩ d m ↔
        (d, ⟨m, true⟩) ∈ located Blk.bytes (base L) l ∨ (d = c ∧ m = n) ∨
          (d, ⟨m, true⟩) ∈ located Blk.bytes (c + 4 * n) r := by
      simp [InUse, hl, bytes_eq]
    rw [hin]
    constructor
    · rintro ⟨hd | ⟨rfl, -⟩ | hd, hne⟩
      · exact Or.inl hd
      · exact absurd rfl hne
      · exact Or.inr hd
    · intro hd
      have hapart := outer_apart hl le_rfl hd
      have hpos : 8 ≤ m := (hs.ok.sizes ⟨m, true⟩ (outer_block hd)).1
      rw [bytes_eq] at hapart
      exact ⟨hd.imp_right Or.inr, by omega⟩
  obtain ⟨hrun, hmark, hmarked⟩ := mark_between false hl hs.repr hs.ok hs.within hmin le_rfl
    fun d x hd => mem_outer hl hd
  change markBlockFree c n s = _ at hrun
  have hpending : Pending L { s with mem := setTags s.mem c ⟨n, false⟩ } c n l.reverse r lists := by
    refine ⟨by rw [span_reverse, hl], ?_, by simpa using hs.ok, by simpa using hs.ends⟩
    rw [List.reverse_reverse, located_between hl]
    exact hmark
  obtain ⟨s', hcoalesce, hcoalesced⟩ := coalesce_ok hpending
  rw [hfocus]
  refine ⟨s', ?_, ⟨⟨hcoalesced.repr, coalesceAt_ok hpending.starts hpending.ok, ?_⟩,
    hcoalesced.brk, ?_⟩, fun d m => ?_⟩
  · have hsize : blkSize c s = .ok (n, s) :=
      blkSize_ok (b := ⟨n, true⟩) (hs.repr.tags c _ hmem).header (by simp only; omega)
    have hstarted : s.heapListp ≠ 0 := by
      rw [hs.repr.started]
      unfold base WSIZE
      omega
    rw [mmFree, bind_ok get_ok, bind_ok (assert_ok (by simpa using hstarted)),
      if_neg (by unfold PAYLOAD; omega), Nat.add_sub_cancel, bind_ok hsize, bind_ok hrun, bind_ok hcoalesce, pure_ok]
  · have hends := hs.ends
    have hshift : WSIZE * n = 4 * n := rfl
    simp only [span_append, span_cons, bytes_eq] at hends
    rw [coalesceAt_span, hcoalesced.brk, span_reverse]
    simp only
    omega
  · have hbefore : Kept (fun d m => InUse L ⟨l ++ ⟨n, true⟩ :: r, lists⟩ d m ∧ d ≠ c) s.mem
        (setTags s.mem c ⟨n, false⟩) := hmarked.mono fun d m hd => (hothers d m).mp hd
    refine hbefore.trans (hcoalesced.kept.mono fun d m hd => ?_)
    have hd' := (hothers d m).mp hd
    unfold Around
    rwa [List.reverse_reverse]
  · have hused : (d, ⟨m, true⟩) ∈
        located Blk.bytes (base L) (coalesceAt c n l.reverse r lists).2.blocks ↔ _ :=
      coalesceAt_used hpending.starts
    rw [List.reverse_reverse] at hused
    rw [hothers]
    exact hused

end Free

section Init

variable {L : Layout} {s : State} {i : Nat}

theorem listInit_ok (hi : i < FREE_LISTS_SIZE) :
    ∃ m', listInit L (freeList L i) s = .ok ((), { s with mem := m' }) ∧
      DList (linksOf m') (listHead (freeList L i)) [] (listTail (freeList L i)) ∧
      ∀ y, y < freeList L i ∨ freeList L i + 32 ≤ y → m' y = s.mem y := by
  have hbelow := L.lists_below
  have hhead : listHead (freeList L i) = freeList L i := rfl
  have htail : listTail (freeList L i) = freeList L i + 16 := rfl
  have hat : freeList L i < 2 ^ 63 := by
    unfold freeList
    unfold FREE_LISTS_SIZE at hi
    omega
  refine ⟨store (store (store (store s.mem (listHead (freeList L i)) 8 0)
    (listHead (freeList L i) + 8) 8 (listTail (freeList L i))) (listTail (freeList L i)) 8
    (listHead (freeList L i))) (listTail (freeList L i) + 8) 8 0, ?_, ⟨?_, ?_⟩, ?_⟩
  · have hne : freeList L i ≠ 0 := freeList_ne_zero
    have hne' : listTail (freeList L i) ≠ 0 := by omega
    rw [listInit, bind_ok (assert_ok (by simpa using hne)), bind_ok (setPrev_ok _ (hhead ▸ hne)),
      bind_ok (setNext_ok _ (hhead ▸ hne)), bind_ok (setPrev_ok _ hne'), setNext_ok _ hne']
  · refine List.isChain_pair.mpr ⟨?_, ?_⟩
    · change load _ (listHead (freeList L i) + 8) 8 = _
      rw [load_store_disjoint (by omega), load_store_disjoint (by omega),
        load_store_same (by omega)]
    · change load _ (listTail (freeList L i)) 8 = _
      rw [load_store_disjoint (by omega), load_store_same (by omega)]
  · simp only [List.nil_append, List.nodup_cons, List.mem_singleton, List.not_mem_nil,
      not_false_eq_true, List.nodup_nil, and_true]
    omega
  · intro y hy
    rw [store_outside (by omega), store_outside (by omega), store_outside (by omega),
      store_outside (by omega)]

theorem initLists_ok (is : List Nat) (his : ∀ i ∈ is, i < FREE_LISTS_SIZE) (hnodup : is.Nodup) :
    ∃ m' mid', initLists L is s = .ok ((), { s with mem := m', mid := mid' }) ∧
      (∀ i ∈ is, DList (linksOf m') (listHead (freeList L i)) [] (listTail (freeList L i)) ∧
        mid' i = ranges.getD i 0 / 2) ∧
      (∀ j ∉ is, mid' j = s.mid j) ∧
      ∀ y, (∀ i ∈ is, y < freeList L i ∨ freeList L i + 32 ≤ y) → m' y = s.mem y := by
  induction is generalizing s with
  | nil => exact ⟨s.mem, s.mid, rfl, by simp, fun _ _ => rfl, fun _ _ => rfl⟩
  | cons i is ih =>
    rw [List.nodup_cons] at hnodup
    obtain ⟨m₁, hrun₁, hlist₁, hframe₁⟩ :=
      listInit_ok (L := L) (s := s) (his i List.mem_cons_self)
    obtain ⟨m', mid', hrun, hlists, hmid, hframe⟩ := ih
      (s := { s with mem := m₁, mid := Function.update s.mid i (ranges.getD i 0 / 2) })
      (fun j hj => his j (List.mem_cons_of_mem i hj)) hnodup.2
    refine ⟨m', mid', ?_, ?_, ?_, ?_⟩
    · rw [initLists, bind_ok hrun₁, bind_ok (modify_ok _), hrun]
    · intro j hj
      rcases List.mem_cons.mp hj with rfl | hj
      · -- the later iterations write to other lists only
        have hsame : Agree m₁ m' (freeList L j) (freeList L j + 32) := by
          intro y hy hy'
          refine hframe y fun k hk => ?_
          have hkj : k ≠ j := fun h => hnodup.1 (h ▸ hk)
          unfold freeList at *
          omega
        refine ⟨hlist₁.congr fun x hx => ?_, ?_⟩
        · have hx : x = freeList L j ∨ x = freeList L j + 16 := by
            simpa [listHead, listTail] using hx
          exact ⟨load_congr (hsame.mono (by omega) (by omega)),
            load_congr (hsame.mono (by omega) (by omega))⟩
        · rw [hmid j hnodup.1]
          exact Function.update_self ..
      · exact hlists j hj
    · intro j hj
      rw [List.mem_cons, not_or] at hj
      rw [hmid j hj.2]
      exact Function.update_of_ne hj.1 ..
    · intro y hy
      exact (hframe y fun k hk => hy k (List.mem_cons_of_mem i hk)).trans
        (hframe₁ y (hy i List.mem_cons_self))

theorem mmInit_ok (hbrk : s.memBrk = L.memStartBrk) (hcalls : s.calls = [])
    (hroom : 4 * WSIZE ≤ L.heapSize) :
    ∃ s', mmInit L s = .ok (0, s') ∧ Holds L s' ⟨[], fun _ => []⟩ := by
  have hmax : L.memMaxAddr = L.memStartBrk + L.heapSize := rfl
  have hW : WSIZE = 4 := rfl
  have hstart := L.start_pos
  have hlists := L.lists_apart
  have hsbrk : memSbrk L (4 * (WSIZE : Nat)) s =
      .ok (L.memStartBrk, { s with memBrk := L.memStartBrk + 16 }) := by
    rw [memSbrk, bind_ok get_ok, if_neg (by omega), bind_ok (modify_ok _), pure_ok, hbrk]
    rfl
  set m₁ := store s.mem (L.memStartBrk + 2 * WSIZE) WSIZE FENCE with hm₁
  set m₂ := store m₁ (L.memStartBrk + 3 * WSIZE) WSIZE FENCE with hm₂
  obtain ⟨m', mid', hrun, hlist, -, hframe⟩ := initLists_ok (L := L)
    (s := { s with
      mem := m₂
      memBrk := L.memStartBrk + 16
      heapListp := L.memStartBrk + 3 * WSIZE })
    (List.range FREE_LISTS_SIZE) (fun i hi => List.mem_range.mp hi) List.nodup_range
  have hkept : Agree m₂ m' (L.memStartBrk + 8) (L.memStartBrk + 16) := by
    intro y hy hy'
    refine hframe y fun i hi => ?_
    rw [List.mem_range] at hi
    unfold freeList
    unfold FREE_LISTS_SIZE at hi
    omega
  refine ⟨{ s with
      mem := m'
      memBrk := L.memStartBrk + 16
      heapListp := L.memStartBrk + 3 * WSIZE
      mid := mid' }, ?_, ⟨⟨?_, by simp, ?_, ?_, ?_, rfl, ?_, ?_⟩, ?_, rfl⟩⟩
  · rw [mmInit, bind_ok hsbrk, if_neg (by omega), bind_ok (writeWord_ok _ _ (by omega)),
      bind_ok (modify_ok _), bind_ok (writeWord_ok _ _ (by omega)), bind_ok hrun, pure_ok]
  · have hprologue : load m₂ (L.memStartBrk + 2 * WSIZE) WSIZE = FENCE := by
      rw [hm₂, load_store_disjoint (by omega), hm₁, load_store_same (by decide)]
    change load m' (L.memStartBrk + 2 * WSIZE) WSIZE = FENCE
    rw [← hprologue]
    exact load_congr (hkept.mono (by omega) (by omega))
  · have hepilogue : load m₂ (L.memStartBrk + 3 * WSIZE) WSIZE = FENCE := by
      rw [hm₂, load_store_same (by decide)]
    change load m' (L.memStartBrk + 3 * WSIZE) WSIZE = FENCE
    rw [← hepilogue]
    exact load_congr (hkept.mono (by omega) (by omega))
  · exact fun i hi => (hlist i (List.mem_range.mpr hi)).1
  · exact fun i hi => (hlist i (List.mem_range.mpr hi)).2
  · change L.memStartBrk + 16 ≤ L.memMaxAddr
    omega
  · change ∀ call ∈ s.calls, Call.Ok L call
    simp [hcalls]
  · exact ⟨by simp, List.isChain_nil, by simp, by simp⟩

theorem mmInit_full (hbrk : s.memBrk = L.memStartBrk) (hroom : L.heapSize < 4 * WSIZE) :
    mmInit L s = .ok (-1, s) := by
  have hmax : L.memMaxAddr = L.memStartBrk + L.heapSize := rfl
  have hsbrk : memSbrk L (4 * (WSIZE : Nat)) s = .ok (0, s) := by
    rw [memSbrk, bind_ok get_ok, if_pos (by omega), pure_ok]
  rw [mmInit, bind_ok hsbrk, if_pos rfl, pure_ok]

end Init

end ComputerSystems.Malloc.Allocator
