/- `coalesce` and `extend_heap` on tagged heaps. -/

import ComputerSystems.Implicit.Heap
import ComputerSystems.Malloc.Place

set_option autoImplicit false
set_option relaxedAutoImplicit false

namespace ComputerSystems.Implicit.Coalescing

open ComputerSystems.Memory.Bytes
open ComputerSystems.Memory.Tiling
open ComputerSystems.Memory.Joining
open ComputerSystems.Systems.Computations (bind_ok pure_ok)
open ComputerSystems.Malloc.Machine
open ComputerSystems.Malloc.Mm (WSIZE FENCE tagInuse memSbrk prevBlkFooter blkFree blkSize prevBlk
  nextBlk markBlockFree)
open ComputerSystems.Malloc.Blocks (Blk bytes_eq)
open ComputerSystems.Malloc.Representation
open ComputerSystems.Malloc.Place (memSbrk_ok)
open ComputerSystems.Implicit.Program
open ComputerSystems.Implicit.Tilings
open ComputerSystems.Implicit.Heap

variable {L : Layout} {s : State} {bs l mid r : List Blk} {c k m n words : Nat}

section Coalesce

/-- `mark_block_free` over free blocks makes one block of them and touches no payload in use. -/
theorem merge_ok (h : Tagged L s (l ++ (mid ++ r))) (hc : c = base L + span Blk.bytes l)
    (hspan : 4 * k = span Blk.bytes mid) (hfree : ∀ b ∈ mid, b.used = false)
    (hk : Whole ⟨k, false⟩) :
    markBlockFree c k s = .ok ((), { s with mem := setTags s.mem c ⟨k, false⟩ }) ∧
      Tagged L { s with mem := setTags s.mem c ⟨k, false⟩ } (l ++ ⟨k, false⟩ :: r) ∧
      Kept (InUse L (l ++ (mid ++ r))) s.mem (setTags s.mem c ⟨k, false⟩) := by
  obtain ⟨hrun, htagged, hframe⟩ := h.mark false hc hspan hk
  refine ⟨hrun, htagged, fun e j he y hy hy' => hframe y ?_⟩
  have hapart := mid_inUse hc he fun e' hmem => by
    have hused := hfree _ (mem_of_located hmem)
    cases hused
  have hW : WSIZE = 4 := rfl
  have hbytes : WSIZE * j = 4 * j := rfl
  omega

theorem exists_behind (h : r.head?.any isFree = true) : ∃ m r', r = ⟨m, false⟩ :: r' := by
  cases r with
  | nil => cases h
  | cons b r =>
    obtain ⟨m, u⟩ := b
    cases u with
    | false => exact ⟨m, r, rfl⟩
    | true => cases h

theorem exists_front (h : l.getLast?.any isFree = true) : ∃ l' k, l = l' ++ [⟨k, false⟩] := by
  rcases List.eq_nil_or_concat l with rfl | ⟨l, b, rfl⟩
  · cases h
  · rw [List.concat_eq_append, List.getLast?_concat] at h
    obtain ⟨k, u⟩ := b
    cases u with
    | false => exact ⟨l, k, List.concat_eq_append ..⟩
    | true => cases h

theorem behindUsed_of (h : r.head?.any isFree = false) : BehindUsed r := by
  intro x hx
  rw [hx] at h
  exact h

theorem frontUsed_of (h : l.getLast?.any isFree = false) : FrontUsed l := by
  intro x hx
  rw [hx] at h
  exact h

/-- A free block of `n` words between `l` and `r` was joined with its neighbours: the result starts
at `c` and memory is `m'`. -/
structure Merged (L : Layout) (s : State) (l r : List Blk) (n c : Nat) (m' : Mem) : Prop where
  tagged : Tagged L { s with mem := m' } (joinFree isFree join (l ++ ⟨n, false⟩ :: r))
  kept : Kept (InUse L (l ++ ⟨n, false⟩ :: r)) s.mem m'
  starts : ∃ l' k r', joinFree isFree join (l ++ ⟨n, false⟩ :: r) = l' ++ ⟨k, false⟩ :: r' ∧
    c = base L + span Blk.bytes l' ∧ (r = [] → r' = [])

theorem coalesce_alone (h : Tagged L s (l ++ ⟨n, false⟩ :: r)) (hl : Separated isFree l)
    (hr : Separated isFree r) (hc : c = base L + span Blk.bytes l)
    (hfront : l.getLast?.any isFree = false) (hbehind : r.head?.any isFree = false) :
    coalesce L c s = .ok (c, s) ∧ Merged L s l r n c s.mem := by
  have hjoin := joinFree_alone (n := n) hl (frontUsed_of hfront) hr (behindUsed_of hbehind)
  obtain ⟨w, hprev, hinuse⟩ := h.reads_front hc
  have hmem : (c, ⟨n, false⟩) ∈ located Blk.bytes (base L) (l ++ ⟨n, false⟩ :: r) := by
    rw [hc]
    exact located_middle _ l r _
  obtain ⟨hsize, -, hnext⟩ := h.reads hmem
  have hfree := @Tagged.reads_behind L s (l ++ [⟨n, false⟩]) r (by simpa using h)
  rw [span_append, span_cons, span_nil, Nat.add_zero, ← Nat.add_assoc, ← hc, hbehind] at hfree
  refine ⟨?_, by rwa [hjoin], fun e j he y hy hy' => rfl, l, n, r, hjoin, hc, id⟩
  rw [coalesce, bind_ok hprev, hinuse, hfront, bind_ok hnext, bind_ok hfree, bind_ok hsize,
    if_pos (by decide), pure_ok]

theorem coalesce_next (h : Tagged L s (l ++ ⟨n, false⟩ :: ⟨m, false⟩ :: r))
    (hl : Separated isFree l) (hr : Separated isFree (⟨m, false⟩ :: r))
    (hc : c = base L + span Blk.bytes l) (hfront : l.getLast?.any isFree = false) :
    coalesce L c s = .ok (c, { s with mem := setTags s.mem c ⟨n + m, false⟩ }) ∧
      Merged L s l (⟨m, false⟩ :: r) n c (setTags s.mem c ⟨n + m, false⟩) := by
  have hjoin := joinFree_next (n := n) hl (frontUsed_of hfront) hr
  obtain ⟨w, hprev, hinuse⟩ := h.reads_front hc
  have hmem : (c, ⟨n, false⟩) ∈
      located Blk.bytes (base L) (l ++ ⟨n, false⟩ :: ⟨m, false⟩ :: r) := by simp [hc]
  have hmem' : (c + Blk.bytes ⟨n, false⟩, ⟨m, false⟩) ∈
      located Blk.bytes (base L) (l ++ ⟨n, false⟩ :: ⟨m, false⟩ :: r) := by simp [hc]
  obtain ⟨hsize, -, hnext⟩ := h.reads hmem
  obtain ⟨hsize', hfree, -⟩ := h.reads hmem'
  have hsmall := (h.block hmem).2.2.2.2.1
  have hsmall' := (h.block hmem').2.2.2.2.1
  have hwhole := (h.whole _ (mem_of_located hmem)).join (h.whole _ (mem_of_located hmem'))
  obtain ⟨hrun, htagged, hkept⟩ := @merge_ok L s l [⟨n, false⟩, ⟨m, false⟩] r c (n + m) h hc
    (by simp only [span_cons, span_nil, bytes_eq]; omega) (by simp) hwhole
  refine ⟨?_, by rwa [hjoin], hkept, l, n + m, r, hjoin, hc, fun hnil => by cases hnil⟩
  rw [coalesce, bind_ok hprev, hinuse, hfront, bind_ok hnext, bind_ok hfree, bind_ok hsize,
    if_neg (by simp [isFree]), if_pos (by simp [isFree]), bind_ok hnext, bind_ok hsize',
    add64_eq (by simp only at hsmall hsmall' ⊢; omega), bind_ok hrun, pure_ok]

theorem coalesce_prev (h : Tagged L s (l ++ ⟨k, false⟩ :: ⟨n, false⟩ :: r))
    (hl : Separated isFree (l ++ [⟨k, false⟩])) (hr : Separated isFree r)
    (hc : c = base L + span Blk.bytes (l ++ [⟨k, false⟩]))
    (hbehind : r.head?.any isFree = false) :
    coalesce L c s = .ok (base L + span Blk.bytes l,
        { s with mem := setTags s.mem (base L + span Blk.bytes l) ⟨k + n, false⟩ }) ∧
      Merged L s (l ++ [⟨k, false⟩]) r n (base L + span Blk.bytes l)
        (setTags s.mem (base L + span Blk.bytes l) ⟨k + n, false⟩) := by
  have hjoin := joinFree_prev (n := n) hl hr (behindUsed_of hbehind)
  have happend : l ++ [⟨k, false⟩] ++ ⟨n, false⟩ :: r = l ++ ⟨k, false⟩ :: ⟨n, false⟩ :: r := by simp
  obtain ⟨w, hprev, hinuse⟩ := (happend.symm ▸ h : Tagged L s _).reads_front hc
  rw [List.getLast?_concat] at hinuse
  have hmem : (c, ⟨n, false⟩) ∈
      located Blk.bytes (base L) (l ++ ⟨k, false⟩ :: ⟨n, false⟩ :: r) := by
    simp [hc, Nat.add_assoc]
  have hmem' : (base L + span Blk.bytes l, ⟨k, false⟩) ∈
      located Blk.bytes (base L) (l ++ ⟨k, false⟩ :: ⟨n, false⟩ :: r) := located_middle _ l _ _
  obtain ⟨hsize, -, hnext⟩ := h.reads hmem
  have hsize' := (h.reads hmem').1
  have hprevBlk := h.reads_prev hc
  have hfree := @Tagged.reads_behind L s (l ++ [⟨k, false⟩, ⟨n, false⟩]) r (by simpa using h)
  have haddr : base L + span Blk.bytes (l ++ [⟨k, false⟩, ⟨n, false⟩]) =
      c + Blk.bytes ⟨n, false⟩ := by
    rw [hc]
    simp only [span_append, span_cons, span_nil]
    omega
  rw [haddr, hbehind] at hfree
  have hsmall := (h.block hmem).2.2.2.2.1
  have hsmall' := (h.block hmem').2.2.2.2.1
  have hwhole := (h.whole _ (mem_of_located hmem')).join (h.whole _ (mem_of_located hmem))
  obtain ⟨hrun, htagged, hkept⟩ := @merge_ok L s l [⟨k, false⟩, ⟨n, false⟩] r _ (k + n) h rfl
    (by simp only [span_cons, span_nil, bytes_eq]; omega) (by simp) hwhole
  refine ⟨?_, by rwa [happend, hjoin], by rwa [happend], l, k + n, r, by rw [happend, hjoin], rfl, id⟩
  rw [coalesce, bind_ok hprev, hinuse, bind_ok hnext, bind_ok hfree, bind_ok hsize,
    if_neg (by simp [isFree]), if_neg (by simp [isFree]), if_pos (by simp [isFree]),
    bind_ok hprevBlk, bind_ok hsize', add64_eq (by simp only at hsmall hsmall' ⊢; omega),
    Nat.add_comm n k, bind_ok hrun, pure_ok]

/-- Case 4: both neighbours are free. `prev_blk` finds the block in front once more after the three
have become one: the footer it reads is inside the new block and was not written. -/
theorem coalesce_both (h : Tagged L s (l ++ ⟨k, false⟩ :: ⟨n, false⟩ :: ⟨m, false⟩ :: r))
    (hl : Separated isFree (l ++ [⟨k, false⟩])) (hr : Separated isFree (⟨m, false⟩ :: r))
    (hc : c = base L + span Blk.bytes (l ++ [⟨k, false⟩])) :
    coalesce L c s = .ok (base L + span Blk.bytes l,
        { s with mem := setTags s.mem (base L + span Blk.bytes l) ⟨k + (n + m), false⟩ }) ∧
      Merged L s (l ++ [⟨k, false⟩]) (⟨m, false⟩ :: r) n (base L + span Blk.bytes l)
        (setTags s.mem (base L + span Blk.bytes l) ⟨k + (n + m), false⟩) := by
  have hjoin := joinFree_both (n := n) hl hr
  have happend : l ++ [⟨k, false⟩] ++ ⟨n, false⟩ :: ⟨m, false⟩ :: r =
      l ++ ⟨k, false⟩ :: ⟨n, false⟩ :: ⟨m, false⟩ :: r := by simp
  obtain ⟨w, hprev, hinuse⟩ := (happend.symm ▸ h : Tagged L s _).reads_front hc
  rw [List.getLast?_concat] at hinuse
  set d := base L + span Blk.bytes l with hd
  have hdc : c = d + 4 * k := by
    rw [hc, hd]
    simp only [span_append, span_cons, span_nil, bytes_eq]
    omega
  have hmem : (d, ⟨k, false⟩) ∈
      located Blk.bytes (base L) (l ++ ⟨k, false⟩ :: ⟨n, false⟩ :: ⟨m, false⟩ :: r) :=
    located_middle _ l _ _
  have hmem₁ : (c, ⟨n, false⟩) ∈
      located Blk.bytes (base L) (l ++ ⟨k, false⟩ :: ⟨n, false⟩ :: ⟨m, false⟩ :: r) := by
    simp [hdc, hd, bytes_eq]
  have hmem₂ : (c + Blk.bytes ⟨n, false⟩, ⟨m, false⟩) ∈
      located Blk.bytes (base L) (l ++ ⟨k, false⟩ :: ⟨n, false⟩ :: ⟨m, false⟩ :: r) := by
    simp [hdc, hd, bytes_eq]
  obtain ⟨hsize, -, -⟩ := h.reads hmem
  obtain ⟨hsize₁, -, hnext⟩ := h.reads hmem₁
  obtain ⟨hsize₂, hfree, -⟩ := h.reads hmem₂
  have hprevBlk := h.reads_prev hc
  have hblock := h.block hmem
  have hblock₁ := h.block hmem₁
  have hblock₂ := h.block hmem₂
  simp only [bytes_eq] at hblock hblock₁ hblock₂
  have hbounds := h.bounds
  have hwhole := (h.whole _ (mem_of_located hmem)).join
    ((h.whole _ (mem_of_located hmem₁)).join (h.whole _ (mem_of_located hmem₂)))
  obtain ⟨hrun, htagged, hkept⟩ := @merge_ok L s l [⟨k, false⟩, ⟨n, false⟩, ⟨m, false⟩] r _
    (k + (n + m)) h rfl (by simp only [span_cons, span_nil, bytes_eq]; omega) (by simp) hwhole
  have hsum : add64 (add64 n m) k = k + (n + m) := by
    rw [add64_eq (show n + m < 2 ^ 64 by omega), add64_eq (by omega), Nat.add_comm]
  have hW : WSIZE = 4 := rfl
  have hfooter := (h.tags d _ hmem).footer
  rw [bytes_eq, ← hdc] at hfooter
  have hsame : load (setTags s.mem d ⟨k + (n + m), false⟩) (c - WSIZE) WSIZE =
      tagOf ⟨k, false⟩ := by
    rw [← hfooter]
    exact load_congr fun y hy hy' => setTags_outside (by rw [bytes_eq]; omega) (by omega)
      (by rw [bytes_eq]; omega)
  have hagain : prevBlk L c { s with mem := setTags s.mem d ⟨k + (n + m), false⟩ } =
      .ok (d, { s with mem := setTags s.mem d ⟨k + (n + m), false⟩ }) :=
    prevBlk_ok (b := ⟨k, false⟩) hsame hdc.symm (by simp only; omega) (by simp only; omega)
      (by omega) (by omega)
  refine ⟨?_, by rwa [happend, hjoin], by rwa [happend], l, k + (n + m), r, by rw [happend, hjoin],
    rfl, fun hnil => by cases hnil⟩
  rw [coalesce, bind_ok hprev, hinuse, bind_ok hnext, bind_ok hfree, bind_ok hsize₁,
    if_neg (by simp [isFree]), if_neg (by simp [isFree]), if_neg (by simp [isFree]), bind_ok hnext,
    bind_ok hsize₂, bind_ok hprevBlk, bind_ok hsize, bind_ok hprevBlk, hsum, bind_ok hrun, hagain]

theorem coalesce_ok (h : Tagged L s (l ++ ⟨n, false⟩ :: r)) (hl : Separated isFree l)
    (hr : Separated isFree r) (hc : c = base L + span Blk.bytes l) :
    ∃ c' m', coalesce L c s = .ok (c', { s with mem := m' }) ∧ Merged L s l r n c' m' := by
  cases hfront : l.getLast?.any isFree with
  | false =>
    cases hbehind : r.head?.any isFree with
    | false =>
      exact ⟨c, s.mem, coalesce_alone h hl hr hc hfront hbehind⟩
    | true =>
      obtain ⟨m, r, rfl⟩ := exists_behind hbehind
      exact ⟨_, _, coalesce_next h hl hr hc hfront⟩
  | true =>
    obtain ⟨l, k, rfl⟩ := exists_front hfront
    have h : Tagged L s (l ++ ⟨k, false⟩ :: ⟨n, false⟩ :: r) := by simpa using h
    cases hbehind : r.head?.any isFree with
    | false => exact ⟨_, _, coalesce_prev h hl hr hc hbehind⟩
    | true =>
      obtain ⟨m, r, rfl⟩ := exists_behind hbehind
      exact ⟨_, _, coalesce_both h hl hr hc⟩

end Coalesce

section Extend

/-- The block of `words` words behind a longer break, and a fence behind that. -/
theorem tagged_grow (h : Tagged L s bs) (hwords : Whole ⟨words, false⟩)
    (hroom : s.memBrk + 4 * words ≤ L.memMaxAddr) {m' : Mem}
    (hframe : ∀ y, y < s.memBrk - WSIZE → m' y = s.mem y)
    (hmarked : Marked m' (s.memBrk - WSIZE) ⟨words, false⟩)
    (hfence : load m' (s.memBrk + 4 * words - WSIZE) WSIZE = FENCE) :
    Tagged L { s with mem := m', memBrk := s.memBrk + 4 * words } (bs ++ [⟨words, false⟩]) := by
  have hends := h.ends
  have hbounds := h.bounds
  have hW : WSIZE = 4 := rfl
  refine ⟨?_, fun d b hd => ?_, hfence, ?_, ?_, h.started, hroom⟩
  · rw [← h.prologue]
    exact load_congr fun y hy hy' => hframe y (by omega)
  · rw [located_append, List.mem_append, located_cons, located_nil, List.mem_singleton] at hd
    rcases hd with hd | hd
    · have hblock := h.block hd
      have hold := h.tags d b hd
      refine ⟨?_, ?_⟩
      · rw [← hold.header]
        exact load_congr fun y hy hy' => hframe y (by omega)
      · rw [← hold.footer]
        exact load_congr fun y hy hy' => hframe y (by omega)
    · cases hd
      rwa [show base L + span Blk.bytes bs = s.memBrk - WSIZE by omega]
  · intro b hb
    rcases List.mem_append.mp hb with hb | hb
    · exact h.whole b hb
    · rw [List.mem_singleton.mp hb]
      exact hwords
  · simp only [span_append, span_cons, span_nil, bytes_eq]
    omega

/-- `extend_heap` when there is room: the old epilogue becomes the header of the new block, which is
joined with a free last block. -/
theorem extendHeap_ok (h : Holds L s bs) (hwords : Whole ⟨words, false⟩)
    (hroom : s.memBrk + 4 * words ≤ L.memMaxAddr) :
    ∃ c s', extendHeap L words s = .ok (c, s') ∧ Holds L s' (extend words bs) ∧
      Kept (InUse L bs) s.mem s'.mem ∧
      ∃ l k, extend words bs = l ++ [⟨k, false⟩] ∧ c = base L + span Blk.bytes l := by
  have hW : WSIZE = 4 := rfl
  have hends := h.tagged.ends
  have hbounds := h.tagged.bounds
  have hbase : base L = L.memStartBrk + 12 := rfl
  have hheap := L.heapSize_le
  have hbelow := L.start_below
  have hmax : L.memMaxAddr = L.memStartBrk + L.heapSize := rfl
  have hcap : MAX_HEAP = 2 ^ 30 := rfl
  have hbytes : Blk.bytes ⟨words, false⟩ = 4 * words := rfl
  have hlow := hwords.bytes_ge
  have hsbrk := memSbrk_ok (L := L) (s := s) words (by omega) (by omega)
  rw [if_pos hroom] at hsbrk
  set s₁ : State := { s with
    mem := setTags s.mem (s.memBrk - WSIZE) ⟨words, false⟩
    memBrk := s.memBrk + 4 * words } with hs₁
  have hmark : markBlockFree (s.memBrk - WSIZE) words
      { s with memBrk := s.memBrk + 4 * words } = .ok ((), s₁) := by
    rw [markBlockFree, toInt_eq (by omega)]
    exact setHeaderAndFooter_ok (b := ⟨words, false⟩) (by simp only; omega)
      (by simp only; omega) (by omega)
  have hmarked := setTags_marked (b := ⟨words, false⟩) (m := s.mem) (c := s.memBrk - WSIZE)
    (by simp only; omega) (by simp only; omega)
  have hnext : nextBlk L (s.memBrk - WSIZE) s₁ = .ok (s.memBrk - WSIZE + 4 * words, s₁) :=
    nextBlk_ok (b := ⟨words, false⟩) hmarked.header (by simp only; omega) (by simp only; omega)
      (by omega)
  set m₂ := store s₁.mem (s.memBrk - WSIZE + 4 * words) WSIZE FENCE with hm₂
  have hframe : ∀ y, y < s.memBrk - WSIZE → m₂ y = s.mem y := by
    intro y hy
    rw [hm₂, store_outside (by omega), hs₁]
    exact setTags_outside (by omega) (by omega) (by omega)
  have htagged : Tagged L { s with mem := m₂, memBrk := s.memBrk + 4 * words }
      (bs ++ [⟨words, false⟩]) := by
    refine tagged_grow h.tagged hwords hroom hframe ⟨?_, ?_⟩ ?_
    · rw [← hmarked.header, hm₂]
      exact load_store_disjoint (by omega)
    · rw [← hmarked.footer, hm₂]
      exact load_store_disjoint (by omega)
    · rw [hm₂, show s.memBrk + 4 * words - WSIZE = s.memBrk - WSIZE + 4 * words by omega]
      exact load_store_same (by decide)
  obtain ⟨c, m', hrun, hmerged⟩ := coalesce_ok htagged h.separated List.isChain_nil
    (show s.memBrk - WSIZE = base L + span Blk.bytes bs by omega)
  obtain ⟨l, k, r, hjoined, hc, hr⟩ := hmerged.starts
  rw [hr rfl] at hjoined
  refine ⟨c, _, ?_, ⟨hmerged.tagged, joinFree_separated⟩, ?_, l, k, hjoined, hc⟩
  · rw [extendHeap, bind_ok hsbrk, if_neg (by omega), bind_ok hmark, bind_ok hnext,
      bind_ok (writeWord_ok _ _ (by omega)), hrun]
  · have hbefore : Kept (InUse L bs) s.mem m₂ := by
      intro d j hd y hy hy'
      have hblock := h.tagged.block hd
      have hj : WSIZE * j = 4 * j := rfl
      rw [bytes_eq] at hblock
      exact hframe y (by omega)
    refine hbefore.trans (hmerged.kept.mono fun d j hd => ?_)
    rw [InUse, located_append]
    exact List.mem_append_left _ hd

theorem extendHeap_full (h : Holds L s bs) (hwords : words < 2 ^ 30)
    (hroom : L.memMaxAddr < s.memBrk + 4 * words) : extendHeap L words s = .ok (0, s) := by
  have hends := h.tagged.ends
  have hsbrk := memSbrk_ok (L := L) (s := s) words hwords (by unfold base at hends; omega)
  rw [if_neg (by omega)] at hsbrk
  rw [extendHeap, bind_ok hsbrk, if_pos rfl, pure_ok]

end Extend

end ComputerSystems.Implicit.Coalescing
