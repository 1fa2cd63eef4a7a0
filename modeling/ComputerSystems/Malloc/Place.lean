/- `place` and `extend_heap` on represented heaps. -/

import ComputerSystems.Malloc.Coalesce

set_option autoImplicit false
set_option relaxedAutoImplicit false

namespace ComputerSystems.Malloc.Place

open ComputerSystems.Memory.Bytes
open ComputerSystems.Memory.Tiling
open ComputerSystems.Systems.Computations (bind_ok pure_ok get_ok)
open ComputerSystems.Malloc.Machine
open ComputerSystems.Malloc.ListC
open ComputerSystems.Malloc.Mm
open ComputerSystems.Malloc.Blocks
open ComputerSystems.Malloc.Operations
open ComputerSystems.Malloc.FreeLists
open ComputerSystems.Malloc.Representation
open ComputerSystems.Malloc.Coalesce

/-- The state holds the heap `h`: its blocks fill the space between the fences. -/
structure Holds (L : Layout) (s : State) (h : Heap) : Prop where
  repr : Represents L s (located Blk.bytes (base L) h.blocks) h.lists
  ok : Ok (base L) h.blocks h.lists
  ends : base L + span Blk.bytes h.blocks + WSIZE = s.memBrk

def InUse (L : Layout) (h : Heap) (d m : Nat) : Prop :=
  (d, ⟨m, true⟩) ∈ located Blk.bytes (base L) h.blocks

variable {L : Layout} {s : State} {h : Heap}

theorem Holds.within (hs : Holds L s h) : Within L s h.blocks := ⟨hs.ends.le, hs.repr.room⟩

section Place

variable {c asize n : Nat} {l r : List Blk} {lists : Lists}

/-- `mark_block_used` on the free block at `c`: the block, or its first words, get tags of a block
in use while the block is still linked. -/
theorem markUsed_ok {k : Nat} (hs : Holds L s ⟨l.reverse ++ ⟨n, false⟩ :: r, lists⟩)
    (hc : c = base L + span Blk.bytes l) (hk : MIN_BLOCK_SIZE_WORDS ≤ k) (hle : k ≤ n) :
    markBlockUsed c k s = .ok ((), { s with mem := setTags s.mem c ⟨k, true⟩ }) ∧
      Represents L { s with mem := setTags s.mem c ⟨k, true⟩ }
        (located Blk.bytes (base L) l.reverse ++
          (c, ⟨k, true⟩) :: located Blk.bytes (c + 4 * n) r) lists ∧
      Kept (InUse L ⟨l.reverse ++ ⟨n, false⟩ :: r, lists⟩) s.mem
        (setTags s.mem c ⟨k, true⟩) := by
  have hc' : c = base L + span Blk.bytes l.reverse := by rw [span_reverse, hc]
  obtain ⟨hrun, hmark, hmarked⟩ := mark_between true hc' hs.repr hs.ok hs.within hk hle
    fun d x hd => mem_outer hc' hd
  refine ⟨hrun, hmark, hmarked.mono fun d m hd => ?_⟩
  simpa [InUse, hc, bytes_eq] using hd

theorem markUsed_remove_ok {k : Nat} (hs : Holds L s ⟨l.reverse ++ ⟨n, false⟩ :: r, lists⟩)
    (hc : c = base L + span Blk.bytes l) (hk : MIN_BLOCK_SIZE_WORDS ≤ k) (hle : k ≤ n) :
    ∃ s', markBlockUsed c k s = .ok ((), { s with mem := setTags s.mem c ⟨k, true⟩ }) ∧
      removeFreeBlock L c { s with mem := setTags s.mem c ⟨k, true⟩ } = .ok ((), s') ∧
      Represents L s' (located Blk.bytes (base L) l.reverse ++
        (c, ⟨k, true⟩) :: located Blk.bytes (c + 4 * n) r) (lists.drop c) ∧
      s'.memBrk = s.memBrk ∧
      Kept (InUse L ⟨l.reverse ++ ⟨n, false⟩ :: r, lists⟩) s.mem s'.mem := by
  obtain ⟨hmark, hr, hkept⟩ := markUsed_ok hs hc hk hle
  have hfits : Fits L (located Blk.bytes (base L) l.reverse ++
      (c, ⟨k, true⟩) :: located Blk.bytes (c + 4 * n) r) (l.reverse ++ ⟨n, false⟩ :: r) := by
    intro d x hd
    have hmin := fun b hb => (hs.ok.sizes b hb).1
    simp only [List.mem_append, List.mem_cons, Prod.mk.injEq] at hd
    simp only [located_append, located_cons, List.mem_append, List.mem_cons, span_reverse, ← hc]
    rcases hd with hd | ⟨rfl, rfl⟩ | hd
    · exact ⟨hmin x (by simp [mem_of_located hd]), x, Or.inl hd, le_rfl⟩
    · exact ⟨hk, ⟨n, false⟩, Or.inr (Or.inl rfl), hle⟩
    · exact ⟨hmin x (by simp [mem_of_located hd]), x, Or.inr (Or.inr hd), le_rfl⟩
  obtain ⟨s', hremove, hr', hbrk, hkept'⟩ := removeFreeBlock_ok (c := c) (n := n) hr hs.ok
    ⟨hs.ends.le, hs.repr.room⟩ hfits (by simp [hc])
  exact ⟨s', hmark, hremove, hr', hbrk, hkept.trans hkept'⟩

/-- What a step that leads from the heap `h` to the heap `h'` leaves behind; `brk` is the break
and `live` the blocks whose payloads keep their bytes. -/
structure Leads (L : Layout) (s s' : State) (live : Nat → Nat → Prop) (brk : Nat) (h' : Heap) :
    Prop where
  holds : Holds L s' h'
  brk : s'.memBrk = brk
  kept : Kept live s.mem s'.mem

theorem placeAt_run (hs : Holds L s ⟨l.reverse ++ ⟨n, false⟩ :: r, lists⟩)
    (hc : c = base L + span Blk.bytes l) (hasize : MIN_BLOCK_SIZE_WORDS ≤ asize)
    (hfour : asize % 4 = 0) (hle : asize ≤ n) :
    ∃ s', place L c asize s = .ok ((), s') ∧
      Leads L s s' (InUse L ⟨l.reverse ++ ⟨n, false⟩ :: r, lists⟩) s.memBrk
        (placeAt c asize n l r lists) := by
  have hok := placeAt_ok hc hasize hfour hs.ok
  have hspan : span Blk.bytes (placeAt c asize n l r lists).blocks = _ := placeAt_span hle
  have hmem : (c, ⟨n, false⟩) ∈ located Blk.bytes (base L) (l.reverse ++ ⟨n, false⟩ :: r) := by
    simp [hc]
  have hblock := hs.within.block hmem
  have hpos := located_ne_zero hmem
  simp only [bytes_eq] at hblock
  have hsize : blkSize c s = .ok (n, s) := blkSize_ok (hs.repr.tags c _ hmem).header (by
    simp only
    omega)
  have hsub : sub64 n asize = n - asize := sub64_eq hle (by omega)
  rw [place, bind_ok hsize, hsub]
  by_cases hrest : MIN_BLOCK_SIZE_WORDS ≤ n - asize
  · rw [if_pos hrest]
    obtain ⟨s₁, hmark, hremove, hr₁, hbrk₁, hkept₁⟩ := markUsed_remove_ok hs hc hasize hle
    have htake := hs.ok.take
    rw [span_reverse, ← hc] at htake
    have hsplit : Ok (base L) ((⟨asize, true⟩ :: l).reverse ++ ⟨n - asize, true⟩ :: r)
        (lists.drop c) := by
      rw [show n = asize + (n - asize) by omega] at htake
      simpa using htake.split ⟨hasize, hfour⟩ hrest
    have hend : c + 4 * asize + WSIZE * (n - asize) = c + 4 * n := by
      unfold WSIZE
      omega
    have hheader := (hr₁.tags c ⟨asize, true⟩ (by simp)).header
    have hnext : nextBlk L c s₁ = .ok (c + 4 * asize, s₁) := by
      unfold MIN_BLOCK_SIZE_WORDS at hasize
      exact nextBlk_ok (b := ⟨asize, true⟩) hheader (by simp only; omega) (by simp only; omega)
        (by omega)
    obtain ⟨s', hfree, hinsert, hr', hbrk', hkept'⟩ := relist_ok (c := c + 4 * asize)
      (l := ⟨asize, true⟩ :: l) (r := r) (n := n - asize)
      (by rw [hc, span_cons, bytes_eq]; omega) hr₁ hsplit
      (by
        have hends := hs.ends
        simp only [span_append, span_cons, span_reverse, bytes_eq, hbrk₁] at hends ⊢
        omega)
      (by
        intro d x hd
        rw [hend] at hd
        simp only [List.reverse_cons, located_append, located_cons, located_nil, List.mem_append,
          List.mem_cons, List.not_mem_nil, or_false, span_reverse, ← hc] at hd ⊢
        tauto)
    refine ⟨s', ?_, ⟨?_, hok, ?_⟩, hbrk'.trans hbrk₁, hkept₁.trans (hkept'.mono fun d m hd => ?_)⟩
    · rw [bind_ok hmark, bind_ok hremove, bind_ok hnext, bind_ok hfree, bind_ok hinsert,
        assert_ok rfl]
    · simpa [placeAt, if_pos hrest, show WSIZE * asize = 4 * asize from rfl] using hr'
    · rw [hbrk', hbrk₁, ← hs.ends, hspan]
    · rw [hend]
      have hsides : (d, ⟨m, true⟩) ∈ located Blk.bytes (base L) l.reverse ∨
          (d, ⟨m, true⟩) ∈ located Blk.bytes (c + 4 * n) r := by
        simpa [InUse, hc, bytes_eq] using hd
      refine hsides.imp_left fun hd => ?_
      rw [List.reverse_cons, located_append]
      exact List.mem_append_left _ hd
  · rw [if_neg hrest]
    obtain ⟨s', hmark, hremove, hr', hbrk, hkept⟩ :=
      markUsed_remove_ok hs hc (hasize.trans hle) le_rfl
    have hplace : placeAt c asize n l r lists = ⟨l.reverse ++ ⟨n, true⟩ :: r, lists.drop c⟩ :=
      if_neg hrest
    rw [hplace] at hok hspan ⊢
    refine ⟨s', by rw [bind_ok hmark, hremove], ⟨?_, hok, ?_⟩, hbrk, hkept⟩
    · simpa [hc, bytes_eq] using hr'
    · rw [hbrk, ← hs.ends, hspan]

theorem place_ok (hs : Holds L s h) (hc : (c, ⟨n, false⟩) ∈ located Blk.bytes (base L) h.blocks)
    (hasize : MIN_BLOCK_SIZE_WORDS ≤ asize) (hfour : asize % 4 = 0) (hle : asize ≤ n) :
    ∃ s', place L c asize s = .ok ((), s') ∧
      Leads L s s' (InUse L h) s.memBrk (placeIn (base L) c asize h) ∧
      ∀ d m, InUse L (placeIn (base L) c asize h) d m ↔
        InUse L h d m ∨ (d = c ∧ m = placedSize asize n) := by
  obtain ⟨bs, lists⟩ := h
  obtain ⟨l, r, rfl, hl⟩ := located_split hc
  have hfocus : placeIn (base L) c asize ⟨l ++ ⟨n, false⟩ :: r, lists⟩ =
      placeAt c asize n l.reverse r lists := by
    rw [placeIn, hl, focus_split fun x hx => hs.ok.pos x (List.mem_append_left _ hx),
      List.append_nil]
  have hs' : Holds L s ⟨l.reverse.reverse ++ ⟨n, false⟩ :: r, lists⟩ := by
    simpa using hs
  obtain ⟨s', hrun, hleads⟩ := placeAt_run hs' (c := c) (by rw [span_reverse, hl]) hasize hfour hle
  simp only [List.reverse_reverse] at hleads
  rw [hfocus]
  refine ⟨s', hrun, hleads, fun d m => ?_⟩
  have hused : (d, ⟨m, true⟩) ∈
      located Blk.bytes (base L) (placeAt c asize n l.reverse r lists).blocks ↔ _ :=
    placeAt_used (by rw [span_reverse, hl]) hle
  rw [List.reverse_reverse] at hused
  exact hused

end Place

section Extend

variable {words : Nat}

theorem memSbrk_ok (words : Nat) (hwords : words < 2 ^ 30) (hbrk : L.memStartBrk ≤ s.memBrk) :
    memSbrk L (toInt (mul64 words WSIZE)) s =
      if s.memBrk + 4 * words ≤ L.memMaxAddr then
        .ok (s.memBrk, { s with memBrk := s.memBrk + 4 * words })
      else .ok (0, s) := by
  have hmul : mul64 words WSIZE = 4 * words := by
    rw [mul64_eq (by unfold WSIZE; omega), Nat.mul_comm]
    rfl
  have hheap := L.heapSize_le
  have hmax : L.memMaxAddr = L.memStartBrk + L.heapSize := rfl
  have hint : toInt (4 * words) = 4 * words ∨ 2 ^ 31 ≤ 4 * words ∧ toInt (4 * words) < 0 := by
    unfold toInt
    omega
  unfold MAX_HEAP at hheap
  rw [memSbrk, bind_ok get_ok, hmul]
  by_cases hroom : s.memBrk + 4 * words ≤ L.memMaxAddr
  · have hnat : (toInt (4 * words)).toNat = 4 * words := by omega
    rw [if_pos hroom, if_neg (by omega), bind_ok (modify_ok _), pure_ok, hnat]
  · rw [if_neg hroom, if_pos (by omega), pure_ok]

/-- Bytes written between the old epilogue and the new break leave the rest of the heap as it
was. -/
theorem Holds.grow (hs : Holds L s h) {m' : Mem}
    (hroom : s.memBrk + 4 * words ≤ L.memMaxAddr)
    (hframe : ∀ y, y < s.memBrk - WSIZE ∨ s.memBrk + 4 * words ≤ y → m' y = s.mem y)
    (hmarked : Marked m' (s.memBrk - WSIZE) ⟨words, false⟩)
    (hfence : load m' (s.memBrk + 4 * words - WSIZE) WSIZE = FENCE) :
    Represents L { s with mem := m', memBrk := s.memBrk + 4 * words }
      (located Blk.bytes (base L) (h.blocks ++ [⟨words, false⟩])) h.lists := by
  have hW : WSIZE = 4 := rfl
  have hends := hs.ends
  have hbase : base L = L.memStartBrk + 12 := rfl
  have hlists := L.lists_apart
  have hmax : L.memMaxAddr = L.memStartBrk + L.heapSize := rfl
  refine ⟨?_, ?_, hfence, ?_, hs.repr.mids, hs.repr.started, hroom, hs.repr.calls⟩
  · rw [← hs.repr.prologue]
    exact load_congr fun y hy hy' => hframe y (by omega)
  · intro d x hd
    simp only [located_append, located_cons, located_nil, List.mem_append, List.mem_cons,
      List.not_mem_nil, or_false, Prod.mk.injEq] at hd
    rcases hd with hd | ⟨rfl, rfl⟩
    · have hin := located_within hd
      have hold := hs.repr.tags d x hd
      have hpos := (hs.ok.sizes x (mem_of_located hd)).1
      have hbytes : x.bytes = 4 * x.size := rfl
      unfold MIN_BLOCK_SIZE_WORDS at hpos
      refine ⟨?_, ?_⟩
      · rw [← hold.header]
        exact load_congr fun y hy hy' => hframe y (by omega)
      · rw [← hold.footer]
        exact load_congr fun y hy hy' => hframe y (by omega)
    · have hstarts : base L + span Blk.bytes h.blocks = s.memBrk - WSIZE := by omega
      rw [hstarts]
      exact hmarked
  · intro i hi
    refine (hs.repr.listed i hi).congr fun z hz => ?_
    have hout : Agree s.mem m' z (z + 16) := by
      intro y hy hy'
      refine hframe y ?_
      simp only [List.mem_cons, List.mem_append, List.mem_map, List.not_mem_nil, or_false] at hz
      rcases hz with hz | ⟨d, hd, rfl⟩ | hz
      · have hbounds := static_bounds (L := L) hi (Or.inl hz)
        omega
      · obtain ⟨n, hn, -⟩ := (hs.ok.listed i hi d).mp hd
        have hin := located_within hn
        have hpos := (hs.ok.sizes _ (mem_of_located hn)).1
        rw [bytes_eq] at hin
        unfold MIN_BLOCK_SIZE_WORDS at hpos
        unfold ELEM at hy hy'
        simp only at hpos
        omega
      · have hbounds := static_bounds (L := L) hi (Or.inr hz)
        omega
    exact ⟨load_congr (hout.mono (by omega) (by omega)),
      load_congr (hout.mono (by omega) (by omega))⟩

/-- `extend_heap` when there is room: the old epilogue becomes the header of the new block. -/
theorem extendHeap_ok (words : Nat) (hs : Holds L s h) (hwords : MIN_BLOCK_SIZE_WORDS ≤ words)
    (hfour : words % 4 = 0) (hroom : s.memBrk + 4 * words ≤ L.memMaxAddr) :
    ∃ s', extendHeap L words s = .ok ((extendBy (base L) words h).1, s') ∧
      Leads L s s' (InUse L h) (s.memBrk + 4 * words) (extendBy (base L) words h).2 := by
  have hW : WSIZE = 4 := rfl
  have hends := hs.ends
  have hbase : base L = L.memStartBrk + 12 := rfl
  have hheap := L.heapSize_le
  have hbelow := L.start_below
  have hmax : L.memMaxAddr = L.memStartBrk + L.heapSize := rfl
  have hcap : MAX_HEAP = 2 ^ 30 := rfl
  have hbytes : Blk.bytes ⟨words, false⟩ = 4 * words := rfl
  unfold MIN_BLOCK_SIZE_WORDS at hwords
  have hsbrk := memSbrk_ok (L := L) (s := s) words (by omega) (by omega)
  rw [if_pos hroom] at hsbrk
  set s₁ : State := { s with
    mem := setTags s.mem (s.memBrk - WSIZE) ⟨words, false⟩
    memBrk := s.memBrk + 4 * words } with hs₁
  have hmark : markBlockFree (s.memBrk - WSIZE) words
      { s with memBrk := s.memBrk + 4 * words } = .ok ((), s₁) := by
    rw [markBlockFree, toInt_eq (by omega)]
    exact setHeaderAndFooter_ok (b := ⟨words, false⟩) (by simp only; omega)
      (by simp only; omega) (by omega)
  have hmarked := setTags_marked (b := ⟨words, false⟩) (m := s.mem) (c := s.memBrk - WSIZE)
    (by simp only; omega) (by simp only; omega)
  have hnext : nextBlk L (s.memBrk - WSIZE) s₁ =
      .ok (s.memBrk - WSIZE + 4 * words, s₁) :=
    nextBlk_ok (b := ⟨words, false⟩) hmarked.header (by simp only; omega) (by simp only; omega)
      (by omega)
  set m₂ := store s₁.mem (s.memBrk - WSIZE + 4 * words) WSIZE FENCE with hm₂
  have hrepr : Represents L { s with mem := m₂, memBrk := s.memBrk + 4 * words }
      (located Blk.bytes (base L) (h.blocks ++ [⟨words, false⟩])) h.lists := by
    refine hs.grow hroom (fun y hy => ?_) ⟨?_, ?_⟩ ?_
    · rw [hm₂, store_outside (by omega), hs₁]
      exact setTags_outside (by omega) (by omega) (by omega)
    · rw [← hmarked.header, hm₂]
      exact load_store_disjoint (by omega)
    · rw [← hmarked.footer, hm₂]
      exact load_store_disjoint (by omega)
    · rw [hm₂, show s.memBrk + 4 * words - WSIZE = s.memBrk - WSIZE + 4 * words by omega]
      exact load_store_same (by decide)
  have hpending : Pending L { s with mem := m₂, memBrk := s.memBrk + 4 * words }
      (s.memBrk - WSIZE) words h.blocks.reverse [] h.lists := by
    refine ⟨by rw [span_reverse]; omega, by simpa using hrepr, ?_, ?_⟩
    · simpa using hs.ok.append (n := words) ⟨hwords, hfour⟩
    · simp only [List.reverse_reverse, span_append, span_cons, span_nil, bytes_eq]
      omega
  obtain ⟨s', hrun, hcoalesced⟩ := coalesce_ok hpending
  have hstart : s.memBrk - WSIZE = base L + span Blk.bytes h.blocks := by omega
  have hresult : coalesceAt (s.memBrk - WSIZE) words h.blocks.reverse [] h.lists =
      extendBy (base L) words h := by
    rw [hstart]
    rfl
  rw [hresult] at hrun hcoalesced
  refine ⟨s', ?_, ⟨hcoalesced.repr, ?_, ?_⟩, hcoalesced.brk, ?_⟩
  · rw [extendHeap, bind_ok hsbrk, if_neg (by omega), bind_ok hmark, bind_ok hnext,
      bind_ok (writeWord_ok _ _ (by omega)), hrun]
  · rw [extendBy, ← hstart]
    exact coalesceAt_ok hpending.starts hpending.ok
  · have hshift : WSIZE * words = 4 * words := rfl
    rw [extendBy, coalesceAt_span, hcoalesced.brk, span_reverse, span_nil]
    simp only
    omega
  · have hbefore : Kept (InUse L h) s.mem m₂ := by
      intro d m hd y hy hy'
      have hin := (located_within hd).2
      have hshift : WSIZE * m = 4 * m := rfl
      rw [bytes_eq] at hin
      rw [hm₂, store_outside (by omega), hs₁]
      exact setTags_outside (by omega) (by omega) (by omega)
    refine hbefore.trans (hcoalesced.kept.mono fun d m hd => Or.inl ?_)
    rw [List.reverse_reverse]
    exact hd

theorem extendHeap_full (hs : Holds L s h) (hwords : words < 2 ^ 30)
    (hroom : L.memMaxAddr < s.memBrk + 4 * words) : extendHeap L words s = .ok (0, s) := by
  have hends := hs.ends
  have hsbrk := memSbrk_ok (L := L) (s := s) words hwords (by unfold base at hends; omega)
  rw [if_neg (by omega)] at hsbrk
  rw [extendHeap, bind_ok hsbrk, if_pos rfl, pure_ok]

end Extend

end ComputerSystems.Malloc.Place
