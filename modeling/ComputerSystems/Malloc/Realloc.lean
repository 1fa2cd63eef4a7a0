/- `mm_realloc` on represented heaps, exit by exit. -/

import ComputerSystems.Malloc.Allocator
import ComputerSystems.Malloc.Frames

set_option autoImplicit false
set_option relaxedAutoImplicit false

namespace ComputerSystems.Malloc.Realloc

open ComputerSystems.Memory.Bytes
open ComputerSystems.Memory.Tiling
open ComputerSystems.Lists.DoublyLinked
open ComputerSystems.Systems.Computations (bind_ok bind_inv pure_ok)
open ComputerSystems.Malloc.Machine
open ComputerSystems.Malloc.ListC
open ComputerSystems.Malloc.Mm
open ComputerSystems.Malloc.Frames
open ComputerSystems.Malloc.Blocks
open ComputerSystems.Malloc.Operations
open ComputerSystems.Malloc.FreeLists
open ComputerSystems.Malloc.Representation
open ComputerSystems.Malloc.Coalesce
open ComputerSystems.Malloc.FindFit
open ComputerSystems.Malloc.Place
open ComputerSystems.Malloc.Allocator

variable {L : Layout} {s : State} {h : Heap} {c n : Nat}

theorem elem_outside_payload {i x : Nat} (hs : Holds L s h) (hc : InUse L h c n)
    (hi : i < FREE_LISTS_SIZE) (hx : x ∈ elemsOf L h.lists i) :
    x + 16 ≤ c + WSIZE ∨ c + WSIZE * n - WSIZE ≤ x := by
  have hblock := hs.within.block hc
  have hlists := L.lists_apart
  have hW : WSIZE = 4 := rfl
  have hE : ELEM = 8 := rfl
  have hshift : WSIZE * n = 4 * n := rfl
  have hbase : base L = L.memStartBrk + 12 := rfl
  have hmax : L.memMaxAddr = L.memStartBrk + L.heapSize := rfl
  rw [bytes_eq] at hblock
  simp only [elemsOf, List.mem_cons, List.mem_append, List.mem_map, List.not_mem_nil,
    or_false] at hx
  rcases hx with hx | ⟨d, hd, rfl⟩ | hx
  · have hbounds := static_bounds (L := L) hi (Or.inl hx)
    omega
  · obtain ⟨k, hk, -⟩ := (hs.ok.listed i hi d).mp hd
    have hmin := (hs.ok.sizes _ (mem_of_located hk)).1
    unfold MIN_BLOCK_SIZE_WORDS at hmin
    simp only at hmin
    rcases located_apart hc hk with ⟨-, heq⟩ | hapart | hapart
    · cases heq
    · rw [bytes_eq] at hapart
      omega
    · rw [bytes_eq] at hapart
      omega
  · have hbounds := static_bounds (L := L) hi (Or.inr hx)
    omega

theorem holds_payload (hs : Holds L s h) (hc : InUse L h c n) {m : Mem}
    (hframe : ∀ y, y < c + WSIZE ∨ c + WSIZE * n - WSIZE ≤ y → m y = s.mem y) :
    Holds L { s with mem := m } h := by
  have hblock := hs.within.block hc
  have hmin := (hs.ok.sizes _ (mem_of_located hc)).1
  have hW : WSIZE = 4 := rfl
  have hshift : WSIZE * n = 4 * n := rfl
  have hr := hs.repr
  rw [bytes_eq] at hblock
  unfold MIN_BLOCK_SIZE_WORDS at hmin
  simp only at hmin
  refine ⟨⟨?_, ?_, ?_, ?_, hr.mids, hr.started, hr.room, hr.calls⟩, hs.ok, hs.ends⟩
  · rw [← hr.prologue]
    exact load_congr fun y hy hy' => hframe y (by omega)
  · intro d x hd
    have hold := hr.tags d x hd
    have hsize := (hs.ok.sizes x (mem_of_located hd)).1
    have hbytes : x.bytes = 4 * x.size := rfl
    unfold MIN_BLOCK_SIZE_WORDS at hsize
    have hout : ∀ y, d ≤ y → (y < d + WSIZE ∨ d + x.bytes - WSIZE ≤ y) → y < d + x.bytes →
        m y = s.mem y := by
      intro y hy hy' hend
      refine hframe y ?_
      rcases located_apart hc hd with ⟨rfl, rfl⟩ | hapart | hapart
      · rw [bytes_eq] at hy' hend
        omega
      · rw [bytes_eq] at hapart
        omega
      · omega
    refine ⟨?_, ?_⟩
    · rw [← hold.header]
      exact load_congr fun y hy hy' => hout y hy (Or.inl hy') (by omega)
    · rw [← hold.footer]
      exact load_congr fun y hy hy' => hout y (by omega) (Or.inr hy) (by omega)
  · rw [← hr.epilogue]
    exact load_congr fun y hy hy' => hframe y (by simp only at hy; omega)
  · intro i hi
    refine (hr.listed i hi).congr fun x hx => ?_
    have hout := elem_outside_payload hs hc hi hx
    exact ⟨load_congr fun y hy hy' => hframe y (by omega),
      load_congr fun y hy hy' => hframe y (by omega)⟩

/-- From `h` to `h'` the block of `m` words at `c` became a block for `size` bytes at `q`. -/
structure Reallocated (L : Layout) (s s' : State) (h h' : Heap) (c m size q : Nat) : Prop where
  holds : Holds L s' h'
  fresh : ∀ k, InUse L h q k → q = c
  used : ∃ k, size + 2 * WSIZE ≤ 4 * k ∧
    ∀ d j, InUse L h' d j ↔ (InUse L h d j ∧ d ≠ c) ∨ (d = q ∧ j = k)
  kept : Kept (fun d j => InUse L h d j ∧ d ≠ c) s.mem s'.mem
  copied : ∀ i < size, i < 4 * m - 2 * WSIZE →
    s'.mem (q + PAYLOAD + i) = s.mem (c + PAYLOAD + i)

section Neighbours

variable {m : Nat} {l r : List Blk} {lists : Lists}

theorem inUse_around (hc : c = base L + span Blk.bytes l) {d j : Nat} :
    InUse L ⟨l.reverse ++ ⟨m, true⟩ :: r, lists⟩ d j ↔
      Around L c m l r d j ∨ (d = c ∧ j = m) := by
  simp only [InUse, Around, located_append, located_cons, List.mem_append, List.mem_cons,
    span_reverse, ← hc, Blk.bytes, Prod.mk.injEq, Blk.mk.injEq, and_true]
  tauto

theorem others_around (lists : Lists) (ho : Ok (base L) (l.reverse ++ ⟨m, true⟩ :: r) lists)
    (hc : c = base L + span Blk.bytes l) {d j : Nat} :
    InUse L ⟨l.reverse ++ ⟨m, true⟩ :: r, lists⟩ d j ∧ d ≠ c ↔ Around L c m l r d j := by
  rw [inUse_around hc]
  have hm : 8 ≤ m := (ho.sizes ⟨m, true⟩ (List.mem_append_right _ List.mem_cons_self)).1
  have hc' : c = base L + span Blk.bytes l.reverse := by rw [span_reverse, hc]
  constructor
  · rintro ⟨hd | ⟨rfl, -⟩, hne⟩
    · exact hd
    · exact absurd rfl hne
  · refine fun hd => ⟨Or.inl hd, ?_⟩
    have hj : 8 ≤ j := (ho.sizes ⟨j, true⟩ (outer_block hd)).1
    have hapart := outer_apart hc' le_rfl hd
    rw [bytes_eq] at hapart
    omega

theorem mem_around {mid : List Blk} {d n e : Nat} {x : Blk} (hd : d = base L + span Blk.bytes l)
    (hn : span Blk.bytes mid = 4 * n)
    (he : (e, x) ∈ located Blk.bytes (base L) l.reverse ∨ (e, x) ∈ located Blk.bytes (d + 4 * n) r) :
    (e, x) ∈ located Blk.bytes (base L) (l.reverse ++ (mid ++ r)) := by
  rw [located_append, located_append, span_reverse, ← hd, hn]
  rcases he with he | he
  · exact List.mem_append_left _ he
  · exact List.mem_append_right _ (List.mem_append_right _ he)

theorem mem_taken {k d j : Nat}
    (h : (d, ⟨j, true⟩) ∈ located Blk.bytes (base L) (l.reverse ++ ⟨k, false⟩ :: r)) :
    (d, ⟨j, true⟩) ∈ located Blk.bytes (base L) (l.reverse ++ ⟨k, true⟩ :: r) := by
  rw [located_append, located_cons, List.mem_append, List.mem_cons] at h ⊢
  rcases h with h | h | h
  · exact Or.inl h
  · cases h
  · exact Or.inr (Or.inr h)

theorem mem_next {q : Blk} (hc : c = base L + span Blk.bytes l) :
    (c + 4 * m, q) ∈ located Blk.bytes (base L) (l.reverse ++ ⟨m, true⟩ :: q :: r) := by
  simp [hc, bytes_eq]

theorem located_bounds (hs : Holds L s ⟨l.reverse ++ ⟨m, true⟩ :: r, lists⟩)
    (hc : c = base L + span Blk.bytes l) :
    8 ≤ m ∧ L.memStartBrk + 12 ≤ c ∧ c + 4 * m + 4 ≤ s.memBrk ∧ m < 2 ^ 28 ∧
      s.memBrk < 2 ^ 63 := by
  have hmem : (c, ⟨m, true⟩) ∈ located Blk.bytes (base L) (l.reverse ++ ⟨m, true⟩ :: r) := by
    simp [hc]
  have hmin := (hs.ok.sizes _ (mem_of_located hmem)).1
  have hblock := hs.within.block hmem
  rw [bytes_eq] at hblock
  unfold MIN_BLOCK_SIZE_WORDS at hmin
  unfold base WSIZE at hblock
  simp only at hmin hblock
  omega

theorem used_reads (hs : Holds L s ⟨l.reverse ++ ⟨m, true⟩ :: r, lists⟩)
    (hc : c = base L + span Blk.bytes l) :
    blkSize c s = .ok (m, s) ∧
      readWord (prevBlkFooter c) WSIZE s = .ok (load s.mem (c - WSIZE) WSIZE, s) ∧
      tagInuse (load s.mem (c - WSIZE) WSIZE) = frontUsed l ∧
      nextBlk L c s = .ok (c + 4 * m, s) ∧ blkFree (c + 4 * m) s = .ok (!frontUsed r, s) := by
  have hbounds := located_bounds hs hc
  have hW : WSIZE = 4 := rfl
  have hfooter : prevBlkFooter c = c - WSIZE := sub64_eq (by omega) (by omega)
  have hheader : load s.mem c WSIZE = tagOf ⟨m, true⟩ :=
    (hs.repr.tags c ⟨m, true⟩ (by simp [hc])).header
  refine ⟨blkSize_ok hheader (by simp only; omega), by rw [hfooter, readWord_ok _ (by omega)], ?_, ?_, ?_⟩
  · rw [hc]
    exact prev_inuse hs.repr
  · exact nextBlk_ok (b := ⟨m, true⟩) hheader (by simp only; omega) (by simp only; omega)
      (by omega)
  · have hnext := next_inuse (l := l.reverse) hs.repr hs.ends
    rw [span_reverse, ← hc, bytes_eq] at hnext
    rw [blkFree, bind_ok (readWord_ok _ (by omega)), hnext, pure_ok]

def freeFront : List Blk → Nat
  | ⟨k, false⟩ :: _ => k
  | _ => 0

theorem freeFront_used (h : frontUsed l = true) : freeFront l = 0 := by
  match l, h with
  | [], _ => rfl
  | ⟨_, true⟩ :: _, _ => rfl

/-- `mm_realloc` on a block in use reaches its case analysis, or the block is large enough. -/
theorem mmRealloc_start {size : Nat} (hs : Holds L s ⟨l.reverse ++ ⟨m, true⟩ :: r, lists⟩)
    (hc : c = base L + span Blk.bytes l) (hpos : 0 < size) (hsize : size ≤ INT_MAX) :
    mmRealloc L (c + PAYLOAD) size s =
      if wordsFor size ≤ m then .ok (c + PAYLOAD, s)
      else reallocGrow L (c + PAYLOAD) size m (wordsFor size) (frontUsed l) (frontUsed r) s := by
  obtain ⟨hblk, hprev, hused, hnext, hfree⟩ := used_reads hs hc
  obtain ⟨hround, hwords⟩ := rounding_ok hsize
  rw [mmRealloc, if_neg (by omega), if_neg (by unfold PAYLOAD; omega)]
  dsimp only
  rw [Nat.add_sub_cancel, bind_ok hblk, if_neg hround, hwords, bind_ok hprev, hused,
    bind_ok hnext, bind_ok hfree, Bool.not_not]
  split
  · rw [pure_ok]
  · rfl

end Neighbours

section Absorb

variable {m k j size : Nat} {ps : List (Nat × Blk)} {l r : List Blk} {lists : Lists}

/-- `mark_block_used` on a block that has grown over its unlinked neighbours. -/
theorem markGrown_ok (hr : Represents L s ps lists)
    (ho : Ok (base L) (l.reverse ++ ⟨k, true⟩ :: r) lists)
    (hends : base L + span Blk.bytes (l.reverse ++ ⟨k, true⟩ :: r) + WSIZE = s.memBrk)
    (hc : c = base L + span Blk.bytes l)
    (hps : ∀ d x, (d, x) ∈ located Blk.bytes (base L) l.reverse ∨
      (d, x) ∈ located Blk.bytes (c + 4 * k) r → (d, x) ∈ ps) :
    markBlockUsed c k s = .ok ((), { s with mem := setTags s.mem c ⟨k, true⟩ }) ∧
      Holds L { s with mem := setTags s.mem c ⟨k, true⟩ }
        ⟨l.reverse ++ ⟨k, true⟩ :: r, lists⟩ ∧
      Kept (Around L c k l r) s.mem (setTags s.mem c ⟨k, true⟩) := by
  have hw : Within L s (l.reverse ++ ⟨k, true⟩ :: r) := ⟨hends.le, hr.room⟩
  have hmem : (⟨k, true⟩ : Blk) ∈ l.reverse ++ ⟨k, true⟩ :: r :=
    List.mem_append_right _ List.mem_cons_self
  have hc' : c = base L + span Blk.bytes l.reverse := by rw [span_reverse, hc]
  obtain ⟨hrun, hmark, hmarked⟩ := mark_between true hc' hr ho hw (ho.sizes _ hmem).1 le_rfl hps
  rw [← located_between hc'] at hmark
  exact ⟨hrun, ⟨hmark, ho, hends⟩, hmarked⟩

theorem takeNext_ok (size : Nat) (hs : Holds L s ⟨l.reverse ++ ⟨m, true⟩ :: ⟨k, false⟩ :: r, lists⟩)
    (hc : c = base L + span Blk.bytes l) (hsize : size + 2 * WSIZE ≤ 4 * (m + k)) :
    ∃ s', (do removeFreeBlock L (← nextBlk L c)
              markBlockUsed c (m + k)
              return c + PAYLOAD : Prog Nat) s = .ok (c + PAYLOAD, s') ∧
      Reallocated L s s' ⟨l.reverse ++ ⟨m, true⟩ :: ⟨k, false⟩ :: r, lists⟩
        ⟨l.reverse ++ ⟨m + k, true⟩ :: r, lists.drop (c + 4 * m)⟩ c m size c := by
  obtain ⟨-, -, -, hnext, -⟩ := used_reads hs hc
  have hbounds := located_bounds hs hc
  have hW : WSIZE = 4 := rfl
  have hmemk : (c + 4 * m, ⟨k, false⟩) ∈ located Blk.bytes (base L)
      (l.reverse ++ ⟨m, true⟩ :: ⟨k, false⟩ :: r) := mem_next hc
  obtain ⟨s₁, hremove, hr₁, hbrk₁, hkept₁⟩ := removeFreeBlock_ok hs.repr hs.ok hs.within
    (fits_sizes hs.ok rfl) hmemk
  have hok : Ok (base L) (l.reverse ++ ⟨m + k, true⟩ :: r) (lists.drop (c + 4 * m)) :=
    (mergeNext_ok (by rw [span_reverse, ← hc]) hs.ok).1
  have hshift : c + 4 * (m + k) = c + 4 * m + 4 * k := by omega
  have hwide : span Blk.bytes [⟨m, true⟩, ⟨k, false⟩] = 4 * (m + k) := by
    simp only [span_cons, span_nil, bytes_eq]
    omega
  obtain ⟨hmark, hholds, hkept₂⟩ := markGrown_ok hr₁ hok
    (by
      have hends := hs.ends
      simp only [span_append, span_cons, bytes_eq, hbrk₁] at hends ⊢
      omega) hc
    (fun d x hd => mem_around hc hwide hd)
  have hothers : ∀ d i, InUse L ⟨l.reverse ++ ⟨m, true⟩ :: ⟨k, false⟩ :: r, lists⟩ d i ∧ d ≠ c ↔
      Around L c (m + k) l r d i := by
    intro d i
    rw [others_around lists hs.ok hc, Around, Around, show c + WSIZE * (m + k) = c + 4 * m + 4 * k from
      hshift]
    simp [Blk.bytes, WSIZE]
  refine ⟨_, ?_, hholds, fun _ _ => rfl, ⟨m + k, hsize, fun d i => ?_⟩, ?_, ?_⟩
  · rw [bind_ok hnext, bind_ok hremove, bind_ok hmark, pure_ok]
  · rw [hothers, inUse_around hc]
  · exact (hkept₁.mono fun d i hd => hd.1).trans
      (hkept₂.mono fun d i hd => (hothers d i).mp hd)
  · intro i hi hi'
    have hP : PAYLOAD = 4 := rfl
    have hm : WSIZE * m = 4 * m := rfl
    have hgrown : Blk.bytes ⟨m + k, true⟩ = 4 * (m + k) := rfl
    have hown := hkept₁ c m (by simp [hc]) (c + PAYLOAD + i) (by omega) (by omega)
    rw [← hown]
    exact setTags_outside (by omega) (by omega) (by omega)

theorem growNext_ok (hs : Holds L s ⟨l.reverse ++ ⟨m, true⟩ :: ⟨k, false⟩ :: r, lists⟩)
    (hc : c = base L + span Blk.bytes l) (hl : frontUsed l = true) (hsize : size ≤ INT_MAX)
    (hfits : wordsFor size ≤ m + k) :
    ∃ s', reallocGrow L (c + PAYLOAD) size m (wordsFor size) (frontUsed l) false s =
        .ok (c + PAYLOAD, s') ∧
      Reallocated L s s' ⟨l.reverse ++ ⟨m, true⟩ :: ⟨k, false⟩ :: r, lists⟩
        ⟨l.reverse ++ ⟨m + k, true⟩ :: r, lists.drop (c + 4 * m)⟩ c m size c := by
  obtain ⟨-, -, -, hnext, -⟩ := used_reads hs hc
  have hbounds := located_bounds hs hc
  have hk : k < 2 ^ 28 := (hs.within.block (mem_next hc)).2.2.2.1
  have hsizek : blkSize (c + 4 * m) s = .ok (k, s) :=
    blkSize_ok (hs.repr.tags _ _ (mem_next hc)).header (by simp only; omega)
  have hwords := (wordsFor_ok hsize).2.2.1
  obtain ⟨s', hrun, hre⟩ := takeNext_ok size hs hc (by omega)
  refine ⟨s', ?_, hre⟩
  rw [reallocGrow, hl, Nat.add_sub_cancel, if_pos (by simp), if_neg (by simp), if_neg (by simp)]
  refine (bind_ok (a := m + k) (t := s) ?_).trans ?_
  · rw [bind_ok hnext, bind_ok hsizek, add64_eq (by omega), pure_ok]
  · rw [bind_ok (pure_ok 0), bind_ok (pure_ok 0), if_pos (by simpa using hfits), hrun]

theorem payload_bytes (hm : 2 ≤ m) (hlt : m < 2 ^ 28) :
    sub64 (mul64 m WSIZE) (2 * WSIZE) = 4 * m - 2 * WSIZE := by
  have hmul : m * WSIZE = 4 * m := Nat.mul_comm m WSIZE
  have hW : WSIZE = 4 := rfl
  rw [mul64_eq (by omega), hmul, sub64_eq (by omega) (by omega)]

/-- The block at `c` slides down to `d`, where its unlinked neighbours have become part of it. -/
theorem slide_ok {d : Nat} (hr : Represents L s ps lists)
    (ho : Ok (base L) (l.reverse ++ ⟨k, true⟩ :: r) lists)
    (hends : base L + span Blk.bytes (l.reverse ++ ⟨k, true⟩ :: r) + WSIZE = s.memBrk)
    (hd : d = base L + span Blk.bytes l) (hm : 8 ≤ m) (hcd : d + 4 * m ≤ d + 4 * k)
    (hc : d + WSIZE ≤ c ∧ c + 4 * m ≤ d + 4 * k)
    (hps : ∀ e x, (e, x) ∈ located Blk.bytes (base L) l.reverse ∨
      (e, x) ∈ located Blk.bytes (d + 4 * k) r → (e, x) ∈ ps) :
    ∃ s', (do markBlockUsed d k
              memmove (d + PAYLOAD) (c + PAYLOAD) (4 * m - 2 * WSIZE)
              return d + PAYLOAD : Prog Nat) s = .ok (d + PAYLOAD, s') ∧
      Holds L s' ⟨l.reverse ++ ⟨k, true⟩ :: r, lists⟩ ∧
      Kept (Around L d k l r) s.mem s'.mem ∧
      ∀ i < 4 * m - 2 * WSIZE, s'.mem (d + PAYLOAD + i) = s.mem (c + PAYLOAD + i) := by
  obtain ⟨hmark, hholds, hkept⟩ := markGrown_ok hr ho hends hd hps
  have hW : WSIZE = 4 := rfl
  have hP : PAYLOAD = 4 := rfl
  have hk : WSIZE * k = 4 * k := rfl
  have hbytes : Blk.bytes ⟨k, true⟩ = 4 * k := rfl
  have hin : InUse L ⟨l.reverse ++ ⟨k, true⟩ :: r, lists⟩ d k :=
    (inUse_around hd).mpr (Or.inr ⟨rfl, rfl⟩)
  have hheap := holds_payload hholds hin
    (m := move (setTags s.mem d ⟨k, true⟩) (d + PAYLOAD) (c + PAYLOAD) (4 * m - 2 * WSIZE))
    (fun y hy => move_outside (by omega))
  refine ⟨_, ?_, hheap, hkept.trans fun e i he y hy hy' => move_outside ?_, fun i hi => ?_⟩
  · rw [bind_ok hmark, bind_ok (memmove_ok _ _ _), pure_ok]
  · have hsize : WSIZE * i = 4 * i := rfl
    rcases he with he | he
    · have hbefore := (located_within he).2
      rw [span_reverse, ← hd, bytes_eq] at hbefore
      omega
    · have hbehind : d + 4 * k ≤ e := (located_within he).1
      omega
  · exact (move_inside hi).trans (setTags_outside (by omega) (by omega) (by omega))

theorem front_reads {d : Nat} (hs : Holds L s ⟨l.reverse ++ ⟨j, false⟩ :: ⟨m, true⟩ :: r, lists⟩)
    (hd : d = base L + span Blk.bytes l) (hc : c = d + 4 * j) :
    (d, ⟨j, false⟩) ∈ located Blk.bytes (base L)
        (l.reverse ++ ⟨j, false⟩ :: ⟨m, true⟩ :: r) ∧
      d ≠ 0 ∧ 8 ≤ j ∧ j < 2 ^ 28 ∧ blkSize d s = .ok (j, s) ∧
        ∀ t : State, Marked t.mem d ⟨j, false⟩ → prevBlk L c t = .ok (d, t) := by
  have hmem : (d, ⟨j, false⟩) ∈ located Blk.bytes (base L)
      (l.reverse ++ ⟨j, false⟩ :: ⟨m, true⟩ :: r) := by
    simp [hd]
  have hmemm : (c, ⟨m, true⟩) ∈ located Blk.bytes (base L)
      (l.reverse ++ ⟨j, false⟩ :: ⟨m, true⟩ :: r) := by
    simp [hc, hd, bytes_eq]
  have hpos := located_ne_zero hmem
  have hmin : 8 ≤ j := (hs.ok.sizes _ (mem_of_located hmem)).1
  have hlt : j < 2 ^ 28 := (hs.within.block hmem).2.2.2.1
  have hhigh := hs.within.block hmemm
  refine ⟨hmem, hpos, hmin, hlt, ?_, fun t ht => ?_⟩
  · exact blkSize_ok (hs.repr.tags _ _ hmem).header (by simp only; omega)
  · exact prevBlk_ok (b := ⟨j, false⟩) (by rw [hc]; exact ht.footer) hc.symm
      (by simp only; omega) (by simp only; omega) (by omega)

theorem growPrev_ok {d : Nat} (hs : Holds L s ⟨l.reverse ++ ⟨j, false⟩ :: ⟨m, true⟩ :: r, lists⟩)
    (hd : d = base L + span Blk.bytes l) (hc : c = d + 4 * j) (hr : frontUsed r = true)
    (hsize : size ≤ INT_MAX) (hfits : wordsFor size ≤ j + m) :
    ∃ s', reallocGrow L (c + PAYLOAD) size m (wordsFor size) false (frontUsed r) s =
        .ok (d + PAYLOAD, s') ∧
      Reallocated L s s' ⟨l.reverse ++ ⟨j, false⟩ :: ⟨m, true⟩ :: r, lists⟩
        ⟨l.reverse ++ ⟨j + m, true⟩ :: r, lists.drop d⟩ c m size d := by
  have hs' : Holds L s ⟨(⟨j, false⟩ :: l).reverse ++ ⟨m, true⟩ :: r, lists⟩ := by simpa using hs
  have hc' : c = base L + span Blk.bytes (⟨j, false⟩ :: l) := by
    rw [hc, hd, span_cons, bytes_eq]
    omega
  have hbounds := located_bounds hs' hc'
  have hW : WSIZE = 4 := rfl
  obtain ⟨hmemj, hposj, hminj, hj, hsizej, hprev⟩ := front_reads hs hd hc
  obtain ⟨s₁, hremove, hr₁, hbrk₁, hkept₁⟩ := removeFreeBlock_ok hs.repr hs.ok hs.within
    (fits_sizes hs.ok rfl) hmemj
  have hok : Ok (base L) (l.reverse ++ ⟨j + m, true⟩ :: r) (lists.drop d) := by
    have htake := hs.ok.take
    rw [span_reverse, ← hd] at htake
    exact htake.fuse
  have hshift : d + 4 * (j + m) = c + 4 * m := by omega
  have hwide : span Blk.bytes [⟨j, false⟩, ⟨m, true⟩] = 4 * (j + m) := by
    simp only [span_cons, span_nil, bytes_eq]
    omega
  obtain ⟨s', hrun, hholds, hkept₂, hcopied⟩ := slide_ok (c := c) (m := m) hr₁ hok
    (by
      have hends := hs.ends
      simp only [span_append, span_cons, bytes_eq, hbrk₁] at hends ⊢
      omega) hd hbounds.1 (by omega) (by omega)
    (fun e x he => mem_around hd hwide he)
  have hothers : ∀ e i, InUse L ⟨l.reverse ++ ⟨j, false⟩ :: ⟨m, true⟩ :: r, lists⟩ e i ∧ e ≠ c ↔
      Around L d (j + m) l r e i := by
    intro e i
    have hiff := others_around (r := r) lists (by simpa using hs.ok) hc'
      (d := e) (j := i)
    rw [show l.reverse ++ ⟨j, false⟩ :: ⟨m, true⟩ :: r =
        (⟨j, false⟩ :: l).reverse ++ ⟨m, true⟩ :: r by simp, hiff, Around, Around,
      show d + WSIZE * (j + m) = c + WSIZE * m from hshift]
    simp
  have hwords := (wordsFor_ok hsize).2.2.1
  refine ⟨s', ?_, hholds, fun i hi => ?_, ⟨j + m, by omega, fun e i => ?_⟩, ?_, fun i hi hi' => ?_⟩
  · rw [reallocGrow, hr, payload_bytes (by omega) (by omega), Nat.add_sub_cancel, if_neg (by simp), if_pos (by simp), if_neg (by simp),
      bind_ok (pure_ok 0)]
    refine (bind_ok (a := j + m) (t := s) ?_).trans ?_
    · rw [bind_ok (hprev s (hs.repr.tags _ _ hmemj)), bind_ok hsizej, add64_eq (by omega), pure_ok]
    · rw [bind_ok (pure_ok 0), if_neg (by simp), if_pos (by simpa using hfits),
        bind_ok (hprev s (hs.repr.tags _ _ hmemj)), bind_ok hremove,
        bind_ok (hprev s₁ (hr₁.tags _ _ hmemj)), hrun]
  · cases located_unique hs.ok.pos hi hmemj
  · rw [hothers, inUse_around hd]
  · exact (hkept₁.mono fun e i he => he.1).trans
      (hkept₂.mono fun e i he => (hothers e i).mp he)
  · have hP : PAYLOAD = 4 := rfl
    have hm : WSIZE * m = 4 * m := rfl
    rw [hcopied i hi']
    exact hkept₁ c m (by simp [hc, hd, bytes_eq]) (c + PAYLOAD + i) (by omega) (by omega)

theorem growBoth_ok {d : Nat}
    (hs : Holds L s ⟨l.reverse ++ ⟨j, false⟩ :: ⟨m, true⟩ :: ⟨k, false⟩ :: r, lists⟩)
    (hd : d = base L + span Blk.bytes l) (hc : c = d + 4 * j)
    (hsize : size ≤ INT_MAX) (hfits : wordsFor size ≤ j + (m + k)) :
    ∃ s', reallocGrow L (c + PAYLOAD) size m (wordsFor size) false false s =
        .ok (d + PAYLOAD, s') ∧
      Reallocated L s s' ⟨l.reverse ++ ⟨j, false⟩ :: ⟨m, true⟩ :: ⟨k, false⟩ :: r, lists⟩
        ⟨l.reverse ++ ⟨j + (m + k), true⟩ :: r, (lists.drop d).drop (c + 4 * m)⟩ c m size d := by
  have hs' : Holds L s ⟨(⟨j, false⟩ :: l).reverse ++ ⟨m, true⟩ :: ⟨k, false⟩ :: r, lists⟩ := by
    simpa using hs
  have hc' : c = base L + span Blk.bytes (⟨j, false⟩ :: l) := by
    rw [hc, hd, span_cons, bytes_eq]
    omega
  obtain ⟨-, -, -, hnext, -⟩ := used_reads hs' hc'
  have hbounds := located_bounds hs' hc'
  have hW : WSIZE = 4 := rfl
  obtain ⟨hmemj, hposj, hminj, hj, hsizej, hprev⟩ := front_reads hs hd hc
  have hmem : (c, ⟨m, true⟩) ∈ located Blk.bytes (base L)
      (l.reverse ++ ⟨j, false⟩ :: ⟨m, true⟩ :: ⟨k, false⟩ :: r) := by
    simp [hc, hd, bytes_eq]
  have hmemk : (c + 4 * m, ⟨k, false⟩) ∈ located Blk.bytes (base L)
      (l.reverse ++ ⟨j, false⟩ :: ⟨m, true⟩ :: ⟨k, false⟩ :: r) := by
    simp [hc, hd, bytes_eq]
  have hk : k < 2 ^ 28 := (hs.within.block hmemk).2.2.2.1
  obtain ⟨s₁, hremove₁, hr₁, hbrk₁, hkept₁⟩ := removeFreeBlock_ok hs.repr hs.ok hs.within
    (fits_sizes hs.ok rfl) hmemj
  have hok₁ : Ok (base L) (l.reverse ++ ⟨j, true⟩ :: ⟨m, true⟩ :: ⟨k, false⟩ :: r)
      (lists.drop d) := by
    have htake := hs.ok.take
    rwa [span_reverse, ← hd] at htake
  have hw₁ : Within L s₁ (l.reverse ++ ⟨j, true⟩ :: ⟨m, true⟩ :: ⟨k, false⟩ :: r) := by
    refine ⟨?_, hr₁.room⟩
    have hends := hs.ends
    simp only [span_append, span_cons, bytes_eq, hbrk₁] at hends ⊢
    omega
  obtain ⟨s₂, hremove₂, hr₂, hbrk₂, hkept₂⟩ := removeFreeBlock_ok (c := c + 4 * m) (n := k) hr₁
    hok₁ hw₁ (fits_sizes hok₁ (by simp)) (by simp [hc, hd, bytes_eq])
  have hok : Ok (base L) (l.reverse ++ ⟨j + (m + k), true⟩ :: r)
      ((lists.drop d).drop (c + 4 * m)) := by
    have hfuse := hok₁.fuse
    have hnexts := (mergeNext_ok (c := base L + span Blk.bytes l.reverse) rfl hfuse).1
    have haddr : base L + span Blk.bytes l.reverse + WSIZE * (j + m) = c + 4 * m := by
      rw [span_reverse, ← hd, hc]
      unfold WSIZE
      omega
    simpa only [mergeNext, haddr, Nat.add_assoc] using hnexts
  have hshift : d + 4 * (j + (m + k)) = c + 4 * m + 4 * k := by omega
  have hwide : span Blk.bytes [⟨j, false⟩, ⟨m, true⟩, ⟨k, false⟩] = 4 * (j + (m + k)) := by
    simp only [span_cons, span_nil, bytes_eq]
    omega
  obtain ⟨s', hrun, hholds, hkept₃, hcopied⟩ := slide_ok (c := c) (m := m) hr₂ hok
    (by
      have hends := hs.ends
      simp only [span_append, span_cons, bytes_eq, hbrk₂, hbrk₁] at hends ⊢
      omega) hd hbounds.1 (by omega) (by omega)
    (fun e x he => mem_around hd hwide he)
  have hothers : ∀ e i,
      InUse L ⟨l.reverse ++ ⟨j, false⟩ :: ⟨m, true⟩ :: ⟨k, false⟩ :: r, lists⟩ e i ∧ e ≠ c ↔
        Around L d (j + (m + k)) l r e i := by
    intro e i
    have hiff := others_around (r := ⟨k, false⟩ :: r) lists (by simpa using hs.ok) hc'
      (d := e) (j := i)
    rw [show l.reverse ++ ⟨j, false⟩ :: ⟨m, true⟩ :: ⟨k, false⟩ :: r =
        (⟨j, false⟩ :: l).reverse ++ ⟨m, true⟩ :: ⟨k, false⟩ :: r by simp, hiff, Around, Around,
      show d + WSIZE * (j + (m + k)) = c + WSIZE * m + WSIZE * k from hshift]
    simp [Blk.bytes]
  have hnext₁ : nextBlk L c s₁ = .ok (c + 4 * m, s₁) :=
    nextBlk_ok (b := ⟨m, true⟩) (hr₁.tags _ _ hmem).header (by simp only; omega)
      (by simp only; omega) (by omega)
  have hsizek : blkSize (c + 4 * m) s = .ok (k, s) :=
    blkSize_ok (hs.repr.tags _ _ hmemk).header (by simp only; omega)
  have hwords := (wordsFor_ok hsize).2.2.1
  refine ⟨s', ?_, hholds, fun i hi => ?_, ⟨j + (m + k), by omega, fun e i => ?_⟩, ?_,
    fun i hi hi' => ?_⟩
  · have hsum : add64 (add64 j m) k = j + (m + k) := by
      rw [add64_eq (a := j) (by omega), add64_eq (by omega), Nat.add_assoc]
    rw [reallocGrow, payload_bytes (by omega) (by omega), Nat.add_sub_cancel, if_neg (by simp),
      if_neg (by simp), if_pos (by simp), bind_ok (pure_ok 0), bind_ok (pure_ok 0)]
    refine (bind_ok (a := j + (m + k)) (t := s) ?_).trans ?_
    · rw [bind_ok (hprev s (hs.repr.tags _ _ hmemj)), bind_ok hsizej, bind_ok hnext,
        bind_ok hsizek, hsum, pure_ok]
    · rw [if_neg (by simp), if_neg (by simp), if_pos (by simpa using hfits),
        bind_ok (hprev s (hs.repr.tags _ _ hmemj)), bind_ok hremove₁, bind_ok hnext₁,
        bind_ok hremove₂, bind_ok (hprev s₂ (hr₂.tags _ _ hmemj)), hrun]
  · cases located_unique hs.ok.pos hi hmemj
  · rw [hothers, inUse_around hd]
  · refine ((hkept₁.mono fun e i he => he.1).trans (hkept₂.mono fun e i he => ?_)).trans
      (hkept₃.mono fun e i he => (hothers e i).mp he)
    exact mem_taken he.1
  · have hP : PAYLOAD = 4 := rfl
    have hm : WSIZE * m = 4 * m := rfl
    rw [hcopied i hi', hkept₂ c m (by simp [hc, hd, bytes_eq]) (c + PAYLOAD + i) (by omega)
      (by omega)]
    exact hkept₁ c m (by simp [hc, hd, bytes_eq]) (c + PAYLOAD + i) (by omega) (by omega)

end Absorb

section Tail

variable {m size : Nat} {l r : List Blk} {lists : Lists}

theorem nextSize_ok (hs : Holds L s ⟨l.reverse ++ ⟨m, true⟩ :: r, lists⟩)
    (hc : c = base L + span Blk.bytes l) :
    blkSize (c + 4 * m) s = .ok ((r.head?.map Blk.size).getD 0, s) := by
  have hbounds := located_bounds hs hc
  cases r with
  | nil =>
    have hends := hs.ends
    simp only [span_append, span_cons, span_nil, span_reverse, bytes_eq] at hends
    have hfence := hs.repr.epilogue
    rw [show s.memBrk - WSIZE = c + 4 * m by omega] at hfence
    rw [blkSize, bind_ok (readWord_ok _ (by omega)), hfence, pure_ok]
    rfl
  | cons q r =>
    have hlt := (hs.within.block (mem_next hc)).2.2.2.1
    exact blkSize_ok (hs.repr.tags _ _ (mem_next hc)).header (by omega)

theorem prevSize_ok {j : Nat} (hs : Holds L s ⟨(⟨j, false⟩ :: l).reverse ++ ⟨m, true⟩ :: r, lists⟩)
    (hc : c = base L + span Blk.bytes (⟨j, false⟩ :: l)) :
    ∃ d, prevBlk L c s = .ok (d, s) ∧ blkSize d s = .ok (j, s) ∧ j < 2 ^ 28 ∧
      d = base L + span Blk.bytes l ∧ c = d + 4 * j := by
  have hs' : Holds L s ⟨l.reverse ++ ⟨j, false⟩ :: ⟨m, true⟩ :: r, lists⟩ := by simpa using hs
  have hstart : c = base L + span Blk.bytes l + 4 * j := by
    rw [hc, span_cons, bytes_eq]
    omega
  obtain ⟨hmem, -, -, hlt, hsize, hprev⟩ := front_reads hs' rfl hstart
  exact ⟨_, hprev s (hs'.repr.tags _ _ hmem), hsize, hlt, rfl, hstart⟩

theorem reallocGrow_tail {new : Nat} (hs : Holds L s ⟨l.reverse ++ ⟨m, true⟩ :: r, lists⟩)
    (hc : c = base L + span Blk.bytes l) (hfull : m + freeFront l + freeFront r < new) :
    reallocGrow L (c + PAYLOAD) size m (new) (frontUsed l) (frontUsed r) s =
      if r = [] then reallocAtEnd L c m (new) s
      else reallocByCopy L (c + PAYLOAD) size s := by
  obtain ⟨-, -, -, hnext, -⟩ := used_reads hs hc
  have hnextsize := nextSize_ok hs hc
  have hbounds := located_bounds hs hc
  have htail : (do if (← blkSize (← nextBlk L c)) = 0 then
                     reallocAtEnd L c m (new)
                   else reallocByCopy L (c + PAYLOAD) size : Prog Nat) s =
      if r = [] then reallocAtEnd L c m (new) s
      else reallocByCopy L (c + PAYLOAD) size s := by
    rw [bind_ok hnext, bind_ok hnextsize]
    cases r with
    | nil => rfl
    | cons q r =>
      have hq := (hs.ok.sizes q (by simp)).1
      unfold MIN_BLOCK_SIZE_WORDS at hq
      rw [if_neg (by simp; omega), if_neg (by simp)]
  cases hl : frontUsed l with
  | true =>
    cases hr : frontUsed r with
    | true =>
      rw [reallocGrow, Nat.add_sub_cancel, if_neg (by simp), if_neg (by simp), if_neg (by simp),
        bind_ok (pure_ok 0), bind_ok (pure_ok 0), bind_ok (pure_ok 0), if_neg (by simp),
        if_neg (by simp), if_neg (by simp), htail]
    | false =>
      obtain ⟨k, r, rfl⟩ := exists_of_frontUsed hr
      have hk : k < 2 ^ 28 := (hs.within.block (mem_next hc)).2.2.2.1
      have hsizek : blkSize (c + 4 * m) s = .ok (k, s) := hnextsize
      have hshort : ¬ new ≤ m + k := by
        simp only [freeFront] at hfull
        omega
      rw [reallocGrow, Nat.add_sub_cancel, if_pos (by simp), if_neg (by simp), if_neg (by simp)]
      refine (bind_ok (a := m + k) (t := s) ?_).trans ?_
      · rw [bind_ok hnext, bind_ok hsizek, add64_eq (by omega), pure_ok]
      · rw [bind_ok (pure_ok 0), bind_ok (pure_ok 0), if_neg (by simpa using hshort),
          if_neg (by simp), if_neg (by simp), htail]
  | false =>
    obtain ⟨j, l, rfl⟩ := exists_of_frontUsed hl
    obtain ⟨d, hprev, hsizej, hj, -, -⟩ := prevSize_ok hs hc
    cases hr : frontUsed r with
    | true =>
      have hshort : ¬ new ≤ j + m := by
        simp only [freeFront] at hfull
        omega
      rw [reallocGrow, Nat.add_sub_cancel, if_neg (by simp), if_pos (by simp), if_neg (by simp),
        bind_ok (pure_ok 0)]
      refine (bind_ok (a := j + m) (t := s) ?_).trans ?_
      · rw [bind_ok hprev, bind_ok hsizej, add64_eq (by omega), pure_ok]
      · rw [bind_ok (pure_ok 0), if_neg (by simp), if_neg (by simpa using hshort),
          if_neg (by simp), htail]
    | false =>
      obtain ⟨k, r, rfl⟩ := exists_of_frontUsed hr
      have hk : k < 2 ^ 28 := (hs.within.block (mem_next hc)).2.2.2.1
      have hsizek : blkSize (c + 4 * m) s = .ok (k, s) := hnextsize
      have hshort : ¬ new ≤ j + m + k := by
        simp only [freeFront] at hfull
        omega
      rw [reallocGrow, Nat.add_sub_cancel, if_neg (by simp), if_neg (by simp), if_pos (by simp),
        bind_ok (pure_ok 0), bind_ok (pure_ok 0)]
      refine (bind_ok (a := j + m + k) (t := s) ?_).trans ?_
      · rw [bind_ok hprev, bind_ok hsizej, bind_ok hnext, bind_ok hsizek,
          add64_eq (a := j) (by omega), add64_eq (by omega), pure_ok]
      · rw [if_neg (by simp), if_neg (by simp), if_neg (by simpa using hshort), htail]

theorem reallocAtEnd_ok (hs : Holds L s ⟨l.reverse ++ [⟨m, true⟩], lists⟩)
    (hc : c = base L + span Blk.bytes l) (hsize : size ≤ INT_MAX)
    (hgrow : m + MIN_BLOCK_SIZE_WORDS ≤ wordsFor size)
    (hroom : s.memBrk + 4 * (wordsFor size - m) ≤ L.memMaxAddr) :
    ∃ s', reallocAtEnd L c m (wordsFor size) s = .ok (c + PAYLOAD, s') ∧
      Reallocated L s s' ⟨l.reverse ++ [⟨m, true⟩], lists⟩
        ⟨l.reverse ++ [⟨wordsFor size, true⟩],
          (lists.push (c + 4 * m) (wordsFor size - m)).drop (c + 4 * m)⟩ c m size c := by
  have hbounds := located_bounds hs hc
  obtain ⟨-, hfour, hbytes, hlt⟩ := wordsFor_ok hsize
  have hmfour := (hs.ok.sizes ⟨m, true⟩ (by simp)).2
  simp only at hmfour
  obtain ⟨w, hw⟩ : ∃ w, wordsFor size = m + w := ⟨wordsFor size - m, by omega⟩
  rw [hw] at hgrow hroom hbytes hfour ⊢
  rw [Nat.add_sub_cancel_left] at hroom ⊢
  have hsub : sub64 (m + w) m = w := by
    rw [sub64_eq (by omega) (by omega), Nat.add_sub_cancel_left]
  obtain ⟨s₁, hextend, hleads⟩ := extendHeap_ok w hs (by omega) (by omega) hroom
  have hextended : extendBy (base L) w ⟨l.reverse ++ [⟨m, true⟩], lists⟩ =
      (c + 4 * m, ⟨l.reverse ++ ⟨m, true⟩ :: [⟨w, false⟩], lists.push (c + 4 * m) w⟩) := by
    have haddr : base L + span Blk.bytes (l.reverse ++ [⟨m, true⟩]) = c + 4 * m := by
      simp [hc, bytes_eq, Nat.add_assoc]
    rw [extendBy, haddr, List.reverse_append, List.reverse_reverse]
    simp [coalesceAt, mergeNext, mergePrev]
  rw [hextended] at hextend hleads
  obtain ⟨s', hrun, hre⟩ := takeNext_ok size hleads.holds hc (by omega)
  have hsame : ∀ d j, InUse L ⟨l.reverse ++ ⟨m, true⟩ :: [⟨w, false⟩], lists.push (c + 4 * m) w⟩
      d j ↔ InUse L ⟨l.reverse ++ [⟨m, true⟩], lists⟩ d j := by
    intro d j
    simp [InUse]
  refine ⟨s', ?_, hre.holds, fun _ _ => rfl, ?_, ?_, ?_⟩
  · rw [reallocAtEnd, hsub, bind_ok hextend, if_neg (by omega), hrun]
  · obtain ⟨k, hk, hused⟩ := hre.used
    exact ⟨k, hk, fun d j => by rw [hused d j, hsame]⟩
  · exact (hleads.kept.mono fun d j hd => hd.1).trans
      (hre.kept.mono fun d j hd => ⟨(hsame d j).mpr hd.1, hd.2⟩)
  · intro i hi hi'
    have hW : WSIZE = 4 := rfl
    have hP : PAYLOAD = 4 := rfl
    have hm : WSIZE * m = 4 * m := rfl
    rw [hre.copied i hi hi']
    exact hleads.kept c m ((inUse_around hc).mpr (Or.inr ⟨rfl, rfl⟩)) (c + PAYLOAD + i)
      (by omega) (by omega)

theorem reallocAtEnd_full (hs : Holds L s ⟨l.reverse ++ [⟨m, true⟩], lists⟩)
    (hsize : size ≤ INT_MAX) (hgrow : m < wordsFor size)
    (hroom : L.memMaxAddr < s.memBrk + 4 * (wordsFor size - m)) :
    reallocAtEnd L c m (wordsFor size) s = .ok (0, s) := by
  have hlt := (wordsFor_ok hsize).2.2.2
  rw [reallocAtEnd, sub64_eq (by omega) (by omega),
    bind_ok (extendHeap_full hs (by omega) hroom), if_pos rfl, pure_ok]

theorem copy_ok {h₁ : Heap} {s₁ : State} {q k : Nat} (hs : Holds L s₁ h₁)
    (hnew : Allocated L h h₁ size q k) (hc : InUse L h c m)
    (hmalloc : mmMalloc L size s = .ok (q + PAYLOAD, s₁)) :
    ∃ s', reallocByCopy L (c + PAYLOAD) size s = .ok (q + PAYLOAD, s') ∧
      mmFree L (c + PAYLOAD) { s₁ with
        mem := move s₁.mem (q + PAYLOAD) (c + PAYLOAD) (min size (4 * m - 2 * WSIZE)) } =
          .ok ((), s') ∧
      Leads L { s₁ with
        mem := move s₁.mem (q + PAYLOAD) (c + PAYLOAD) (min size (4 * m - 2 * WSIZE)) } s'
          (fun d j => InUse L h₁ d j ∧ d ≠ c) s₁.memBrk (freeAt (base L) c h₁) ∧
      ∀ d j, InUse L (freeAt (base L) c h₁) d j ↔ InUse L h₁ d j ∧ d ≠ c := by
  have hq : InUse L h₁ q k := (hnew.used q k).mpr (Or.inr ⟨rfl, rfl⟩)
  have hc₁ : InUse L h₁ c m := (hnew.used c m).mpr (Or.inl hc)
  have hblock := hs.within.block hc₁
  have hmin := (hs.ok.sizes _ (mem_of_located hc₁)).1
  unfold MIN_BLOCK_SIZE_WORDS at hmin
  simp only at hmin hblock
  have hlarge := hnew.large
  have hsizeold : blkSize c s₁ = .ok (m, s₁) :=
    blkSize_ok (b := ⟨m, true⟩) (hs.repr.tags _ _ hc₁).header (by simp only; omega)
      (located_ne_zero hc₁)
  have hW : WSIZE = 4 := rfl
  have hP : PAYLOAD = 4 := rfl
  have hk : WSIZE * k = 4 * k := rfl
  have hlen : (if size < 4 * m - 2 * WSIZE then size else 4 * m - 2 * WSIZE) =
      min size (4 * m - 2 * WSIZE) := by
    rw [Nat.min_def]
    split_ifs <;> omega
  have hholds := holds_payload (m := move s₁.mem (q + PAYLOAD) (c + PAYLOAD)
    (min size (4 * m - 2 * WSIZE))) hs hq fun y hy => move_outside (by omega)
  obtain ⟨s', hfree, hleads, hused⟩ := mmFree_ok hholds hc₁
  refine ⟨s', ?_, hfree, hleads, hused⟩
  rw [reallocByCopy, bind_ok hmalloc, if_neg (by omega), Nat.add_sub_cancel, bind_ok hsizeold,
    payload_bytes (by omega) (by omega), hlen, bind_ok (memmove_ok _ _ _), bind_ok hfree, pure_ok]

theorem reallocByCopy_ok {h : Heap} (hs : Holds L s h) (hc : InUse L h c m)
    (hsize : size ≤ INT_MAX) :
    ∃ p s', reallocByCopy L (c + PAYLOAD) size s = .ok (p, s') ∧
      ((p = 0 ∧ s' = s) ∨ ∃ q h', p = q + PAYLOAD ∧ Reallocated L s s' h h' c m size q) := by
  obtain ⟨s₁, hmalloc, hmalloced⟩ := mmMalloc_ok size hs hsize
  generalize allocate (base L) L.memMaxAddr size h = allocated at hmalloc hmalloced
  obtain ⟨p, h₁⟩ := allocated
  rcases hmalloced.result with ⟨rfl, rfl, -⟩ | ⟨q, k, rfl, hnew⟩
  · rw [reallocByCopy, bind_ok hmalloc, if_pos rfl, pure_ok]
    exact ⟨0, s₁, rfl, Or.inl ⟨rfl, rfl⟩⟩
  obtain ⟨s', hrun, -, hleads, hused⟩ := copy_ok hmalloced.holds hnew hc hmalloc
  have hq : InUse L h₁ q k := (hnew.used q k).mpr (Or.inr ⟨rfl, rfl⟩)
  have hc₁ : InUse L h₁ c m := (hnew.used c m).mpr (Or.inl hc)
  have hne : c ≠ q := fun heq => hnew.fresh m (heq ▸ hc)
  have hlarge := hnew.large
  have hW : WSIZE = 4 := rfl
  have hP : PAYLOAD = 4 := rfl
  have hm : WSIZE * m = 4 * m := rfl
  have hk : WSIZE * k = 4 * k := rfl
  refine ⟨q + PAYLOAD, s', hrun, Or.inr ⟨q, _, rfl, hleads.holds,
    fun j hj => absurd hj (hnew.fresh j), ⟨k, hlarge, fun d j => ?_⟩, ?_, ?_⟩⟩
  · rw [hused, hnew.used]
    constructor
    · rintro ⟨hd | ⟨rfl, rfl⟩, hdc⟩
      · exact Or.inl ⟨hd, hdc⟩
      · exact Or.inr ⟨rfl, rfl⟩
    · rintro (⟨hd, hdc⟩ | ⟨rfl, rfl⟩)
      · exact ⟨Or.inl hd, hdc⟩
      · exact ⟨Or.inr ⟨rfl, rfl⟩, Ne.symm hne⟩
  · -- the copy writes to the new block only, which was not in use before
    have hcopy : Kept (fun d j => InUse L h d j ∧ d ≠ c) s₁.mem
        (move s₁.mem (q + PAYLOAD) (c + PAYLOAD) (min size (4 * m - 2 * WSIZE))) := by
      rintro d j ⟨hd, -⟩ y hy hy'
      have hj : WSIZE * j = 4 * j := rfl
      rcases located_apart hq ((hnew.used d j).mpr (Or.inl hd)) with ⟨rfl, -⟩ | hapart | hapart
      · exact absurd hd (hnew.fresh j)
      · rw [bytes_eq] at hapart
        exact move_outside (by omega)
      · rw [bytes_eq] at hapart
        exact move_outside (by omega)
    refine ((hmalloced.kept.mono fun d j hd => hd.1).trans hcopy).trans
      (hleads.kept.mono fun d j hd => ⟨(hnew.used d j).mpr (Or.inl hd.1), hd.2⟩)
  · intro i hi hi'
    have hin : i < min size (4 * m - 2 * WSIZE) := Nat.lt_min.mpr ⟨hi, hi'⟩
    rw [hleads.kept q k ⟨hq, Ne.symm hne⟩ (q + PAYLOAD + i) (by omega) (by omega)]
    exact (move_inside hin).trans (hmalloced.kept c m hc (c + PAYLOAD + i) (by omega) (by omega))

end Tail

/-- The block of `p` is the last one and the block in front of it is in use, the rounded request
exceeds its size by a single alignment unit, and the break can move up by as much. -/
structure UnitGrowth (L : Layout) (s : State) (p size : Nat) : Prop where
  lacks : tagSize (load s.mem (p - PAYLOAD) WSIZE) + 4 = wordsFor size
  last : tagSize (load s.mem
    (p - PAYLOAD + 4 * (tagSize (load s.mem (p - PAYLOAD) WSIZE)).toNat) WSIZE) = 0
  front : tagInuse (load s.mem (p - PAYLOAD - WSIZE) WSIZE) = true
  room : s.memBrk + ALIGNMENT ≤ L.memMaxAddr

instance (L : Layout) (s : State) (p size : Nat) : Decidable (UnitGrowth L s p size) :=
  decidable_of_iff
    (tagSize (load s.mem (p - PAYLOAD) WSIZE) + 4 = wordsFor size ∧
      tagSize (load s.mem
        (p - PAYLOAD + 4 * (tagSize (load s.mem (p - PAYLOAD) WSIZE)).toNat) WSIZE) = 0 ∧
      tagInuse (load s.mem (p - PAYLOAD - WSIZE) WSIZE) = true ∧
      s.memBrk + ALIGNMENT ≤ L.memMaxAddr)
    ⟨fun ⟨h₁, h₂, h₃, h₄⟩ => ⟨h₁, h₂, h₃, h₄⟩, fun ⟨h₁, h₂, h₃, h₄⟩ => ⟨h₁, h₂, h₃, h₄⟩⟩

section Realloc

variable {m size : Nat} {l r : List Blk} {lists : Lists}

theorem header_reads (hs : Holds L s ⟨l.reverse ++ ⟨m, true⟩ :: r, lists⟩)
    (hc : c = base L + span Blk.bytes l) :
    tagSize (load s.mem c WSIZE) = m ∧
      (tagSize (load s.mem (c + 4 * m) WSIZE) = 0 ↔ r = []) := by
  have hbounds := located_bounds hs hc
  have hheader := (hs.repr.tags c ⟨m, true⟩ (by simp [hc])).header
  refine ⟨by rw [hheader, tagSize_tagOf (by simp only; omega)], ?_⟩
  cases r with
  | nil =>
    have hends := hs.ends
    simp only [span_append, span_cons, span_nil, span_reverse, bytes_eq] at hends
    have hfence := hs.repr.epilogue
    have hW : WSIZE = 4 := rfl
    rw [show s.memBrk - WSIZE = c + 4 * m by omega] at hfence
    rw [hfence]
    simp [tagSize, FENCE, withSize, withInuse]
  | cons q r =>
    have hlt := (hs.within.block (mem_next hc)).2.2.2.1
    have hq := (hs.ok.sizes q (by simp)).1
    unfold MIN_BLOCK_SIZE_WORDS at hq
    rw [(hs.repr.tags _ _ (mem_next hc)).header, tagSize_tagOf (by omega)]
    simp
    omega

theorem unitGrowth_iff (size : Nat) (hs : Holds L s ⟨l.reverse ++ ⟨m, true⟩ :: r, lists⟩)
    (hc : c = base L + span Blk.bytes l) :
    UnitGrowth L s (c + PAYLOAD) size ↔
      wordsFor size = m + 4 ∧ r = [] ∧ frontUsed l = true ∧ s.memBrk + 16 ≤ L.memMaxAddr := by
  obtain ⟨hsize, hlast⟩ := header_reads hs hc
  have hfront := (used_reads hs hc).2.2.1
  have hkey : UnitGrowth L s (c + PAYLOAD) size ↔
      tagSize (load s.mem c WSIZE) + 4 = wordsFor size ∧
        tagSize (load s.mem (c + 4 * (tagSize (load s.mem c WSIZE)).toNat) WSIZE) = 0 ∧
        tagInuse (load s.mem (c - WSIZE) WSIZE) = true ∧ s.memBrk + ALIGNMENT ≤ L.memMaxAddr := by
    have hp : c + PAYLOAD - PAYLOAD = c := Nat.add_sub_cancel ..
    constructor
    · rintro ⟨h₁, h₂, h₃, h₄⟩
      rw [hp] at h₁ h₂ h₃
      exact ⟨h₁, h₂, h₃, h₄⟩
    · rintro ⟨h₁, h₂, h₃, h₄⟩
      rw [← hp] at h₁ h₂ h₃
      exact ⟨h₁, h₂, h₃, h₄⟩
  rw [hkey, hsize, hfront, Int.toNat_natCast, hlast]
  have hA : ALIGNMENT = 16 := rfl
  constructor
  · rintro ⟨h₁, h₂, h₃, h₄⟩
    exact ⟨by omega, h₂, h₃, by omega⟩
  · rintro ⟨h₁, h₂, h₃, h₄⟩
    exact ⟨by omega, h₂, h₃, by omega⟩

theorem absorb_ok (hs : Holds L s ⟨l.reverse ++ ⟨m, true⟩ :: r, lists⟩)
    (hc : c = base L + span Blk.bytes l) (hsize : size ≤ INT_MAX) (hgrow : m < wordsFor size)
    (hreach : wordsFor size ≤ m + freeFront l + freeFront r) :
    ∃ p s', reallocGrow L (c + PAYLOAD) size m (wordsFor size) (frontUsed l) (frontUsed r) s =
        .ok (p, s') ∧
      ((p = 0 ∧ s' = s) ∨ ∃ q h', p = q + PAYLOAD ∧
        Reallocated L s s' ⟨l.reverse ++ ⟨m, true⟩ :: r, lists⟩ h' c m size q) := by
  cases hl : frontUsed l with
  | true =>
    have hnone := freeFront_used hl
    cases hr : frontUsed r with
    | true =>
      have hnone' := freeFront_used hr
      omega
    | false =>
      obtain ⟨k, r, rfl⟩ := exists_of_frontUsed hr
      have hfits : wordsFor size ≤ m + k := by
        rw [hnone] at hreach
        simpa [freeFront] using hreach
      obtain ⟨s', hrun, hre⟩ := growNext_ok hs hc hl hsize hfits
      rw [hl] at hrun
      exact ⟨_, s', hrun, Or.inr ⟨c, _, rfl, hre⟩⟩
  | false =>
    obtain ⟨j, l, rfl⟩ := exists_of_frontUsed hl
    have hfront : (⟨j, false⟩ :: l).reverse ++ ⟨m, true⟩ :: r =
        l.reverse ++ ⟨j, false⟩ :: ⟨m, true⟩ :: r := by simp
    obtain ⟨d, -, -, -, hd, hcd⟩ := prevSize_ok hs hc
    rw [hfront] at hs ⊢
    cases hr : frontUsed r with
    | true =>
      have hnone := freeFront_used hr
      have hfits : wordsFor size ≤ j + m := by
        rw [hnone] at hreach
        simp only [freeFront] at hreach
        omega
      obtain ⟨s', hrun, hre⟩ := growPrev_ok hs hd hcd hr hsize hfits
      rw [hr] at hrun
      exact ⟨_, s', hrun, Or.inr ⟨d, _, rfl, hre⟩⟩
    | false =>
      obtain ⟨k, r, rfl⟩ := exists_of_frontUsed hr
      have hfits : wordsFor size ≤ j + (m + k) := by
        simp only [freeFront] at hreach
        omega
      obtain ⟨s', hrun, hre⟩ := growBoth_ok hs hd hcd hsize hfits
      exact ⟨_, s', hrun, Or.inr ⟨d, _, rfl, hre⟩⟩

/-- Outside the case of `UnitGrowth`, `mm_realloc` reallocates or leaves everything as it was. -/
theorem mmRealloc_ok {h : Heap} (hs : Holds L s h) (hc : InUse L h c m) (hpos : 0 < size)
    (hsize : size ≤ INT_MAX) (hgood : ¬ UnitGrowth L s (c + PAYLOAD) size) :
    ∃ p s', mmRealloc L (c + PAYLOAD) size s = .ok (p, s') ∧
      ((p = 0 ∧ s' = s) ∨ ∃ q h', p = q + PAYLOAD ∧ Reallocated L s s' h h' c m size q) := by
  obtain ⟨bs, lists⟩ := h
  obtain ⟨l, r, rfl, hl⟩ := located_split hc
  obtain ⟨l, rfl⟩ : ∃ l', l = l'.reverse := ⟨l.reverse, by simp⟩
  rw [span_reverse] at hl
  rw [mmRealloc_start hs hl hpos hsize]
  obtain ⟨-, hfour, hbytes, -⟩ := wordsFor_ok hsize
  have hmfour := (hs.ok.sizes ⟨m, true⟩ (by simp)).2
  simp only at hmfour
  split
  · rename_i hsmall
    refine ⟨_, s, rfl, Or.inr ⟨c, _, rfl, hs, fun _ _ => rfl, ⟨m, by omega, fun d j => ?_⟩,
      fun d j _ y _ _ => rfl, fun i _ _ => rfl⟩⟩
    rw [others_around lists hs.ok hl, inUse_around hl]
  rename_i hgrow
  by_cases hreach : wordsFor size ≤ m + freeFront l + freeFront r
  · exact absorb_ok hs hl hsize (by omega) hreach
  · rw [reallocGrow_tail hs hl (by omega)]
    split
    · rename_i hr
      subst hr
      by_cases hroom : s.memBrk + 4 * (wordsFor size - m) ≤ L.memMaxAddr
      · have hmin : m + MIN_BLOCK_SIZE_WORDS ≤ wordsFor size := by
          by_contra hshort
          unfold MIN_BLOCK_SIZE_WORDS at hshort
          refine hgood ((unitGrowth_iff size hs hl).mpr ⟨by omega, rfl, ?_, by omega⟩)
          -- a free block in front would have sufficed
          by_contra hfront
          obtain ⟨j, l', rfl⟩ := exists_of_frontUsed (Bool.not_eq_true _ ▸ hfront)
          have hj := (hs.ok.sizes ⟨j, false⟩ (by simp)).1
          unfold MIN_BLOCK_SIZE_WORDS at hj
          simp only [freeFront] at hreach hj
          omega
        obtain ⟨s', hrun, hre⟩ := reallocAtEnd_ok hs hl hsize hmin hroom
        exact ⟨_, s', hrun, Or.inr ⟨c, _, rfl, hre⟩⟩
      · exact ⟨0, s, reallocAtEnd_full hs hsize (by omega) (by omega), Or.inl ⟨rfl, rfl⟩⟩
    · exact reallocByCopy_ok hs hc hsize

end Realloc

section Unit

variable {m size : Nat} {l r : List Blk} {lists : Lists}

theorem extendHeap_unit (hs : Holds L s ⟨l.reverse ++ [⟨m, true⟩], lists⟩)
    (hroom : s.memBrk + 16 ≤ L.memMaxAddr) {a : Nat} {s' : State}
    (hrun : extendHeap L 4 s = .ok (a, s')) : ∃ call ∈ s'.calls, ¬ Call.Ok L call := by
  have hW : WSIZE = 4 := rfl
  have hbase : base L = L.memStartBrk + 12 := rfl
  have hends := hs.ends
  have hmem : (base L + span Blk.bytes l, ⟨m, true⟩) ∈
      located Blk.bytes (base L) (l.reverse ++ [⟨m, true⟩]) := by
    simp
  have hbounds := located_bounds hs rfl
  simp only [span_append, span_cons, span_nil, span_reverse, bytes_eq] at hends
  set blk := s.memBrk - WSIZE with hblk
  have hbytes : Blk.bytes ⟨4, false⟩ = 16 := rfl
  have hmarked := setTags_marked (b := ⟨4, false⟩) (m := s.mem) (c := blk) (by decide) (by decide)
  have hsbrk : memSbrk L (toInt (mul64 4 WSIZE)) s =
      .ok (s.memBrk, { s with memBrk := s.memBrk + 16 }) := by
    rw [memSbrk_ok 4 (by omega) (by omega), if_pos (by omega)]
  have hmark : markBlockFree blk 4 { s with memBrk := s.memBrk + 16 } =
      .ok ((), { s with mem := setTags s.mem blk ⟨4, false⟩, memBrk := s.memBrk + 16 }) := by
    rw [markBlockFree, toInt_eq (by omega)]
    exact setHeaderAndFooter_ok (b := ⟨4, false⟩) (by decide) (by decide) (by omega)
  have hnext : ∀ t : State, load t.mem blk WSIZE = tagOf ⟨4, false⟩ →
      nextBlk L blk t = .ok (blk + 16, t) := fun t ht =>
    nextBlk_ok (b := ⟨4, false⟩) ht (by decide) (by decide) (by omega)
  set s₂ : State := { s with
    mem := store (setTags s.mem blk ⟨4, false⟩) (blk + 16) WSIZE FENCE
    memBrk := s.memBrk + 16 } with hs₂
  have hheader : load s₂.mem blk WSIZE = tagOf ⟨4, false⟩ := by
    rw [← hmarked.header]
    exact load_store_disjoint (by omega)
  have hfence : load s₂.mem (blk + 16) WSIZE = FENCE := load_store_same (by decide)
  have hprev : prevBlkFooter blk ≠ 0 := by
    rw [prevBlkFooter, sub64_eq (by omega) (by omega)]
    omega
  have hfooter : load s₂.mem (prevBlkFooter blk) WSIZE = tagOf ⟨m, true⟩ := by
    have hold := (hs.repr.tags _ _ hmem).footer
    rw [bytes_eq] at hold
    rw [prevBlkFooter, sub64_eq (by omega) (by omega), ← hold,
      show base L + span Blk.bytes l + 4 * m - WSIZE = blk - WSIZE by omega]
    refine load_congr fun y hy hy' => ?_
    exact (store_outside (by omega)).trans (setTags_outside (by omega) (by omega) (by omega))
  have hfree : blkFree (blk + 16) s₂ = .ok (false, s₂) := by
    rw [blkFree, bind_ok (readWord_ok _ (by omega)), hfence, pure_ok]
    rfl
  have hsize : ∀ t : State, load t.mem blk WSIZE = tagOf ⟨4, false⟩ → blkSize blk t = .ok (4, t) :=
    fun t ht => blkSize_ok (b := ⟨4, false⟩) ht (by decide)
  have hnext₁ := hnext { s with mem := setTags s.mem blk ⟨4, false⟩, memBrk := s.memBrk + 16 }
    hmarked.header
  rw [extendHeap, bind_ok hsbrk, if_neg (by omega), bind_ok hmark, bind_ok hnext₁,
    bind_ok (writeWord_ok _ _ (by omega)), coalesce, bind_ok (readWord_ok _ hprev), hfooter,
    tagInuse_tagOf,
    bind_ok (hnext s₂ hheader), bind_ok hfree, bind_ok (hsize s₂ hheader), if_pos (by simp)] at hrun
  obtain ⟨b, t, hinsert, hrest⟩ := bind_inv hrun
  have hkeeps : KeepsCalls (do assert L b; return blk : Prog Nat) :=
    stable_calls.readOnly ((readOnly_assert b).bind fun _ => readOnly_pure _)
  refine ⟨.insert s₂.mem blk, hkeeps t a s' hrest ?_, ?_⟩
  · have hsize₃ := hsize { s₂ with calls := s₂.calls ++ [Call.insert s₂.mem blk] } hheader
    rw [insertFreeBlock, bind_ok (record_ok _), bind_ok hsize₃] at hinsert
    have hlast : KeepsCalls (do assert L (findFitIndex 4).isSome; return false : Prog Bool) :=
      stable_calls.readOnly ((readOnly_assert _).bind fun _ => readOnly_pure _)
    exact hlast _ b t hinsert (List.mem_append_right _ List.mem_cons_self)
  · change ¬ (MIN_BLOCK_SIZE_WORDS : Int) ≤ tagSize (load s₂.mem blk WSIZE)
    rw [hheader]
    decide

/-- In the case of `UnitGrowth` an assertion stops `mm_realloc`, or the free-list routines were
called on something else than a whole free block. -/
theorem mmRealloc_unit {h : Heap} (hs : Holds L s h) (hc : InUse L h c m) (hpos : 0 < size)
    (hsize : size ≤ INT_MAX) (hbad : UnitGrowth L s (c + PAYLOAD) size) {p : Nat} {s' : State}
    (hrun : mmRealloc L (c + PAYLOAD) size s = .ok (p, s')) :
    ∃ call ∈ s'.calls, ¬ Call.Ok L call := by
  obtain ⟨bs, lists⟩ := h
  obtain ⟨l, r, rfl, hl⟩ := located_split hc
  obtain ⟨l, rfl⟩ : ∃ l', l = l'.reverse := ⟨l.reverse, by simp⟩
  rw [span_reverse] at hl
  obtain ⟨hunit, rfl, hfront, hroom⟩ := (unitGrowth_iff size hs hl).mp hbad
  have hbounds := located_bounds hs hl
  have hsub : sub64 (m + 4) m = 4 := by
    rw [sub64_eq (by omega) (by omega), Nat.add_sub_cancel_left]
  rw [mmRealloc_start hs hl hpos hsize, if_neg (by omega),
    reallocGrow_tail hs hl (by rw [freeFront_used hfront, freeFront_used rfl]; omega), if_pos rfl,
    hunit, reallocAtEnd, hsub] at hrun
  obtain ⟨a, t, hextend, hrest⟩ := bind_inv hrun
  obtain ⟨call, hcall, hnot⟩ := extendHeap_unit hs hroom hextend
  have hkeeps : KeepsCalls (if a = 0 then pure 0 else do
      removeFreeBlock L (← nextBlk L c)
      markBlockUsed c (m + 4)
      return c + PAYLOAD : Prog Nat) := by
    apply ensures_ite
    · exact stable_calls.readOnly (readOnly_pure 0)
    · exact stable_calls.bind (stable_calls.readOnly (readOnly_nextBlk c)) fun _ =>
        stable_calls.bind (ensures_removeFreeBlock stable_calls _) fun _ =>
          stable_calls.bind (ensures_setHeaderAndFooter stable_calls _ _ _) fun _ =>
            stable_calls.readOnly (readOnly_pure _)
  exact ⟨call, hkeeps t p s' hrest hcall, hnot⟩

end Unit

end ComputerSystems.Malloc.Realloc
