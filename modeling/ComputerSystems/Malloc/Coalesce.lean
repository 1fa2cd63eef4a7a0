/- `coalesce` and its parts on represented heaps. -/

import ComputerSystems.Malloc.Operations
import ComputerSystems.Malloc.Representation

set_option autoImplicit false
set_option relaxedAutoImplicit false

namespace ComputerSystems.Malloc.Coalesce

open ComputerSystems.Memory.Bytes
open ComputerSystems.Memory.Tiling
open ComputerSystems.Systems.Computations (bind_ok pure_ok)
open ComputerSystems.Malloc.Machine
open ComputerSystems.Malloc.Mm
open ComputerSystems.Malloc.Blocks
open ComputerSystems.Malloc.Operations
open ComputerSystems.Malloc.FreeLists
open ComputerSystems.Malloc.Representation

variable {L : Layout} {s : State} {ps ps' : List (Nat × Blk)} {bs l r : List Blk}
  {lists : Lists} {c : Nat}

/-- Rewriting the tags of a block that starts where a block of the tiling starts and is no longer
than it. The blocks whose tags survive lie on either side. -/
theorem mark_ok {b x : Blk} (hr : Represents L s ps lists) (ho : Ok (base L) bs lists)
    (hw : Within L s bs) (hx : (c, x) ∈ located Blk.bytes (base L) bs)
    (hmin : MIN_BLOCK_SIZE_WORDS ≤ b.size) (hle : b.size ≤ x.size)
    (hps : ∀ d y, (d, y) ∈ ps' →
      (d = c ∧ y = b) ∨ ((d, y) ∈ ps ∧ MIN_BLOCK_SIZE_WORDS ≤ y.size ∧
        (d + y.bytes ≤ c ∨ c + b.bytes ≤ d))) :
    Represents L { s with mem := setTags s.mem c b } ps' lists := by
  have hblock := hw.block hx
  have hlists := L.lists_apart
  have hend := hw.end_le
  have hbytes : b.bytes ≤ x.bytes := by unfold Blk.bytes WSIZE; omega
  have hlow : 8 * WSIZE ≤ b.bytes := by
    unfold MIN_BLOCK_SIZE_WORDS at hmin
    unfold Blk.bytes WSIZE
    omega
  have hW : WSIZE = 4 := rfl
  have hbase : base L = L.memStartBrk + 12 := rfl
  have hmax : L.memMaxAddr = L.memStartBrk + L.heapSize := rfl
  have hpos := L.start_pos
  refine ⟨?_, ?_, ?_, ?_, hr.mids, hr.started, hr.room, hr.calls⟩
  · rw [← hr.prologue]
    refine load_congr fun y hy hy' => setTags_outside (by omega) (by omega) (by omega)
  · intro d y hd
    rcases hps d y hd with ⟨rfl, rfl⟩ | ⟨hd, hsize, hside⟩
    · exact setTags_marked (by omega) (by unfold MIN_BLOCK_SIZE_WORDS at hmin; omega)
    · have hmarked := hr.tags d y hd
      have hy : WSIZE ≤ y.bytes := by
        unfold MIN_BLOCK_SIZE_WORDS at hsize
        unfold Blk.bytes WSIZE
        omega
      refine ⟨?_, ?_⟩
      · rw [← hmarked.header]
        refine load_congr fun z hz hz' => setTags_outside (by omega) (by omega) (by omega)
      · rw [← hmarked.footer]
        refine load_congr fun z hz hz' => setTags_outside (by omega) (by omega) (by omega)
  · rw [← hr.epilogue]
    refine load_congr fun y hy hy' => setTags_outside (by omega) ?_ ?_
    · simp only at hy hy'
      omega
    · simp only at hy hy'
      omega
  · intro i hi
    refine (hr.listed i hi).congr fun z hz => ?_
    have htouched := elems_touched (L := L) ho c hi (x := z) hz
    have hout : Agree s.mem (setTags s.mem c b) z (z + 16) := by
      intro y hy hy'
      have hE : ELEM = 8 := rfl
      rcases htouched.cases ho hx with ⟨j, hj, hz⟩ | ⟨d, u, hd, -, rfl, hfin⟩
      · have hbounds := static_bounds hj hz
        exact setTags_outside (by omega) (by omega) (by omega)
      · rcases located_apart hx hd with ⟨rfl, -⟩ | h | h
        · exact setTags_outside (by omega) (by omega) (by omega)
        · exact setTags_outside (by omega) (by omega) (by omega)
        · exact setTags_outside (by omega) (by omega) (by omega)
    exact ⟨load_congr (hout.mono (by omega) (by omega)),
      load_congr (hout.mono (by omega) (by omega))⟩

theorem mark_kept {b : Blk} {live : Nat → Nat → Prop} {m : Mem} (hmin : WSIZE ≤ b.bytes)
    (h : ∀ d n, live d n → d + WSIZE * n ≤ c ∨ c + b.bytes ≤ d) :
    Kept live m (setTags m c b) := by
  intro d n hd y hy hy'
  have hside := h d n hd
  exact setTags_outside hmin (by omega) (by omega)

/-- The in-use bit that a neighbour's tag shows; a fence counts as in use. -/
def frontUsed : List Blk → Bool
  | [] => true
  | b :: _ => b.used

theorem next_inuse {b : Blk}
    (hr : Represents L s (located Blk.bytes (base L) (l ++ b :: r)) lists)
    (hend : base L + span Blk.bytes (l ++ b :: r) + WSIZE = s.memBrk) :
    tagInuse (load s.mem (base L + span Blk.bytes l + b.bytes) WSIZE) = frontUsed r := by
  cases r with
  | nil =>
    have hbrk : s.memBrk - WSIZE = base L + span Blk.bytes l + b.bytes := by
      simp only [span_append, span_cons, span_nil] at hend
      omega
    rw [← hbrk, hr.epilogue]
    rfl
  | cons q r =>
    have hq := (hr.tags (base L + span Blk.bytes l + b.bytes) q (by simp)).header
    rw [hq, tagInuse_tagOf]
    rfl

theorem prev_inuse {b : Blk}
    (hr : Represents L s (located Blk.bytes (base L) (l.reverse ++ b :: r)) lists) :
    tagInuse (load s.mem (base L + span Blk.bytes l - WSIZE) WSIZE) = frontUsed l := by
  cases l with
  | nil =>
    rw [span_nil, Nat.add_zero, hr.prologue]
    rfl
  | cons p l =>
    have hp := (hr.tags (base L + span Blk.bytes l) p (by simp)).footer
    rw [span_cons, Nat.add_comm p.bytes, ← Nat.add_assoc, hp, tagInuse_tagOf]
    rfl

section Marks

variable {f : List Blk} {k n d : Nat} {u v : Bool} {x : Blk}

theorem located_between (hc : c = base L + span Blk.bytes f) :
    located Blk.bytes (base L) (f ++ ⟨n, u⟩ :: r) =
      located Blk.bytes (base L) f ++ (c, ⟨n, u⟩) :: located Blk.bytes (c + 4 * n) r := by
  rw [located_append, located_cons, ← hc, bytes_eq]

/-- The blocks before and behind the one at `c` do not meet its first words. -/
theorem outer_apart (hc : c = base L + span Blk.bytes f) (hle : k ≤ n)
    (hd : (d, x) ∈ located Blk.bytes (base L) f ∨ (d, x) ∈ located Blk.bytes (c + 4 * n) r) :
    d + x.bytes ≤ c ∨ c + 4 * k ≤ d := by
  rcases hd with hd | hd
  · have hin := (located_within hd).2
    rw [← hc] at hin
    exact Or.inl hin
  · have hin := (located_within hd).1
    omega

theorem outer_block
    (hd : (d, x) ∈ located Blk.bytes (base L) f ∨ (d, x) ∈ located Blk.bytes (c + 4 * n) r) :
    x ∈ f ++ ⟨n, u⟩ :: r := by
  rcases hd with hd | hd
  · exact List.mem_append_left _ (mem_of_located hd)
  · exact List.mem_append_right _ (List.mem_cons_of_mem _ (mem_of_located hd))

theorem mem_outer (hc : c = base L + span Blk.bytes f)
    (hd : (d, x) ∈ located Blk.bytes (base L) f ∨ (d, x) ∈ located Blk.bytes (c + 4 * n) r) :
    (d, x) ∈ located Blk.bytes (base L) (f ++ ⟨n, u⟩ :: r) := by
  rw [located_between hc]
  rcases hd with hd | hd
  · exact List.mem_append_left _ hd
  · exact List.mem_append_right _ (List.mem_cons_of_mem _ hd)

/-- The first words of the block at `c` get tags of their own; what is before and behind the block
is not touched. -/
theorem mark_between (v : Bool) (hc : c = base L + span Blk.bytes f) (hr : Represents L s ps lists)
    (ho : Ok (base L) (f ++ ⟨n, u⟩ :: r) lists) (hw : Within L s (f ++ ⟨n, u⟩ :: r))
    (hk : MIN_BLOCK_SIZE_WORDS ≤ k) (hle : k ≤ n)
    (hps : ∀ d x, (d, x) ∈ located Blk.bytes (base L) f ∨
      (d, x) ∈ located Blk.bytes (c + 4 * n) r → (d, x) ∈ ps) :
    setHeaderAndFooter c (toInt k) (if v then 1 else 0) s =
        .ok ((), { s with mem := setTags s.mem c ⟨k, v⟩ }) ∧
      Represents L { s with mem := setTags s.mem c ⟨k, v⟩ }
        (located Blk.bytes (base L) f ++ (c, ⟨k, v⟩) :: located Blk.bytes (c + 4 * n) r) lists ∧
      Kept (fun d m => (d, ⟨m, true⟩) ∈ located Blk.bytes (base L) f ∨
        (d, ⟨m, true⟩) ∈ located Blk.bytes (c + 4 * n) r) s.mem (setTags s.mem c ⟨k, v⟩) := by
  have hmem : (c, ⟨n, u⟩) ∈ located Blk.bytes (base L) (f ++ ⟨n, u⟩ :: r) := by
    rw [located_between hc]
    exact List.mem_append_right _ List.mem_cons_self
  have hblock := hw.block hmem
  have hpos := located_ne_zero hmem
  have hM : MIN_BLOCK_SIZE_WORDS = 8 := rfl
  have hW : WSIZE = 4 := rfl
  simp only [bytes_eq] at hblock
  refine ⟨?_, mark_ok hr ho hw hmem hk hle ?_, mark_kept ?_ ?_⟩
  · rw [toInt_eq (by omega)]
    exact setHeaderAndFooter_ok (b := ⟨k, v⟩) (by simp only; omega) (by simp only; omega)
      (by omega)
  · intro d x hd
    rw [List.mem_append, List.mem_cons, Prod.mk.injEq] at hd
    have houter : ∀ hd : (d, x) ∈ located Blk.bytes (base L) f ∨
        (d, x) ∈ located Blk.bytes (c + 4 * n) r, (d, x) ∈ ps ∧ MIN_BLOCK_SIZE_WORDS ≤ x.size ∧
          (d + x.bytes ≤ c ∨ c + Blk.bytes ⟨k, v⟩ ≤ d) :=
      fun hd => ⟨hps d x hd, (ho.sizes x (outer_block hd)).1, outer_apart hc hle hd⟩
    rcases hd with hd | hd | hd
    · exact Or.inr (houter (Or.inl hd))
    · exact Or.inl hd
    · exact Or.inr (houter (Or.inr hd))
  · rw [bytes_eq]
    omega
  · intro d m hd
    exact outer_apart hc hle hd

end Marks

/-- Mark the unlisted block of `n` words at `c` free and link it in. -/
theorem relist_ok {n : Nat} (hc : c = base L + span Blk.bytes l) (hr : Represents L s ps lists)
    (ho : Ok (base L) (l.reverse ++ ⟨n, true⟩ :: r) lists)
    (hend : base L + span Blk.bytes (l.reverse ++ ⟨n, true⟩ :: r) + WSIZE = s.memBrk)
    (hps : ∀ d x, (d, x) ∈ located Blk.bytes (base L) l.reverse ∨
      (d, x) ∈ located Blk.bytes (c + WSIZE * n) r → (d, x) ∈ ps) :
    ∃ s', markBlockFree c n s = .ok ((), { s with mem := setTags s.mem c ⟨n, false⟩ }) ∧
      insertFreeBlock L c { s with mem := setTags s.mem c ⟨n, false⟩ } = .ok (true, s') ∧
      Represents L s' (located Blk.bytes (base L) (l.reverse ++ ⟨n, false⟩ :: r))
        (lists.push c n) ∧
      s'.memBrk = s.memBrk ∧
      Kept (fun d m => (d, ⟨m, true⟩) ∈ located Blk.bytes (base L) l.reverse ∨
        (d, ⟨m, true⟩) ∈ located Blk.bytes (c + WSIZE * n) r) s.mem s'.mem := by
  have hw : Within L s (l.reverse ++ ⟨n, true⟩ :: r) := ⟨hend.le, hr.room⟩
  have hmem : (c, ⟨n, true⟩) ∈ located Blk.bytes (base L) (l.reverse ++ ⟨n, true⟩ :: r) := by
    simp [hc]
  have hmin := (ho.sizes _ (mem_of_located hmem)).1
  have hc' : c = base L + span Blk.bytes l.reverse := by rw [span_reverse, hc]
  obtain ⟨hrun, hmark, hmarked⟩ := mark_between false hc' hr ho hw hmin le_rfl hps
  rw [← located_between hc'] at hmark
  have hfits : Fits L (located Blk.bytes (base L) (l.reverse ++ ⟨n, false⟩ :: r))
      (l.reverse ++ ⟨n, true⟩ :: r) := fits_sizes ho (by simp)
  obtain ⟨s', hins, hr', hbrk, hkept⟩ := insertFreeBlock_ok (n := n) (u := false) (m := n) hmark
    ho ⟨hend.le, hr.room⟩ hfits (by simp [hc]) hmem
  refine ⟨s', hrun, hins, hr', hbrk, hmarked.trans (hkept.mono fun d m hd => ?_)⟩
  have hpos : 0 < (⟨m, true⟩ : Blk).bytes := ho.pos _ (outer_block hd)
  have hside := outer_apart hc' le_rfl hd
  have hmin : 8 ≤ n := hmin
  exact ⟨mem_outer hc' hd, by omega⟩

theorem exists_of_frontUsed (h : frontUsed l = false) : ∃ m l', l = ⟨m, false⟩ :: l' := by
  match l, h with
  | ⟨m, false⟩ :: l', _ => exact ⟨m, l', rfl⟩

/-- The block of `n` words at `c` between the blocks `l` in front, nearest first, and `r` behind is
tagged free but on no list. -/
structure Pending (L : Layout) (s : State) (c n : Nat) (l r : List Blk) (lists : Lists) :
    Prop where
  starts : c = base L + span Blk.bytes l
  repr : Represents L s (located Blk.bytes (base L) (l.reverse ++ ⟨n, false⟩ :: r)) lists
  ok : Ok (base L) (l.reverse ++ ⟨n, true⟩ :: r) lists
  ends : base L + span Blk.bytes (l.reverse ++ ⟨n, true⟩ :: r) + WSIZE = s.memBrk

/-- The payloads of the blocks in use on both sides of a block of `n` words at `c`. -/
def Around (L : Layout) (c n : Nat) (l r : List Blk) (d m : Nat) : Prop :=
  (d, ⟨m, true⟩) ∈ located Blk.bytes (base L) l.reverse ∨
    (d, ⟨m, true⟩) ∈ located Blk.bytes (c + WSIZE * n) r

namespace Pending

variable {n : Nat}

theorem within (h : Pending L s c n l r lists) : Within L s (l.reverse ++ ⟨n, true⟩ :: r) :=
  ⟨h.ends.le, h.repr.room⟩

theorem mem (h : Pending L s c n l r lists) :
    (c, ⟨n, true⟩) ∈ located Blk.bytes (base L) (l.reverse ++ ⟨n, true⟩ :: r) := by
  simp [h.starts]

theorem bounds (h : Pending L s c n l r lists) :
    8 ≤ n ∧ L.memStartBrk + 12 ≤ c ∧ c + 4 * n + 4 ≤ s.memBrk ∧ n < 2 ^ 28 ∧
      s.memBrk < 2 ^ 63 := by
  have hmin := (h.ok.sizes _ (mem_of_located h.mem)).1
  have hblock := h.within.block h.mem
  rw [bytes_eq] at hblock
  unfold MIN_BLOCK_SIZE_WORDS at hmin
  unfold base WSIZE at hblock
  simp only at hmin hblock
  omega

theorem header (h : Pending L s c n l r lists) : load s.mem c WSIZE = tagOf ⟨n, false⟩ :=
  (h.repr.tags c ⟨n, false⟩ (by simp [h.starts])).header

theorem reads (h : Pending L s c n l r lists) :
    readWord (prevBlkFooter c) WSIZE s = .ok (load s.mem (c - WSIZE) WSIZE, s) ∧
      tagInuse (load s.mem (c - WSIZE) WSIZE) = frontUsed l ∧
      nextBlk L c s = .ok (c + 4 * n, s) ∧
      blkFree (c + 4 * n) s = .ok (!frontUsed r, s) ∧ blkSize c s = .ok (n, s) := by
  have hbounds := h.bounds
  have hW : WSIZE = 4 := rfl
  have hfooter : prevBlkFooter c = c - WSIZE := sub64_eq (by omega) (by omega)
  refine ⟨by rw [hfooter, readWord_ok _ (by omega)], ?_, ?_, ?_, ?_⟩
  · rw [h.starts]
    exact prev_inuse h.repr
  · exact nextBlk_ok (b := ⟨n, false⟩) h.header (by simp only; omega) (by simp only; omega)
      (by omega)
  · have hnext := next_inuse (l := l.reverse) h.repr (by simpa [bytes_eq] using h.ends)
    rw [span_reverse, ← h.starts, bytes_eq] at hnext
    rw [blkFree, bind_ok (readWord_ok _ (by omega)), hnext, pure_ok]
  · exact blkSize_ok (b := ⟨n, false⟩) h.header (by simp only; omega)

theorem removeNext {m : Nat} (h : Pending L s c n l (⟨m, false⟩ :: r) lists) :
    ∃ s', removeFreeBlock L (c + 4 * n) s = .ok ((), s') ∧
      Represents L s' (located Blk.bytes (base L) (l.reverse ++ ⟨n, false⟩ :: ⟨m, false⟩ :: r))
        (lists.drop (c + 4 * n)) ∧
      s'.memBrk = s.memBrk ∧ Kept (Around L c n l (⟨m, false⟩ :: r)) s.mem s'.mem := by
  have hmem : (c + 4 * n, ⟨m, false⟩) ∈
      located Blk.bytes (base L) (l.reverse ++ ⟨n, true⟩ :: ⟨m, false⟩ :: r) := by
    simp [h.starts, bytes_eq]
  obtain ⟨s', hrun, hr', hbrk, hkept⟩ :=
    removeFreeBlock_ok h.repr h.ok h.within (fits_sizes h.ok (by simp)) hmem
  refine ⟨s', hrun, hr', hbrk, hkept.mono fun d k hd => ?_⟩
  simp only [located_append, located_cons, List.mem_append, List.mem_cons, span_reverse,
    ← h.starts]
  rcases hd with hd | hd
  · exact Or.inl hd
  · exact Or.inr (Or.inr (by simpa [Blk.bytes] using hd))

end Pending

/-- From `s` the heap `h` came about, and no payload around the block of `n` words at `c`
changed. -/
structure Coalesced (L : Layout) (s s' : State) (c n : Nat) (l r : List Blk) (h : Heap) :
    Prop where
  repr : Represents L s' (located Blk.bytes (base L) h.blocks) h.lists
  brk : s'.memBrk = s.memBrk
  kept : Kept (Around L c n l r) s.mem s'.mem

variable {n m k : Nat}

theorem coalesce_alone (h : Pending L s c n l r lists) (hl : frontUsed l = true)
    (hr : frontUsed r = true) :
    ∃ s', coalesce L c s = .ok (c, s') ∧
      Coalesced L s s' c n l r ⟨l.reverse ++ ⟨n, false⟩ :: r, lists.push c n⟩ := by
  obtain ⟨hprev, hused, hnext, hfree, hsize⟩ := h.reads
  obtain ⟨s', hins, hr', hbrk, hkept⟩ := insertFreeBlock_ok (n := n) (u := false) (m := n)
    h.repr h.ok h.within (fits_sizes h.ok (by simp)) (by simp [h.starts]) h.mem
  have hbounds := h.bounds
  refine ⟨s', ?_, hr', hbrk, hkept.mono fun d x hd => ?_⟩
  · rw [coalesce, bind_ok hprev, hused, hl, bind_ok hnext, bind_ok hfree, hr, bind_ok hsize,
      if_pos (by decide), bind_ok hins, bind_ok (assert_ok rfl), pure_ok]
  · simp only [located_append, located_cons, List.mem_append, List.mem_cons, span_reverse,
      ← h.starts]
    rcases hd with hd | hd
    · have hin := (located_within hd).2
      have hpos := h.ok.pos _ (List.mem_append_left _ (mem_of_located hd))
      rw [span_reverse, ← h.starts] at hin
      exact ⟨Or.inl hd, by omega⟩
    · have hin : c + 4 * n ≤ d := (located_within hd).1
      exact ⟨Or.inr (Or.inr hd), by omega⟩

theorem coalesce_next (h : Pending L s c n l (⟨m, false⟩ :: r) lists)
    (hl : frontUsed l = true) :
    ∃ s', coalesce L c s = .ok (c, s') ∧
      Coalesced L s s' c n l (⟨m, false⟩ :: r)
        ⟨l.reverse ++ ⟨n + m, false⟩ :: r, (lists.drop (c + 4 * n)).push c (n + m)⟩ := by
  obtain ⟨hprev, hused, hnext, hfree, hsize⟩ := h.reads
  obtain ⟨s₁, hremove, hr₁, hbrk₁, hkept₁⟩ := h.removeNext
  have hbounds := h.bounds
  have hheader := (hr₁.tags c ⟨n, false⟩ (by simp [h.starts])).header
  have hheader' := (hr₁.tags (c + 4 * n) ⟨m, false⟩ (by simp [h.starts, bytes_eq])).header
  have hm : m < 2 ^ 28 := (h.within.block (d := c + 4 * n) (b := ⟨m, false⟩) (by
    simp [h.starts, bytes_eq])).2.2.2.1
  have hok : Ok (base L) (l.reverse ++ ⟨n + m, true⟩ :: r) (lists.drop (c + 4 * n)) :=
    (mergeNext_ok (by rw [span_reverse, ← h.starts]) h.ok).1
  have hshift : c + WSIZE * (n + m) = c + 4 * n + 4 * m := by unfold WSIZE; omega
  obtain ⟨s', hmark, hins, hr', hbrk', hkept'⟩ := relist_ok (n := n + m) h.starts hr₁ hok
    (by
      have hends := h.ends
      simp only [span_append, span_cons, bytes_eq] at hends ⊢
      omega)
    (by
      intro d x hd
      rw [hshift] at hd
      simp only [located_append, located_cons, List.mem_append, List.mem_cons, span_reverse,
        ← h.starts, bytes_eq]
      exact hd.imp_right fun hd => Or.inr (Or.inr hd))
  refine ⟨s', ?_, hr', hbrk'.trans hbrk₁, hkept₁.trans (hkept'.mono fun d x hd => ?_)⟩
  · have hnext₁ : nextBlk L c s₁ = .ok (c + 4 * n, s₁) :=
      nextBlk_ok (b := ⟨n, false⟩) hheader (by simp only; omega) (by simp only; omega) (by omega)
    have hsize₁ : blkSize (c + 4 * n) s₁ = .ok (m, s₁) :=
      blkSize_ok (b := ⟨m, false⟩) hheader' (by simp only; omega)
    rw [coalesce, bind_ok hprev, hused, hl, bind_ok hnext, bind_ok hfree, bind_ok hsize,
      frontUsed, if_neg (by simp), if_pos (by simp)]
    refine (bind_ok (a := c) (t := { s₁ with mem := setTags s₁.mem c ⟨n + m, false⟩ }) ?_).trans
      ?_
    · rw [bind_ok hnext, bind_ok hremove, bind_ok hnext₁, bind_ok hsize₁, add64_eq (by omega),
        bind_ok hmark, pure_ok]
    · rw [bind_ok hins, bind_ok (assert_ok rfl), pure_ok]
  · rw [hshift]
    exact hd.imp_right fun hd => by simpa [Blk.bytes, WSIZE] using hd

theorem coalesce_prev (h : Pending L s c n (⟨m, false⟩ :: l) r lists)
    (hr : frontUsed r = true) :
    ∃ s', coalesce L c s = .ok (c - 4 * m, s') ∧
      Coalesced L s s' c n (⟨m, false⟩ :: l) r
        ⟨l.reverse ++ ⟨m + n, false⟩ :: r,
          (lists.drop (c - 4 * m)).push (c - 4 * m) (m + n)⟩ := by
  obtain ⟨hprev, hused, hnext, hfree, hsize⟩ := h.reads
  have hbounds := h.bounds
  obtain ⟨d, rfl⟩ : ∃ d, c = d + 4 * m := ⟨_, by
    rw [h.starts, span_cons, bytes_eq, Nat.add_comm (4 * m), ← Nat.add_assoc]⟩
  have hd : d = base L + span Blk.bytes l := by
    have hc := h.starts
    rw [span_cons, bytes_eq] at hc
    omega
  rw [Nat.add_sub_cancel]
  have hmem : (d, ⟨m, false⟩) ∈
      located Blk.bytes (base L) ((⟨m, false⟩ :: l).reverse ++ ⟨n, true⟩ :: r) := by
    simp [hd]
  have hpos := located_ne_zero hmem
  have hm : m < 2 ^ 28 := (h.within.block hmem).2.2.2.1
  have hmin : 8 ≤ m := (h.ok.sizes _ (mem_of_located hmem)).1
  obtain ⟨s₁, hremove, hr₁, hbrk₁, hkept₁⟩ :=
    removeFreeBlock_ok h.repr h.ok h.within (fits_sizes h.ok (by simp)) hmem
  have hmarked := h.repr.tags d ⟨m, false⟩ (by simp [hd])
  have hmarked₁ := hr₁.tags d ⟨m, false⟩ (by simp [hd])
  have hok : Ok (base L) (l.reverse ++ ⟨m + n, true⟩ :: r) (lists.drop d) := by
    have hmerge := (mergePrev_ok h.starts h.ok).1
    have haddr : d + 4 * m - WSIZE * m = d := Nat.add_sub_cancel ..
    simpa only [mergePrev, haddr] using hmerge
  have hshift : d + WSIZE * (m + n) = d + 4 * m + 4 * n := by unfold WSIZE; omega
  obtain ⟨s', hmark, hins, hr', hbrk', hkept'⟩ := relist_ok (n := m + n) hd hr₁ hok
    (by
      have hends := h.ends
      simp only [span_append, span_cons, span_reverse, bytes_eq] at hends ⊢
      omega)
    (by
      intro e x he
      rw [hshift] at he
      simp only [List.reverse_cons, List.append_assoc, List.singleton_append, located_append,
        located_cons, List.mem_append, List.mem_cons, span_reverse, ← hd, bytes_eq]
      exact he.imp_right fun he => Or.inr (Or.inr he))
  refine ⟨s', ?_, hr', hbrk'.trans hbrk₁, ?_⟩
  · have hprev₀ : prevBlk L (d + 4 * m) s = .ok (d, s) :=
      prevBlk_ok (b := ⟨m, false⟩) hmarked.footer rfl (by simp only; omega) (by simp only; omega)
        (by omega)
    have hprev₁ : prevBlk L (d + 4 * m) s₁ = .ok (d, s₁) :=
      prevBlk_ok (b := ⟨m, false⟩) hmarked₁.footer rfl (by simp only; omega)
        (by simp only; omega) (by omega)
    have hsize₁ : blkSize d s₁ = .ok (m, s₁) :=
      blkSize_ok (b := ⟨m, false⟩) hmarked₁.header (by simp only; omega)
    rw [coalesce, bind_ok hprev, hused, bind_ok hnext, bind_ok hfree, hr, bind_ok hsize,
      frontUsed, if_neg (by simp), if_neg (by simp), if_pos (by simp)]
    refine (bind_ok (a := d) (t := { s₁ with mem := setTags s₁.mem d ⟨m + n, false⟩ }) ?_).trans
      ?_
    · rw [bind_ok hprev₀, bind_ok hremove, bind_ok hprev₁, bind_ok hsize₁, add64_eq (by omega),
        Nat.add_comm n m, bind_ok hmark, pure_ok]
    · rw [bind_ok hins, bind_ok (assert_ok rfl), pure_ok]
  · refine (hkept₁.mono fun e x he => ?_).trans (hkept'.mono fun e x he => ?_)
    · simp only [located_append, located_cons, List.mem_append, List.mem_cons]
      refine he.imp_right fun he => Or.inr ?_
      simp only [span_reverse, ← h.starts]
      exact he
    · rw [hshift]
      exact he.imp_left fun he => by simpa [Blk.bytes] using he

theorem coalesce_both (h : Pending L s c n (⟨m, false⟩ :: l) (⟨k, false⟩ :: r) lists) :
    ∃ s', coalesce L c s = .ok (c - 4 * m, s') ∧
      Coalesced L s s' c n (⟨m, false⟩ :: l) (⟨k, false⟩ :: r)
        ⟨l.reverse ++ ⟨m + (n + k), false⟩ :: r,
          ((lists.drop (c + 4 * n)).drop (c - 4 * m)).push (c - 4 * m) (m + (n + k))⟩ := by
  obtain ⟨hprev, hused, hnext, hfree, hsize⟩ := h.reads
  obtain ⟨s₁, hremove, hr₁, hbrk₁, hkept₁⟩ := h.removeNext
  have hbounds := h.bounds
  obtain ⟨d, rfl⟩ : ∃ d, c = d + 4 * m := ⟨_, by
    rw [h.starts, span_cons, bytes_eq, Nat.add_comm (4 * m), ← Nat.add_assoc]⟩
  have hd : d = base L + span Blk.bytes l := by
    have hc := h.starts
    rw [span_cons, bytes_eq] at hc
    omega
  rw [Nat.add_sub_cancel]
  have hmem : (d, ⟨m, false⟩) ∈ located Blk.bytes (base L)
      ((⟨m, false⟩ :: l).reverse ++ ⟨n, true⟩ :: ⟨k, false⟩ :: r) := by
    simp [hd]
  have hmemk : (d + 4 * m + 4 * n, ⟨k, false⟩) ∈ located Blk.bytes (base L)
      ((⟨m, false⟩ :: l).reverse ++ ⟨n, true⟩ :: ⟨k, false⟩ :: r) := by
    simp [hd, bytes_eq, Nat.add_assoc]
  have hpos := located_ne_zero hmem
  have hm : m < 2 ^ 28 := (h.within.block hmem).2.2.2.1
  have hk : k < 2 ^ 28 := (h.within.block hmemk).2.2.2.1
  have hmin : 8 ≤ m := (h.ok.sizes _ (mem_of_located hmem)).1
  have hfused : Ok (base L) ((⟨m, false⟩ :: l).reverse ++ ⟨n + k, true⟩ :: r)
      (lists.drop (d + 4 * m + 4 * n)) :=
    (mergeNext_ok (by rw [span_reverse, ← h.starts]) h.ok).1
  have hsplit : Ok (base L) ((⟨m, false⟩ :: l).reverse ++ ⟨n, true⟩ :: ⟨k, true⟩ :: r)
      (lists.drop (d + 4 * m + 4 * n)) :=
    hfused.split (h.ok.sizes ⟨n, true⟩ (by simp)) (h.ok.sizes ⟨k, false⟩ (by simp)).1
  have hw₁ : Within L s₁ ((⟨m, false⟩ :: l).reverse ++ ⟨n, true⟩ :: ⟨k, true⟩ :: r) := by
    refine ⟨?_, hr₁.room⟩
    have hends := h.ends
    simp only [span_append, span_cons, span_reverse, bytes_eq, hbrk₁] at hends ⊢
    omega
  obtain ⟨s₂, hremove', hr₂, hbrk₂, hkept₂⟩ := removeFreeBlock_ok (c := d) (n := m) hr₁ hsplit hw₁
    (fits_sizes hsplit (by simp)) (by simp [hd])
  have hmarked₁ := hr₁.tags d ⟨m, false⟩ (by simp [hd])
  have hmarked₂ := hr₂.tags d ⟨m, false⟩ (by simp [hd])
  have hheader₂ := (hr₂.tags (d + 4 * m) ⟨n, false⟩ (by simp [hd, bytes_eq, Nat.add_assoc])).header
  have hheaderk := (hr₂.tags (d + 4 * m + 4 * n) ⟨k, false⟩ (by
    simp [hd, bytes_eq, Nat.add_assoc])).header
  have hok : Ok (base L) (l.reverse ++ ⟨m + (n + k), true⟩ :: r)
      ((lists.drop (d + 4 * m + 4 * n)).drop d) := by
    have hmerge := (mergePrev_ok h.starts hfused).1
    have haddr : d + 4 * m - WSIZE * m = d := Nat.add_sub_cancel ..
    simpa only [mergePrev, haddr] using hmerge
  have hshift : d + WSIZE * (m + (n + k)) = d + 4 * m + 4 * n + 4 * k := by
    unfold WSIZE
    omega
  obtain ⟨s', hmark, hins, hr', hbrk', hkept'⟩ := relist_ok (n := m + (n + k)) hd hr₂ hok
    (by
      have hends := h.ends
      simp only [span_append, span_cons, span_reverse, bytes_eq] at hends ⊢
      omega)
    (by
      intro e x he
      rw [hshift] at he
      simp only [List.reverse_cons, List.append_assoc, List.singleton_append, located_append,
        located_cons, List.mem_append, List.mem_cons, span_reverse, ← hd, bytes_eq]
      exact he.imp_right fun he => Or.inr (Or.inr (Or.inr he)))
  refine ⟨s', ?_, hr', hbrk'.trans (hbrk₂.trans hbrk₁), hkept₁.trans ?_⟩
  · have hprev₁ : prevBlk L (d + 4 * m) s₁ = .ok (d, s₁) :=
      prevBlk_ok (b := ⟨m, false⟩) hmarked₁.footer rfl (by simp only; omega)
        (by simp only; omega) (by omega)
    have hnext₂ : nextBlk L (d + 4 * m) s₂ = .ok (d + 4 * m + 4 * n, s₂) :=
      nextBlk_ok (b := ⟨n, false⟩) hheader₂ (by simp only; omega) (by simp only; omega)
        (by omega)
    have hsizek : blkSize (d + 4 * m + 4 * n) s₂ = .ok (k, s₂) :=
      blkSize_ok (b := ⟨k, false⟩) hheaderk (by simp only; omega)
    have hprev₂ : prevBlk L (d + 4 * m) s₂ = .ok (d, s₂) :=
      prevBlk_ok (b := ⟨m, false⟩) hmarked₂.footer rfl (by simp only; omega)
        (by simp only; omega) (by omega)
    have hsizem : blkSize d s₂ = .ok (m, s₂) :=
      blkSize_ok (b := ⟨m, false⟩) hmarked₂.header (by simp only; omega)
    -- the footer of the block in front outlives the new tags, so the last `prev_blk` finds it
    have hprev₃ : prevBlk L (d + 4 * m)
          { s₂ with mem := setTags s₂.mem d ⟨m + (n + k), false⟩ } =
        .ok (d, { s₂ with mem := setTags s₂.mem d ⟨m + (n + k), false⟩ }) := by
      refine prevBlk_ok (b := ⟨m, false⟩) ?_ rfl (by simp only; omega) (by simp only; omega)
        (by omega)
      rw [← hmarked₂.footer]
      refine load_congr fun y hy hy' => setTags_outside ?_ ?_ ?_ <;>
        simp only [bytes_eq, WSIZE] at * <;> omega
    rw [coalesce, bind_ok hprev, hused, bind_ok hnext, bind_ok hfree, bind_ok hsize,
      frontUsed, frontUsed, if_neg (by simp), if_neg (by simp), if_neg (by simp)]
    refine (bind_ok (a := d)
      (t := { s₂ with mem := setTags s₂.mem d ⟨m + (n + k), false⟩ }) ?_).trans ?_
    · have hsum : add64 (add64 n k) m = m + (n + k) := by
        rw [add64_eq (a := n) (by omega), add64_eq (by omega), Nat.add_comm]
      rw [bind_ok hnext, bind_ok hremove, bind_ok hprev₁, bind_ok hremove', bind_ok hnext₂,
        bind_ok hsizek, bind_ok hprev₂, bind_ok hsizem, bind_ok hprev₂, hsum, bind_ok hmark,
        hprev₃]
    · rw [bind_ok hins, bind_ok (assert_ok rfl), pure_ok]
  · refine (hkept₂.mono fun e x he => ?_).trans (hkept'.mono fun e x he => ?_)
    · simp only [located_append, located_cons, List.mem_append, List.mem_cons, span_reverse,
        ← h.starts]
      refine he.imp_right fun he => Or.inr (Or.inr ?_)
      simpa [Blk.bytes] using he
    · rw [hshift]
      refine he.imp (fun he => by simpa [Blk.bytes] using he) fun he => ?_
      simpa [Blk.bytes, WSIZE] using he

/-- `coalesce` on a block that is tagged free but on no list: the tiling and the lists become
those of `coalesceAt`, and no payload in use changes. -/
theorem coalesce_ok (h : Pending L s c n l r lists) :
    ∃ s', coalesce L c s = .ok ((coalesceAt c n l r lists).1, s') ∧
      Coalesced L s s' c n l r (coalesceAt c n l r lists).2 := by
  match l, r, h with
  | [], [], h => exact coalesce_alone h rfl rfl
  | [], ⟨_, true⟩ :: _, h => exact coalesce_alone h rfl rfl
  | ⟨_, true⟩ :: _, [], h => exact coalesce_alone h rfl rfl
  | ⟨_, true⟩ :: _, ⟨_, true⟩ :: _, h => exact coalesce_alone h rfl rfl
  | [], ⟨_, false⟩ :: _, h => exact coalesce_next h rfl
  | ⟨_, true⟩ :: _, ⟨_, false⟩ :: _, h => exact coalesce_next h rfl
  | ⟨_, false⟩ :: _, [], h => exact coalesce_prev h rfl
  | ⟨_, false⟩ :: _, ⟨_, true⟩ :: _, h => exact coalesce_prev h rfl
  | ⟨_, false⟩ :: _, ⟨_, false⟩ :: _, h => exact coalesce_both h

end ComputerSystems.Malloc.Coalesce
