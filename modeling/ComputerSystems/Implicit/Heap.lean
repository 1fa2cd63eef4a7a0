/- How memory holds a tiling by blocks, and what the functions on blocks do to it. -/

import ComputerSystems.Implicit.Tilings
import ComputerSystems.Malloc.Coalesce

set_option autoImplicit false
set_option relaxedAutoImplicit false

namespace ComputerSystems.Implicit.Heap

open ComputerSystems.Memory.Bytes
open ComputerSystems.Memory.Tiling
open ComputerSystems.Memory.Joining
open ComputerSystems.Systems.Computations (bind_ok pure_ok)
open ComputerSystems.Malloc.Machine
open ComputerSystems.Malloc.Mm (WSIZE PAYLOAD FENCE tagInuse tagSize prevBlkFooter blkFree blkSize
  prevBlk nextBlk setHeaderAndFooter markBlockUsed markBlockFree)
open ComputerSystems.Malloc.Blocks (Blk bytes_eq)
open ComputerSystems.Malloc.Representation
open ComputerSystems.Malloc.Coalesce (mark_kept)
open ComputerSystems.Implicit.Program
open ComputerSystems.Implicit.Tilings

/-- The blocks `bs` fill the words between the two fences, and memory carries their tags. -/
structure Tagged (L : Layout) (s : State) (bs : List Blk) : Prop where
  prologue : load s.mem (base L - WSIZE) WSIZE = FENCE
  tags : ∀ d b, (d, b) ∈ located Blk.bytes (base L) bs → Marked s.mem d b
  epilogue : load s.mem (s.memBrk - WSIZE) WSIZE = FENCE
  whole : ∀ b ∈ bs, Whole b
  ends : base L + span Blk.bytes bs + WSIZE = s.memBrk
  started : s.heapListp = base L
  room : s.memBrk ≤ L.memMaxAddr

/-- Between two calls no two adjacent blocks are free. -/
structure Holds (L : Layout) (s : State) (bs : List Blk) : Prop where
  tagged : Tagged L s bs
  separated : Separated isFree bs

def InUse (L : Layout) (bs : List Blk) (d m : Nat) : Prop :=
  (d, ⟨m, true⟩) ∈ located Blk.bytes (base L) bs

variable {L : Layout} {s : State} {bs l mid mid' r : List Blk} {c d k n : Nat} {b : Blk}

section Bounds

theorem Tagged.bounds (h : Tagged L s bs) :
    12 < base L ∧ base L + span Blk.bytes bs + 4 = s.memBrk ∧ span Blk.bytes bs < 2 ^ 30 ∧
      s.memBrk < 2 ^ 63 := by
  have hends := h.ends
  have hroom := h.room
  have hpos := L.start_pos
  have hheap := L.heapSize_le
  have hstart := L.start_below
  unfold Layout.memMaxAddr MAX_HEAP base WSIZE at *
  omega

theorem Tagged.block (h : Tagged L s bs) (hd : (d, b) ∈ located Blk.bytes (base L) bs) :
    base L ≤ d ∧ d + b.bytes ≤ base L + span Blk.bytes bs ∧ 16 ≤ b.bytes ∧ 0 < b.size ∧
      b.size < 2 ^ 28 ∧ d < 2 ^ 63 := by
  have hin := located_within hd
  have hbounds := h.bounds
  have hlow := (h.whole b (mem_of_located hd)).bytes_ge
  have hbytes : b.bytes = 4 * b.size := rfl
  refine ⟨hin.1, hin.2, hlow, ?_, ?_, ?_⟩ <;> omega

theorem length_le_span (h : ∀ b ∈ bs, Whole b) : 16 * bs.length ≤ span Blk.bytes bs := by
  induction bs with
  | nil => simp
  | cons b bs ih =>
    obtain ⟨hb, hbs⟩ := List.forall_mem_cons.mp h
    have hlow := hb.bytes_ge
    have hrest := ih hbs
    rw [List.length_cons, span_cons]
    omega

theorem Tagged.length_lt (h : Tagged L s bs) : bs.length < L.heapSize := by
  have hlength := length_le_span h.whole
  have hends := h.ends
  have hroom := h.room
  unfold Layout.memMaxAddr base WSIZE at *
  omega

end Bounds

section Writes

theorem Tagged.replace (h : Tagged L s (l ++ (mid ++ r))) (hc : c = base L + span Blk.bytes l)
    (hspan : span Blk.bytes mid' = span Blk.bytes mid) (hwhole : ∀ b ∈ mid', Whole b) {m' : Mem}
    (hframe : ∀ y, y < c ∨ c + span Blk.bytes mid ≤ y → m' y = s.mem y)
    (hmarked : ∀ d b, (d, b) ∈ located Blk.bytes c mid' → Marked m' d b) :
    Tagged L { s with mem := m' } (l ++ (mid' ++ r)) := by
  have hbounds := h.bounds
  have hends := h.ends
  simp only [span_append] at hends hbounds
  have hW : WSIZE = 4 := rfl
  refine ⟨?_, fun d b hd => ?_, ?_, fun b hb => ?_, ?_, h.started, h.room⟩
  · rw [← h.prologue]
    exact load_congr fun y hy hy' => hframe y (Or.inl (by omega))
  · rw [located_append, List.mem_append, located_append, List.mem_append, ← hc] at hd
    -- the blocks on either side keep their tags
    have houter : (d, b) ∈ located Blk.bytes (base L) (l ++ (mid ++ r)) →
        d + b.bytes ≤ c ∨ c + span Blk.bytes mid ≤ d → Marked m' d b := by
      intro hd hside
      have hmarked := h.tags d b hd
      have hblock := h.block hd
      refine ⟨?_, ?_⟩
      · rw [← hmarked.header]
        exact load_congr fun y hy hy' => hframe y (by omega)
      · rw [← hmarked.footer]
        exact load_congr fun y hy hy' => hframe y (by omega)
    rcases hd with hd | hd | hd
    · have hin := located_within hd
      exact houter (by simp [hd]) (Or.inl (by omega))
    · exact hmarked d b hd
    · rw [hspan] at hd
      have hin := located_within hd
      refine houter ?_ (Or.inr (by omega))
      rw [located_append, located_append, ← hc]
      exact List.mem_append_right _ (List.mem_append_right _ hd)
  · rw [← h.epilogue]
    refine load_congr fun y hy hy' => hframe y (Or.inr ?_)
    simp only at hy
    omega
  · have hold := h.whole
    simp only [List.mem_append] at hb hold
    rcases hb with hb | hb | hb
    · exact hold b (Or.inl hb)
    · exact hwhole b hb
    · exact hold b (Or.inr (Or.inr hb))
  · simpa [hspan] using h.ends

theorem Tagged.payload (h : Tagged L s bs) (hd : InUse L bs d n) {m' : Mem}
    (hframe : ∀ y, y < d + WSIZE ∨ d + 4 * n - WSIZE ≤ y → m' y = s.mem y) :
    Tagged L { s with mem := m' } bs := by
  obtain ⟨l, r, rfl, hl⟩ := located_split hd
  have hW : WSIZE = 4 := rfl
  have hblock := h.block hd
  simp only [bytes_eq] at hblock
  have hold := h.tags d _ hd
  have hfooter := hold.footer
  rw [bytes_eq] at hfooter
  have htagged := @Tagged.replace L s l [⟨n, true⟩] [⟨n, true⟩] r d h hl rfl
    (fun b hb => h.whole b (by simp only [List.mem_append, List.mem_cons] at hb ⊢; tauto)) m'
    (fun y hy => hframe y (by simp only [span_cons, span_nil, bytes_eq] at hy; omega))
  refine htagged fun e b he => ?_
  obtain ⟨rfl, rfl⟩ : e = d ∧ b = ⟨n, true⟩ := by simpa using he
  refine ⟨?_, ?_⟩
  · rw [← hold.header]
    exact load_congr fun y hy hy' => hframe y (by omega)
  · rw [bytes_eq, ← hfooter]
    exact load_congr fun y hy hy' => hframe y (by omega)

/-- `set_header_and_footer` over whole blocks makes one block of them. -/
theorem Tagged.mark (v : Bool) (h : Tagged L s (l ++ (mid ++ r)))
    (hc : c = base L + span Blk.bytes l) (hspan : 4 * k = span Blk.bytes mid)
    (hk : Whole ⟨k, v⟩) :
    setHeaderAndFooter c (toInt k) (if v then 1 else 0) s =
        .ok ((), { s with mem := setTags s.mem c ⟨k, v⟩ }) ∧
      Tagged L { s with mem := setTags s.mem c ⟨k, v⟩ } (l ++ ⟨k, v⟩ :: r) ∧
      ∀ y, y < c ∨ c + span Blk.bytes mid ≤ y → setTags s.mem c ⟨k, v⟩ y = s.mem y := by
  have hbounds := h.bounds
  simp only [span_append] at hbounds
  have hlow := hk.bytes_ge
  rw [bytes_eq] at hlow
  have hW : WSIZE = 4 := rfl
  have hframe : ∀ y, y < c ∨ c + span Blk.bytes mid ≤ y →
      setTags s.mem c ⟨k, v⟩ y = s.mem y := by
    intro y hy
    exact setTags_outside (by rw [bytes_eq]; omega) (by omega) (by rw [bytes_eq]; omega)
  refine ⟨?_, ?_, hframe⟩
  · rw [toInt_eq (by omega)]
    exact setHeaderAndFooter_ok (b := ⟨k, v⟩) (by simp only; omega) (by simp only; omega) (by omega)
  · refine @Tagged.replace L s l mid [⟨k, v⟩] r c h hc (by simpa [bytes_eq] using hspan)
      (by simpa using hk) _ hframe fun d b hd => ?_
    obtain ⟨rfl, rfl⟩ : d = c ∧ b = ⟨k, v⟩ := by simpa using hd
    exact setTags_marked (by simp only; omega) (by simp only; omega)

theorem mid_inUse (hc : c = base L + span Blk.bytes l) {e m : Nat}
    (he : InUse L (l ++ (mid ++ r)) e m) (hne : ∀ e, (e, ⟨m, true⟩) ∉ located Blk.bytes c mid) :
    e + 4 * m ≤ c ∨ c + span Blk.bytes mid ≤ e := by
  rw [InUse, located_append, List.mem_append, located_append, List.mem_append, ← hc] at he
  rcases he with he | he | he
  · have hin := located_within he
    rw [bytes_eq] at hin
    exact Or.inl (by omega)
  · exact absurd he (hne e)
  · exact Or.inr (located_within he).1

end Writes

section Reads

theorem Tagged.reads (h : Tagged L s bs) (hd : (d, b) ∈ located Blk.bytes (base L) bs) :
    blkSize d s = .ok (b.size, s) ∧ blkFree d s = .ok (isFree b, s) ∧
      nextBlk L d s = .ok (d + b.bytes, s) := by
  have hbounds := h.bounds
  have hblock := h.block hd
  have hheader := (h.tags d b hd).header
  refine ⟨blkSize_ok hheader (by omega), ?_, nextBlk_ok hheader (by omega) (by omega) (by omega)⟩
  rw [blkFree, bind_ok (readWord_ok _ (by omega)), hheader, tagInuse_tagOf, pure_ok]
  rfl

theorem Tagged.reads_end (h : Tagged L s bs) :
    blkSize (base L + span Blk.bytes bs) s = .ok (0, s) ∧
      blkFree (base L + span Blk.bytes bs) s = .ok (false, s) := by
  have hbounds := h.bounds
  have hends := h.ends
  have hfence : load s.mem (base L + span Blk.bytes bs) WSIZE = FENCE := by
    rw [← h.epilogue]
    congr 1
    omega
  refine ⟨?_, ?_⟩
  · rw [blkSize, bind_ok (readWord_ok _ (by omega)), hfence, pure_ok]
    rfl
  · rw [blkFree, bind_ok (readWord_ok _ (by omega)), hfence, pure_ok]
    rfl

theorem Tagged.reads_behind (h : Tagged L s (l ++ r)) :
    blkFree (base L + span Blk.bytes l) s = .ok (r.head?.any isFree, s) := by
  cases r with
  | nil =>
    rw [List.append_nil] at h
    exact h.reads_end.2
  | cons b r => exact (h.reads (located_middle _ l r b)).2.1

theorem Tagged.reads_front (h : Tagged L s (l ++ r)) (hc : c = base L + span Blk.bytes l) :
    ∃ w, readWord (prevBlkFooter c) WSIZE s = .ok (w, s) ∧
      tagInuse w = !l.getLast?.any isFree := by
  have hbounds := h.bounds
  have hW : WSIZE = 4 := rfl
  simp only [span_append] at hbounds
  have hfooter : prevBlkFooter c = c - WSIZE := sub64_eq (by omega) (by omega)
  refine ⟨_, by rw [hfooter, readWord_ok _ (by omega)], ?_⟩
  rcases List.eq_nil_or_concat l with rfl | ⟨l, b, rfl⟩
  · rw [hc, span_nil, Nat.add_zero, h.prologue]
    rfl
  · have hmem : (base L + span Blk.bytes l, b) ∈
        located Blk.bytes (base L) (l.concat b ++ r) := by simp
    have hb := (h.tags _ b hmem).footer
    rw [hc, List.concat_eq_append, span_append, span_cons, span_nil, Nat.add_zero, ← Nat.add_assoc,
      hb, tagInuse_tagOf]
    simp [isFree]

theorem Tagged.reads_prev (h : Tagged L s (l ++ b :: r))
    (hc : c = base L + span Blk.bytes (l ++ [b])) :
    prevBlk L c s = .ok (base L + span Blk.bytes l, s) := by
  have hmem : (base L + span Blk.bytes l, b) ∈ located Blk.bytes (base L) (l ++ b :: r) :=
    located_middle _ l r b
  have hblock := h.block hmem
  have hbounds := h.bounds
  have hend : base L + span Blk.bytes l + b.bytes = c := by
    rw [hc, span_append, span_cons, span_nil]
    omega
  exact prevBlk_ok (hend ▸ (h.tags _ b hmem).footer) hend (by omega) (by omega) (by omega)

end Reads

end ComputerSystems.Implicit.Heap
