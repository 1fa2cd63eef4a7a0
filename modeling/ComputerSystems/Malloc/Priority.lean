/- The order in which `mm_realloc` tries to make room, against the order that its comment gives. -/

import ComputerSystems.Malloc.Replays

set_option autoImplicit false
set_option relaxedAutoImplicit false

namespace ComputerSystems.Malloc.Priority

open ComputerSystems.Memory.Bytes
open ComputerSystems.Memory.Tiling
open ComputerSystems.Systems.Runs
open ComputerSystems.Malloc.Machine
open ComputerSystems.Malloc.Mm
open ComputerSystems.Malloc.Blocks
open ComputerSystems.Malloc.Operations
open ComputerSystems.Malloc.Representation
open ComputerSystems.Malloc.Coalesce
open ComputerSystems.Malloc.FindFit
open ComputerSystems.Malloc.Place
open ComputerSystems.Malloc.Allocator
open ComputerSystems.Malloc.Realloc
open ComputerSystems.Malloc.Client
open ComputerSystems.Malloc.Safety
open ComputerSystems.Malloc.Offsets
open ComputerSystems.Malloc.Replays

/-- The rules of the comment on `mm_realloc`. -/
inductive Rule where
  | next
  | prev
  | both
  | last
  | copy
  deriving DecidableEq, Repr

/-- The first rule that applies to a block of `m` words that shall have `new`; `l` holds the blocks
in front of it, nearest first, and `r` those behind it. -/
def rule (l r : List Blk) (m new : Nat) : Rule :=
  if frontUsed r = false ∧ new ≤ m + freeFront r then .next
  else if frontUsed l = false ∧ new ≤ freeFront l + m then .prev
  else if frontUsed l = false ∧ frontUsed r = false ∧ new ≤ freeFront l + m + freeFront r then
    .both
  else if r = [] then .last
  else .copy

/-- A block of `m` words at `c` between the blocks `l` in front, nearest first, and `r` behind. -/
structure Spot (L : Layout) (h : Heap) (c m : Nat) (l r : List Blk) : Prop where
  blocks : h.blocks = l.reverse ++ ⟨m, true⟩ :: r
  start : c = base L + span Blk.bytes l

/-- What a rule says about the result and the heap behind a call for `size` bytes. -/
def Outcome (L : Layout) (s : State) (h : Heap) (c m : Nat) (l r : List Blk) (size p : Nat)
    (s' : State) : Rule → Prop
  | .next => p = c + PAYLOAD ∧
      Holds L s' ⟨l.reverse ++ ⟨m + freeFront r, true⟩ :: r.tail, h.lists.drop (c + 4 * m)⟩
  | .prev => p = c - 4 * freeFront l + PAYLOAD ∧
      Holds L s' ⟨l.tail.reverse ++ ⟨freeFront l + m, true⟩ :: r,
        h.lists.drop (c - 4 * freeFront l)⟩
  | .both => p = c - 4 * freeFront l + PAYLOAD ∧
      Holds L s' ⟨l.tail.reverse ++ ⟨freeFront l + m + freeFront r, true⟩ :: r.tail,
        (h.lists.drop (c - 4 * freeFront l)).drop (c + 4 * m)⟩
  | .last => p = c + PAYLOAD ∧ s'.memBrk = s.memBrk + 4 * (wordsFor size - m) ∧
      Holds L s' ⟨l.reverse ++ [⟨wordsFor size, true⟩], h.lists⟩
  | .copy => p ≠ 0 ∧ ∃ s₁, mmMalloc L size s = .ok (p, s₁) ∧
      mmFree L (c + PAYLOAD) { s₁ with
        mem := move s₁.mem p (c + PAYLOAD) (min size (4 * m - 2 * WSIZE)) } = .ok ((), s')

/-- The call `mm_realloc (c + PAYLOAD, size)` does what the first rule says that applies. -/
def Obeys (L : Layout) (s : State) (h : Heap) (c m : Nat) (l r : List Blk) (size : Nat) : Prop :=
  ∃ p s', mmRealloc L (c + PAYLOAD) size s = .ok (p, s') ∧
    Outcome L s h c m l r size p s' (rule l r m (wordsFor size))

/-- Two free neighbours are only used together, the last block needs room for a whole block, and a
new block must be found or fit behind the others. -/
structure Meets (L : Layout) (s : State) (h : Heap) (m : Nat) (l r : List Blk) (size : Nat) :
    Prop where
  apart : frontUsed l = false → frontUsed r = false →
    m + freeFront r < wordsFor size ∧ freeFront l + m < wordsFor size
  last : rule l r m (wordsFor size) = .last → m + MIN_BLOCK_SIZE_WORDS ≤ wordsFor size ∧
    s.memBrk + 4 * (wordsFor size - m) ≤ L.memMaxAddr
  copy : rule l r m (wordsFor size) = .copy → fit (base L) h (wordsFor size) ≠ none ∨
    s.memBrk + 4 * max (wordsFor size) CHUNKSIZE ≤ L.memMaxAddr

section Rules

variable {l r : List Blk} {m j k new : Nat}

theorem rule_next (h : new ≤ m + k) : rule l (⟨k, false⟩ :: r) m new = .next :=
  if_pos ⟨rfl, h⟩

theorem rule_prev (hr : frontUsed r = true ∨ m + freeFront r < new) (h : new ≤ j + m) :
    rule (⟨j, false⟩ :: l) r m new = .prev := by
  rw [rule, if_neg, if_pos ⟨rfl, h⟩]
  rintro ⟨hfree, hle⟩
  rcases hr with hr | hr
  · rw [hr] at hfree
    cases hfree
  · omega

theorem rule_both (hnext : m + k < new) (hprev : j + m < new) (h : new ≤ j + m + k) :
    rule (⟨j, false⟩ :: l) (⟨k, false⟩ :: r) m new = .both := by
  rw [rule, if_neg (fun hn => absurd hn.2 (Nat.not_le.mpr hnext)),
    if_neg (fun hp => absurd hp.2 (Nat.not_le.mpr hprev)), if_pos ⟨rfl, rfl, h⟩]

theorem rule_tail (hfull : m + freeFront l + freeFront r < new) :
    rule l r m new = if r = [] then .last else .copy := by
  rw [rule, if_neg (fun hn => absurd hn.2 (by omega)), if_neg (fun hp => absurd hp.2 (by omega)),
    if_neg (fun hb => absurd hb.2.2 (by omega))]

theorem full_of_tail (hgrow : m < new) (hrule : rule l r m new = .last ∨ rule l r m new = .copy) :
    m + freeFront l + freeFront r < new := by
  by_contra hfits
  have hnot : rule l r m new ≠ .next ∧ rule l r m new ≠ .prev ∧ rule l r m new ≠ .both := by
    rcases hrule with hrule | hrule <;> rw [hrule] <;> decide
  cases hl : frontUsed l with
  | true =>
    rw [freeFront_used hl] at hfits
    cases hr : frontUsed r with
    | true =>
      rw [freeFront_used hr] at hfits
      omega
    | false =>
      obtain ⟨k, r, rfl⟩ := exists_of_frontUsed hr
      exact hnot.1 (rule_next (by simpa only [freeFront, Nat.add_zero, Nat.not_lt] using hfits))
  | false =>
    obtain ⟨j, l, rfl⟩ := exists_of_frontUsed hl
    cases hr : frontUsed r with
    | true =>
      rw [freeFront_used hr] at hfits
      simp only [freeFront] at hfits
      exact hnot.2.1 (rule_prev (Or.inl hr) (by omega))
    | false =>
      obtain ⟨k, r, rfl⟩ := exists_of_frontUsed hr
      simp only [freeFront] at hfits
      by_cases hnext : new ≤ m + k
      · exact hnot.1 (rule_next hnext)
      · by_cases hprev : new ≤ j + m
        · exact hnot.2.1 (rule_prev (Or.inr (Nat.not_le.mp hnext)) hprev)
        · exact hnot.2.2 (rule_both (Nat.not_le.mp hnext) (Nat.not_le.mp hprev) (by omega))

end Rules

section Calls

variable {L : Layout} {s : State} {h : Heap} {bs l r : List Blk} {lists lists' : Lists}
variable {c m n p size i : Nat}

theorem drop_push (hc : c ∉ lists i) : (lists.push c n).drop c i = lists i := by
  unfold Lists.drop Lists.push
  cases findFitIndex n with
  | none => exact List.erase_of_not_mem hc
  | some j =>
    by_cases hij : i = j
    · subst hij
      simp only [Function.update_self]
      split_ifs
      · exact List.erase_cons_head ..
      · rw [List.erase_append_right _ hc, List.erase_cons_head, List.append_nil]
    · simp only [Function.update_of_ne hij]
      exact List.erase_of_not_mem hc

theorem holds_lists (hs : Holds L s ⟨bs, lists'⟩)
    (hsame : ∀ i < FREE_LISTS_SIZE, lists' i = lists i) : Holds L s ⟨bs, lists⟩ := by
  have hr := hs.repr
  refine ⟨⟨hr.prologue, hr.tags, hr.epilogue, fun i hi => ?_, hr.mids, hr.started, hr.room, hr.calls⟩,
    ⟨hs.ok.sizes, hs.ok.noAdjacent, fun i hi d => ?_, fun i hi => ?_⟩, hs.ends⟩
  · have hlisted := hr.listed i hi
    dsimp only at hlisted ⊢
    rwa [hsame i hi] at hlisted
  · have hmem := hs.ok.listed i hi d
    dsimp only at hmem ⊢
    rwa [hsame i hi] at hmem
  · have hnodup := hs.ok.nodup i hi
    dsimp only at hnodup ⊢
    rwa [hsame i hi] at hnodup

theorem last_ok (hs : Holds L s ⟨l.reverse ++ [⟨m, true⟩], lists⟩)
    (hc : c = base L + span Blk.bytes l) (hsize : size ≤ INT_MAX)
    (hgrow : m + MIN_BLOCK_SIZE_WORDS ≤ wordsFor size)
    (hroom : s.memBrk + 4 * (wordsFor size - m) ≤ L.memMaxAddr) :
    ∃ s', reallocAtEnd L c m (wordsFor size) s = .ok (c + PAYLOAD, s') ∧
      s'.memBrk = s.memBrk + 4 * (wordsFor size - m) ∧
      Holds L s' ⟨l.reverse ++ [⟨wordsFor size, true⟩], lists⟩ := by
  obtain ⟨s', hrun, hre⟩ := reallocAtEnd_ok hs hc hsize hgrow hroom
  have hholds : Holds L s' ⟨l.reverse ++ [⟨wordsFor size, true⟩], lists⟩ := by
    refine holds_lists hre.holds fun i hi => drop_push fun hlisted => ?_
    obtain ⟨k, hk, -⟩ := (hs.ok.listed i hi _).mp hlisted
    have hin := (located_within hk).2
    have hpos := hs.ok.pos _ (mem_of_located hk)
    simp only [span_append, span_cons, span_nil, span_reverse, bytes_eq] at hin hpos
    omega
  refine ⟨s', hrun, ?_, hholds⟩
  have hends := hs.ends
  have hends' := hholds.ends
  simp only [span_append, span_cons, span_nil, span_reverse, bytes_eq] at hends hends'
  omega

theorem malloc_result (hs : Holds L s h) (hpos : 0 < size) (hsize : size ≤ INT_MAX) :
    ∃ p s₁ h₁, mmMalloc L size s = .ok (p, s₁) ∧ Malloced L s s₁ h h₁ size p ∧
      (p ≠ 0 ↔ fit (base L) h (wordsFor size) ≠ none ∨
        s.memBrk + 4 * max (wordsFor size) CHUNKSIZE ≤ L.memMaxAddr) := by
  obtain ⟨s₁, hrun, hmalloced⟩ := mmMalloc_ok size hs hsize
  have hne : ∀ q, q + PAYLOAD ≠ 0 := fun q => Nat.succ_ne_zero (q + 3)
  refine ⟨_, s₁, _, hrun, hmalloced, ?_⟩
  rw [allocate, if_neg (by omega), hs.ends]
  cases hfit : fit (base L) h (wordsFor size) with
  | some q =>
    exact iff_of_true (hne q) (Or.inl (Option.some_ne_none q))
  | none =>
    split_ifs with hroom
    · exact iff_of_true (hne _) (Or.inr hroom)
    · refine iff_of_false (fun hp => hp rfl) ?_
      rintro (hsome | hfits)
      · exact hsome rfl
      · exact hroom hfits

end Calls

section Obeying

variable {L : Layout} {s : State} {l r : List Blk} {lists : Lists} {c m size : Nat}

theorem obeys_tail (hs : Holds L s ⟨l.reverse ++ ⟨m, true⟩ :: r, lists⟩)
    (hc : c = base L + span Blk.bytes l) (hpos : 0 < size) (hsize : size ≤ INT_MAX)
    (hgrow : m < wordsFor size) (hfull : m + freeFront l + freeFront r < wordsFor size)
    (hm : Meets L s ⟨l.reverse ++ ⟨m, true⟩ :: r, lists⟩ m l r size) :
    Obeys L s ⟨l.reverse ++ ⟨m, true⟩ :: r, lists⟩ c m l r size := by
  have hrule := rule_tail hfull
  have hstart := mmRealloc_start hs hc hpos hsize
  rw [if_neg (by omega), reallocGrow_tail hs hc hfull] at hstart
  by_cases hr : r = []
  · subst hr
    rw [if_pos rfl] at hrule hstart
    obtain ⟨hmin, hroom⟩ := hm.last hrule
    obtain ⟨s', hrun, hbrk, hholds⟩ := last_ok hs hc hsize hmin hroom
    refine ⟨_, s', hstart.trans hrun, ?_⟩
    rw [hrule]
    exact ⟨rfl, hbrk, hholds⟩
  · rw [if_neg hr] at hrule hstart
    obtain ⟨p, s₁, h₁, hmalloc, hmalloced, hp⟩ := malloc_result hs hpos hsize
    have hused : InUse L ⟨l.reverse ++ ⟨m, true⟩ :: r, lists⟩ c m := by simp [InUse, hc]
    have hne := hp.mpr (hm.copy hrule)
    obtain ⟨hzero, -⟩ | ⟨q, k, rfl, hnew⟩ := hmalloced.result
    · exact absurd hzero hne
    obtain ⟨s', hrun, hfree, -⟩ := copy_ok hmalloced.holds hnew hused hmalloc
    refine ⟨q + PAYLOAD, s', hstart.trans hrun, ?_⟩
    rw [hrule]
    exact ⟨hne, s₁, hmalloc, hfree⟩

theorem obeys_of_meets (hs : Holds L s ⟨l.reverse ++ ⟨m, true⟩ :: r, lists⟩)
    (hc : c = base L + span Blk.bytes l) (hpos : 0 < size) (hsize : size ≤ INT_MAX)
    (hgrow : m < wordsFor size)
    (hm : Meets L s ⟨l.reverse ++ ⟨m, true⟩ :: r, lists⟩ m l r size) :
    Obeys L s ⟨l.reverse ++ ⟨m, true⟩ :: r, lists⟩ c m l r size := by
  by_cases hfull : m + freeFront l + freeFront r < wordsFor size
  · exact obeys_tail hs hc hpos hsize hgrow hfull hm
  have hstart := mmRealloc_start hs hc hpos hsize
  rw [if_neg (by omega)] at hstart
  cases hl : frontUsed l with
  | true =>
    have hnone := freeFront_used hl
    cases hr : frontUsed r with
    | true =>
      have hnone' := freeFront_used hr
      omega
    | false =>
      obtain ⟨k, r, rfl⟩ := exists_of_frontUsed hr
      have hfits : wordsFor size ≤ m + k := by
        rw [hnone] at hfull
        simpa only [freeFront, Nat.add_zero, Nat.not_lt] using hfull
      obtain ⟨s', hrun, hre⟩ := growNext_ok hs hc hl hsize hfits
      refine ⟨_, s', hstart.trans hrun, ?_⟩
      rw [rule_next hfits]
      exact ⟨rfl, hre.holds⟩
  | false =>
    obtain ⟨j, l, rfl⟩ := exists_of_frontUsed hl
    have hfront : (⟨j, false⟩ :: l).reverse ++ ⟨m, true⟩ :: r =
        l.reverse ++ ⟨j, false⟩ :: ⟨m, true⟩ :: r := by simp
    obtain ⟨d, -, -, -, hd, hcd⟩ := prevSize_ok hs hc
    have hback : d = c - 4 * j := by omega
    rw [hfront] at hs
    cases hr : frontUsed r with
    | true =>
      have hnone := freeFront_used hr
      have hfits : wordsFor size ≤ j + m := by
        rw [hnone] at hfull
        simp only [freeFront] at hfull
        omega
      obtain ⟨s', hrun, hre⟩ := growPrev_ok hs hd hcd hr hsize hfits
      subst hback
      refine ⟨_, s', hstart.trans hrun, ?_⟩
      rw [rule_prev (Or.inl hr) hfits]
      exact ⟨rfl, hre.holds⟩
    | false =>
      obtain ⟨k, r, rfl⟩ := exists_of_frontUsed hr
      obtain ⟨hnext, hprev⟩ := hm.apart rfl rfl
      simp only [freeFront] at hfull hnext hprev
      have hfits : wordsFor size ≤ j + (m + k) := by omega
      obtain ⟨s', hrun, hre⟩ := growBoth_ok hs hd hcd hsize hfits
      have hholds := hre.holds
      rw [← Nat.add_assoc] at hholds
      subst hback
      refine ⟨_, s', hstart.trans hrun, ?_⟩
      rw [rule_both hnext hprev (by omega)]
      exact ⟨rfl, hholds⟩

theorem size_unique {l' r r' : List Blk} {lists' : Lists} {m' : Nat}
    (hs : Holds L s ⟨l.reverse ++ ⟨m, true⟩ :: r, lists⟩)
    (hs' : Holds L s ⟨l'.reverse ++ ⟨m', true⟩ :: r', lists'⟩)
    (hspan : span Blk.bytes l = span Blk.bytes l') : m = m' := by
  have hsize := (header_reads hs rfl).1
  have hsize' := (header_reads hs' rfl).1
  rw [hspan, hsize'] at hsize
  exact (Int.ofNat_inj.mp hsize).symm

theorem apart_of_obeys {j k : Nat}
    (hs : Holds L s ⟨(⟨j, false⟩ :: l).reverse ++ ⟨m, true⟩ :: ⟨k, false⟩ :: r, lists⟩)
    (hc : c = base L + span Blk.bytes (⟨j, false⟩ :: l)) (hpos : 0 < size) (hsize : size ≤ INT_MAX)
    (hgrow : m < wordsFor size)
    (ho : Obeys L s ⟨(⟨j, false⟩ :: l).reverse ++ ⟨m, true⟩ :: ⟨k, false⟩ :: r, lists⟩ c m
      (⟨j, false⟩ :: l) (⟨k, false⟩ :: r) size) :
    m + k < wordsFor size ∧ j + m < wordsFor size := by
  have hstart := mmRealloc_start hs hc hpos hsize
  rw [if_neg (by omega)] at hstart
  obtain ⟨d, -, -, -, hd, hcd⟩ := prevSize_ok hs hc
  have hj := (hs.ok.sizes ⟨j, false⟩ (by simp)).1
  have hk := (hs.ok.sizes ⟨k, false⟩ (by simp)).1
  have hfront : (⟨j, false⟩ :: l).reverse ++ ⟨m, true⟩ :: ⟨k, false⟩ :: r =
      l.reverse ++ ⟨j, false⟩ :: ⟨m, true⟩ :: ⟨k, false⟩ :: r := by simp
  rw [hfront] at hs
  unfold MIN_BLOCK_SIZE_WORDS at hj hk
  simp only at hj hk
  by_contra hshort
  obtain ⟨s', hrun, hre⟩ := growBoth_ok hs hd hcd hsize (by omega)
  obtain ⟨p, t, ht, hout⟩ := ho
  obtain ⟨rfl, rfl⟩ := Prod.mk.inj (Except.ok.inj (ht.symm.trans (hstart.trans hrun)))
  by_cases hnext : wordsFor size ≤ m + k
  · rw [rule_next hnext] at hout
    have hsame := hout.1
    omega
  · rw [rule_prev (Or.inr (Nat.not_le.mp hnext)) (by omega)] at hout
    have hsame := size_unique hout.2 hre.holds rfl
    simp only [freeFront] at hsame
    omega

theorem last_of_obeys (hs : Holds L s ⟨l.reverse ++ [⟨m, true⟩], lists⟩)
    (hc : c = base L + span Blk.bytes l) (hpos : 0 < size) (hsize : size ≤ INT_MAX)
    (hgrow : m < wordsFor size) (hfull : m + freeFront l < wordsFor size)
    (ho : Obeys L s ⟨l.reverse ++ [⟨m, true⟩], lists⟩ c m l [] size) :
    m + MIN_BLOCK_SIZE_WORDS ≤ wordsFor size ∧
      s.memBrk + 4 * (wordsFor size - m) ≤ L.memMaxAddr := by
  have hstart := mmRealloc_start hs hc hpos hsize
  have hfour := (wordsFor_ok hsize).2.1
  have hmfour := (hs.ok.sizes ⟨m, true⟩ (by simp)).2
  simp only at hmfour
  rw [if_neg (by omega), reallocGrow_tail hs hc hfull, if_pos rfl] at hstart
  obtain ⟨p, t, ht, hout⟩ := ho
  rw [rule_tail hfull, if_pos rfl] at hout
  have hroom : s.memBrk + 4 * (wordsFor size - m) ≤ L.memMaxAddr := by
    by_contra hroom
    rw [hstart, reallocAtEnd_full hs hsize hgrow (by omega)] at ht
    cases ht
    exact absurd hout.1.symm (Nat.succ_ne_zero (c + 3))
  refine ⟨?_, hroom⟩
  by_contra hshort
  unfold MIN_BLOCK_SIZE_WORDS at hshort
  have hfront : frontUsed l = true := by
    by_contra hfree
    obtain ⟨j, l', rfl⟩ := exists_of_frontUsed (Bool.not_eq_true _ ▸ hfree)
    have hj := (hs.ok.sizes ⟨j, false⟩ (by simp)).1
    unfold MIN_BLOCK_SIZE_WORDS at hj
    simp only [freeFront] at hfull hj
    omega
  have hbad := (unitGrowth_iff size hs hc).mpr ⟨by omega, rfl, hfront, by omega⟩
  have hused : InUse L ⟨l.reverse ++ [⟨m, true⟩], lists⟩ c m := by simp [InUse, hc]
  obtain ⟨call, hcall, hnot⟩ := mmRealloc_unit hs hused hpos hsize hbad ht
  exact hnot (hout.2.2.repr.calls call hcall)

theorem meets_of_obeys (hs : Holds L s ⟨l.reverse ++ ⟨m, true⟩ :: r, lists⟩)
    (hc : c = base L + span Blk.bytes l) (hpos : 0 < size) (hsize : size ≤ INT_MAX)
    (hgrow : m < wordsFor size) (ho : Obeys L s ⟨l.reverse ++ ⟨m, true⟩ :: r, lists⟩ c m l r size) :
    Meets L s ⟨l.reverse ++ ⟨m, true⟩ :: r, lists⟩ m l r size := by
  refine ⟨fun hl hr => ?_, fun hrule => ?_, fun hrule => ?_⟩
  · obtain ⟨j, l, rfl⟩ := exists_of_frontUsed hl
    obtain ⟨k, r, rfl⟩ := exists_of_frontUsed hr
    exact apart_of_obeys hs hc hpos hsize hgrow ho
  · have hfull := full_of_tail hgrow (Or.inl hrule)
    rw [rule_tail hfull] at hrule
    split_ifs at hrule with hr
    subst hr
    exact last_of_obeys hs hc hpos hsize hgrow hfull ho
  · have hfull := full_of_tail hgrow (Or.inr hrule)
    obtain ⟨p, t, -, hout⟩ := ho
    rw [hrule] at hout
    obtain ⟨hne, s₁, hmalloc, -⟩ := hout
    obtain ⟨q, s₂, -, hmalloc', -, hq⟩ := malloc_result hs hpos hsize
    obtain ⟨rfl, -⟩ := Prod.mk.inj (Except.ok.inj (hmalloc.symm.trans hmalloc'))
    exact hq.mp hne

theorem obeys_iff {h : Heap} (hs : Holds L s h) (hspot : Spot L h c m l r) (hpos : 0 < size)
    (hsize : size ≤ INT_MAX) (hgrow : m < wordsFor size) :
    Obeys L s h c m l r size ↔ Meets L s h m l r size := by
  obtain ⟨bs, lists⟩ := h
  obtain ⟨rfl, hc⟩ := hspot
  exact ⟨meets_of_obeys hs hc hpos hsize hgrow, obeys_of_meets hs hc hpos hsize hgrow⟩

/-- In every state of every run that avoids the defect of `mm_realloc`, the calls that grow a block and
obey the comment are exactly those that meet the condition. -/
theorem priority_iff {r : Except Fault Session} (hr : ReachableBy (system L) (Avoids L) r) :
    ∃ c h, r = .ok c ∧ Holds L c.state h ∧ ∀ p ∈ c.live.map Prod.fst, ∃ d m l r,
      p = d + PAYLOAD ∧ Spot L h d m l r ∧
        ∀ size, 0 < size → size ≤ INT_MAX → m < wordsFor size →
          (Obeys L c.state h d m l r size ↔ Meets L c.state h m l r size) := by
  obtain ⟨c, h, rfl, hs, ho⟩ := sound_of_avoids hr
  refine ⟨c, h, rfl, hs, fun p hp => ?_⟩
  obtain ⟨d, m, rfl, hd⟩ := ho.block hp
  obtain ⟨l, r, hblocks, hstart⟩ := located_split hd
  have hspot : Spot L h d m l.reverse r :=
    ⟨by rw [List.reverse_reverse, hblocks], by rw [span_reverse, hstart]⟩
  exact ⟨d, m, _, r, rfl, hspot, fun size hpos hsize hgrow => obeys_iff hs hspot hpos hsize hgrow⟩

theorem priority_iff_sample : ∃ (c : Session) (h : Heap) (l r : List Blk),
    c.live = [(4112, 120)] ∧ Spot (sample true) h 4108 32 l r ∧
      (Obeys (sample true) c.state h 4108 32 l r 200 ↔ Meets (sample true) c.state h 32 l r 200) := by
  obtain ⟨c, lists, hr, hlive, hs⟩ := sample_malloc true
  obtain ⟨c', h, heq, hs', hall⟩ := priority_iff (avoids_of_no_realloc hr)
  cases heq
  obtain ⟨d, m, l, r, hd, hspot, hiff⟩ := hall 4112 (by simp [hlive])
  have hd : 4108 + PAYLOAD = d + PAYLOAD := hd
  obtain rfl : d = 4108 := (Nat.add_right_cancel hd).symm
  have hzero : span Blk.bytes l = span Blk.bytes [] := by
    have hstart : 4108 = 4108 + span Blk.bytes l := hspot.start
    rw [span_nil]
    omega
  obtain ⟨bs, lists'⟩ := h
  obtain rfl : bs = _ := hspot.blocks
  have hfirst : Holds _ c.state ⟨([] : List Blk).reverse ++ ⟨32, true⟩ :: [], lists⟩ := hs
  obtain rfl : m = 32 := size_unique hs' hfirst hzero
  exact ⟨c, _, l, r, hlive, hspot, hiff 200 (by decide) (by decide) (by decide)⟩

/-- Four blocks of 32 words of which the first and the third are freed. -/
def twoGaps : List Request :=
  [.malloc 120, .malloc 120, .malloc 120, .malloc 120, .free 0, .free 2]

/-- The second block grows to 64 words, which the next block has to offer, but it is moved. -/
theorem both_taken : ∃ c h l r, Reachable (system (sample true)) (.ok c) ∧
    Holds (sample true) c.state h ∧ 4240 ∈ c.live.map Prod.fst ∧ Spot (sample true) h 4236 32 l r ∧
      ¬ Obeys (sample true) c.state h 4236 32 l r 240 := by
  have hplanned : (plan MAX_HEAP twoGaps).map (fun P => P.heap.blocks) =
      some [⟨32, false⟩, ⟨32, true⟩, ⟨32, false⟩, ⟨32, true⟩] := by decide
  obtain ⟨P, hplan, hblocks⟩ := Option.map_eq_some_iff.mp hplanned
  obtain ⟨c, record, hreplay, hf⟩ := exists_replay (L := sample true) (by decide) hplan
  have hspot : Spot (sample true) (shift 4096 P.heap) 4236 32 [⟨32, false⟩]
      [⟨32, false⟩, ⟨32, true⟩] := ⟨hblocks, rfl⟩
  have hused : InUse (sample true) (shift 4096 P.heap) 4236 32 := by
    have hmem : (4236, (⟨32, true⟩ : Blk)) ∈ located Blk.bytes 4108
        [⟨32, false⟩, ⟨32, true⟩, ⟨32, false⟩, ⟨32, true⟩] := by decide
    rw [← hblocks] at hmem
    exact hmem
  obtain ⟨n, hn⟩ := (hf.owns.owned 4236).mp ⟨32, hused⟩
  refine ⟨c, _, _, _, (reachable_of_replay hreplay rfl).mono fun _ _ _ => trivial, hf.holds,
    List.mem_map.mpr ⟨_, hn, rfl⟩, hspot, fun hobeys => ?_⟩
  have hmeets := (obeys_iff hf.holds hspot (by decide) (by decide) (by decide)).mp hobeys
  exact absurd (hmeets.apart rfl rfl).1 (by decide)

end Obeying

end ComputerSystems.Malloc.Priority
