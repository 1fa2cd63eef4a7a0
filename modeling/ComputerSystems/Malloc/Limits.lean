/- Requests of every 64-bit size: where `int` parameters lose digits, and what happens otherwise. -/

import ComputerSystems.Malloc.Contents

set_option autoImplicit false
set_option relaxedAutoImplicit false

namespace ComputerSystems.Malloc.Limits

open ComputerSystems.Memory.Bytes
open ComputerSystems.Memory.Tiling
open ComputerSystems.Systems.Runs
open ComputerSystems.Systems.Computations (bind_ok bind_inv pure_ok get_ok)
open ComputerSystems.Malloc.Machine
open ComputerSystems.Malloc.Mm
open ComputerSystems.Malloc.Blocks
open ComputerSystems.Malloc.Operations
open ComputerSystems.Malloc.Representation
open ComputerSystems.Malloc.Coalesce
open ComputerSystems.Malloc.FindFit
open ComputerSystems.Malloc.Place
open ComputerSystems.Malloc.Allocator
open ComputerSystems.Malloc.Realloc
open ComputerSystems.Malloc.Client
open ComputerSystems.Malloc.Safety
open ComputerSystems.Malloc.Contents

/-- The words that `mm_malloc` and `mm_realloc` compute from a request. -/
def requestWords (size : Nat) : Nat :=
  max MIN_BLOCK_SIZE_WORDS (align (add64 size (2 * WSIZE)) / WSIZE)

def RoundsUp (size : Nat) : Prop := size ≤ align (add64 size (2 * WSIZE))

/-- Asked for `words` words, `mem_sbrk` gets the low 32 bits of the number of bytes, and they pass
its test although digits are lost. -/
def Truncates (L : Layout) (s : State) (words : Nat) : Prop :=
  2 ^ 30 ≤ words ∧ 4 * words % 2 ^ 32 < 2 ^ 31 ∧ s.memBrk + 4 * words % 2 ^ 32 ≤ L.memMaxAddr

def MallocTruncates (L : Layout) (s : State) (size : Nat) : Prop :=
  RoundsUp size ∧ Truncates L s (requestWords size)

/-- The size of the block of `p` in words, and whether the epilogue follows it. -/
def blockWords (s : State) (p : Nat) : Nat := (tagSize (load s.mem (p - PAYLOAD) WSIZE)).toNat

def IsLast (s : State) (p : Nat) : Prop :=
  tagSize (load s.mem (p - PAYLOAD + 4 * blockWords s p) WSIZE) = 0

/-- The last block is extended by what is missing, any other one is allocated anew. -/
def ReallocTruncates (L : Layout) (s : State) (p size : Nat) : Prop :=
  RoundsUp size ∧ (IsLast s p → Truncates L s (requestWords size - blockWords s p)) ∧
    (¬ IsLast s p → Truncates L s (requestWords size))

section Large

variable {L : Layout} {s : State} {h : Heap} {size words : Nat}

theorem requestWords_large (hsize : INT_MAX < size) (hlt : size < 2 ^ 64) (hround : RoundsUp size) :
    2 ^ 29 ≤ requestWords size ∧ requestWords size < 2 ^ 62 := by
  unfold RoundsUp at hround
  unfold requestWords
  unfold align add64 ALIGNMENT WSIZE MIN_BLOCK_SIZE_WORDS INT_MAX at *
  omega

theorem blocks_lt (hs : Holds L s h) : span Blk.bytes h.blocks < 2 ^ 30 := by
  have hends := hs.ends
  have hroom := hs.repr.room
  have hheap := L.heapSize_le
  unfold base Layout.memMaxAddr MAX_HEAP WSIZE at *
  omega

theorem freeFront_le (l : List Blk) : 4 * freeFront l ≤ span Blk.bytes l := by
  match l with
  | [] => exact Nat.zero_le _
  | ⟨k, true⟩ :: l => exact Nat.zero_le _
  | ⟨k, false⟩ :: l =>
    rw [span_cons, bytes_eq]
    exact Nat.le_add_right _ _

/-- `extend_heap` refuses what the heap cannot hold, unless the conversion to `int` deceives it. -/
theorem extendHeap_refuses (hs : Holds L s h) (hmin : 2 ^ 28 ≤ words) (hlt : words < 2 ^ 62)
    (hgood : ¬ Truncates L s words) : extendHeap L words s = .ok (0, s) := by
  have hends := hs.ends
  have hheap := L.heapSize_le
  have hmax : L.memMaxAddr = L.memStartBrk + L.heapSize := rfl
  have hstart : L.memStartBrk + 12 ≤ s.memBrk := by
    unfold base WSIZE at hends
    omega
  unfold MAX_HEAP at hheap
  by_cases hsmall : words < 2 ^ 30
  · exact extendHeap_full hs hsmall (by omega)
  have hmul : mul64 words WSIZE = 4 * words := by
    rw [mul64_eq (by unfold WSIZE; omega), Nat.mul_comm]
    rfl
  have hrefused : toInt (4 * words) < 0 ∨ (L.memMaxAddr : Int) < s.memBrk + toInt (4 * words) := by
    unfold Truncates at hgood
    unfold toInt
    omega
  have hsbrk : memSbrk L (toInt (mul64 words WSIZE)) s = .ok (0, s) := by
    rw [memSbrk, bind_ok get_ok, hmul, if_pos hrefused, pure_ok]
  rw [extendHeap, bind_ok hsbrk, if_pos rfl, pure_ok]

theorem fit_large (hs : Holds L s h) (hwords : 2 ^ 28 ≤ words) : fit (base L) h words = none := by
  obtain ⟨bs, lists⟩ := h
  cases hfit : fit (base L) ⟨bs, lists⟩ words with
  | none => rfl
  | some c =>
    obtain ⟨n, hc, hn⟩ := fit_some hs.ok hfit
    have hlt := (hs.within.block hc).2.2.2.1
    simp only at hlt
    omega

theorem mmMalloc_large (hs : Holds L s h) (hsize : INT_MAX < size) (hlt : size < 2 ^ 64)
    (hgood : ¬ MallocTruncates L s size) : mmMalloc L size s = .ok (0, s) := by
  have hzero : size ≠ 0 := by
    unfold INT_MAX at hsize
    omega
  rw [mmMalloc, if_neg hzero]
  dsimp only
  by_cases hround : RoundsUp size
  · obtain ⟨hmin, hmax⟩ := requestWords_large hsize hlt hround
    have hfind : findFit L (requestWords size) s = _ := findFit_ok hs.repr hs.ok hs.within (by
      unfold MIN_BLOCK_SIZE_WORDS
      omega)
    have hext : max (requestWords size) CHUNKSIZE = requestWords size := by
      unfold CHUNKSIZE
      omega
    rw [if_neg (not_lt.mpr hround)]
    change (findFit L (requestWords size) >>= _) s = _
    rw [bind_ok hfind, fit_large hs (by omega), Option.getD_none, if_neg (by simp)]
    change (extendHeap L (max (requestWords size) CHUNKSIZE) >>= _) s = _
    rw [hext, bind_ok (extendHeap_refuses hs (by omega) hmax fun htr => hgood ⟨hround, htr⟩),
      if_pos rfl, pure_ok]
  · rw [if_pos (not_le.mp hround), pure_ok]

theorem mmRealloc_large {c m : Nat} (hs : Holds L s h) (hc : InUse L h c m)
    (hsize : INT_MAX < size) (hlt : size < 2 ^ 64)
    (hgood : ¬ ReallocTruncates L s (c + PAYLOAD) size) :
    mmRealloc L (c + PAYLOAD) size s = .ok (0, s) := by
  obtain ⟨bs, lists⟩ := h
  obtain ⟨l, r, rfl, hl⟩ := located_split hc
  obtain ⟨l, rfl⟩ : ∃ l', l = l'.reverse := ⟨l.reverse, by simp⟩
  rw [span_reverse] at hl
  obtain ⟨hblk, hprev, hused, hnext, hfree⟩ := used_reads hs hl
  obtain ⟨htag, hlast⟩ := header_reads hs hl
  have hP : c + PAYLOAD - PAYLOAD = c := Nat.add_sub_cancel ..
  have hwords : blockWords s (c + PAYLOAD) = m := by
    rw [blockWords, hP, htag, Int.toNat_natCast]
  have hislast : IsLast s (c + PAYLOAD) ↔ r = [] := by
    rw [IsLast, hP, hwords, hlast]
  have hzero : size ≠ 0 := by
    unfold INT_MAX at hsize
    omega
  rw [mmRealloc, if_neg hzero, if_neg (by unfold PAYLOAD; omega)]
  dsimp only
  rw [Nat.add_sub_cancel, bind_ok hblk]
  by_cases hround : RoundsUp size
  · obtain ⟨hmin, hmax⟩ := requestWords_large hsize hlt hround
    have htotal := blocks_lt hs
    simp only [span_append, span_cons, span_reverse, bytes_eq] at htotal
    have hfront := freeFront_le l
    have hbehind := freeFront_le r
    rw [if_neg (not_lt.mpr hround), bind_ok hprev, hused, bind_ok hnext, bind_ok hfree,
      Bool.not_not]
    change (if requestWords size ≤ m then _ else reallocGrow L (c + PAYLOAD) size m
      (requestWords size) (frontUsed l) (frontUsed r)) s = _
    rw [if_neg (by omega), reallocGrow_tail hs hl (by omega)]
    split
    · rename_i hr
      have hsub : sub64 (requestWords size) m = requestWords size - m :=
        sub64_eq (by omega) (by omega)
      rw [reallocAtEnd, hsub, bind_ok (extendHeap_refuses hs (by omega) (by omega) ?_), if_pos rfl,
        pure_ok]
      refine fun htr => hgood ⟨hround, fun _ => by rwa [hwords], fun hnot => ?_⟩
      exact absurd (hislast.mpr hr) hnot
    · rename_i hr
      have hnot : ¬ MallocTruncates L s size := fun htr =>
        hgood ⟨hround, fun hl => absurd (hislast.mp hl) hr, fun _ => htr.2⟩
      rw [reallocByCopy, bind_ok (mmMalloc_large hs hsize hlt hnot), if_pos rfl, pure_ok]
  · rw [if_pos (not_le.mp hround), pure_ok]

/-- Outside the deceptive sizes `mm_malloc` allocates or leaves everything as it was. -/
theorem mmMalloc_any (hs : Holds L s h) (hlt : size < 2 ^ 64) (hgood : ¬ MallocTruncates L s size) :
    ∃ q s' h', mmMalloc L size s = .ok (q, s') ∧ Malloced L s s' h h' size q := by
  by_cases hsize : size ≤ INT_MAX
  · obtain ⟨s', hrun, hm⟩ := mmMalloc_ok size hs hsize
    exact ⟨_, s', _, hrun, hm⟩
  · exact ⟨0, s, h, mmMalloc_large hs (by omega) hlt hgood,
      ⟨hs, fun d m _ y _ _ => rfl, Or.inl ⟨rfl, rfl, rfl⟩⟩⟩

theorem mmRealloc_any {c m : Nat} (hs : Holds L s h) (hc : InUse L h c m) (hpos : 0 < size)
    (hlt : size < 2 ^ 64) (hunit : ¬ UnitGrowth L s (c + PAYLOAD) size)
    (hgood : ¬ ReallocTruncates L s (c + PAYLOAD) size) :
    ∃ p s', mmRealloc L (c + PAYLOAD) size s = .ok (p, s') ∧
      ((p = 0 ∧ s' = s) ∨ ∃ q h', p = q + PAYLOAD ∧ Reallocated L s s' h h' c m size q) := by
  by_cases hsize : size ≤ INT_MAX
  · exact mmRealloc_ok hs hc hpos hsize hunit
  · exact ⟨0, s, mmRealloc_large hs hc (by omega) hlt hgood, Or.inl ⟨rfl, rfl⟩⟩

end Large

/-- Calls with sizes of the whole type `size_t`; `mm_realloc (p, 0)` ends the life of `p`. -/
def nextAny (L : Layout) (c : Session) : Op → Option (Except Fault Session)
  | .malloc size =>
    if size < 2 ^ 64 then
      some do
        let (p, s) ← mmMalloc L size c.state
        return ⟨s, if p = 0 then c.live else (p, size) :: c.live⟩
    else none
  | .realloc ptr size =>
    if ptr ∈ c.live.map Prod.fst ∧ size < 2 ^ 64 then
      some do
        let (p, s) ← mmRealloc L ptr size c.state
        return ⟨s, if p = 0 ∧ size ≠ 0 then c.live
          else (if p = 0 then [] else [(p, size)]) ++ c.live.filter fun a => a.1 ≠ ptr⟩
    else none
  | op => next L c op

def anySystem (L : Layout) : System (Except Fault Session) Op where
  init := (system L).init
  next
    | .ok c, op => nextAny L c op
    | .error _, _ => none

/-- The steps that run into neither defect. -/
def Exact (L : Layout) : Except Fault Session → Op → Prop
  | .ok c, .malloc size => ¬ MallocTruncates L c.state size
  | .ok c, .realloc p size => ¬ UnitGrowth L c.state p size ∧ ¬ ReallocTruncates L c.state p size
  | _, _ => True

section Runs

variable {L : Layout} {c : Session} {h : Heap} {r r' : Except Fault Session}

theorem mmRealloc_zero (p : Nat) (s : State) :
    mmRealloc L p 0 s = (do mmFree L p; return 0 : Prog Nat) s := by
  rw [mmRealloc, if_pos rfl]

theorem exact_step {op : Op} (hr : Sound L r) (hgood : Exact L r op)
    (hnext : (anySystem L).next r op = some r') : Sound L r' := by
  obtain ⟨c, h, rfl, hs, ho⟩ := hr
  have hnext : nextAny L c op = some r' := hnext
  cases op with
  | malloc size =>
    rw [nextAny] at hnext
    split at hnext
    · rename_i hlt
      obtain ⟨q, s', h', hrun, hm⟩ := mmMalloc_any hs hlt hgood
      rw [hrun] at hnext
      cases hnext
      exact ⟨_, h', rfl, hm.holds, owns_malloced ho hm⟩
    · cases hnext
  | free p =>
    have hnext : (system L).next (.ok c) (.free p) = some r' := hnext
    exact sound_step ⟨c, h, rfl, hs, ho⟩ (by simp) hnext
  | write a v =>
    have hnext : (system L).next (.ok c) (.write a v) = some r' := hnext
    exact sound_step ⟨c, h, rfl, hs, ho⟩ (by simp) hnext
  | realloc p size =>
    rw [nextAny] at hnext
    split at hnext
    · rename_i hargs
      obtain ⟨d, m, rfl, hd⟩ := ho.block hargs.1
      by_cases hzero : size = 0
      · subst hzero
        obtain ⟨s', hrun, hleads, hused⟩ := mmFree_ok hs hd
        have hzero : mmRealloc L (d + PAYLOAD) 0 c.state = .ok (0, s') := by
          rw [mmRealloc_zero, bind_ok hrun, pure_ok]
        rw [hzero] at hnext
        cases hnext
        exact ⟨_, _, rfl, hleads.holds, ho.erase hused⟩
      · obtain ⟨p, s', hrun, hresult⟩ :=
          mmRealloc_any hs hd (by omega) hargs.2 hgood.1 hgood.2
        rw [hrun] at hnext
        cases hnext
        rcases hresult with ⟨rfl, rfl⟩ | ⟨q, h', rfl, hre⟩
        · exact ⟨_, h, rfl, hs, by simpa [hzero] using ho⟩
        · exact ⟨_, h', rfl, hre.holds, by simpa [PAYLOAD] using owns_reallocated ho hre⟩
    · cases hnext

theorem sound_of_exact (hr : ReachableBy (anySystem L) (Exact L) r) : Sound L r :=
  hr.invariant (fun _ => sound_start) fun _ _ _ hs hok hnext => exact_step hs hok hnext

/-- The call returned NULL and changed nothing, or a block of the heap with room for `n` bytes; the
tags of all blocks are those of a tiling of the heap. -/
def Handled (L : Layout) (c : Session) (result : Except Fault (Nat × State)) (n : Nat) : Prop :=
  ∃ q s', result = .ok (q, s') ∧
    ((q = 0 ∧ s' = c.state) ∨ ∃ live bs lists d k, HeapInvariant L ⟨s', live⟩ bs lists ∧
      q = d + PAYLOAD ∧ (d, ⟨k, true⟩) ∈ located Blk.bytes (base L) bs ∧ n ≤ payloadBytes k ∧
      L.memStartBrk ≤ d ∧ d + WSIZE * k ≤ s'.memBrk)

theorem handled_of_block {s' : State} {live : List (Nat × Nat)} {h' : Heap} {d k n : Nat}
    (hs : Holds L s' h') (ho : Owns (InUse L h') live) (hd : InUse L h' d k)
    (hlarge : n + 2 * WSIZE ≤ 4 * k) :
    Handled L c (.ok (d + PAYLOAD, s')) n := by
  have hblock := hs.within.block hd
  have hbytes : Blk.bytes ⟨k, true⟩ = WSIZE * k := rfl
  have hbase : base L = L.memStartBrk + 3 * WSIZE := rfl
  have hpayload : payloadBytes k = 4 * k - 2 * WSIZE := rfl
  exact ⟨_, s', rfl, Or.inr ⟨live, h'.blocks, h'.lists, d, k, heapInvariant_of_holds hs ho, rfl, hd,
    by omega, by omega, by omega⟩⟩

/-- Along every run that avoids the two defects, and for every size outside them. -/
theorem sizes_handled (hr : ReachableBy (anySystem L) (Exact L) r) :
    ∃ c, r = .ok c ∧
      (∀ n < 2 ^ 64, ¬ MallocTruncates L c.state n → Handled L c (mmMalloc L n c.state) n) ∧
      (∀ p n, p ∈ c.live.map Prod.fst → 0 < n → n < 2 ^ 64 → ¬ UnitGrowth L c.state p n →
        ¬ ReallocTruncates L c.state p n → Handled L c (mmRealloc L p n c.state) n) ∧
      ∀ p, p ∈ c.live.map Prod.fst → ∃ s', mmRealloc L p 0 c.state = .ok (0, s') ∧
        mmFree L p c.state = .ok ((), s') ∧ ∃ bs lists,
          HeapInvariant L ⟨s', c.live.filter fun a => a.1 ≠ p⟩ bs lists := by
  obtain ⟨c, h, rfl, hs, ho⟩ := sound_of_exact hr
  refine ⟨c, rfl, ?_, ?_, ?_⟩
  · intro n hn hgood
    obtain ⟨q, s', h', hrun, hm⟩ := mmMalloc_any hs hn hgood
    rw [hrun]
    rcases hm.result with ⟨rfl, rfl, -⟩ | ⟨d, m, rfl, hnew⟩
    · exact ⟨0, _, rfl, Or.inl ⟨rfl, rfl⟩⟩
    · exact handled_of_block hm.holds (owns_malloced ho hm)
        ((hnew.used d m).mpr (Or.inr ⟨rfl, rfl⟩)) hnew.large
  · intro p n hp hpos hn hunit hgood
    obtain ⟨d, m, rfl, hd⟩ := ho.block hp
    obtain ⟨q, s', hrun, hresult⟩ := mmRealloc_any hs hd hpos hn hunit hgood
    rw [hrun]
    rcases hresult with ⟨rfl, rfl⟩ | ⟨e, h', rfl, hre⟩
    · exact ⟨0, _, rfl, Or.inl ⟨rfl, rfl⟩⟩
    · obtain ⟨k, hlarge, hused⟩ := hre.used
      exact handled_of_block hre.holds (owns_reallocated ho hre)
        ((hused e k).mpr (Or.inr ⟨rfl, rfl⟩)) hlarge
  · intro p hp
    obtain ⟨d, m, rfl, hd⟩ := ho.block hp
    obtain ⟨s', hrun, hleads, hused⟩ := mmFree_ok hs hd
    refine ⟨s', ?_, hrun, _, _, heapInvariant_of_holds hleads.holds (ho.erase hused)⟩
    rw [mmRealloc_zero, bind_ok hrun, pure_ok]

theorem exact_of_avoids (hr : ReachableBy (system L) (Avoids L) r) :
    ReachableBy (anySystem L) (Exact L) r := by
  have hsmall : ∀ (s : State) size, size ≤ INT_MAX → ¬ 2 ^ 30 ≤ requestWords size := by
    intro s size hsize
    have hwords := (wordsFor_ok hsize).2.2.2
    rw [requestWords, (rounding_ok hsize).2]
    omega
  induction hr with
  | start hs => exact .start hs
  | @step r r' op hr hok hnext ih =>
    cases r with
    | error e => cases hnext
    | ok c =>
      cases op with
      | malloc size =>
        have hnext : next L c (.malloc size) = some r' := hnext
        have hsize : size ≤ INT_MAX := by
          by_contra hlarge
          rw [next, if_neg hlarge] at hnext
          cases hnext
        refine .step ih (i := .malloc size) ?_ ?_
        · exact fun htr => hsmall c.state size hsize htr.2.1
        · change nextAny L c (.malloc size) = some r'
          rw [nextAny, if_pos (by unfold INT_MAX at hsize; omega), ← hnext, next, if_pos hsize]
      | free p => exact .step ih (i := .free p) trivial hnext
      | write a v => exact .step ih (i := .write a v) trivial hnext
      | realloc p size =>
        have hnext : next L c (.realloc p size) = some r' := hnext
        have hargs : p ∈ c.live.map Prod.fst ∧ 0 < size ∧ size ≤ INT_MAX := by
          by_contra hdead
          rw [next, if_neg hdead] at hnext
          cases hnext
        refine .step ih (i := .realloc p size) ⟨hok, ?_⟩ ?_
        · rintro ⟨-, hlast, hother⟩
          have hwords := hsmall c.state size hargs.2.2
          by_cases hl : IsLast c.state p
          · have := (hlast hl).1
            omega
          · exact hwords (hother hl).1
        · have hpos : size ≠ 0 := by omega
          change nextAny L c (.realloc p size) = some r'
          rw [nextAny, if_pos ⟨hargs.1, by have := hargs.2.2; unfold INT_MAX at this; omega⟩,
            ← hnext, next, if_pos hargs]
          congr 1
          cases mmRealloc L p size c.state with
          | error e => rfl
          | ok result =>
            by_cases hq : result.1 = 0
            · simp [bind, Except.bind, pure, Except.pure, hq, hpos]
            · simp [bind, Except.bind, pure, Except.pure, hq]

end Runs

/-- A request of `2 ^ 32 + 2 ^ 31` bytes, for instance, is handled. -/
theorem sizes_handled_sample :
    ∃ c, c.live = [(4112, 120)] ∧ Handled (sample true) c
      (mmMalloc (sample true) (2 ^ 32 + 2 ^ 31) c.state) (2 ^ 32 + 2 ^ 31) := by
  obtain ⟨c, -, hr, hlive, -⟩ := sample_malloc true
  obtain ⟨c', heq, hmallocs, -⟩ := sizes_handled (exact_of_avoids (avoids_of_no_realloc hr))
  cases heq
  refine ⟨c, hlive, hmallocs _ (by decide) ?_⟩
  rintro ⟨-, -, hlow, -⟩
  revert hlow
  decide

/-- The state before `mm_init`, with a heap of zeros. -/
def blank : State where
  mem _ := 0
  memBrk := 4096
  heapListp := 0
  mid _ := 0
  calls := []

/-- By design `mm_realloc (p, 0)` returns NULL and frees `p`; and `mm_malloc` hands out a block without
any bytes for `2 ^ 32 - 8` of them. -/
theorem sizes_not_handled :
    (∃ c, Reachable (anySystem (sample true)) (.ok c) ∧ c.live = [(4112, 120)] ∧
      ¬ Handled (sample true) c (mmRealloc (sample true) 4112 0 c.state) 0) ∧
    ∃ c, Reachable (anySystem (sample true)) (.ok c) ∧ c.live = [] ∧
      ¬ Handled (sample true) c (mmMalloc (sample true) (2 ^ 32 - 8) c.state) (2 ^ 32 - 8) := by
  constructor
  · have hrun : ((do
        let i ← mmInit (sample true)
        let p ← mmMalloc (sample true) 120
        let s ← get
        let q ← mmRealloc (sample true) 4112 0
        let s' ← get
        return (i, p, s.mem 4108, q, s'.mem 4108) : Prog _) blank).map Prod.fst =
        .ok (0, 4112, 65, 0, 64) := by decide +kernel
    obtain ⟨u, hrun⟩ := exists_of_result hrun
    obtain ⟨i, s₀, hinit, hrun⟩ := bind_inv hrun
    obtain ⟨p, s, hmalloc, hrun⟩ := bind_inv hrun
    rw [bind_ok get_ok] at hrun
    obtain ⟨q, s', hzero, hrun⟩ := bind_inv hrun
    rw [bind_ok get_ok, pure_ok] at hrun
    simp only [Except.ok.injEq, Prod.mk.injEq] at hrun
    obtain ⟨⟨rfl, rfl, hbefore, rfl, hafter⟩, -⟩ := hrun
    refine ⟨⟨s, [(4112, 120)]⟩, ?_, rfl, ?_⟩
    · refine .step (i := .malloc 120) (.start ⟨blank, s₀, rfl, rfl, hinit, rfl⟩) trivial ?_
      change nextAny (sample true) ⟨s₀, []⟩ (.malloc 120) = _
      rw [nextAny, if_pos (by decide), hmalloc]
      rfl
    · rintro ⟨q, t, heq, hresult⟩
      rw [hzero] at heq
      cases heq
      rcases hresult with ⟨-, hsame⟩ | ⟨live, bs, lists, d, k, -, hd, -⟩
      · rw [hsame] at hafter
        exact absurd (hbefore.symm.trans hafter) (by decide)
      · unfold PAYLOAD at hd
        omega
  · have hrun : ((do
        let i ← mmInit (sample true)
        let q ← mmMalloc (sample true) (2 ^ 32 - 8)
        let s ← get
        return (i, q, s.memBrk) : Prog _) blank).map Prod.fst = .ok (0, 4112, 4112) := by
      decide +kernel
    obtain ⟨u, hrun⟩ := exists_of_result hrun
    obtain ⟨i, s₀, hinit, hrun⟩ := bind_inv hrun
    obtain ⟨q, s, hmalloc, hrun⟩ := bind_inv hrun
    rw [bind_ok get_ok, pure_ok] at hrun
    simp only [Except.ok.injEq, Prod.mk.injEq] at hrun
    obtain ⟨⟨rfl, rfl, hbrk⟩, -⟩ := hrun
    refine ⟨⟨s₀, []⟩, .start ⟨blank, s₀, rfl, rfl, hinit, rfl⟩, rfl, ?_⟩
    rintro ⟨q, t, heq, hresult⟩
    rw [hmalloc] at heq
    cases heq
    rcases hresult with ⟨hd, -⟩ | ⟨live, bs, lists, d, k, -, hd, -, hn, -, hend⟩
    · cases hd
    · unfold payloadBytes at hn
      unfold PAYLOAD at hd
      unfold WSIZE at hn hend
      omega

end ComputerSystems.Malloc.Limits
