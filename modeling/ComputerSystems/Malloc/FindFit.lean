/- `find_fit`: a first fit among the first five blocks of a list, class by class. -/

import ComputerSystems.Malloc.Operations
import ComputerSystems.Malloc.Representation

set_option autoImplicit false
set_option relaxedAutoImplicit false

namespace ComputerSystems.Malloc.FindFit

open ComputerSystems.Memory.Tiling
open ComputerSystems.Lists.DoublyLinked
open ComputerSystems.Systems.Computations (bind_ok pure_ok get_ok)
open ComputerSystems.Malloc.Machine
open ComputerSystems.Malloc.ListC
open ComputerSystems.Malloc.Mm
open ComputerSystems.Malloc.Blocks
open ComputerSystems.Malloc.Operations
open ComputerSystems.Malloc.FreeLists
open ComputerSystems.Malloc.Representation

/-- The size of the block that starts at `c`, in a tiling that starts at `a`. -/
def sizeAt (a : Nat) (bs : List Blk) (c : Nat) : Nat :=
  match focus a c [] bs with
  | some (_, b, _) => b.size
  | none => 0

/-- The first of the first `LIMIT` blocks that is large enough. -/
def fitIn (a : Nat) (bs : List Blk) (asize : Nat) (cs : List Nat) : Option Nat :=
  (cs.take LIMIT).find? fun c => asize ≤ sizeAt a bs c

/-- The class of the request is searched from the end that its own size would enter; the higher
classes are searched from the front. -/
def fit (a : Nat) (h : Heap) (asize : Nat) : Option Nat :=
  match findFitIndex asize with
  | none => none
  | some i =>
    (fitIn a h.blocks asize
        (if asize < ranges.getD i 0 / 2 then h.lists i else (h.lists i).reverse)).or
      ((List.range' (i + 1) (FREE_LISTS_SIZE - (i + 1))).findSome? fun j =>
        fitIn a h.blocks asize (h.lists j))

section Abstract

variable {a asize c : Nat} {bs : List Blk} {lists : Lists}

theorem sizeAt_eq {b : Blk} (ho : Ok a bs lists) (hc : (c, b) ∈ located Blk.bytes a bs) :
    sizeAt a bs c = b.size := by
  obtain ⟨l, r, rfl, rfl⟩ := located_split hc
  rw [sizeAt, focus_split fun x hx => ho.pos x (List.mem_append_left _ hx)]

theorem fitIn_some {cs : List Nat} (h : fitIn a bs asize cs = some c) :
    c ∈ cs ∧ asize ≤ sizeAt a bs c := by
  have hmem := List.mem_of_find?_eq_some h
  have hsize := List.find?_some h
  exact ⟨List.mem_of_mem_take hmem, by simpa using hsize⟩

theorem fit_some (ho : Ok a bs lists) (h : fit a ⟨bs, lists⟩ asize = some c) :
    ∃ n, (c, ⟨n, false⟩) ∈ located Blk.bytes a bs ∧ asize ≤ n := by
  have hlisted : ∃ i < FREE_LISTS_SIZE, c ∈ lists i ∧ asize ≤ sizeAt a bs c := by
    unfold fit at h
    split at h
    · cases h
    · rename_i i hi
      rcases Option.or_eq_some_iff.mp h with h | ⟨-, h⟩
      · obtain ⟨hmem, hsize⟩ := fitIn_some h
        refine ⟨i, findFitIndex_lt hi, ?_, hsize⟩
        split at hmem
        · exact hmem
        · exact List.mem_reverse.mp hmem
      · obtain ⟨j, hj, hfit⟩ := List.exists_of_findSome?_eq_some h
        obtain ⟨hmem, hsize⟩ := fitIn_some hfit
        refine ⟨j, ?_, hmem, hsize⟩
        rw [List.mem_range'_1] at hj
        have hi := findFitIndex_lt hi
        omega
  obtain ⟨i, hi, hmem, hsize⟩ := hlisted
  obtain ⟨n, hn, -⟩ := (ho.listed i hi c).mp hmem
  rw [sizeAt_eq ho hn] at hsize
  exact ⟨n, hn, hsize⟩

end Abstract

section Walk

variable {L : Layout} {s : State} {asize : Nat}

/-- Walking along a list and testing block sizes finds what `fitIn` finds. -/
theorem firstFit_ok {step : Nat → Prog Nat} {stop : Nat} {bs : List Blk} {cs : List Nat}
    (hstep : List.IsChain (fun x y => step x s = .ok (y, s)) (cs.map (· + ELEM) ++ [stop]))
    (hstop : ∀ c ∈ cs, c + ELEM ≠ stop)
    (hsize : ∀ c ∈ cs, blkSize c s = .ok (sizeAt (base L) bs c, s)) (fuel : Nat) :
    firstFit step stop asize fuel ((cs.map (· + ELEM)).headD stop) s =
      .ok (((cs.take fuel).find? fun c => asize ≤ sizeAt (base L) bs c).getD 0, s) := by
  induction cs generalizing fuel with
  | nil =>
    cases fuel with
    | zero => rfl
    | succ fuel =>
      simp only [List.map_nil, List.headD_nil, List.take_nil, firstFit]
      rw [if_pos trivial, pure_ok]
      rfl
  | cons c cs ih =>
    cases fuel with
    | zero => rfl
    | succ fuel =>
      rw [List.map_cons, List.cons_append, List.isChain_cons] at hstep
      have htail := ih hstep.2 (fun d hd => hstop d (List.mem_cons_of_mem c hd))
        (fun d hd => hsize d (List.mem_cons_of_mem c hd)) fuel
      have hnext : step (c + ELEM) s = .ok ((cs.map (· + ELEM)).headD stop, s) := by
        refine hstep.1 _ ?_
        cases cs <;> simp
      rw [List.map_cons, List.headD_cons, List.take_succ_cons, List.find?_cons, firstFit,
        if_neg (hstop c List.mem_cons_self), Nat.add_sub_cancel,
        bind_ok (hsize c List.mem_cons_self)]
      by_cases hfits : asize ≤ sizeAt (base L) bs c
      · rw [if_pos hfits, pure_ok]
        simp [hfits]
      · rw [if_neg hfits, bind_ok hnext, htail]
        simp [hfits]

theorem node_pos {lists : Lists} (i : Nat) {x : Nat} (hx : x ∈ elemsOf L lists i) : x ≠ 0 := by
  have hpos := L.lists_pos
  simp only [elemsOf, List.mem_cons, List.mem_append, List.mem_map, List.not_mem_nil,
    or_false] at hx
  rcases hx with rfl | ⟨d, hd, rfl⟩ | rfl
  · unfold listHead freeList
    omega
  · unfold ELEM
    omega
  · unfold listTail
    omega

variable {bs : List Blk} {lists : Lists} {i : Nat}

theorem listed_size (hr : Represents L s (located Blk.bytes (base L) bs) lists)
    (ho : Ok (base L) bs lists) (hw : Within L s bs) (hi : i < FREE_LISTS_SIZE) {c : Nat}
    (hc : c ∈ lists i) : blkSize c s = .ok (sizeAt (base L) bs c, s) := by
  obtain ⟨n, hn, -⟩ := (ho.listed i hi c).mp hc
  have hblock := hw.block hn
  rw [sizeAt_eq ho hn]
  exact blkSize_ok (hr.tags c _ hn).header (by omega) (located_ne_zero hn)

theorem freeList_ne_zero : freeList L i ≠ 0 := by
  have hpos := L.lists_pos
  unfold freeList
  omega

theorem listEnd_ok : listEnd L (freeList L i) s = .ok (listTail (freeList L i), s) := by
  rw [listEnd, bind_ok (assert_ok (by simpa using freeList_ne_zero)), pure_ok]

theorem listRend_ok : listRend L (freeList L i) s = .ok (listHead (freeList L i), s) := by
  rw [listRend, bind_ok (assert_ok (by simpa using freeList_ne_zero)), pure_ok]

theorem listBegin_ok (hl : Listed L s.mem lists) (hi : i < FREE_LISTS_SIZE) :
    listBegin L (freeList L i) s =
      .ok (((lists i).map (· + ELEM)).headD (listTail (freeList L i)), s) := by
  rw [listBegin, bind_ok (assert_ok (by simpa using freeList_ne_zero)),
    bind_ok (access_ok freeList_ne_zero), bind_ok get_ok, pure_ok,
    ← (hl i hi).next_head]
  rfl

theorem listRbegin_ok (hl : Listed L s.mem lists) (hi : i < FREE_LISTS_SIZE) :
    listRbegin L (freeList L i) s =
      .ok (((lists i).reverse.map (· + ELEM)).headD (listHead (freeList L i)), s) := by
  rw [listRbegin, bind_ok (assert_ok (by simpa using freeList_ne_zero)),
    bind_ok (access_ok freeList_ne_zero), bind_ok get_ok, pure_ok,
    List.map_reverse, List.headD_eq_head?_getD, List.head?_reverse, ← List.getLastD_eq_getLast?,
    ← (hl i hi).prev_tail]
  rfl

theorem interior_ne_zero {x : Nat} (hx : x ∈ (lists i).map (· + ELEM)) : x ≠ 0 := by
  obtain ⟨d, -, rfl⟩ := List.mem_map.mp hx
  unfold ELEM
  omega

theorem isInterior_node {x : Nat} (hl : Listed L s.mem lists) (hi : i < FREE_LISTS_SIZE)
    (hx : x ∈ (lists i).map (· + ELEM)) : isInterior s.mem x = true := by
  have hd := hl i hi
  have hself : x ≠ 0 := interior_ne_zero hx
  have hnext : nextOf s.mem x ≠ 0 := node_pos (L := L) i
    (List.mem_cons_of_mem _ (hd.next_mem (List.mem_cons_of_mem _ hx)))
  have hprev : prevOf s.mem x ≠ 0 := by
    have hmem : prevOf s.mem x ∈ elemsOf L lists i := by
      rw [elemsOf, ← List.cons_append]
      exact List.mem_append_left _ (hd.prev_mem (List.mem_append_left _ hx))
    exact node_pos i hmem
  simp [isInterior, hself, hnext, hprev]

theorem forward_ok (hr : Represents L s (located Blk.bytes (base L) bs) lists)
    (ho : Ok (base L) bs lists) (hw : Within L s bs) (hi : i < FREE_LISTS_SIZE) :
    firstFit (listNext L) (listTail (freeList L i)) asize LIMIT
        (((lists i).map (· + ELEM)).headD (listTail (freeList L i))) s =
      .ok ((fitIn (base L) bs asize (lists i)).getD 0, s) := by
  have hd := hr.listed i hi
  refine firstFit_ok ?_ ?_ (fun c hc => listed_size hr ho hw hi hc) LIMIT
  · refine hd.forward.imp fun x y hxy => ?_
    rw [listNext, bind_ok get_ok,
      bind_ok (assert_ok (by simp [isInterior_node hr.listed hi hxy.1])),
      bind_ok (access_ok (interior_ne_zero hxy.1)), pure_ok]
    exact congrArg (fun z => Except.ok (z, s)) hxy.2
  · intro c hc heq
    have hnodup := hd.nodup
    rw [List.nodup_cons, List.nodup_append] at hnodup
    exact hnodup.2.2.2 _ (List.mem_map_of_mem hc) _ List.mem_cons_self heq

theorem backward_ok (hr : Represents L s (located Blk.bytes (base L) bs) lists)
    (ho : Ok (base L) bs lists) (hw : Within L s bs) (hi : i < FREE_LISTS_SIZE) :
    firstFit (listPrev L) (listHead (freeList L i)) asize LIMIT
        (((lists i).reverse.map (· + ELEM)).headD (listHead (freeList L i))) s =
      .ok ((fitIn (base L) bs asize (lists i).reverse).getD 0, s) := by
  have hd := hr.listed i hi
  refine firstFit_ok ?_ ?_ (fun c hc => listed_size hr ho hw hi (List.mem_reverse.mp hc)) LIMIT
  · rw [List.map_reverse]
    refine hd.backward.imp fun x y hxy => ?_
    rw [listPrev, bind_ok get_ok,
      bind_ok (assert_ok (by simp [isInterior_node hr.listed hi hxy.1])),
      bind_ok (access_ok (interior_ne_zero hxy.1)), pure_ok]
    exact congrArg (fun z => Except.ok (z, s)) hxy.2
  · intro c hc heq
    have hnodup := hd.nodup
    rw [List.nodup_cons, ← heq] at hnodup
    exact hnodup.1 (List.mem_append_left _ (List.mem_map_of_mem (List.mem_reverse.mp hc)))

theorem fitIn_ne_zero (ho : Ok (base L) bs lists) (hi : i < FREE_LISTS_SIZE) {cs : List Nat}
    (hcs : ∀ c ∈ cs, c ∈ lists i) {c : Nat} (h : fitIn (base L) bs asize cs = some c) :
    c ≠ 0 := by
  obtain ⟨n, hn, -⟩ := (ho.listed i hi c).mp (hcs c (fitIn_some h).1)
  have hin := (located_within hn).1
  unfold base WSIZE at hin
  omega

theorem firstFitHigher_ok (asize : Nat) (hr : Represents L s (located Blk.bytes (base L) bs) lists)
    (ho : Ok (base L) bs lists) (hw : Within L s bs) {is : List Nat}
    (his : ∀ j ∈ is, j < FREE_LISTS_SIZE) :
    firstFitHigher L asize is s =
      .ok ((is.findSome? fun j => fitIn (base L) bs asize (lists j)).getD 0, s) := by
  induction is with
  | nil => rfl
  | cons j is ih =>
    have hj := his j List.mem_cons_self
    rw [firstFitHigher, bind_ok listEnd_ok, bind_ok (listBegin_ok hr.listed hj),
      bind_ok (forward_ok hr ho hw hj), List.findSome?_cons]
    cases hfit : fitIn (base L) bs asize (lists j) with
    | none =>
      rw [if_neg (by simp)]
      exact ih fun k hk => his k (List.mem_cons_of_mem j hk)
    | some c =>
      rw [if_pos (by simpa using fitIn_ne_zero ho hj (fun _ h => h) hfit), pure_ok]

theorem findFit_ok (hr : Represents L s (located Blk.bytes (base L) bs) lists)
    (ho : Ok (base L) bs lists) (hw : Within L s bs) (hsize : MIN_BLOCK_SIZE_WORDS ≤ asize) :
    findFit L asize s = .ok ((fit (base L) ⟨bs, lists⟩ asize).getD 0, s) := by
  obtain ⟨i, hfit, hi⟩ := findFitIndex_isSome hsize
  have hrange : ∀ j ∈ List.range' (i + 1) (FREE_LISTS_SIZE - (i + 1)), j < FREE_LISTS_SIZE := by
    intro j hj
    rw [List.mem_range'_1] at hj
    omega
  have hhigher := firstFitHigher_ok asize hr ho hw hrange
  rw [findFit, hfit]
  dsimp only
  rw [bind_ok (assert_ok (c := (some i).isSome) rfl), bind_ok get_ok, hr.mids i hi]
  unfold fit
  rw [hfit]
  dsimp only
  set cs := if asize < ranges.getD i 0 / 2 then lists i else (lists i).reverse with hcs
  have hmem : ∀ c ∈ cs, c ∈ lists i := by
    rw [hcs]
    split
    · exact fun _ h => h
    · exact fun _ h => List.mem_reverse.mp h
  refine (bind_ok (a := (fitIn (base L) bs asize cs).getD 0) (t := s) ?_).trans ?_
  · rw [hcs]
    split
    · rw [bind_ok listEnd_ok, bind_ok (listBegin_ok hr.listed hi), forward_ok hr ho hw hi]
    · rw [bind_ok listRend_ok, bind_ok (listRbegin_ok hr.listed hi), backward_ok hr ho hw hi]
  · cases hfound : fitIn (base L) bs asize cs with
    | none =>
      rw [if_neg (by simp), hhigher]
      rfl
    | some c =>
      rw [if_pos (by simpa using fitIn_ne_zero ho hi hmem hfound), pure_ok]
      rfl

end Walk

end ComputerSystems.Malloc.FindFit
