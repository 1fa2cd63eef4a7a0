/- When `find_fit` finds a block of a higher class, if there is one that is large enough. -/

import ComputerSystems.Malloc.Replays

set_option autoImplicit false
set_option relaxedAutoImplicit false

namespace ComputerSystems.Malloc.Searching

open ComputerSystems.Memory.Tiling
open ComputerSystems.Systems.Runs
open ComputerSystems.Malloc.Machine
open ComputerSystems.Malloc.Mm
open ComputerSystems.Malloc.Blocks
open ComputerSystems.Malloc.Operations
open ComputerSystems.Malloc.Representation
open ComputerSystems.Malloc.FindFit
open ComputerSystems.Malloc.Place
open ComputerSystems.Malloc.Client
open ComputerSystems.Malloc.Safety
open ComputerSystems.Malloc.Offsets
open ComputerSystems.Malloc.Replays

section Classes

variable {m n i j : Nat}

theorem class_bounds (h : findFitIndex n = some i) :
    (i < SMALL_CLASS_SIZE → n = ranges.getD i 0) ∧
      (SMALL_CLASS_SIZE < i → ranges.getD (i - 1) 0 ≤ n) ∧
        (i < FREE_LISTS_SIZE - 1 → n ≤ ranges.getD i 0) := by
  have hsmall : ∀ j, j < SMALL_CLASS_SIZE → n = ranges.getD j 0 →
      (j < SMALL_CLASS_SIZE → n = ranges.getD j 0) ∧
        (SMALL_CLASS_SIZE < j → ranges.getD (j - 1) 0 ≤ n) ∧
          (j < FREE_LISTS_SIZE - 1 → n ≤ ranges.getD j 0) :=
    fun j hj hn => ⟨fun _ => hn, fun hlt => absurd hlt (by omega), fun _ => hn.le⟩
  unfold findFitIndex at h
  split_ifs at h with h₀ h₁ h₂ h₃ h₄
  · cases h
    exact hsmall 0 (by decide) h₀
  · cases h
    exact hsmall 1 (by decide) h₁
  · cases h
    exact hsmall 2 (by decide) h₂
  · cases h
    exact hsmall 3 (by decide) h₃
  · cases h
    exact hsmall 4 (by decide) h₄
  · split at h
    · rename_i j hfind
      cases h
      obtain ⟨hlt, front, back, hsplit, hfront⟩ := List.find?_eq_some_iff_append.mp hfind
      have hmem := List.mem_of_find?_eq_some hfind
      have hsorted : (List.range' SMALL_CLASS_SIZE
          (FREE_LISTS_SIZE - SMALL_CLASS_SIZE)).Pairwise (· < ·) := List.pairwise_lt_range' 1
      rw [List.mem_range'_1] at hmem
      refine ⟨fun hlow => absurd hlow (by omega), fun hlow => ?_, fun _ => ?_⟩
      · have hprev : i - 1 ∈ List.range' SMALL_CLASS_SIZE (FREE_LISTS_SIZE - SMALL_CLASS_SIZE) := by
          rw [List.mem_range'_1]
          omega
        rw [hsplit] at hprev hsorted
        rcases List.mem_append.mp hprev with hprev | hprev
        · have hnot := hfront _ hprev
          simpa using hnot
        · rcases List.mem_cons.mp hprev with heq | hprev
          · omega
          · have hback := List.rel_of_pairwise_cons (List.pairwise_append.mp hsorted).2.1 hprev
            omega
      · exact (of_decide_eq_true hlt).le
    · rename_i hnone
      cases h
      refine ⟨fun hlow => absurd hlow (by decide), fun _ => ?_, fun hlow => absurd hlow (by decide)⟩
      have hnot := List.find?_eq_none.mp hnone (FREE_LISTS_SIZE - 1 - 1) (by decide)
      simpa using hnot

theorem ranges_mono (hij : i ≤ j) (hj : j < FREE_LISTS_SIZE) :
    ranges.getD i 0 ≤ ranges.getD j 0 := by
  have hall : ∀ j < FREE_LISTS_SIZE, ∀ i ≤ j, ranges.getD i 0 ≤ ranges.getD j 0 := by decide
  exact hall j hj i hij

theorem size_of_small (hi : i < SMALL_CLASS_SIZE) (hm : findFitIndex m = some i)
    (hn : findFitIndex n = some i) : m = n :=
  ((class_bounds hm).1 hi).trans ((class_bounds hn).1 hi).symm

theorem size_of_higher (hij : i < j) (hj : j ≠ SMALL_CLASS_SIZE) (hm : findFitIndex m = some i)
    (hn : findFitIndex n = some j) : m ≤ n := by
  have hlast := findFitIndex_lt hn
  obtain ⟨hexact, hlow, -⟩ := class_bounds hn
  obtain ⟨-, -, hhigh⟩ := class_bounds hm
  have hm := hhigh (by omega)
  rcases Nat.lt_or_gt_of_ne hj with hj | hj
  · rw [hexact hj]
    exact hm.trans (ranges_mono hij.le hlast)
  · exact hm.trans ((ranges_mono (Nat.le_sub_one_of_lt hij) (by omega)).trans (hlow hj))

end Classes

/-- The result of `find_fit` is a free block on a list that is large enough, or no list of a higher
class holds such a block. -/
def Finds (L : Layout) (s : State) (bs : List Blk) (lists : Lists) (asize : Nat) : Prop :=
  ∃ q, findFit L asize s = .ok (q, s) ∧
    (q ≠ 0 → ∃ i < FREE_LISTS_SIZE, q ∈ lists i ∧
      ∃ n, (q, ⟨n, false⟩) ∈ located Blk.bytes (base L) bs ∧ asize ≤ n) ∧
    (q = 0 → ∀ i j, findFitIndex asize = some i → i < j → j < FREE_LISTS_SIZE →
      ∀ c ∈ lists j, ∀ n, (c, ⟨n, false⟩) ∈ located Blk.bytes (base L) bs → n < asize)

/-- The request is of a small class; the list of that class and those of the higher ones are empty
but for the first list of mixed sizes, whose first five blocks are too small and another one is
not. -/
structure Overlooked (a : Nat) (bs : List Blk) (lists : Lists) (asize i : Nat) : Prop where
  index : findFitIndex asize = some i
  small : i < SMALL_CLASS_SIZE
  empty : ∀ j < FREE_LISTS_SIZE, i ≤ j → j ≠ SMALL_CLASS_SIZE → lists j = []
  first : ∀ c ∈ (lists SMALL_CLASS_SIZE).take LIMIT, sizeAt a bs c < asize
  other : ∃ c ∈ lists SMALL_CLASS_SIZE, asize ≤ sizeAt a bs c

section Fits

variable {a asize i j c : Nat} {bs : List Blk} {lists : Lists} {cs : List Nat}

theorem fitIn_none : fitIn a bs asize cs = none ↔ ∀ c ∈ cs.take LIMIT, sizeAt a bs c < asize := by
  rw [fitIn, List.find?_eq_none]
  simp only [decide_eq_true_eq, Nat.not_le]

theorem fit_none (hindex : findFitIndex asize = some i) (hfit : fit a ⟨bs, lists⟩ asize = none) :
    (∀ c ∈ ((if asize < ranges.getD i 0 / 2 then lists i else (lists i).reverse)).take LIMIT,
      sizeAt a bs c < asize) ∧
      ∀ j < FREE_LISTS_SIZE, i < j → ∀ c ∈ (lists j).take LIMIT, sizeAt a bs c < asize := by
  unfold fit at hfit
  rw [hindex] at hfit
  obtain ⟨hown, hhigher⟩ := Option.or_eq_none_iff.mp hfit
  refine ⟨fitIn_none.mp hown, fun j hj hij => fitIn_none.mp ?_⟩
  refine List.findSome?_eq_none_iff.mp hhigher j ?_
  rw [List.mem_range'_1]
  omega

/-- A list of the class or of a higher one that is not empty is enough, but for the first list of
mixed sizes. -/
theorem empty_of_fit_none (ho : Ok a bs lists) (hindex : findFitIndex asize = some i)
    (hfit : fit a ⟨bs, lists⟩ asize = none) (hj : j < FREE_LISTS_SIZE) (hij : i ≤ j)
    (hsmall : i < SMALL_CLASS_SIZE ∨ i < j) (hne : j ≠ SMALL_CLASS_SIZE) : lists j = [] := by
  by_contra hsome
  obtain ⟨hown, hhigher⟩ := fit_none hindex hfit
  -- some block among those that are looked at is too small for its class
  have htoosmall : ∃ c ∈ lists j, sizeAt a bs c < asize := by
    rcases Nat.eq_or_lt_of_le hij with rfl | hij
    · set cs := if asize < ranges.getD i 0 / 2 then lists i else (lists i).reverse with hcs
      have hmem : ∀ c ∈ cs, c ∈ lists i := by
        rw [hcs]
        split_ifs
        · exact fun _ h => h
        · exact fun _ h => List.mem_reverse.mp h
      cases hcase : cs with
      | nil =>
        rw [hcs] at hcase
        split_ifs at hcase
        · exact absurd hcase hsome
        · exact absurd (List.reverse_eq_nil_iff.mp hcase) hsome
      | cons c rest =>
        rw [hcase] at hown hmem
        exact ⟨c, hmem c List.mem_cons_self, hown c List.mem_cons_self⟩
    · cases hcase : lists j with
      | nil => exact absurd hcase hsome
      | cons c rest =>
        have hfirst := hhigher j hj hij
        rw [hcase] at hfirst
        exact ⟨c, List.mem_cons_self, hfirst c List.mem_cons_self⟩
  obtain ⟨c, hc, hlt⟩ := htoosmall
  obtain ⟨n, hn, hclass⟩ := (ho.listed j hj c).mp hc
  rw [sizeAt_eq ho hn] at hlt
  rcases Nat.eq_or_lt_of_le hij with rfl | hij
  · have hi : i < SMALL_CLASS_SIZE := hsmall.resolve_right (lt_irrefl i)
    exact absurd (size_of_small hi hindex hclass) hlt.ne'
  · exact absurd (size_of_higher hij hne hindex hclass) (Nat.not_le.mpr hlt)

theorem overlooked_of_none (ho : Ok a bs lists) (hindex : findFitIndex asize = some i)
    (hfit : fit a ⟨bs, lists⟩ asize = none) (hj : j < FREE_LISTS_SIZE) (hij : i < j)
    (hc : c ∈ lists j) (hlarge : asize ≤ sizeAt a bs c) : Overlooked a bs lists asize i := by
  have hmixed : j = SMALL_CLASS_SIZE := by
    by_contra hne
    have hempty := empty_of_fit_none ho hindex hfit hj hij.le (Or.inr hij) hne
    rw [hempty] at hc
    cases hc
  subst hmixed
  exact ⟨hindex, hij, fun k hk hik hne => empty_of_fit_none ho hindex hfit hk hik (Or.inl hij) hne,
    (fit_none hindex hfit).2 _ hj hij, c, hc, hlarge⟩

theorem fit_of_overlooked (ho : Overlooked a bs lists asize i) :
    fit a ⟨bs, lists⟩ asize = none := by
  have hnil : fitIn a bs asize [] = none := fitIn_none.mpr (by simp)
  have hown : lists i = [] := ho.empty i (ho.small.trans (by decide)) le_rfl ho.small.ne
  unfold fit
  rw [ho.index]
  dsimp only
  rw [hown, List.reverse_nil, ite_self, hnil, Option.none_or, List.findSome?_eq_none_iff]
  intro j hj
  rw [List.mem_range'_1] at hj
  by_cases hmixed : j = SMALL_CLASS_SIZE
  · rw [hmixed]
    exact fitIn_none.mpr ho.first
  · rw [ho.empty j (by omega) (by omega) hmixed]
    exact hnil

end Fits

section Runs

variable {L : Layout} {s : State} {h : Heap} {asize : Nat} {r : Except Fault Session}

theorem finds_iff (hs : Holds L s h) (hsize : MIN_BLOCK_SIZE_WORDS ≤ asize) :
    Finds L s h.blocks h.lists asize ↔
      ¬ ∃ i, Overlooked (base L) h.blocks h.lists asize i := by
  have hrun := findFit_ok hs.repr hs.ok hs.within hsize
  constructor
  · rintro ⟨q, hq, -, hnone⟩ ⟨i, ho⟩
    rw [hrun, fit_of_overlooked ho] at hq
    cases hq
    obtain ⟨c, hc, hlarge⟩ := ho.other
    have hmixed : SMALL_CLASS_SIZE < FREE_LISTS_SIZE := by decide
    obtain ⟨n, hn, -⟩ := (hs.ok.listed _ hmixed c).mp hc
    rw [sizeAt_eq hs.ok hn] at hlarge
    exact absurd (hnone rfl i _ ho.index ho.small hmixed c hc n hn) (Nat.not_lt.mpr hlarge)
  · intro hnot
    refine ⟨_, hrun, fun hq => ?_, fun hq i j hindex hij hj c hc n hn => ?_⟩
    · cases hfit : fit (base L) ⟨h.blocks, h.lists⟩ asize with
      | none =>
        rw [hfit] at hq
        exact absurd rfl hq
      | some c =>
        obtain ⟨n, hn, hle⟩ := fit_some hs.ok hfit
        obtain ⟨i, hindex, hi⟩ := findFitIndex_isSome (hsize.trans hle)
        exact ⟨i, hi, (hs.ok.listed i hi c).mpr ⟨n, hn, hindex⟩, n, hn, hle⟩
    · cases hfit : fit (base L) ⟨h.blocks, h.lists⟩ asize with
      | none =>
        by_contra hlarge
        refine hnot ⟨i, overlooked_of_none hs.ok hindex hfit hj hij hc ?_⟩
        rw [sizeAt_eq hs.ok hn]
        exact Nat.not_lt.mp hlarge
      | some d =>
        obtain ⟨m, hm, -⟩ := fit_some hs.ok hfit
        rw [hfit] at hq
        exact absurd hq (located_ne_zero hm)

/-- In every state of every run that avoids the defect of `mm_realloc`, `find_fit` keeps its promise
for exactly the sizes for which it overlooks no block. -/
theorem findFit_iff (hr : ReachableBy (system L) (Avoids L) r) :
    ∃ c bs lists, r = .ok c ∧ HeapInvariant L c bs lists ∧
      ∀ asize, MIN_BLOCK_SIZE_WORDS ≤ asize → (Finds L c.state bs lists asize ↔
        ¬ ∃ i, Overlooked (base L) bs lists asize i) := by
  obtain ⟨c, h, rfl, hs, ho⟩ := sound_of_avoids hr
  exact ⟨c, h.blocks, h.lists, rfl, heapInvariant_of_holds hs ho, fun _ hsize => finds_iff hs hsize⟩

/-- Blocks of 44 and five times 36 words, each with a block in use behind it, are freed in this
order. -/
def scattered : List Request :=
  [.malloc 168, .malloc 120, .malloc 136, .malloc 120, .malloc 136, .malloc 120, .malloc 136,
    .malloc 120, .malloc 136, .malloc 120, .malloc 136, .malloc 120,
    .free 0, .free 2, .free 4, .free 6, .free 8, .free 10]

/-- The state of the heap behind `scattered`, with six blocks in list 5. -/
theorem findFit_iff_sample : ∃ c bs lists, (lists SMALL_CLASS_SIZE).length = 6 ∧
    HeapInvariant (sample true) c bs lists ∧ (Finds (sample true) c.state bs lists 40 ↔
      ¬ ∃ i, Overlooked (base (sample true)) bs lists 40 i) := by
  have hplanned : (plan MAX_HEAP scattered).map (fun P => (P.heap.lists SMALL_CLASS_SIZE).length) =
      some 6 := by decide
  obtain ⟨P, hplan, hlength⟩ := Option.map_eq_some_iff.mp hplanned
  obtain ⟨c, record, hreplay, hf⟩ := exists_replay (L := sample true) (by decide) hplan
  obtain ⟨c', bs, lists, heq, hi, hall⟩ :=
    findFit_iff (avoids_of_no_realloc (reachable_of_replay hreplay rfl))
  cases heq
  have hperm := (hi.unique (heapInvariant_of_holds hf.holds hf.owns)).2 SMALL_CLASS_SIZE (by decide)
  refine ⟨c, bs, lists, ?_, hi, hall 40 (by decide)⟩
  exact hperm.length_eq.trans ((List.length_map _).trans hlength)

theorem overlooked_shift {a d i : Nat} {bs : List Blk} {lists : Lists}
    (ho : Overlooked a bs lists asize i) : Overlooked (a + d) bs (shiftLists d lists) asize i where
  index := ho.index
  small := ho.small
  empty j hj hij hne := by
    rw [shiftLists, ho.empty j hj hij hne]
    rfl
  first c hc := by
    rw [shiftLists, ← List.map_take] at hc
    obtain ⟨x, hx, rfl⟩ := List.mem_map.mp hc
    rw [shift_sizeAt]
    exact ho.first x hx
  other := by
    obtain ⟨x, hx, hlarge⟩ := ho.other
    exact ⟨x + d, List.mem_map_of_mem hx, by rwa [shift_sizeAt]⟩

/-- There 40 words are not found although 44 are free. -/
theorem block_overlooked : ∃ c bs lists, Reachable (system (sample true)) (.ok c) ∧
    HeapInvariant (sample true) c bs lists ∧ ¬ Finds (sample true) c.state bs lists 40 := by
  have hplanned : (plan MAX_HEAP scattered).map (fun P => decide (
      (∀ j < FREE_LISTS_SIZE, 3 ≤ j → j ≠ SMALL_CLASS_SIZE → P.heap.lists j = []) ∧
      (∀ c ∈ (P.heap.lists SMALL_CLASS_SIZE).take LIMIT, sizeAt origin P.heap.blocks c < 40) ∧
      ∃ c ∈ P.heap.lists SMALL_CLASS_SIZE, 40 ≤ sizeAt origin P.heap.blocks c)) = some true := by
    decide
  obtain ⟨P, hplan, hheap⟩ := Option.map_eq_some_iff.mp hplanned
  obtain ⟨hempty, hfirst, hother⟩ := of_decide_eq_true hheap
  have hoverlooked : Overlooked origin P.heap.blocks P.heap.lists 40 3 :=
    ⟨rfl, by decide, hempty, hfirst, hother⟩
  obtain ⟨c, record, hreplay, hf⟩ := exists_replay (L := sample true) (by decide) hplan
  have hbase : base (sample true) = origin + (sample true).memStartBrk := base_eq _
  refine ⟨c, _, _, (reachable_of_replay hreplay rfl).mono fun _ _ _ => trivial,
    heapInvariant_of_holds hf.holds hf.owns, fun hfinds => ?_⟩
  refine (finds_iff hf.holds (by decide)).mp hfinds ⟨3, ?_⟩
  rw [hbase]
  exact overlooked_shift hoverlooked

end Runs

end ComputerSystems.Malloc.Searching
