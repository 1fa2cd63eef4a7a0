/- `find_fit`, `place` and the four entry points against the allocator on tilings. -/

import ComputerSystems.Implicit.Coalescing
import ComputerSystems.Malloc.Allocator

set_option autoImplicit false
set_option relaxedAutoImplicit false

namespace ComputerSystems.Implicit.Allocator

open ComputerSystems.Memory.Bytes
open ComputerSystems.Memory.Tiling
open ComputerSystems.Memory.Joining
open ComputerSystems.Systems.Computations (bind_ok pure_ok get_ok)
open ComputerSystems.Malloc.Machine
open ComputerSystems.Malloc.Mm (WSIZE PAYLOAD FENCE align tagInuse memSbrk prevBlkFooter blkFree
  blkSize prevBlk nextBlk markBlockUsed markBlockFree setHeaderAndFooter)
open ComputerSystems.Malloc.Blocks (Blk bytes_eq blockWords_rounding)
open ComputerSystems.Malloc.Representation
open ComputerSystems.Malloc.Allocator (INT_MAX)
open ComputerSystems.Implicit.Program
open ComputerSystems.Implicit.Tilings
open ComputerSystems.Implicit.Heap
open ComputerSystems.Implicit.Coalescing

variable {L : Layout} {s : State} {bs l r : List Blk} {asize c k m n fuel size : Nat}

section Search

/-- The loop passes over the blocks in `l` and finds what the first fit in `r` is. -/
theorem findFitFrom_ok (h : Tagged L s (l ++ r)) (hc : c = base L + span Blk.bytes l)
    (hfuel : r.length < fuel) :
    findFitFrom L asize fuel c s = .ok (some (((firstFit c asize r).map Prod.fst).getD 0), s) := by
  obtain ⟨fuel, rfl⟩ := Nat.exists_eq_add_one_of_ne_zero (Nat.ne_zero_of_lt hfuel)
  induction r generalizing l c fuel with
  | nil =>
    rw [List.append_nil] at h
    rw [findFitFrom, hc, bind_ok h.reads_end.1, if_pos rfl, pure_ok]
    rfl
  | cons b r ih =>
    have hmem : (c, b) ∈ located Blk.bytes (base L) (l ++ b :: r) := by
      rw [hc]
      exact located_middle _ l r b
    obtain ⟨hsize, hfree, hnext⟩ := h.reads hmem
    have hblock := h.block hmem
    have hfits : (isFree b && decide (asize ≤ b.size)) = fits asize b := rfl
    rw [findFitFrom, bind_ok hsize, if_neg (by omega), bind_ok hfree, bind_ok hsize, hfits, firstFit,
      replaceFirst]
    cases hb : fits asize b with
    | true =>
      rw [if_pos rfl, if_pos rfl, pure_ok]
      rfl
    | false =>
      rw [List.length_cons] at hfuel
      have hrest : findFitFrom L asize fuel (c + b.bytes) s =
          .ok (some (((firstFit (c + b.bytes) asize r).map Prod.fst).getD 0), s) := by
        obtain ⟨f, rfl⟩ := Nat.exists_eq_add_one_of_ne_zero (show fuel ≠ 0 by omega)
        refine @ih (l ++ [b]) _ (by simpa using h) ?_ f (by omega)
        rw [span_append, span_cons, span_nil, hc]
        omega
      rw [if_neg (by simp), if_neg (by simp), bind_ok hnext, hrest, Option.map_map, firstFit]
      rfl

theorem findFit_ok (h : Tagged L s bs) (hfuel : bs.length < fuel) :
    findFit L fuel asize s =
      .ok (some (((firstFit (base L) asize bs).map Prod.fst).getD 0), s) := by
  rw [findFit, bind_ok get_ok, h.started]
  exact @findFitFrom_ok L s [] bs asize (base L) fuel h rfl hfuel

end Search

section Place

/-- `place` where the rest of the block stays free: the second pair of tags is written behind the
first. -/
theorem place_two (h : Tagged L s (l ++ ⟨n, false⟩ :: r)) (hc : c = base L + span Blk.bytes l)
    (hasize : Whole ⟨asize, true⟩) (hrest : MIN_BLOCK_SIZE_WORDS ≤ n - asize) :
    ∃ m', place L c asize s = .ok ((), { s with mem := m' }) ∧
      Tagged L { s with mem := m' } (l ++ ([⟨asize, true⟩, ⟨n - asize, false⟩] ++ r)) ∧
      ∀ y, y < c ∨ c + 4 * n ≤ y → m' y = s.mem y := by
  have hmem : (c, ⟨n, false⟩) ∈ located Blk.bytes (base L) (l ++ ⟨n, false⟩ :: r) := by
    rw [hc]
    exact located_middle _ l r _
  obtain ⟨hsize, -, -⟩ := h.reads hmem
  have hblock := h.block hmem
  have hbounds := h.bounds
  have hwhole := h.whole _ (mem_of_located hmem)
  have hW : WSIZE = 4 := rfl
  have hM : MIN_BLOCK_SIZE_WORDS = 4 := rfl
  have hlow := hasize.bytes_ge
  simp only [bytes_eq] at hblock hlow
  have hused : markBlockUsed c asize s =
      .ok ((), { s with mem := setTags s.mem c ⟨asize, true⟩ }) := by
    rw [markBlockUsed, toInt_eq (by omega)]
    exact setHeaderAndFooter_ok (b := ⟨asize, true⟩) (by simp only; omega) (by simp only; omega)
      (by omega)
  have hmarked := setTags_marked (b := ⟨asize, true⟩) (m := s.mem) (c := c)
    (by simp only; omega) (by simp only; omega)
  generalize hm₁ : setTags s.mem c ⟨asize, true⟩ = m₁ at hused hmarked
  have hnext : nextBlk L c { s with mem := m₁ } = .ok (c + 4 * asize, { s with mem := m₁ }) :=
    nextBlk_ok (b := ⟨asize, true⟩) hmarked.header (by simp only; omega) (by simp only; omega)
      (by omega)
  have hfree : markBlockFree (c + 4 * asize) (n - asize) { s with mem := m₁ } =
      .ok ((), { s with mem := setTags m₁ (c + 4 * asize) ⟨n - asize, false⟩ }) := by
    rw [markBlockFree, toInt_eq (by omega)]
    exact setHeaderAndFooter_ok (b := ⟨n - asize, false⟩) (by simp only; omega)
      (by simp only; omega) (by omega)
  have hout : ∀ y, y < c + 4 * asize ∨ c + 4 * n ≤ y →
      setTags m₁ (c + 4 * asize) ⟨n - asize, false⟩ y = m₁ y := by
    intro y hy
    exact setTags_outside (by rw [bytes_eq]; omega) (by omega) (by rw [bytes_eq]; omega)
  have hmarked' := setTags_marked (b := ⟨n - asize, false⟩) (m := m₁) (c := c + 4 * asize)
    (by simp only; omega) (by simp only; omega)
  generalize setTags m₁ (c + 4 * asize) ⟨n - asize, false⟩ = m₂ at hfree hout hmarked'
  have hframe : ∀ y, y < c ∨ c + 4 * n ≤ y → m₂ y = s.mem y := by
    intro y hy
    rw [hout y (by omega), ← hm₁]
    exact setTags_outside (by rw [bytes_eq]; omega) (by omega) (by rw [bytes_eq]; omega)
  refine ⟨m₂, ?_, ?_, hframe⟩
  · rw [place, bind_ok hsize]
    dsimp only
    rw [sub64_eq (by omega) (by omega), if_pos hrest, bind_ok hused, bind_ok hnext, hfree]
  · refine @Tagged.replace L s l [⟨n, false⟩] _ r c h hc ?_ ?_ m₂ (by simpa [bytes_eq] using hframe) ?_
    · simp only [span_cons, span_nil, bytes_eq]
      omega
    · have hcut := cut_whole hwhole hasize.1 hasize.2
      rwa [cut_two hrest] at hcut
    · intro e b he
      simp only [located_cons, located_nil, List.mem_cons, Prod.mk.injEq, List.not_mem_nil,
        or_false, bytes_eq] at he
      rcases he with ⟨rfl, rfl⟩ | ⟨rfl, rfl⟩
      · have hfooter := hmarked.footer
        rw [bytes_eq] at hfooter
        refine ⟨?_, ?_⟩
        · rw [← hmarked.header]
          exact load_congr fun y hy hy' => hout y (by omega)
        · rw [bytes_eq, ← hfooter]
          exact load_congr fun y hy hy' => hout y (by omega)
      · exact hmarked'

theorem place_ok (h : Holds L s (l ++ ⟨n, false⟩ :: r)) (hc : c = base L + span Blk.bytes l)
    (hasize : Whole ⟨asize, true⟩) (hle : asize ≤ n) :
    ∃ m', place L c asize s = .ok ((), { s with mem := m' }) ∧
      Holds L { s with mem := m' } (l ++ (cut asize ⟨n, false⟩ ++ r)) ∧
      Kept (InUse L (l ++ ⟨n, false⟩ :: r)) s.mem m' := by
  have hseparated : Separated isFree (l ++ (cut asize ⟨n, false⟩ ++ r)) :=
    cut_separated h.separated rfl
  have hspan : span Blk.bytes [(⟨n, false⟩ : Blk)] = 4 * n := by simp [bytes_eq]
  -- the payloads in use lie before and behind the block
  have hkept : ∀ m' : Mem, (∀ y, y < c ∨ c + 4 * n ≤ y → m' y = s.mem y) →
      Kept (InUse L (l ++ ⟨n, false⟩ :: r)) s.mem m' := by
    intro m' hframe e j he y hy hy'
    have hapart := @mid_inUse L l [⟨n, false⟩] r c hc e j he (by simp)
    rw [hspan] at hapart
    have hW : WSIZE = 4 := rfl
    have hj : WSIZE * j = 4 * j := rfl
    exact hframe y (by omega)
  by_cases hrest : MIN_BLOCK_SIZE_WORDS ≤ n - asize
  · obtain ⟨m', hrun, htagged, hframe⟩ := place_two h.tagged hc hasize hrest
    rw [cut_two hrest] at hseparated ⊢
    exact ⟨m', hrun, ⟨htagged, hseparated⟩, hkept m' hframe⟩
  · have hmem : (c, ⟨n, false⟩) ∈ located Blk.bytes (base L) (l ++ ⟨n, false⟩ :: r) := by
      rw [hc]
      exact located_middle _ l r _
    obtain ⟨hsize, -, -⟩ := h.tagged.reads hmem
    have hblock := h.tagged.block hmem
    have hwhole := h.tagged.whole _ (mem_of_located hmem)
    simp only at hblock
    obtain ⟨hrun, htagged, hframe⟩ := @Tagged.mark L s l [⟨n, false⟩] r c n true h.tagged hc
      hspan.symm hwhole
    rw [cut_one hrest] at hseparated ⊢
    refine ⟨_, ?_, ⟨htagged, hseparated⟩, hkept _ (hspan ▸ hframe)⟩
    rw [place, bind_ok hsize]
    dsimp only
    rw [sub64_eq hle (by omega), if_neg hrest]
    exact hrun

end Place

section Malloc

/-- From `bs` to `bs'` the block of `m` words at `c` was put in use for a request of `size` bytes. -/
structure Allocated (L : Layout) (bs bs' : List Blk) (size c m : Nat) : Prop where
  large : size + 2 * WSIZE ≤ 4 * m
  fresh : ∀ k, ¬ InUse L bs c k
  used : ∀ d k, InUse L bs' d k ↔ InUse L bs d k ∨ (d = c ∧ k = m)

theorem cut_inUse (hc : c = base L + span Blk.bytes l) (hle : asize ≤ n) {d j : Nat} :
    InUse L (l ++ (cut asize ⟨n, false⟩ ++ r)) d j ↔
      InUse L (l ++ ⟨n, false⟩ :: r) d j ∨ (d = c ∧ j = cutSize asize n) := by
  have hspan : span Blk.bytes (cut asize ⟨n, false⟩) = Blk.bytes ⟨n, false⟩ := cut_span hle
  have hcut : (d, ⟨j, true⟩) ∈ located Blk.bytes c (cut asize ⟨n, false⟩) ↔
      d = c ∧ j = cutSize asize n := cut_used
  have hfree : (d, (⟨j, true⟩ : Blk)) ≠ (c, ⟨n, false⟩) := by simp
  simp only [InUse, located_append, located_cons, List.mem_append, List.mem_cons, ← hc, hspan, hcut,
    hfree, false_or]
  tauto

theorem cut_allocated (h : Tagged L s (l ++ ⟨n, false⟩ :: r)) (hc : c = base L + span Blk.bytes l)
    (hsize : size ≤ INT_MAX) (hle : wordsFor size ≤ n) :
    Allocated L (l ++ ⟨n, false⟩ :: r) (l ++ (cut (wordsFor size) ⟨n, false⟩ ++ r)) size c
      (cutSize (wordsFor size) n) := by
  unfold INT_MAX at hsize
  obtain ⟨-, -, hroom, -⟩ := @wordsFor_ok size (by omega)
  have hlarge := le_cutSize hle
  have hmem : (c, ⟨n, false⟩) ∈ located Blk.bytes (base L) (l ++ ⟨n, false⟩ :: r) := by
    rw [hc]
    exact located_middle _ l r _
  have hpos : ∀ b ∈ l ++ ⟨n, false⟩ :: r, 0 < b.bytes := by
    intro b hb
    have hlow := (h.whole b hb).bytes_ge
    omega
  refine ⟨by omega, fun k hk => ?_, fun d k => cut_inUse hc hle⟩
  have heq := located_unique hpos hmem hk
  cases heq

/-- The rounding in `mm_malloc` for a request that an `int` can hold. -/
theorem rounding_ok (hsize : size ≤ INT_MAX) :
    ¬ align (add64 size (2 * WSIZE)) < size ∧
      max MIN_BLOCK_SIZE_WORDS (align (add64 size (2 * WSIZE)) / WSIZE) = wordsFor size :=
  blockWords_rounding MIN_BLOCK_SIZE_WORDS (Nat.lt_of_le_pred (by decide) hsize)

/-- What `mm_malloc` leaves behind: a new block, or nothing has changed. -/
structure Malloced (L : Layout) (s s' : State) (bs bs' : List Blk) (size p : Nat) : Prop where
  holds : Holds L s' bs'
  kept : Kept (InUse L bs) s.mem s'.mem
  result : (p = 0 ∧ s' = s ∧ bs' = bs) ∨ ∃ c m, p = c + PAYLOAD ∧ Allocated L bs bs' size c m

/-- `mm_malloc` does what the allocator on tilings does, and its loop ends. -/
theorem mmMalloc_ok (h : Holds L s bs) (hsize : size ≤ INT_MAX) (hfuel : bs.length < fuel) :
    ∃ s', mmMalloc L fuel size s =
        .ok (some (allocate (base L) L.memMaxAddr size bs).1, s') ∧
      Malloced L s s' bs (allocate (base L) L.memMaxAddr size bs).2 size
        (allocate (base L) L.memMaxAddr size bs).1 := by
  have hnothing : Malloced L s s bs bs size 0 :=
    ⟨h, fun d m hd y hy hy' => rfl, Or.inl ⟨rfl, rfl, rfl⟩⟩
  have hsize' : size < 2 ^ 31 := by
    unfold INT_MAX at hsize
    omega
  obtain ⟨hmin, hfour, -, hlt⟩ := wordsFor_ok hsize'
  obtain ⟨hround, hwords⟩ := rounding_ok hsize
  have hasize : Whole ⟨wordsFor size, true⟩ := ⟨hmin, hfour⟩
  have hbounds := h.tagged.bounds
  rw [mmMalloc, allocate]
  by_cases hzero : size = 0
  · rw [if_pos hzero, if_pos hzero, pure_ok]
    exact ⟨s, rfl, hnothing⟩
  rw [if_neg hzero, if_neg hzero]
  dsimp only
  rw [if_neg hround, hwords, bind_ok (findFit_ok h.tagged hfuel)]
  dsimp only
  cases hfit : firstFit (base L) (wordsFor size) bs with
  | some found =>
    obtain ⟨c, bs'⟩ := found
    obtain ⟨l, n, r, rfl, hc, -, hle, rfl⟩ := firstFit_some hfit
    obtain ⟨m', hrun, hholds, hkept⟩ := place_ok h hc hasize hle
    refine ⟨_, ?_, hholds, hkept, Or.inr ⟨c, _, rfl, cut_allocated h.tagged hc hsize hle⟩⟩
    have hpos : c ≠ 0 := by omega
    rw [Option.map_some, Option.getD_some, if_pos hpos, bind_ok hrun, pure_ok]
  | none =>
    have hends := h.tagged.ends
    have hwhole : Whole ⟨max (wordsFor size) CHUNKSIZE, false⟩ := by
      unfold Whole MIN_BLOCK_SIZE_WORDS CHUNKSIZE at *
      simp only
      omega
    rw [Option.map_none, Option.getD_none, if_neg (by simp)]
    dsimp only
    rw [hends]
    split
    · rename_i hroom
      obtain ⟨c, s₁, hextend, hholds₁, hkept₁, l, n, hlast, hc⟩ := extendHeap_ok h hwhole hroom
      obtain ⟨l', n', hn, hlast', hfit'⟩ := firstFit_extend hfit h.separated
        (Nat.le_max_left (wordsFor size) CHUNKSIZE)
      obtain ⟨rfl, heq⟩ := List.append_inj' (hlast.symm.trans hlast') rfl
      obtain rfl : n = n' := by simpa using heq
      have hused : ∀ d m, InUse L (extend (max (wordsFor size) CHUNKSIZE) bs) d m ↔
          InUse L bs d m := by
        intro d m
        rw [InUse, extend, joinFree_used, located_append]
        simp [InUse]
      have hle : wordsFor size ≤ n := (Nat.le_max_left _ _).trans hn
      rw [hfit']
      rw [hlast] at hholds₁ hused
      obtain ⟨m', hrun, hholds, hkept⟩ := place_ok hholds₁ hc hasize hle
      have hnew := cut_allocated hholds₁.tagged hc hsize hle
      refine ⟨_, ?_, hholds, hkept₁.trans (hkept.mono fun d m hd => (hused d m).mpr hd),
        Or.inr ⟨c, _, by rw [hc], hnew.large, fun m hm => hnew.fresh m ((hused c m).mpr hm),
          fun d m => by rw [hnew.used d m, hused d m]⟩⟩
      rw [bind_ok hextend, if_neg (by omega), bind_ok hrun, pure_ok, hc]
    · rename_i hfull
      refine ⟨s, ?_, hnothing⟩
      rw [bind_ok (extendHeap_full h (by unfold CHUNKSIZE; omega) (by omega)), if_pos rfl, pure_ok]

end Malloc

section Free

theorem inUse_others (h : Tagged L s (l ++ ⟨n, true⟩ :: r)) (hc : c = base L + span Blk.bytes l)
    {d j : Nat} : InUse L (l ++ ⟨n, false⟩ :: r) d j ↔ InUse L (l ++ ⟨n, true⟩ :: r) d j ∧ d ≠ c := by
  have hlow := (h.whole ⟨n, true⟩ (by simp)).bytes_ge
  have hsame : Blk.bytes ⟨n, false⟩ = Blk.bytes ⟨n, true⟩ := rfl
  simp only [InUse, located_append, located_cons, List.mem_append, List.mem_cons, ← hc, hsame,
    Prod.mk.injEq, Blk.mk.injEq, Bool.true_eq_false, and_false, false_or, and_true]
  constructor
  · rintro (hd | hd)
    · have hin := located_within hd
      have hpos := (h.whole _ (List.mem_append_left _ (mem_of_located hd))).bytes_ge
      exact ⟨Or.inl hd, by omega⟩
    · have hin := located_within hd
      exact ⟨Or.inr (Or.inr hd), by omega⟩
  · rintro ⟨hd | ⟨hd, -⟩ | hd, hne⟩
    · exact Or.inl hd
    · exact absurd hd hne
    · exact Or.inr hd

/-- From `bs` to `bs'` the block at `c` was taken out of use. -/
structure Freed (L : Layout) (s s' : State) (bs bs' : List Blk) (c : Nat) : Prop where
  holds : Holds L s' bs'
  kept : Kept (fun d m => InUse L bs d m ∧ d ≠ c) s.mem s'.mem
  used : ∀ d m, InUse L bs' d m ↔ InUse L bs d m ∧ d ≠ c

theorem mmFree_ok (h : Holds L s bs) (hd : InUse L bs c n) :
    ∃ s', mmFree L (c + PAYLOAD) s = .ok ((), s') ∧
      Freed L s s' bs (release (base L) c bs) c := by
  have hblock := h.tagged.block hd
  have hsize := (h.tagged.reads hd).1
  have hbounds := h.tagged.bounds
  obtain ⟨l, r, rfl, hc⟩ := located_split hd
  have hchain := List.isChain_append.mp h.separated
  have hothers : ∀ d j, InUse L (l ++ ⟨n, false⟩ :: r) d j ↔
      InUse L (l ++ ⟨n, true⟩ :: r) d j ∧ d ≠ c := fun d j => inUse_others h.tagged hc
  have hrelease : release (base L) c (l ++ ⟨n, true⟩ :: r) =
      joinFree isFree join (l ++ ⟨n, false⟩ :: r) :=
    release_split (fun b hb => h.tagged.whole b (List.mem_append_left _ hb)) hc
  have hspan : span Blk.bytes [(⟨n, true⟩ : Blk)] = 4 * n := by simp [bytes_eq]
  have hwhole := h.tagged.whole _ (mem_of_located hd)
  obtain ⟨hmark, htagged, hframe⟩ := @Tagged.mark L s l [⟨n, true⟩] r c n false h.tagged hc hspan.symm
    hwhole
  change markBlockFree c n s = _ at hmark
  obtain ⟨c', m', hcoalesce, hmerged⟩ :=
    coalesce_ok htagged hchain.1 (List.isChain_cons.mp hchain.2.1).2 hc
  rw [hrelease]
  refine ⟨_, ?_, ⟨hmerged.tagged, joinFree_separated⟩, ?_, fun d j => ?_⟩
  · have hstarted : s.heapListp ≠ 0 := by
      rw [h.tagged.started]
      omega
    rw [mmFree, bind_ok get_ok, bind_ok (assert_ok (by simpa using hstarted)),
      if_neg (by unfold PAYLOAD; omega), Nat.add_sub_cancel, bind_ok hsize, bind_ok hmark,
      bind_ok hcoalesce, pure_ok]
  · have hbefore : Kept (fun d j => InUse L (l ++ ⟨n, true⟩ :: r) d j ∧ d ≠ c) s.mem
        (setTags s.mem c ⟨n, false⟩) := by
      intro e j he y hy hy'
      have hapart := @mid_inUse L l [⟨n, false⟩] r c hc e j ((hothers e j).mpr he) (by simp)
      have hspan' : span Blk.bytes [(⟨n, false⟩ : Blk)] = 4 * n := by simp [bytes_eq]
      have hW : WSIZE = 4 := rfl
      have hj : WSIZE * j = 4 * j := rfl
      rw [hspan'] at hapart
      rw [hspan] at hframe
      exact hframe y (by omega)
    exact hbefore.trans (hmerged.kept.mono fun d j hdj => (hothers d j).mpr hdj)
  · rw [InUse, joinFree_used]
    exact hothers d j

theorem mmFree_null (h : Tagged L s bs) : mmFree L 0 s = .ok ((), s) := by
  have hbounds := h.bounds
  have hstarted : s.heapListp ≠ 0 := by
    rw [h.started]
    omega
  rw [mmFree, bind_ok get_ok, bind_ok (assert_ok (by simpa using hstarted)), if_pos rfl, pure_ok]

end Free

section Realloc

/-- From `bs` to `bs'` the block of `n` words at `c` was replaced by one at `e`, which has as many of
its bytes as fit. -/
structure Reallocated (L : Layout) (s s' : State) (bs bs' : List Blk) (c n e size : Nat) : Prop where
  holds : Holds L s' bs'
  kept : Kept (fun d m => InUse L bs d m ∧ d ≠ c) s.mem s'.mem
  fresh : ∀ k, ¬ InUse L bs e k
  used : ∃ m, size + 2 * WSIZE ≤ 4 * m ∧
    ∀ d k, InUse L bs' d k ↔ (InUse L bs d k ∧ d ≠ c) ∨ (d = e ∧ k = m)
  copied : ∀ i < size, i + 2 * WSIZE < 4 * n → s'.mem (e + PAYLOAD + i) = s.mem (c + PAYLOAD + i)

theorem mmRealloc_ok (h : Holds L s bs) (hd : InUse L bs c n) (hpos : size ≠ 0)
    (hsize : size ≤ INT_MAX) (hfuel : bs.length < fuel) :
    ∃ s', mmRealloc L fuel (c + PAYLOAD) size s =
        .ok (some (reallocate (base L) L.memMaxAddr c size bs).1, s') ∧
      (((reallocate (base L) L.memMaxAddr c size bs).1 = 0 ∧ s' = s) ∨
        ∃ e, (reallocate (base L) L.memMaxAddr c size bs).1 = e + PAYLOAD ∧
          Reallocated L s s' bs (reallocate (base L) L.memMaxAddr c size bs).2 c n e size) := by
  have hP : PAYLOAD = 4 := rfl
  have hW : WSIZE = 4 := rfl
  have hblock := h.tagged.block hd
  simp only [bytes_eq] at hblock
  obtain ⟨s₁, hmalloc, hmalloced⟩ := mmMalloc_ok h hsize hfuel
  rw [mmRealloc, if_neg hpos, if_neg (by omega), bind_ok hmalloc, reallocate]
  generalize allocate (base L) L.memMaxAddr size bs = allocated at hmalloced
  obtain ⟨q, bs₁⟩ := allocated
  dsimp only at hmalloced ⊢
  rcases hmalloced.result with ⟨rfl, rfl, rfl⟩ | ⟨e, m, rfl, hnew⟩
  · exact ⟨s₁, by rw [if_pos rfl, if_pos rfl, pure_ok], Or.inl ⟨by rw [if_pos rfl], rfl⟩⟩
  rw [if_neg (by omega), if_neg (by omega)]
  have hlarge := hnew.large
  have hd₁ : InUse L bs₁ c n := (hnew.used c n).mpr (Or.inl hd)
  have he₁ : InUse L bs₁ e m := (hnew.used e m).mpr (Or.inr ⟨rfl, rfl⟩)
  have hce : c ≠ e := by
    rintro rfl
    exact hnew.fresh n hd
  have hsize₁ := (hmalloced.holds.tagged.reads hd₁).1
  have hblock₁ := hmalloced.holds.tagged.block he₁
  simp only [bytes_eq] at hblock₁
  have hold : sub64 (mul64 n WSIZE) (2 * WSIZE) = 4 * n - 8 := by
    have hmul : n * WSIZE = 4 * n := Nat.mul_comm ..
    rw [mul64_eq (by omega), sub64_eq (by omega) (by omega)]
    omega
  set k := if size < 4 * n - 8 then size else 4 * n - 8 with hk
  have hk' : k ≤ size ∧ k ≤ 4 * n - 8 ∧ (k = size ∨ k = 4 * n - 8) := by
    rw [hk]
    split <;> omega
  -- the copy stays between the tags of the new block
  have hcopy : Holds L { s₁ with mem := move s₁.mem (e + PAYLOAD) (c + PAYLOAD) k } bs₁ :=
    ⟨hmalloced.holds.tagged.payload he₁ fun y hy => move_outside (by omega),
      hmalloced.holds.separated⟩
  obtain ⟨s', hfree, hfreed⟩ := mmFree_ok hcopy hd₁
  refine ⟨s', ?_, Or.inr ⟨e, rfl, hfreed.holds, ?_, hnew.fresh, ⟨m, hlarge, fun d j => ?_⟩, ?_⟩⟩
  · rw [Nat.add_sub_cancel, bind_ok hsize₁]
    dsimp only
    rw [hold, ← hk, bind_ok (memmove_ok _ _ _), bind_ok hfree, pure_ok]
  · intro d j hdj
    have hbefore := hmalloced.kept d j hdj.1
    have hafter := hfreed.kept d j ⟨(hnew.used d j).mpr (Or.inl hdj.1), hdj.2⟩
    intro y hy hy'
    refine (hafter y hy hy').trans (Eq.trans ?_ (hbefore y hy hy'))
    have hde : d ≠ e := by
      rintro rfl
      exact hnew.fresh j hdj.1
    have hapart := located_apart ((hnew.used d j).mpr (Or.inl hdj.1)) he₁
    have hj : WSIZE * j = 4 * j := rfl
    simp only [bytes_eq] at hapart
    exact move_outside (by omega)
  · rw [hfreed.used, hnew.used]
    constructor
    · rintro ⟨hdj | hdj, hne⟩
      · exact Or.inl ⟨hdj, hne⟩
      · exact Or.inr hdj
    · rintro (⟨hdj, hne⟩ | ⟨rfl, rfl⟩)
      · exact ⟨Or.inl hdj, hne⟩
      · exact ⟨Or.inr ⟨rfl, rfl⟩, hce.symm⟩
  · intro i hi hi'
    have hWm : WSIZE * m = 4 * m := rfl
    have hWn : WSIZE * n = 4 * n := rfl
    have hafter := hfreed.kept e m ⟨he₁, hce.symm⟩ (e + PAYLOAD + i) (by omega) (by omega)
    exact hafter.trans ((move_inside (by omega)).trans
      (hmalloced.kept c n hd _ (by omega) (by omega)))

end Realloc

section Init

/-- `mm_init` up to the first `extend_heap`: no block between the two fences. -/
theorem mmInit_fences (hbrk : s.memBrk = L.memStartBrk) (hroom : 4 * WSIZE ≤ L.heapSize) :
    ∃ s₁, Holds L s₁ [] ∧ s₁.memBrk = L.memStartBrk + 16 ∧
      mmInit L s = (extendHeap L CHUNKSIZE >>= fun bp => if bp = 0 then pure (-1) else pure 0) s₁ := by
  have hmax : L.memMaxAddr = L.memStartBrk + L.heapSize := rfl
  have hW : WSIZE = 4 := rfl
  have hbase : base L = L.memStartBrk + 12 := rfl
  have hstart := L.start_pos
  have hsbrk : memSbrk L (4 * (WSIZE : Nat)) s =
      .ok (L.memStartBrk, { s with memBrk := L.memStartBrk + 16 }) := by
    rw [memSbrk, bind_ok get_ok, if_neg (by omega), bind_ok (modify_ok _), pure_ok, hbrk]
    rfl
  set m₁ := store s.mem (L.memStartBrk + 2 * WSIZE) WSIZE FENCE with hm₁
  set m₂ := store m₁ (L.memStartBrk + 3 * WSIZE) WSIZE FENCE with hm₂
  refine ⟨{ s with
      mem := m₂
      memBrk := L.memStartBrk + 16
      heapListp := L.memStartBrk + 3 * WSIZE },
    ⟨⟨?_, by simp, ?_, by simp, rfl, rfl, ?_⟩, List.isChain_nil⟩, rfl, ?_⟩
  · change load m₂ (L.memStartBrk + 2 * WSIZE) WSIZE = FENCE
    rw [hm₂, load_store_disjoint (by omega), hm₁, load_store_same (by decide)]
  · change load m₂ (L.memStartBrk + 3 * WSIZE) WSIZE = FENCE
    rw [hm₂, load_store_same (by decide)]
  · simp only
    omega
  · rw [mmInit, bind_ok hsbrk, if_neg (by omega), bind_ok (writeWord_ok _ _ (by omega)),
      bind_ok (modify_ok _), bind_ok (writeWord_ok _ _ (by omega))]

/-- `mm_init` when the heap has room for the two fences and the first block. -/
theorem mmInit_ok (hbrk : s.memBrk = L.memStartBrk)
    (hroom : 4 * WSIZE + 4 * CHUNKSIZE ≤ L.heapSize) :
    ∃ s', mmInit L s = .ok (0, s') ∧ Holds L s' [⟨CHUNKSIZE, false⟩] := by
  have hmax : L.memMaxAddr = L.memStartBrk + L.heapSize := rfl
  have hW : WSIZE = 4 := rfl
  have hbase : base L = L.memStartBrk + 12 := rfl
  obtain ⟨s₁, hholds, hbrk₁, hinit⟩ := mmInit_fences hbrk (by omega)
  obtain ⟨c, s', hrun, hholds', -, l, k, -, hc⟩ := extendHeap_ok hholds
    (⟨by decide, by decide⟩ : Whole ⟨CHUNKSIZE, false⟩) (by omega)
  refine ⟨s', ?_, hholds'⟩
  rw [hinit, bind_ok hrun, if_neg (by omega), pure_ok]

theorem mmInit_full (hbrk : s.memBrk = L.memStartBrk)
    (hroom : L.heapSize < 4 * WSIZE + 4 * CHUNKSIZE) : ∃ s', mmInit L s = .ok (-1, s') := by
  have hmax : L.memMaxAddr = L.memStartBrk + L.heapSize := rfl
  have hW : WSIZE = 4 := rfl
  by_cases hfences : 4 * WSIZE ≤ L.heapSize
  · obtain ⟨s₁, hholds, hbrk₁, hinit⟩ := mmInit_fences hbrk hfences
    refine ⟨s₁, ?_⟩
    rw [hinit, bind_ok (extendHeap_full hholds (by decide) (by omega)), if_pos rfl, pure_ok]
  · have hsbrk : memSbrk L (4 * (WSIZE : Nat)) s = .ok (0, s) := by
      rw [memSbrk, bind_ok get_ok, if_pos (by omega), pure_ok]
    exact ⟨s, by rw [mmInit, bind_ok hsbrk, if_pos rfl, pure_ok]⟩

end Init

end ComputerSystems.Implicit.Allocator
