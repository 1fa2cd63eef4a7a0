/- What `mm_realloc` does to the contents of payloads, along every run of a client. -/

import ComputerSystems.Malloc.Safety

set_option autoImplicit false
set_option relaxedAutoImplicit false

namespace ComputerSystems.Malloc.Contents

open ComputerSystems.Memory.Bytes
open ComputerSystems.Memory.Tiling
open ComputerSystems.Systems.Runs
open ComputerSystems.Systems.Computations (bind_ok bind_inv pure_ok get_ok)
open ComputerSystems.Malloc.Machine
open ComputerSystems.Malloc.Mm
open ComputerSystems.Malloc.Blocks
open ComputerSystems.Malloc.Representation
open ComputerSystems.Malloc.Place
open ComputerSystems.Malloc.Allocator
open ComputerSystems.Malloc.Realloc
open ComputerSystems.Malloc.Client
open ComputerSystems.Malloc.Safety

/-- The payload bytes of a block of `m` words. -/
def payloadBytes (m : Nat) : Nat := WSIZE * m - 2 * WSIZE

/-- From the blocks `bs` to the blocks `bs'` the payload at `p` became one for `n` bytes at `q`, with
its contents, and every other payload kept its bytes. -/
structure Preserved (L : Layout) (s s' : State) (bs bs' : List Blk) (p n q : Nat) : Prop where
  offered : ∃ d k, q = d + PAYLOAD ∧ (d, ⟨k, true⟩) ∈ located Blk.bytes (base L) bs' ∧
    n ≤ payloadBytes k
  copied : ∀ d m, p = d + PAYLOAD → (d, ⟨m, true⟩) ∈ located Blk.bytes (base L) bs →
    ∀ i < min (payloadBytes m) n, s'.mem (q + i) = s.mem (p + i)
  others : ∀ d m, p ≠ d + PAYLOAD → (d, ⟨m, true⟩) ∈ located Blk.bytes (base L) bs →
    Agree s.mem s'.mem (d + PAYLOAD) (d + PAYLOAD + payloadBytes m)

/-- The call `mm_realloc (p, n)` preserves contents if it returns anything but NULL. -/
def KeepsContents (L : Layout) (c : Session) (bs : List Blk) (p n : Nat) : Prop :=
  ∀ q s', mmRealloc L p n c.state = .ok (q, s') → q ≠ 0 →
    ∃ c' bs' lists', next L c (.realloc p n) = some (.ok c') ∧ c'.state = s' ∧
      HeapInvariant L c' bs' lists' ∧ Preserved L c.state s' bs bs' p n q

section Preserved

variable {L : Layout} {s s' : State} {h h' : Heap} {c m n q : Nat}

theorem preserved_of_reallocated (hs : Holds L s h) (hc : InUse L h c m)
    (hre : Reallocated L s s' h h' c m n q) :
    Preserved L s s' h.blocks h'.blocks (c + PAYLOAD) n (q + PAYLOAD) := by
  have hW : WSIZE = 4 := rfl
  have hP : PAYLOAD = 4 := rfl
  constructor
  · obtain ⟨k, hlarge, hused⟩ := hre.used
    have hq : InUse L h' q k := (hused q k).mpr (Or.inr ⟨rfl, rfl⟩)
    have hk : payloadBytes k = 4 * k - 8 := rfl
    exact ⟨q, k, rfl, hq, by omega⟩
  · intro d k hd hk i hi
    obtain rfl : c = d := Nat.add_right_cancel hd
    cases located_unique hs.ok.pos hc hk
    have hm : payloadBytes m = 4 * m - 2 * WSIZE := rfl
    exact hre.copied i (by omega) (by omega)
  · intro d k hd hk
    have hne : d ≠ c := fun heq => hd (heq ▸ rfl)
    have hbytes : payloadBytes k = 4 * k - 8 := rfl
    have hshift : WSIZE * k = 4 * k := rfl
    have hmin := (hs.ok.sizes _ (mem_of_located hk)).1
    unfold MIN_BLOCK_SIZE_WORDS at hmin
    simp only at hmin
    exact (hre.kept d k ⟨hk, hne⟩).mono (by omega) (by omega)

theorem keepsContents_of_holds {c : Session} {p : Nat} (hs : Holds L c.state h)
    (ho : Owns (InUse L h) c.live) (hp : p ∈ c.live.map Prod.fst) (hpos : 0 < n)
    (hn : n ≤ INT_MAX) (hgood : ¬ UnitGrowth L c.state p n) :
    KeepsContents L c h.blocks p n := by
  intro q s' hrun hq
  obtain ⟨d, m, rfl, hd⟩ := ho.block hp
  obtain ⟨q', s'', hrun', hresult⟩ := mmRealloc_ok hs hd hpos hn hgood
  rw [hrun'] at hrun
  cases hrun
  rcases hresult with ⟨rfl, -⟩ | ⟨e, h', rfl, hre⟩
  · exact absurd rfl hq
  refine ⟨⟨s', _⟩, h'.blocks, h'.lists, ?_, rfl,
    heapInvariant_of_holds hre.holds (owns_reallocated ho hre), preserved_of_reallocated hs hd hre⟩
  rw [next, if_pos ⟨hp, hpos, hn⟩, hrun']
  change some (Except.ok (Session.mk _ (if _ = 0 then _ else _))) = _
  rw [if_neg hq]

end Preserved

/-- Along every run that avoids the defect of `mm_realloc`, every call that does so as well preserves
contents. -/
theorem realloc_contents {L : Layout} {r : Except Fault Session}
    (hr : ReachableBy (system L) (Avoids L) r) :
    ∃ c bs lists, r = .ok c ∧ HeapInvariant L c bs lists ∧
      ∀ p n, p ∈ c.live.map Prod.fst → 0 < n → n ≤ INT_MAX → ¬ UnitGrowth L c.state p n →
        KeepsContents L c bs p n := by
  obtain ⟨c, h, rfl, hs, ho⟩ := sound_of_avoids hr
  refine ⟨c, h.blocks, h.lists, rfl, heapInvariant_of_holds hs ho, ?_⟩
  intro p n hp hpos hn hgood
  exact keepsContents_of_holds hs ho hp hpos hn hgood

theorem realloc_contents_sample :
    ∃ c bs lists, c.live = [(4112, 120)] ∧ HeapInvariant (sample true) c bs lists ∧
      ¬ UnitGrowth (sample true) c.state 4112 200 ∧
      KeepsContents (sample true) c bs 4112 200 := by
  obtain ⟨c, lists, hr, hlive, hs⟩ := sample_malloc true
  have havoids : ReachableBy (system (sample true)) (Avoids (sample true)) (.ok c) :=
    avoids_of_no_realloc hr
  obtain ⟨c', bs, lists, heq, hi, hall⟩ := realloc_contents havoids
  cases heq
  have hgood : ¬ UnitGrowth (sample true) c.state 4112 200 := fun hbad => by
    have hwords := ((unitGrowth_iff (l := []) (m := 32) (r := []) (c := 4108) 200 hs rfl).mp hbad).1
    revert hwords
    decide
  exact ⟨c, bs, lists, hlive, hi, hgood,
    hall 4112 200 (by simp [hlive]) (by decide) (by decide) hgood⟩

/-- A production build whose heap starts at `0x800000000`. -/
def high : Layout where
  memStartBrk := 2 ^ 35
  heapSize := MAX_HEAP
  freeLists := 4096
  ndebug := true
  start_pos := by decide
  start_aligned := by decide
  heapSize_le := (sample true).heapSize_le
  start_below := by decide
  lists_pos := (sample true).start_pos
  lists_below := by decide
  lists_apart := by decide

def stale : State where
  mem a := if a = 2 ^ 35 + 148 ∨ a = 2 ^ 35 + 160 then 8 else 0
  memBrk := 2 ^ 35
  heapListp := 0
  mid _ := 0
  calls := []

/-- `mm_init`, `mm_malloc (120)`, `mm_realloc` of the result to 121 bytes: the last block grows by
four words, whose links are its own tags and the stale bytes, and unlinking them writes into the
payload. -/
theorem realloc_overwrites :
    ∃ c q s', Reachable (system high) (.ok c) ∧ c.live = [(2 ^ 35 + 16, 120)] ∧
      mmRealloc high (2 ^ 35 + 16) 121 c.state = .ok (q, s') ∧ q = 2 ^ 35 + 16 ∧
      s'.mem q ≠ c.state.mem (2 ^ 35 + 16) := by
  have hrun : ((do
      let i ← mmInit high
      let p ← mmMalloc high 120
      let s ← get
      let q ← mmRealloc high (2 ^ 35 + 16) 121
      let s' ← get
      return (i, p, q, s.mem (2 ^ 35 + 16), s'.mem (2 ^ 35 + 16)) : Prog _) stale).map Prod.fst =
      .ok (0, 2 ^ 35 + 16, 2 ^ 35 + 16, 0, 1) := by decide +kernel
  obtain ⟨t, hrun⟩ := exists_of_result hrun
  obtain ⟨i, s₀, hinit, hrun⟩ := bind_inv hrun
  obtain ⟨p, s, hmalloc, hrun⟩ := bind_inv hrun
  rw [bind_ok get_ok] at hrun
  obtain ⟨q, s', hrealloc, hrun⟩ := bind_inv hrun
  rw [bind_ok get_ok, pure_ok] at hrun
  simp only [Except.ok.injEq, Prod.mk.injEq] at hrun
  obtain ⟨⟨rfl, rfl, rfl, hold, hnew⟩, -⟩ := hrun
  refine ⟨⟨s, [(2 ^ 35 + 16, 120)]⟩, _, s', ?_, rfl, hrealloc, rfl, ?_⟩
  · refine .step (i := .malloc 120) (.start ⟨stale, s₀, rfl, rfl, hinit, rfl⟩) trivial ?_
    change next high ⟨s₀, []⟩ (.malloc 120) = _
    rw [next, if_pos (by decide), hmalloc]
    rfl
  · exact fun heq => absurd (hnew.symm.trans (heq.trans hold)) (by decide)

end ComputerSystems.Malloc.Contents
