/- Freeing live pointers in any order leads to the same heap. -/

import ComputerSystems.Malloc.Replays

set_option autoImplicit false
set_option relaxedAutoImplicit false

namespace ComputerSystems.Malloc.FreeOrder

open ComputerSystems.Memory.Tiling
open ComputerSystems.Systems.Runs
open ComputerSystems.Malloc.Machine
open ComputerSystems.Malloc.Mm
open ComputerSystems.Malloc.Blocks
open ComputerSystems.Malloc.Operations
open ComputerSystems.Malloc.Representation
open ComputerSystems.Malloc.Place
open ComputerSystems.Malloc.Allocator
open ComputerSystems.Malloc.Client
open ComputerSystems.Malloc.Safety
open ComputerSystems.Malloc.Offsets
open ComputerSystems.Malloc.Replays

section Heaps

variable {a : Nat} {bs cs : List Blk} {lists lists' : Lists}

theorem blocks_unique (ho : Ok a bs lists) (ho' : Ok a cs lists')
    (hspan : span Blk.bytes bs = span Blk.bytes cs)
    (hused : ∀ d m, (d, ⟨m, true⟩) ∈ located Blk.bytes a bs ↔
      (d, ⟨m, true⟩) ∈ located Blk.bytes a cs) : bs = cs := by
  have hsegments : ∀ d x, x.used = true →
      ((d, x) ∈ located Blk.bytes a bs ↔ (d, x) ∈ located Blk.bytes a cs) := by
    rintro d ⟨m, u⟩ hu
    obtain rfl : u = true := hu
    exact hused d m
  refine tiling_ext ho.pos ho'.pos ho.noAdjacent ho'.noAdjacent hspan hsegments ?_
  rintro ⟨m, u⟩ ⟨n, v⟩ hu hv hlen
  obtain rfl : u = false := Bool.not_eq_true _ ▸ hu
  obtain rfl : v = false := Bool.not_eq_true _ ▸ hv
  rw [bytes_eq, bytes_eq] at hlen
  rw [Nat.eq_of_mul_eq_mul_left (by decide) hlen]

theorem lists_unique (ho : Ok a bs lists) (ho' : Ok a bs lists') {i d : Nat}
    (hi : i < FREE_LISTS_SIZE) : d ∈ lists i ↔ d ∈ lists' i :=
  (ho.listed i hi d).trans (ho'.listed i hi d).symm

theorem single_of_unused (ho : Ok a bs lists)
    (hunused : ∀ d m, (d, ⟨m, true⟩) ∉ located Blk.bytes a bs) :
    bs = [] ∨ ∃ n, bs = [⟨n, false⟩] := by
  have hfree : ∀ (l r : List Blk) b, bs = l ++ b :: r → b.used = false := by
    rintro l r ⟨m, u⟩ rfl
    cases u with
    | false => rfl
    | true => exact absurd (located_middle a l r ⟨m, true⟩) (hunused _ m)
  match bs, ho.noAdjacent, hfree with
  | [], _, _ => exact Or.inl rfl
  | [⟨n, u⟩], _, hfree =>
    obtain rfl : u = false := hfree [] [] _ rfl
    exact Or.inr ⟨n, rfl⟩
  | x :: y :: bs, hchain, hfree =>
    rw [List.isChain_cons_cons, hfree [] (y :: bs) x rfl, hfree [x] bs y rfl] at hchain
    rcases hchain.1 with h | h <;> cases h

end Heaps

section Frees

variable {L : Layout} {c : Session} {h : Heap} {ps qs : List Nat} {r : Except Fault Session}

/-- Behind the frees the blocks in use are those whose pointers were not freed. -/
structure Freed (L : Layout) (h h' : Heap) (c c' : Session) (ps : List Nat) : Prop where
  holds : Holds L c'.state h'
  owns : Owns (InUse L h') c'.live
  brk : c'.state.memBrk = c.state.memBrk
  used : ∀ d m, InUse L h' d m ↔ InUse L h d m ∧ d + PAYLOAD ∉ ps

theorem free_one {p : Nat} (hs : Holds L c.state h) (ho : Owns (InUse L h) c.live)
    (hp : p ∈ c.live.map Prod.fst) :
    ∃ c' h', next L c (.free p) = some (.ok c') ∧ Freed L h h' c c' [p] ∧
      c'.live = c.live.filter fun a => a.1 ≠ p := by
  obtain ⟨d, m, rfl, hd⟩ := ho.block hp
  obtain ⟨s', hrun, hleads, hused⟩ := mmFree_ok hs hd
  refine ⟨⟨s', c.live.filter fun a => a.1 ≠ d + PAYLOAD⟩, _, ?_,
    ⟨hleads.holds, ho.erase hused, hleads.brk, fun e k => ?_⟩, rfl⟩
  · rw [next, if_pos hp, hrun]
    rfl
  · rw [hused, List.mem_singleton, Nat.add_right_cancel_iff]

theorem frees_ok (hs : Holds L c.state h) (ho : Owns (InUse L h) c.live) (hnodup : ps.Nodup)
    (hlive : ∀ p ∈ ps, p ∈ c.live.map Prod.fst) :
    ∃ c' h', (system L).exec (.ok c) (ps.map .free) = some (.ok c') ∧ Freed L h h' c c' ps := by
  induction ps generalizing c h with
  | nil => exact ⟨c, h, rfl, hs, ho, rfl, fun d m => by simp⟩
  | cons p ps ih =>
    rw [List.nodup_cons] at hnodup
    obtain ⟨c₁, h₁, hnext, hfreed, hrest⟩ := free_one hs ho (hlive p List.mem_cons_self)
    have hlive₁ : ∀ q ∈ ps, q ∈ c₁.live.map Prod.fst := by
      intro q hq
      obtain ⟨⟨q, n⟩, hmem, rfl⟩ := List.mem_map.mp (hlive q (List.mem_cons_of_mem p hq))
      have hne : q ≠ p := fun heq => hnodup.1 (heq ▸ hq)
      rw [hrest]
      exact List.mem_map.mpr ⟨(q, n), List.mem_filter.mpr ⟨hmem, decide_eq_true hne⟩, rfl⟩
    obtain ⟨c', h', hexec, hfreed'⟩ := ih hfreed.holds hfreed.owns hnodup.2 hlive₁
    refine ⟨c', h', ?_, hfreed'.holds, hfreed'.owns, hfreed'.brk.trans hfreed.brk, fun d m => ?_⟩
    · have hnext : (system L).next (.ok c) (.free p) = some (.ok c₁) := hnext
      rw [List.map_cons, System.exec, hnext, Option.bind_some, hexec]
    · rw [hfreed'.used, hfreed.used, List.mem_singleton, List.mem_cons, not_or, and_assoc]

theorem freed_unique {h₁ h₂ : Heap} {c₁ c₂ : Session} (h₁f : Freed L h h₁ c c₁ ps)
    (h₂f : Freed L h h₂ c c₂ qs) (hsame : ∀ p, p ∈ ps ↔ p ∈ qs) :
    h₁.blocks = h₂.blocks ∧ ∀ i < FREE_LISTS_SIZE, ∀ d, d ∈ h₁.lists i ↔ d ∈ h₂.lists i := by
  have hends₁ := h₁f.holds.ends
  have hends₂ := h₂f.holds.ends
  rw [h₁f.brk] at hends₁
  rw [h₂f.brk] at hends₂
  have hblocks : h₁.blocks = h₂.blocks := by
    refine blocks_unique h₁f.holds.ok h₂f.holds.ok (by omega) fun d m => ?_
    have hiff : InUse L h₁ d m ↔ InUse L h₂ d m := by rw [h₁f.used, h₂f.used, hsame]
    exact hiff
  have hok := h₁f.holds.ok
  rw [hblocks] at hok
  exact ⟨hblocks, fun i hi d => lists_unique hok h₂f.holds.ok hi⟩

/-- When all live pointers are freed, a single free block is left, or nothing if the heap was never
extended. -/
theorem freed_all {h' : Heap} {c' : Session} (ho : Owns (InUse L h) c.live)
    (hf : Freed L h h' c c' ps) (hall : ∀ p ∈ c.live.map Prod.fst, p ∈ ps) :
    if c.state.memBrk = L.memStartBrk + 4 * WSIZE then h'.blocks = []
      else ∃ n, h'.blocks = [⟨n, false⟩] := by
  have hunused : ∀ d m, (d, ⟨m, true⟩) ∉ located Blk.bytes (base L) h'.blocks := by
    intro d m hd
    obtain ⟨hused, hnot⟩ := (hf.used d m).mp hd
    obtain ⟨n, hn⟩ := (ho.owned d).mp ⟨m, hused⟩
    exact hnot (hall _ (List.mem_map.mpr ⟨_, hn, rfl⟩))
  have hends := hf.holds.ends
  rw [hf.brk] at hends
  have hbase : base L = L.memStartBrk + 12 := rfl
  have hW : WSIZE = 4 := rfl
  rcases single_of_unused hf.holds.ok hunused with hnil | ⟨n, hsingle⟩
  · rw [hnil, span_nil] at hends
    rw [if_pos (by omega)]
    exact hnil
  · have hpos := hf.holds.ok.pos ⟨n, false⟩ (by rw [hsingle]; exact List.mem_cons_self)
    rw [hsingle, span_cons, span_nil] at hends
    rw [if_neg (by omega)]
    exact ⟨n, hsingle⟩

/-- Distinct live pointers, freed in any two orders, lead to heaps with the same blocks and the same
members of the lists. -/
theorem free_order (hr : ReachableBy (system L) (Avoids L) r) :
    ∃ c, r = .ok c ∧ ∀ ps qs : List Nat, ps.Nodup → (∀ p ∈ ps, p ∈ c.live.map Prod.fst) →
      ps.Perm qs → ∃ c₁ c₂ bs lists₁ lists₂,
        (system L).exec (.ok c) (ps.map .free) = some (.ok c₁) ∧
        (system L).exec (.ok c) (qs.map .free) = some (.ok c₂) ∧
        HeapInvariant L c₁ bs lists₁ ∧ HeapInvariant L c₂ bs lists₂ ∧
        (∀ i < FREE_LISTS_SIZE, ∀ d, d ∈ lists₁ i ↔ d ∈ lists₂ i) ∧
        ((∀ p ∈ c.live.map Prod.fst, p ∈ ps) →
          if c.state.memBrk = L.memStartBrk + 4 * WSIZE then bs = [] else ∃ n, bs = [⟨n, false⟩]) := by
  obtain ⟨c, h, rfl, hs, ho⟩ := sound_of_avoids hr
  refine ⟨c, rfl, fun ps qs hnodup hlive hperm => ?_⟩
  obtain ⟨c₁, h₁, hexec₁, hf₁⟩ := frees_ok hs ho hnodup hlive
  obtain ⟨c₂, h₂, hexec₂, hf₂⟩ := frees_ok hs ho (hperm.nodup_iff.mp hnodup)
    fun p hp => hlive p (hperm.mem_iff.mpr hp)
  obtain ⟨hblocks, hlists⟩ := freed_unique hf₁ hf₂ fun p => hperm.mem_iff
  have hi₂ := heapInvariant_of_holds hf₂.holds hf₂.owns
  rw [← hblocks] at hi₂
  exact ⟨c₁, c₂, h₁.blocks, h₁.lists, h₂.lists, hexec₁, hexec₂,
    heapInvariant_of_holds hf₁.holds hf₁.owns, hi₂, hlists, freed_all ho hf₁⟩

/-- Two blocks of 32 words are freed in either order. -/
theorem free_order_sample : ∃ c c₁ c₂ n lists₁ lists₂,
    (system (sample true)).exec (.ok c) [.free 4112, .free 4240] = some (.ok c₁) ∧
      (system (sample true)).exec (.ok c) [.free 4240, .free 4112] = some (.ok c₂) ∧
        HeapInvariant (sample true) c₁ [⟨n, false⟩] lists₁ ∧
          HeapInvariant (sample true) c₂ [⟨n, false⟩] lists₂ := by
  have hplanned : (plan MAX_HEAP [.malloc 120, .malloc 120]).map (fun P => P.heap.blocks) =
      some [⟨32, true⟩, ⟨32, true⟩] := by decide
  obtain ⟨P, hplan, hblocks⟩ := Option.map_eq_some_iff.mp hplanned
  obtain ⟨c, record, hreplay, hf⟩ := exists_replay (L := sample true) (by decide) hplan
  obtain ⟨c', heq, hall⟩ :=
    free_order (avoids_of_no_realloc (reachable_of_replay hreplay rfl))
  cases heq
  have hused : ∀ d m, InUse (sample true) (shift 4096 P.heap) d m ↔
      (d, (⟨m, true⟩ : Blk)) ∈ [(4108, ⟨32, true⟩), (4236, (⟨32, true⟩ : Blk))] := by
    intro d m
    change _ ∈ located Blk.bytes 4108 P.heap.blocks ↔ _
    rw [hblocks]
    rfl
  have hlive : ∀ p, p ∈ c.live.map Prod.fst ↔ p ∈ [4112, 4240] := by
    intro p
    constructor
    · intro hp
      obtain ⟨d, m, rfl, hd⟩ := hf.owns.block hp
      have hd := (hused d m).mp hd
      simp only [List.mem_cons, Prod.mk.injEq, List.not_mem_nil, or_false] at hd ⊢
      unfold PAYLOAD
      omega
    · intro hp
      have hd : InUse (sample true) (shift 4096 P.heap) (p - PAYLOAD) 32 := by
        rw [hused]
        simp only [List.mem_cons, List.not_mem_nil, or_false] at hp
        rcases hp with rfl | rfl <;> decide
      obtain ⟨n, hn⟩ := (hf.owns.owned _).mp ⟨32, hd⟩
      refine List.mem_map.mpr ⟨_, hn, ?_⟩
      simp only [List.mem_cons, List.not_mem_nil, or_false] at hp
      rcases hp with rfl | rfl <;> rfl
  obtain ⟨c₁, c₂, bs, lists₁, lists₂, hexec₁, hexec₂, hi₁, hi₂, -, hbs⟩ :=
    hall [4112, 4240] [4240, 4112] (by decide) (fun p hp => (hlive p).mpr hp) (by decide)
  have hbrk : c.state.memBrk = 4368 := by
    have hends := hf.holds.ends
    change 4108 + span Blk.bytes P.heap.blocks + WSIZE = _ at hends
    rw [hblocks] at hends
    exact hends.symm
  have hsingle := hbs fun p hp => (hlive p).mp hp
  rw [hbrk, if_neg (by decide)] at hsingle
  obtain ⟨n, rfl⟩ := hsingle
  exact ⟨c, c₁, c₂, n, lists₁, lists₂, hexec₁, hexec₂, hi₁, hi₂⟩

/-- Behind `mm_init` nothing is live, so all live pointers have been freed, but nothing is free. -/
theorem empty_heap : ∃ c, Reachable (system (sample true)) (.ok c) ∧ c.live = [] ∧
    ¬ ∃ n lists, HeapInvariant (sample true) c [⟨n, false⟩] lists := by
  have hroom : 4 * WSIZE ≤ (sample true).heapSize := by decide
  have hbrk : State.memBrk ⟨fun _ => 0, (sample true).memStartBrk, 0, fun _ => 0, []⟩ =
      (sample true).memStartBrk := rfl
  obtain ⟨s, hinit, hs⟩ := mmInit_ok hbrk rfl hroom
  refine ⟨⟨s, []⟩, .start ⟨_, s, hbrk, rfl, hinit, rfl⟩, rfl, ?_⟩
  rintro ⟨n, lists, hi⟩
  have hends := hs.ends
  have htiled := hi.tiled
  have hmin := (hi.sizes ⟨n, false⟩ List.mem_cons_self).1
  unfold MIN_BLOCK_SIZE_WORDS at hmin
  rw [span_cons, span_nil, bytes_eq] at htiled
  rw [span_nil] at hends
  dsimp only at htiled hmin
  unfold WSIZE at *
  omega

end Frees

end ComputerSystems.Malloc.FreeOrder
