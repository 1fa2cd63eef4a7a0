/- What holds of the heap, of live payloads and of `mm_realloc` along every run of a client. -/

import ComputerSystems.Malloc.Client

set_option autoImplicit false
set_option relaxedAutoImplicit false

namespace ComputerSystems.Malloc.Safety

open ComputerSystems.Memory.Bytes
open ComputerSystems.Memory.Tiling
open ComputerSystems.Lists.DoublyLinked
open ComputerSystems.Systems.Runs
open ComputerSystems.Malloc.Machine
open ComputerSystems.Malloc.ListC
open ComputerSystems.Malloc.Mm
open ComputerSystems.Malloc.Blocks
open ComputerSystems.Malloc.Operations
open ComputerSystems.Malloc.FreeLists
open ComputerSystems.Malloc.Representation
open ComputerSystems.Malloc.Coalesce
open ComputerSystems.Malloc.FindFit
open ComputerSystems.Malloc.Place
open ComputerSystems.Malloc.Allocator
open ComputerSystems.Malloc.Realloc
open ComputerSystems.Malloc.Client

/-- The blocks `bs`, which start at `base L`, tile the words between the two fences; `lists` are
the free lists and `live` the live allocations. -/
structure HeapInvariant (L : Layout) (c : Session) (bs : List Blk) (lists : Lists) : Prop where
  prologue : load c.state.mem (base L - WSIZE) WSIZE = FENCE
  epilogue : load c.state.mem (c.state.memBrk - WSIZE) WSIZE = FENCE
  tiled : base L + span Blk.bytes bs = c.state.memBrk - WSIZE
  tags : ∀ d b, (d, b) ∈ located Blk.bytes (base L) bs → Marked c.state.mem d b
  sizes : ∀ b ∈ bs, MIN_BLOCK_SIZE_WORDS ≤ b.size ∧ b.size % 4 = 0
  aligned : ∀ d b, (d, b) ∈ located Blk.bytes (base L) bs → (d + PAYLOAD) % ALIGNMENT = 0
  noAdjacent : bs.IsChain fun a b => a.used = true ∨ b.used = true
  linked : ∀ i < FREE_LISTS_SIZE, DList (linksOf c.state.mem) (listHead (freeList L i))
    ((lists i).map (· + ELEM)) (listTail (freeList L i))
  listed : ∀ i < FREE_LISTS_SIZE, ∀ d, d ∈ lists i ↔
    ∃ size, (d, ⟨size, false⟩) ∈ located Blk.bytes (base L) bs ∧ findFitIndex size = some i
  once : ∀ i < FREE_LISTS_SIZE, (lists i).Nodup
  owned : ∀ d, (∃ size, (d, ⟨size, true⟩) ∈ located Blk.bytes (base L) bs) ↔
    ∃ n, (d + PAYLOAD, n) ∈ c.live
  large : ∀ p n, (p, n) ∈ c.live → ∃ d size, p = d + PAYLOAD ∧
    (d, ⟨size, true⟩) ∈ located Blk.bytes (base L) bs ∧ n + 2 * WSIZE ≤ WSIZE * size
  distinct : (c.live.map Prod.fst).Nodup

section Invariant

variable {L : Layout} {c : Session} {h : Heap} {r : Except Fault Session}

theorem located_aligned {bs : List Blk} {a d : Nat} {b : Blk} (ha : a % 16 = 12)
    (hsizes : ∀ b ∈ bs, b.size % 4 = 0) (hd : (d, b) ∈ located Blk.bytes a bs) :
    d % 16 = 12 := by
  induction bs generalizing a with
  | nil => simp at hd
  | cons x bs ih =>
    simp only [located_cons, List.mem_cons, Prod.mk.injEq] at hd
    rcases hd with ⟨rfl, -⟩ | hd
    · exact ha
    · have hx := hsizes x List.mem_cons_self
      have hbytes : x.bytes = 4 * x.size := rfl
      exact ih (by omega) (fun y hy => hsizes y (List.mem_cons_of_mem x hy)) hd

theorem base_aligned : base L % 16 = 12 := by
  have hstart := L.start_aligned
  unfold ALIGNMENT at hstart
  unfold base WSIZE
  omega

theorem heapInvariant_of_holds (hs : Holds L c.state h) (ho : Owns (InUse L h) c.live) :
    HeapInvariant L c h.blocks h.lists where
  prologue := hs.repr.prologue
  epilogue := hs.repr.epilogue
  tiled := Nat.eq_sub_of_add_eq hs.ends
  tags := hs.repr.tags
  sizes := hs.ok.sizes
  aligned d b hd := by
    have hmod := located_aligned base_aligned (fun b hb => (hs.ok.sizes b hb).2) hd
    unfold PAYLOAD ALIGNMENT
    omega
  noAdjacent := hs.ok.noAdjacent
  linked := hs.repr.listed
  listed := hs.ok.listed
  once := hs.ok.nodup
  owned := ho.owned
  large := ho.large
  distinct := ho.distinct

theorem HeapInvariant.pos {bs : List Blk} {lists : Lists} (hi : HeapInvariant L c bs lists) :
    ∀ b ∈ bs, 0 < b.bytes := by
  intro b hb
  have hsize := (hi.sizes b hb).1
  unfold MIN_BLOCK_SIZE_WORDS at hsize
  unfold Blk.bytes WSIZE
  omega

theorem HeapInvariant.unique {bs bs' : List Blk} {lists lists' : Lists}
    (hi : HeapInvariant L c bs lists) (hi' : HeapInvariant L c bs' lists') :
    bs = bs' ∧ ∀ i < FREE_LISTS_SIZE, (lists i).Perm (lists' i) := by
  have hspan : span Blk.bytes bs = span Blk.bytes bs' :=
    Nat.add_left_cancel (hi.tiled.trans hi'.tiled.symm)
  obtain rfl : bs = bs' := located_ext (P := Marked c.state.mem)
    (fun _ _ _ hx hy => Marked.unique hx hy) hi.pos hi'.pos hspan hi.tags hi'.tags
  refine ⟨rfl, fun i hlt => (List.perm_ext_iff_of_nodup (hi.once i hlt) (hi'.once i hlt)).mpr ?_⟩
  intro d
  exact (hi.listed i hlt d).trans (hi'.listed i hlt d).symm

theorem sound_start (hr : (system L).init r) : Sound L r := by
  obtain ⟨s, s', hbrk, hcalls, hinit, rfl⟩ := hr
  by_cases hroom : 4 * WSIZE ≤ L.heapSize
  · obtain ⟨t, hrun, ht⟩ := mmInit_ok hbrk hcalls hroom
    rw [hrun] at hinit
    cases hinit
    exact ⟨_, _, rfl, ht, ⟨fun d => by simp [InUse], by simp, by simp⟩⟩
  · rw [mmInit_full hbrk (by omega)] at hinit
    cases hinit

/-- A step that does not meet the defect of `mm_realloc` keeps the invariant. -/
theorem sound_step {op : Op} {r' : Except Fault Session} (hr : Sound L r)
    (hgood : ∀ c p size, r = .ok c → op = .realloc p size → ¬ UnitGrowth L c.state p size)
    (hnext : (system L).next r op = some r') : Sound L r' := by
  obtain ⟨c, h, rfl, hs, ho⟩ := hr
  have hnext : next L c op = some r' := hnext
  cases op with
  | malloc size =>
    have hsize : size ≤ INT_MAX := by
      by_contra hlarge
      rw [next, if_neg hlarge] at hnext
      cases hnext
    obtain ⟨c', h', hrun, hs', ho', -⟩ := malloc_sound hs ho hsize
    rw [hrun] at hnext
    cases hnext
    exact ⟨c', h', rfl, hs', ho'⟩
  | free p =>
    have hp : p ∈ c.live.map Prod.fst := by
      by_contra hdead
      rw [next, if_neg hdead] at hnext
      cases hnext
    obtain ⟨c', h', hrun, hs', ho', -, -⟩ := free_sound hs ho hp
    rw [hrun] at hnext
    cases hnext
    exact ⟨c', h', rfl, hs', ho'⟩
  | realloc p size =>
    have hargs : p ∈ c.live.map Prod.fst ∧ 0 < size ∧ size ≤ INT_MAX := by
      by_contra hdead
      rw [next, if_neg hdead] at hnext
      cases hnext
    obtain ⟨c', h', q, hrun, hs', ho', -⟩ :=
      realloc_sound hs ho hargs.1 hargs.2.1 hargs.2.2 (hgood c p size rfl rfl)
    rw [hrun] at hnext
    cases hnext
    exact ⟨c', h', rfl, hs', ho'⟩
  | write a v =>
    obtain ⟨c', rfl, hs', ho'⟩ := write_sound hs ho hnext
    exact ⟨c', h, rfl, hs', ho'⟩

/-- The invariant holds along all runs of `mm_malloc`, `mm_free` and client writes. -/
theorem sound_of_reachable
    (hr : ReachableBy (system L) (fun _ op => op.isRealloc = false) r) : Sound L r :=
  hr.invariant (fun _ => sound_start) fun _ op _ hs hop hnext =>
    sound_step hs (fun _ _ _ _ heq => by rw [heq] at hop; cases hop) hnext

/-- And along the runs with `mm_realloc` as well in which it does not meet its defect. -/
def Avoids (L : Layout) : Except Fault Session → Op → Prop
  | .ok c, .realloc p size => ¬ UnitGrowth L c.state p size
  | _, _ => True

theorem sound_of_avoids (hr : ReachableBy (system L) (Avoids L) r) : Sound L r := by
  refine hr.invariant (fun _ => sound_start) fun _ op _ hs hop hnext =>
    sound_step hs (fun c p size hc heq => ?_) hnext
  rw [hc, heq] at hop
  exact hop

theorem avoids_of_no_realloc
    (hr : ReachableBy (system L) (fun _ op => op.isRealloc = false) r) :
    ReachableBy (system L) (Avoids L) r := by
  refine hr.mono fun r op hop => ?_
  cases r with
  | error e => trivial
  | ok c =>
    cases op with
    | realloc p size => cases hop
    | _ => trivial

end Invariant

def sample (ndebug : Bool) : Layout where
  memStartBrk := 4096
  heapSize := MAX_HEAP
  freeLists := 1024
  ndebug := ndebug
  start_pos := by decide
  start_aligned := by decide
  heapSize_le := le_rfl
  start_below := by decide
  lists_pos := by decide
  lists_below := by decide
  lists_apart := by decide

theorem sample_first (ndebug : Bool) (size p : Nat) (blocks : List Blk) (hsize : size ≤ INT_MAX)
    (hp : p ≠ 0) (hpointer : (allocate 4108 (4096 + MAX_HEAP) size ⟨[], fun _ => []⟩).1 = p)
    (hblocks : (allocate 4108 (4096 + MAX_HEAP) size ⟨[], fun _ => []⟩).2.blocks = blocks) :
    ∃ c lists, ReachableBy (system (sample ndebug)) (fun _ op => op.isRealloc = false) (.ok c) ∧
      c.live = [(p, size)] ∧ Holds (sample ndebug) c.state ⟨blocks, lists⟩ ∧
        Owns (InUse (sample ndebug) ⟨blocks, lists⟩) c.live := by
  obtain ⟨s, hinit, hs⟩ := mmInit_ok (L := sample ndebug)
    (s := ⟨fun _ => 0, 4096, 0, fun _ => 0, []⟩) rfl rfl (by change 4 * WSIZE ≤ MAX_HEAP; decide)
  obtain ⟨s', hrun, hm⟩ := mmMalloc_ok size hs hsize
  change mmMalloc _ size s = .ok ((allocate 4108 (4096 + MAX_HEAP) size _).1, s') at hrun
  change Malloced _ s s' _ (allocate 4108 (4096 + MAX_HEAP) size _).2 size
    (allocate 4108 (4096 + MAX_HEAP) size _).1 at hm
  generalize allocate 4108 (4096 + MAX_HEAP) size ⟨[], fun _ => []⟩ = allocated at *
  obtain ⟨q, h⟩ := allocated
  obtain ⟨bs, lists⟩ := h
  subst hpointer hblocks
  have hnone : Owns (InUse (sample ndebug) ⟨[], fun _ => []⟩) [] :=
    ⟨fun d => by simp [InUse], by simp, by simp⟩
  have hlive : (if q = 0 then [] else [(q, size)]) = [(q, size)] := if_neg hp
  refine ⟨⟨s', [(q, size)]⟩, lists, ?_, rfl, hm.holds, hlive ▸ owns_malloced hnone hm⟩
  refine .step (i := .malloc size) (.start ⟨_, s, rfl, rfl, hinit, rfl⟩) rfl ?_
  change next (sample ndebug) ⟨s, []⟩ (.malloc size) = _
  rw [next, if_pos hsize, hrun]
  exact congrArg (fun live => some (Except.ok (Session.mk s' live))) hlive

/-- After `mm_malloc (120)` one block of 32 words fills the heap. -/
theorem sample_malloc (ndebug : Bool) :
    ∃ c lists, ReachableBy (system (sample ndebug)) (fun _ op => op.isRealloc = false) (.ok c) ∧
      c.live = [(4112, 120)] ∧ Holds (sample ndebug) c.state ⟨[⟨32, true⟩], lists⟩ := by
  obtain ⟨c, lists, hr, hlive, hs, -⟩ := sample_first ndebug 120 4112 [⟨32, true⟩]
    (by decide) (by decide) (by decide) (by decide)
  exact ⟨c, lists, hr, hlive, hs⟩

section Invariant

variable {L : Layout} {r : Except Fault Session}

/-- No run faults, and every state of a run satisfies the heap invariant. -/
theorem heap_invariant (hr : ReachableBy (system L) (fun _ op => op.isRealloc = false) r) :
    ∃ c bs lists, r = .ok c ∧ HeapInvariant L c bs lists := by
  obtain ⟨c, h, rfl, hs, ho⟩ := sound_of_reachable hr
  exact ⟨c, h.blocks, h.lists, rfl, heapInvariant_of_holds hs ho⟩

/-- A block of 12 words in use, and a free one of 20 words in its list. -/
theorem heap_invariant_sample : ∃ c lists, c.live = [(4112, 40)] ∧
    HeapInvariant (sample true) c [⟨12, true⟩, ⟨20, false⟩] lists ∧ 4156 ∈ lists 5 := by
  obtain ⟨c, lists, hr, hlive, hs, ho⟩ := sample_first true 40 4112
    [⟨12, true⟩, ⟨20, false⟩] (by decide) (by decide) (by decide) (by decide)
  obtain ⟨c', bs, lists', heq, hi⟩ := heap_invariant hr
  cases heq
  obtain rfl : bs = [⟨12, true⟩, ⟨20, false⟩] := (hi.unique (heapInvariant_of_holds hs ho)).1
  exact ⟨c, lists', hlive, hi, (hi.listed 5 (by decide) 4156).mpr ⟨20, by decide, by decide⟩⟩

end Invariant

/-- The bytes in the heap that the allocator keeps for itself: fences, boundary tags, and the list
links of free blocks. -/
def Metadata (L : Layout) (s : State) (bs : List Blk) (a : Nat) : Prop :=
  (base L - WSIZE ≤ a ∧ a < base L) ∨ (s.memBrk - WSIZE ≤ a ∧ a < s.memBrk) ∨
    ∃ d b, (d, b) ∈ located Blk.bytes (base L) bs ∧
      ((d ≤ a ∧ a < d + WSIZE) ∨ (d + b.bytes - WSIZE ≤ a ∧ a < d + b.bytes) ∨
        (b.used = false ∧ d + ELEM ≤ a ∧ a < d + ELEM + 16))

section Payloads

variable {L : Layout} {c : Session} {bs : List Blk} {lists : Lists} {p n : Nat}

theorem HeapInvariant.bytes_pos (hi : HeapInvariant L c bs lists) :
    ∀ b ∈ bs, 8 * WSIZE ≤ b.bytes := by
  intro b hb
  have hmin := (hi.sizes b hb).1
  unfold MIN_BLOCK_SIZE_WORDS at hmin
  unfold Blk.bytes WSIZE
  omega

theorem HeapInvariant.range (hi : HeapInvariant L c bs lists) (hp : (p, n) ∈ c.live) :
    ∃ d m, (d, ⟨m, true⟩) ∈ located Blk.bytes (base L) bs ∧ p = d + WSIZE ∧
      p + n ≤ d + Blk.bytes ⟨m, true⟩ - WSIZE := by
  obtain ⟨d, m, rfl, hd, hn⟩ := hi.large p n hp
  refine ⟨d, m, hd, rfl, ?_⟩
  unfold Blk.bytes
  unfold PAYLOAD
  unfold WSIZE at *
  simp only
  omega

theorem HeapInvariant.inside (hi : HeapInvariant L c bs lists) (hp : (p, n) ∈ c.live) :
    p % ALIGNMENT = 0 ∧ L.memStartBrk ≤ p ∧ p + n ≤ c.state.memBrk := by
  obtain ⟨d, m, hd, rfl, hn⟩ := hi.range hp
  have hin := located_within hd
  have htiled := hi.tiled
  refine ⟨hi.aligned d _ hd, ?_, ?_⟩
  · unfold base at hin
    omega
  · omega

theorem HeapInvariant.not_metadata (hi : HeapInvariant L c bs lists) (hp : (p, n) ∈ c.live)
    {a : Nat} (hle : p ≤ a) (hlt : a < p + n) : ¬ Metadata L c.state bs a := by
  obtain ⟨d, m, hd, rfl, hn⟩ := hi.range hp
  have hin := located_within hd
  have htiled := hi.tiled
  have hW : WSIZE = 4 := rfl
  have hE : ELEM = 8 := rfl
  rintro (ha | ha | ⟨e, b, he, ha⟩)
  · omega
  · omega
  · have hbytes := hi.bytes_pos b (mem_of_located he)
    rcases located_apart hd he with ⟨rfl, rfl⟩ | hapart | hapart
    · rcases ha with ha | ha | ⟨hused, -⟩
      · omega
      · omega
      · cases hused
    · omega
    · omega

theorem HeapInvariant.disjoint (hi : HeapInvariant L c bs lists) {q k : Nat}
    (hp : (p, n) ∈ c.live) (hq : (q, k) ∈ c.live) (hne : p ≠ q) : p + n ≤ q ∨ q + k ≤ p := by
  obtain ⟨d, m, hd, rfl, hn⟩ := hi.range hp
  obtain ⟨e, j, he, rfl, hk⟩ := hi.range hq
  rcases located_apart hd he with ⟨rfl, -⟩ | hapart | hapart
  · exact absurd rfl hne
  · exact Or.inl (by omega)
  · exact Or.inr (by omega)

/-- A call of `mm_malloc` or `mm_free` leaves the payloads alone that stay live. -/
theorem payload_kept {h : Heap} {op : Op} {r : Except Fault Session} (hs : Holds L c.state h)
    (ho : Owns (InUse L h) c.live) (hop : (∃ size, op = .malloc size) ∨ ∃ ptr, op = .free ptr)
    (hnext : next L c op = some r) :
    ∃ c', r = .ok c' ∧ ∀ p n, (p, n) ∈ c.live → (p, n) ∈ c'.live →
      Agree c.state.mem c'.state.mem p (p + n) := by
  have hrange : ∀ {p n d m}, p = d + PAYLOAD → n + 2 * WSIZE ≤ 4 * m →
      d + WSIZE ≤ p ∧ p + n ≤ d + WSIZE * m - WSIZE := by
    intro p n d m hp hn
    unfold PAYLOAD at hp
    unfold WSIZE at *
    omega
  rcases hop with ⟨size, rfl⟩ | ⟨ptr, rfl⟩
  · have hsize : size ≤ INT_MAX := by
      by_contra hlarge
      rw [next, if_neg hlarge] at hnext
      cases hnext
    obtain ⟨c', h', hrun, -, -, hkept⟩ := malloc_sound hs ho hsize
    rw [hrun] at hnext
    cases hnext
    refine ⟨c', rfl, fun p n hp _ => ?_⟩
    obtain ⟨d, m, hd, hm, hn⟩ := ho.large p n hp
    exact (hkept d m hm).mono (hrange hd hn).1 (hrange hd hn).2
  · have hptr : ptr ∈ c.live.map Prod.fst := by
      by_contra hdead
      rw [next, if_neg hdead] at hnext
      cases hnext
    obtain ⟨c', h', hrun, -, -, hkept, hlive⟩ := free_sound hs ho hptr
    rw [hrun] at hnext
    cases hnext
    refine ⟨c', rfl, fun p n hp hp' => ?_⟩
    obtain ⟨d, m, hd, hm, hn⟩ := ho.large p n hp
    have hne : p ≠ ptr := by
      rw [hlive] at hp'
      simpa using (List.mem_filter.mp hp').2
    exact (hkept d m ⟨hm, hd ▸ hne⟩).mono (hrange hd hn).1 (hrange hd hn).2

/-- Along every run the live ranges are aligned, inside the heap, disjoint from each other and from
the metadata, and kept by every call that does not free them. -/
theorem live_payloads {r : Except Fault Session}
    (hr : ReachableBy (system L) (fun _ op => op.isRealloc = false) r) :
    ∃ c bs lists, r = .ok c ∧ HeapInvariant L c bs lists ∧
      (∀ p n, (p, n) ∈ c.live →
        p % ALIGNMENT = 0 ∧ L.memStartBrk ≤ p ∧ p + n ≤ c.state.memBrk ∧
          ∀ a, p ≤ a → a < p + n → ¬ Metadata L c.state bs a) ∧
      (∀ p n q k, (p, n) ∈ c.live → (q, k) ∈ c.live → p ≠ q → p + n ≤ q ∨ q + k ≤ p) ∧
      ∀ op r', ((∃ size, op = .malloc size) ∨ ∃ ptr, op = .free ptr) → next L c op = some r' →
        ∃ c', r' = .ok c' ∧ ∀ p n, (p, n) ∈ c.live → (p, n) ∈ c'.live →
          Agree c.state.mem c'.state.mem p (p + n) := by
  obtain ⟨c, h, rfl, hs, ho⟩ := sound_of_reachable hr
  have hi := heapInvariant_of_holds hs ho
  refine ⟨c, h.blocks, h.lists, rfl, hi, fun p n hp => ?_, fun p n q k hp hq hne => ?_,
    fun op r' hop hnext => payload_kept hs ho hop hnext⟩
  · obtain ⟨haligned, hlow, hhigh⟩ := hi.inside hp
    exact ⟨haligned, hlow, hhigh, fun a hle hlt => hi.not_metadata hp hle hlt⟩
  · exact hi.disjoint hp hq hne

theorem live_payloads_sample :
    ∃ (c : Session) (bs : List Blk), c.live = [(4112, 120)] ∧ 4112 + 120 ≤ c.state.memBrk ∧
      ∀ a, 4112 ≤ a → a < 4112 + 120 → ¬ Metadata (sample true) c.state bs a := by
  obtain ⟨c, -, hr, hlive, -⟩ := sample_malloc true
  obtain ⟨c', bs, -, heq, -, hrange, -⟩ := live_payloads hr
  cases heq
  obtain ⟨-, -, hend, hmeta⟩ := hrange 4112 120 (by simp [hlive])
  exact ⟨c, bs, hlive, hend, hmeta⟩

end Payloads

/-- The call `mm_realloc (p, size)` trips no assertion, hands whole free blocks only to the
free-list routines, keeps the heap invariant and replaces `p` by its result unless that is NULL. -/
def ReallocSafe (L : Layout) (c : Session) (p size : Nat) : Prop :=
  ∃ c' q bs lists, next L c (.realloc p size) = some (.ok c') ∧
    c'.live = (if q = 0 then c.live else (q, size) :: c.live.filter fun a => a.1 ≠ p) ∧
    (∀ call ∈ c'.state.calls, Call.Ok L call) ∧ HeapInvariant L c' bs lists

theorem not_reallocSafe {L : Layout} {c : Session} {h : Heap} {p size : Nat}
    (hs : Holds L c.state h) (ho : Owns (InUse L h) c.live) (hp : p ∈ c.live.map Prod.fst)
    (hpos : 0 < size) (hsize : size ≤ INT_MAX) (hbad : UnitGrowth L c.state p size) :
    ¬ ReallocSafe L c p size := by
  rintro ⟨c', q, bs, lists, hnext, -, hcalls, -⟩
  obtain ⟨d, m, rfl, hd⟩ := ho.block hp
  rw [next, if_pos ⟨hp, hpos, hsize⟩] at hnext
  cases hrun : mmRealloc L (d + PAYLOAD) size c.state with
  | error e =>
    rw [hrun] at hnext
    cases hnext
  | ok result =>
    obtain ⟨call, hcall, hnot⟩ := mmRealloc_unit hs hd hpos hsize hbad hrun
    rw [hrun] at hnext
    cases hnext
    exact hnot (hcalls call hcall)

/-- As long as no call meets its defect, exactly the calls that do not meet it are safe. -/
theorem reallocSafe_iff {L : Layout} {r : Except Fault Session}
    (hr : ReachableBy (system L) (Avoids L) r) :
    ∃ c bs lists, r = .ok c ∧ HeapInvariant L c bs lists ∧
      ∀ p size, p ∈ c.live.map Prod.fst → 0 < size → size ≤ INT_MAX →
        (ReallocSafe L c p size ↔ ¬ UnitGrowth L c.state p size) := by
  obtain ⟨c, h, rfl, hs, ho⟩ := sound_of_avoids hr
  refine ⟨c, h.blocks, h.lists, rfl, heapInvariant_of_holds hs ho,
    fun p size hp hpos hsize => ⟨fun hsafe hbad => ?_, fun hgood => ?_⟩⟩
  · exact not_reallocSafe hs ho hp hpos hsize hbad hsafe
  · obtain ⟨c', h', q, hnext, hs', ho', hlive⟩ := realloc_sound hs ho hp hpos hsize hgood
    exact ⟨c', q, h'.blocks, h'.lists, hnext, hlive, hs'.repr.calls,
      heapInvariant_of_holds hs' ho'⟩

theorem reallocSafe_iff_sample :
    ∃ c bs lists, c.live = [(4112, 120)] ∧ HeapInvariant (sample true) c bs lists ∧
      (ReallocSafe (sample true) c 4112 200 ↔ ¬ UnitGrowth (sample true) c.state 4112 200) := by
  obtain ⟨c, -, hr, hlive, -⟩ := sample_malloc true
  obtain ⟨c', bs, lists, heq, hi, hall⟩ := reallocSafe_iff (avoids_of_no_realloc hr)
  cases heq
  exact ⟨c, bs, lists, hlive, hi, hall 4112 200 (by simp [hlive]) (by decide) (by decide)⟩

/-- `mm_malloc (120)` and then `mm_realloc` of the result to 121 bytes is such a call, with
assertions and without. -/
theorem realloc_unit_growth :
    (∃ c, Reachable (system (sample true)) (.ok c) ∧ c.live = [(4112, 120)] ∧
      ¬ ReallocSafe (sample true) c 4112 121) ∧
    ∃ c, Reachable (system (sample false)) (.ok c) ∧ c.live = [(4112, 120)] ∧
      ¬ ReallocSafe (sample false) c 4112 121 := by
  have hcall : ∀ ndebug, ∃ c, Reachable (system (sample ndebug)) (.ok c) ∧
      c.live = [(4112, 120)] ∧ ¬ ReallocSafe (sample ndebug) c 4112 121 := by
    intro ndebug
    obtain ⟨c, lists, hr, hlive, hs⟩ := sample_malloc ndebug
    obtain ⟨c', h, heq, hs', ho⟩ := sound_of_reachable hr
    cases heq
    have hbad : UnitGrowth (sample ndebug) c.state 4112 121 := by
      have hiff := unitGrowth_iff (l := []) (m := 32) (r := []) (c := 4108) 121 hs rfl
      refine hiff.mpr ⟨by decide, rfl, rfl, ?_⟩
      rw [← hs.ends]
      change 4108 + 128 + 4 + 16 ≤ 4096 + MAX_HEAP
      decide
    exact ⟨c, hr.mono fun _ _ _ => trivial, hlive,
      not_reallocSafe hs' ho (by simp [hlive]) (by decide) (by decide) hbad⟩
  exact ⟨hcall true, hcall false⟩

end ComputerSystems.Malloc.Safety
