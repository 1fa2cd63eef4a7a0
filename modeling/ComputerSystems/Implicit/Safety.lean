/- What holds along every run of a client of `mm-gback-implicit.c`. -/

import ComputerSystems.Implicit.Runs
import ComputerSystems.Malloc.Safety

set_option autoImplicit false
set_option relaxedAutoImplicit false

namespace ComputerSystems.Implicit.Safety

open ComputerSystems.Memory.Bytes
open ComputerSystems.Memory.Tiling
open ComputerSystems.Memory.Joining
open ComputerSystems.Systems.Runs
open ComputerSystems.Malloc.Machine
open ComputerSystems.Malloc.Mm (WSIZE PAYLOAD FENCE)
open ComputerSystems.Malloc.Blocks (Blk bytes_eq)
open ComputerSystems.Malloc.Representation
open ComputerSystems.Malloc.Allocator (INT_MAX)
open ComputerSystems.Malloc.Client (Owns)
open ComputerSystems.Malloc.Safety (located_aligned base_aligned sample)
open ComputerSystems.Implicit.Program
open ComputerSystems.Implicit.Tilings
open ComputerSystems.Implicit.Heap
open ComputerSystems.Implicit.Allocator
open ComputerSystems.Implicit.Runs

variable {L : Layout} {bs : List Blk} {xs : Arrays} {a asize size limit words : Nat}

section Growth

theorem firstFit_span {c : Nat} {bs' : List Blk} (h : firstFit a asize bs = some (c, bs')) :
    span Blk.bytes bs' = span Blk.bytes bs := by
  obtain ⟨l, n, r, rfl, -, -, hle, rfl⟩ := firstFit_some h
  have hcut : span Blk.bytes (cut asize ⟨n, false⟩) = Blk.bytes ⟨n, false⟩ := cut_span hle
  simp only [span_append, span_cons, hcut]

theorem extend_span : span Blk.bytes (extend words bs) = span Blk.bytes bs + 4 * words := by
  rw [extend, Tilings.joinFree_span, span_append, span_cons, span_nil, bytes_eq, Nat.add_zero]

theorem allocate_span : span Blk.bytes bs ≤ span Blk.bytes (allocate a limit size bs).2 := by
  unfold allocate
  dsimp only
  split
  · exact le_rfl
  · split
    · rename_i hfit
      exact (firstFit_span hfit).ge
    · split
      · split
        · rename_i hfit
          rw [firstFit_span hfit, extend_span]
          exact Nat.le_add_right ..
        · exact le_rfl
      · exact le_rfl

theorem release_span {c : Nat} : span Blk.bytes (release a c bs) = span Blk.bytes bs := by
  rw [release, Tilings.joinFree_span]
  induction bs generalizing a with
  | nil => rfl
  | cons b bs ih =>
    rw [markFree]
    split
    · rfl
    · rw [span_cons, span_cons, ih]

theorem plan_span (op : Op) : span Blk.bytes bs ≤ span Blk.bytes (plan L bs op).2 := by
  have hrelease : ∀ ptr, span Blk.bytes bs ≤
      span Blk.bytes (if ptr = 0 then bs else release (base L) (ptr - PAYLOAD) bs) := by
    intro ptr
    split
    · exact le_rfl
    · exact release_span.ge
  cases op with
  | malloc size => exact allocate_span
  | free ptr => exact hrelease ptr
  | realloc ptr size =>
    rw [plan]
    split
    · exact hrelease ptr
    · split
      · exact allocate_span
      · unfold reallocate
        dsimp only
        split
        · exact le_rfl
        · exact allocate_span.trans release_span.ge
  | write ptr i byte => exact le_rfl

end Growth

section Runs

variable {r : Except Fault (Option Session)}

structure Sound (L : Layout) (c : Session) (bs : List Blk) : Prop where
  simulates : Simulates L c (bs, c.arrays)
  grown : 4 * CHUNKSIZE ≤ span Blk.bytes bs

theorem Sound.holds {c : Session} (h : Sound L c bs) : Holds L c.state bs := h.simulates.holds

theorem Simulates.sound {c : Session} {t : List Blk × Arrays} (h : Simulates L c t)
    (hgrown : 4 * CHUNKSIZE ≤ span Blk.bytes t.1) : Sound L c t.1 := by
  obtain ⟨bs, xs⟩ := t
  obtain rfl : c.arrays = xs := h.arrays
  exact ⟨h, hgrown⟩

theorem sound_start (hr : (system L).init r) :
    ∃ c, r = .ok (some c) ∧ Sound L c [⟨CHUNKSIZE, false⟩] := by
  by_cases hroom : 4 * WSIZE + 4 * CHUNKSIZE ≤ L.heapSize
  · obtain ⟨c, rfl, hsim⟩ := simulates_start hr hroom
    exact ⟨c, rfl, Simulates.sound hsim le_rfl⟩
  · obtain ⟨s, s', hbrk, hinit, -⟩ := hr
    obtain ⟨t, hfull⟩ := mmInit_full hbrk (by omega)
    rw [hfull] at hinit
    cases hinit

theorem sound_step {c : Session} {op : Op} (h : Sound L c bs) (hlegal : Legal c.arrays op) :
    ∃ c', next L c op = some (.ok (some c')) ∧ c'.arrays = view c.arrays op (plan L bs op).1 ∧
      Sound L c' (plan L bs op).2 := by
  obtain ⟨c', hnext, hsim⟩ := simulates_step h.simulates hlegal
  exact ⟨c', hnext, hsim.arrays, Simulates.sound hsim (h.grown.trans (plan_span op))⟩

theorem sound_of_reachable (h : Reachable (system L) r) :
    ∃ c bs, r = .ok (some c) ∧ Sound L c bs := by
  refine h.invariant (P := fun r => ∃ c bs, r = .ok (some c) ∧ Sound L c bs) (fun r hr => ?_) ?_
  · obtain ⟨c, hc, hs⟩ := sound_start hr
    exact ⟨c, _, hc, hs⟩
  · rintro r op r' ⟨c, bs, rfl, hs⟩ - hnext
    have hnext : next L c op = some r' := hnext
    by_cases hlegal : Legal c.arrays op
    · obtain ⟨c', hrun, -, hs'⟩ := sound_step hs hlegal
      rw [hrun] at hnext
      cases hnext
      exact ⟨c', _, rfl, hs'⟩
    · rw [next, if_neg hlegal] at hnext
      cases hnext

end Runs

section Refinement

theorem exec_simulates {c : Session} {t : List Blk × Arrays} (h : Simulates L c t) (ops : List Op) :
    ((system L).exec (.ok (some c)) ops = none ∧ (tilings L).exec t ops = none) ∨
      ∃ c' t', (system L).exec (.ok (some c)) ops = some (.ok (some c')) ∧
        (tilings L).exec t ops = some t' ∧ Simulates L c' t' := by
  induction ops generalizing c t with
  | nil => exact Or.inr ⟨c, t, rfl, rfl, h⟩
  | cons op ops ih =>
    have hsystem : (system L).exec (.ok (some c)) (op :: ops) =
        (next L c op).bind fun r => (system L).exec r ops := rfl
    have htilings : (tilings L).exec t (op :: ops) =
        (if Legal t.2 op then some ((plan L t.1 op).2, view t.2 op (plan L t.1 op).1)
          else none).bind fun t => (tilings L).exec t ops := rfl
    rw [hsystem, htilings]
    by_cases hlegal : Legal c.arrays op
    · obtain ⟨c', hnext, hsim⟩ := simulates_step h hlegal
      rw [hnext, if_pos (h.arrays ▸ hlegal)]
      exact ih hsim
    · rw [next, if_neg hlegal, if_neg (h.arrays ▸ hlegal)]
      exact Or.inl ⟨rfl, rfl⟩

theorem simulates_init {r : Except Fault (Option Session)} (hr : (system L).init r) :
    ∃ c, r = .ok (some c) ∧ Simulates L c ([⟨CHUNKSIZE, false⟩], []) := by
  obtain ⟨c, rfl, hs⟩ := sound_start hr
  have harrays : c.arrays = [] := by
    obtain ⟨s, s', -, -, heq⟩ := hr
    cases heq
    rfl
  exact ⟨c, rfl, harrays ▸ hs.simulates⟩

end Refinement

section Sample

theorem sample_exec {ops : List Op} {t : List Blk × Arrays}
    (hplan : (tilings (sample true)).exec ([⟨CHUNKSIZE, false⟩], []) ops = some t) :
    ∃ r c, (system (sample true)).init r ∧ (system (sample true)).exec r ops = some (.ok (some c)) ∧
      Simulates (sample true) c t := by
  obtain ⟨s, hinit, -⟩ := mmInit_ok (L := sample true) (s := ⟨fun _ => 0, 4096, 0, fun _ => 0, []⟩)
    rfl (by change 4 * WSIZE + 4 * CHUNKSIZE ≤ MAX_HEAP; decide)
  have hr : (system (sample true)).init (.ok (some ⟨s, []⟩)) := ⟨_, s, rfl, hinit, rfl⟩
  obtain ⟨c, heq, hsim⟩ := simulates_init hr
  rcases exec_simulates hsim ops with ⟨-, hnone⟩ | ⟨c', t', hrun, ht, hsim'⟩
  · rw [hplan] at hnone
    cases hnone
  · rw [hplan] at ht
    cases ht
    exact ⟨_, c', hr, heq ▸ hrun, hsim'⟩

def grown : List Op := [.malloc 24, .write 4112 3 65, .realloc 4112 40]

def grownArrays : Arrays :=
  [(4144, none :: none :: none :: some 65 :: List.replicate 36 none)]

theorem sample_grown : ∃ r c, (system (sample true)).init r ∧
    (system (sample true)).exec r grown = some (.ok (some c)) ∧ c.arrays = grownArrays := by
  obtain ⟨r, c, hr, hrun, hsim⟩ := @sample_exec grown
    ([⟨8, false⟩, ⟨12, true⟩, ⟨1004, false⟩], grownArrays) rfl
  exact ⟨r, c, hr, hrun, hsim.arrays⟩

end Sample

/-- Whatever the client does, the program and the allocator on tilings go through the same run: the
same calls are possible, they return the same pointers, and memory represents the tiling after each
of them. -/
theorem exec_tilings {r : Except Fault (Option Session)} (hr : (system L).init r) (ops : List Op) :
    ((system L).exec r ops = none ∧ (tilings L).exec ([⟨CHUNKSIZE, false⟩], []) ops = none) ∨
      ∃ c t, (system L).exec r ops = some (.ok (some c)) ∧
        (tilings L).exec ([⟨CHUNKSIZE, false⟩], []) ops = some t ∧ Simulates L c t := by
  obtain ⟨c, rfl, hsim⟩ := simulates_init hr
  exact exec_simulates hsim ops

theorem exec_tilings_grown : ∃ r c, (system (sample true)).exec r grown = some (.ok (some c)) ∧
    c.arrays = grownArrays ∧
      ∃ t, (tilings (sample true)).exec ([⟨CHUNKSIZE, false⟩], []) grown = some t ∧
        Simulates (sample true) c t := by
  obtain ⟨r, c, hr, hrun, harrays⟩ := sample_grown
  rcases exec_tilings hr grown with ⟨hnone, -⟩ | ⟨c', t, hrun', ht, hsim⟩
  · rw [hrun] at hnone
    cases hnone
  · rw [hrun] at hrun'
    cases hrun'
    exact ⟨r, c, hrun, harrays, t, ht, hsim⟩

/-- The blocks `bs` tile the words between the two fences, and those in use belong to the client. -/
structure HeapInvariant (L : Layout) (c : Session) (bs : List Blk) : Prop where
  prologue : load c.state.mem (base L - WSIZE) WSIZE = FENCE
  epilogue : load c.state.mem (c.state.memBrk - WSIZE) WSIZE = FENCE
  tiled : base L + span Blk.bytes bs = c.state.memBrk - WSIZE
  below : c.state.memBrk ≤ L.memMaxAddr
  tags : ∀ d b, (d, b) ∈ located Blk.bytes (base L) bs → Marked c.state.mem d b
  whole : ∀ b ∈ bs, MIN_BLOCK_SIZE_WORDS ≤ b.size ∧ b.size % 4 = 0
  aligned : ∀ d b, (d, b) ∈ located Blk.bytes (base L) bs → (d + PAYLOAD) % ALIGNMENT = 0
  noAdjacent : bs.IsChain fun a b => a.used = true ∨ b.used = true
  owned : ∀ d, (∃ m, (d, ⟨m, true⟩) ∈ located Blk.bytes (base L) bs) ↔
    ∃ bytes, (d + PAYLOAD, bytes) ∈ c.arrays
  large : ∀ p bytes, (p, bytes) ∈ c.arrays → ∃ d m, p = d + PAYLOAD ∧
    (d, ⟨m, true⟩) ∈ located Blk.bytes (base L) bs ∧ bytes.length + 2 * WSIZE ≤ WSIZE * m
  distinct : (c.arrays.map Prod.fst).Nodup

section Invariant

variable {r : Except Fault (Option Session)} {c : Session}

theorem Sound.invariant (h : Sound L c bs) : HeapInvariant L c bs where
  prologue := h.holds.tagged.prologue
  epilogue := h.holds.tagged.epilogue
  tiled := by
    have hends := h.holds.tagged.ends
    omega
  below := h.holds.tagged.room
  tags := h.holds.tagged.tags
  whole := h.holds.tagged.whole
  aligned d b hd := by
    have hmod := located_aligned base_aligned
      (fun b hb => (h.holds.tagged.whole b hb).2) hd
    unfold PAYLOAD ALIGNMENT
    omega
  noAdjacent := h.holds.separated.imp fun a b hab => by simpa [isFree] using hab
  owned d := by
    refine (h.simulates.owns.owned d).trans ⟨?_, ?_⟩
    · rintro ⟨n, hn⟩
      obtain ⟨⟨p, bytes⟩, hmem, heq⟩ := List.mem_map.mp hn
      cases heq
      exact ⟨bytes, hmem⟩
    · rintro ⟨bytes, hmem⟩
      exact ⟨_, mem_sizes hmem⟩
  large p bytes hmem := h.simulates.owns.large p _ (mem_sizes hmem)
  distinct := sizes_fst ▸ h.simulates.owns.distinct

/-- No call of a run fails an assertion, reads through NULL or loops for ever, and every state of a
run satisfies the heap invariant. -/
theorem blocks_tile_heap (hr : Reachable (system L) r) :
    ∃ c bs, r = .ok (some c) ∧ HeapInvariant L c bs := by
  obtain ⟨c, bs, rfl, hs⟩ := sound_of_reachable hr
  exact ⟨c, bs, rfl, hs.invariant⟩

theorem blocks_tile_heap_grown :
    ∃ c bs, c.arrays = grownArrays ∧ HeapInvariant (sample true) c bs := by
  obtain ⟨r, c, hr, hrun, harrays⟩ := sample_grown
  obtain ⟨c', bs, heq, hi⟩ := blocks_tile_heap (Reachable.exec (.start hr) hrun)
  cases heq
  exact ⟨c, bs, harrays, hi⟩

/-- Along every run the live arrays are aligned, inside the heap and disjoint, and hold what the
client wrote to them last, wherever `mm_realloc` has moved them. -/
theorem arrays_kept (hr : Reachable (system L) r) :
    ∃ c, r = .ok (some c) ∧
      (∀ p bytes, (p, bytes) ∈ c.arrays →
        p % ALIGNMENT = 0 ∧ L.memStartBrk < p ∧ p + bytes.length < c.state.memBrk ∧
          ∀ i v, bytes[i]? = some (some v) → c.state.mem (p + i) = v) ∧
      ∀ p bytes q bytes', (p, bytes) ∈ c.arrays → (q, bytes') ∈ c.arrays → p ≠ q →
        p + bytes.length ≤ q ∨ q + bytes'.length ≤ p := by
  obtain ⟨c, bs, rfl, hs⟩ := sound_of_reachable hr
  have hi := hs.invariant
  have hW : WSIZE = 4 := rfl
  have hP : PAYLOAD = 4 := rfl
  refine ⟨c, rfl, fun p bytes hmem => ?_, fun p bytes q bytes' hmem hmem' hne => ?_⟩
  · obtain ⟨d, m, rfl, hd, hlarge⟩ := hi.large p bytes hmem
    have hin := located_within hd
    have htiled := hi.tiled
    have hbase : base L = L.memStartBrk + 12 := rfl
    rw [bytes_eq] at hin
    rw [hW] at hlarge
    refine ⟨hi.aligned d _ hd, by omega, by omega, hs.simulates.shown _ bytes hmem⟩
  · obtain ⟨d, m, rfl, hd, hlarge⟩ := hi.large p bytes hmem
    obtain ⟨e, k, rfl, he, hlarge'⟩ := hi.large q bytes' hmem'
    rw [hW] at hlarge hlarge'
    rcases located_apart hd he with ⟨rfl, -⟩ | hapart | hapart
    · exact absurd rfl hne
    · rw [bytes_eq] at hapart
      exact Or.inl (by omega)
    · rw [bytes_eq] at hapart
      exact Or.inr (by omega)

theorem arrays_kept_grown : ∃ c : Session, c.arrays = grownArrays ∧
    4144 + 40 < c.state.memBrk ∧ c.state.mem 4147 = 65 := by
  obtain ⟨r, c, hr, hrun, harrays⟩ := sample_grown
  obtain ⟨c', heq, hall, -⟩ := arrays_kept (Reachable.exec (.start hr) hrun)
  cases heq
  obtain ⟨-, -, hend, hbytes⟩ := hall 4144 (none :: none :: none :: some 65 ::
    List.replicate 36 none) (by simp [harrays, grownArrays])
  exact ⟨c, harrays, by simpa using hend, hbytes 3 65 rfl⟩

end Invariant

section FirstFit

variable {r : Except Fault (Option Session)}

/-- A free block at `d` that is large enough for `size` bytes. -/
def Fitting (L : Layout) (bs : List Blk) (size d n : Nat) : Prop :=
  (d, ⟨n, false⟩) ∈ located Blk.bytes (base L) bs ∧ wordsFor size ≤ n

/-- The words by which `mm_malloc` extends the heap. -/
def growth (size : Nat) : Nat := max (wordsFor size) CHUNKSIZE

theorem allocate_cases (hsize : size ≠ 0) (hsep : Separated isFree bs) :
    (∃ l n r, bs = l ++ ⟨n, false⟩ :: r ∧ (∀ x ∈ l, fits (wordsFor size) x = false) ∧
        wordsFor size ≤ n ∧ (allocate a limit size bs).1 = a + span Blk.bytes l + PAYLOAD ∧
        span Blk.bytes (allocate a limit size bs).2 = span Blk.bytes bs) ∨
      (∀ x ∈ bs, fits (wordsFor size) x = false) ∧
        ((a + span Blk.bytes bs + WSIZE + 4 * growth size ≤ limit ∧
            (allocate a limit size bs).1 ≠ 0 ∧
            span Blk.bytes (allocate a limit size bs).2 = span Blk.bytes bs + 4 * growth size) ∨
          limit < a + span Blk.bytes bs + WSIZE + 4 * growth size ∧
            (allocate a limit size bs).1 = 0) := by
  have hP : PAYLOAD = 4 := rfl
  rw [allocate, if_neg hsize]
  cases hfit : firstFit a (wordsFor size) bs with
  | some found =>
    obtain ⟨c, bs'⟩ := found
    have hspan := firstFit_span hfit
    obtain ⟨l, n, r, hbs, rfl, hl, hle, -⟩ := firstFit_some hfit
    exact Or.inl ⟨l, n, r, hbs, hl, hle, rfl, hspan⟩
  | none =>
    refine Or.inr ⟨replaceFirst_eq_none.mp hfit, ?_⟩
    dsimp only
    split
    · rename_i hroom
      obtain ⟨l, n, -, -, hfit'⟩ := firstFit_extend hfit hsep (Nat.le_max_left (wordsFor size) CHUNKSIZE)
      have hspan := firstFit_span hfit'
      rw [hfit']
      refine Or.inl ⟨hroom, by simp only; omega, ?_⟩
      rw [hspan, extend_span, growth]
    · rename_i hfull
      exact Or.inr ⟨by rw [growth]; omega, rfl⟩

theorem fitting_iff {d n : Nat} : Fitting L bs size d n ↔
    (d, ⟨n, false⟩) ∈ located Blk.bytes (base L) bs ∧ fits (wordsFor size) ⟨n, false⟩ = true := by
  rw [Fitting, fits_iff]
  simp

/-- In every state of a run `mm_malloc` takes the free block of lowest address that is large enough.
It moves the break only when there is none, then by `growth size` words, and returns NULL only when
there is no room for these. -/
theorem malloc_firstFit (hr : Reachable (system L) r) :
    ∃ c bs, r = .ok (some c) ∧ HeapInvariant L c bs ∧
      ∀ size, 0 < size → size ≤ INT_MAX →
        ∃ p s', mmMalloc L L.heapSize size c.state = .ok (some p, s') ∧
          ((∃ d n, p = d + PAYLOAD ∧ Fitting L bs size d n ∧
              (∀ e k, Fitting L bs size e k → d ≤ e) ∧ s'.memBrk = c.state.memBrk) ∨
            (∀ e k, ¬ Fitting L bs size e k) ∧
              ((c.state.memBrk + 4 * growth size ≤ L.memMaxAddr ∧ p ≠ 0 ∧
                  s'.memBrk = c.state.memBrk + 4 * growth size) ∨
                L.memMaxAddr < c.state.memBrk + 4 * growth size ∧ p = 0 ∧ s' = c.state)) := by
  obtain ⟨c, bs, rfl, hs⟩ := sound_of_reachable hr
  refine ⟨c, bs, rfl, hs.invariant, fun size hpos hsize => ?_⟩
  have hholds := hs.holds
  have hends := hholds.tagged.ends
  obtain ⟨s', hrun, hm⟩ := mmMalloc_ok hholds hsize hholds.tagged.length_lt
  have hends' := hm.holds.tagged.ends
  have hnofit : (∀ x ∈ bs, fits (wordsFor size) x = false) → ∀ e k, ¬ Fitting L bs size e k := by
    intro hnone e k hek
    obtain ⟨hmem, hfits⟩ := fitting_iff.mp hek
    rw [hnone _ (mem_of_located hmem)] at hfits
    cases hfits
  refine ⟨_, s', hrun, ?_⟩
  rcases @allocate_cases bs (base L) size L.memMaxAddr (Nat.ne_of_gt hpos) hholds.separated with
    ⟨l, n, r, hbs, hl, hle, hp, hspan⟩ | ⟨hnone, ⟨hroom, hp, hspan⟩ | ⟨hfull, hp⟩⟩
  · refine Or.inl ⟨_, n, hp, ⟨?_, hle⟩, fun e k hek => ?_, by omega⟩
    · rw [hbs]
      exact located_middle _ l r _
    · obtain ⟨hmem, hfits⟩ := fitting_iff.mp hek
      rw [hbs, located_append, List.mem_append] at hmem
      rcases hmem with hmem | hmem
      · rw [hl _ (mem_of_located hmem)] at hfits
        cases hfits
      · exact (located_within hmem).1
  · refine Or.inr ⟨hnofit hnone, Or.inl ⟨?_, hp, ?_⟩⟩
    · omega
    · omega
  · refine Or.inr ⟨hnofit hnone, Or.inr ⟨by omega, hp, ?_⟩⟩
    rcases hm.result with ⟨-, hsame, -⟩ | ⟨d, m, hd, -⟩
    · exact hsame
    · have hP : PAYLOAD = 4 := rfl
      omega

theorem malloc_firstFit_grown : ∃ (c : Session) (p : Nat) (s' : State), c.arrays = grownArrays ∧
    mmMalloc (sample true) (sample true).heapSize 24 c.state = .ok (some p, s') := by
  obtain ⟨r, c, hr, hrun, harrays⟩ := sample_grown
  obtain ⟨c', bs, heq, -, hall⟩ := malloc_firstFit (Reachable.exec (.start hr) hrun)
  cases heq
  obtain ⟨p, s', hmalloc, -⟩ := hall 24 (by decide) (by decide)
  exact ⟨c, p, s', harrays, hmalloc⟩

theorem single_of_free (hsep : Separated isFree bs) (hfree : ∀ b ∈ bs, b.used = false)
    (hne : bs ≠ []) : ∃ n, bs = [⟨n, false⟩] := by
  match bs, hne with
  | [⟨n, u⟩], _ =>
    obtain rfl : u = false := hfree _ List.mem_cons_self
    exact ⟨n, rfl⟩
  | x :: y :: bs, _ =>
    have hx := hfree x (by simp)
    have hy := hfree y (by simp)
    rcases (List.isChain_cons_cons.mp hsep).1 with hused | hused
    · simp [isFree, hx] at hused
    · simp [isFree, hy] at hused

/-- However the heap was cut up before, once nothing is live it is a single free block from its first
word to its last, and `mm_malloc` serves every request that fits into it from its start without
moving the break. -/
theorem emptied_heap_whole (hr : Reachable (system L) r) :
    ∃ c bs, r = .ok (some c) ∧ HeapInvariant L c bs ∧
      (c.arrays = [] → ∃ n, bs = [⟨n, false⟩] ∧ L.memStartBrk + 16 + 4 * n = c.state.memBrk ∧
        ∀ size, 0 < size → size ≤ INT_MAX → wordsFor size ≤ n →
          ∃ s', mmMalloc L L.heapSize size c.state = .ok (some (L.memStartBrk + 16), s') ∧
            s'.memBrk = c.state.memBrk) := by
  obtain ⟨c, bs, rfl, hs⟩ := sound_of_reachable hr
  have hi := hs.invariant
  refine ⟨c, bs, rfl, hi, fun hempty => ?_⟩
  have hholds := hs.holds
  have hfree : ∀ b ∈ bs, b.used = false := by
    intro ⟨m, u⟩ hb
    cases u with
    | false => rfl
    | true =>
      obtain ⟨l, r, rfl⟩ := List.append_of_mem hb
      obtain ⟨bytes, hmem⟩ := (hi.owned _).mp ⟨m, located_middle _ l r _⟩
      rw [hempty] at hmem
      cases hmem
  have hne : bs ≠ [] := by
    rintro rfl
    have hgrown := hs.grown
    rw [span_nil] at hgrown
    exact absurd hgrown (by decide)
  obtain ⟨n, rfl⟩ := single_of_free hholds.separated hfree hne
  have hends := hholds.tagged.ends
  have hbase : base L = L.memStartBrk + 12 := rfl
  have hW : WSIZE = 4 := rfl
  have hP : PAYLOAD = 4 := rfl
  simp only [span_cons, span_nil, bytes_eq] at hends
  refine ⟨n, rfl, by omega, fun size hpos hsize hfits => ?_⟩
  obtain ⟨s', hrun, hm⟩ := mmMalloc_ok hholds hsize hholds.tagged.length_lt
  have hends' := hm.holds.tagged.ends
  have hfit : firstFit (base L) (wordsFor size) [⟨n, false⟩] =
      some (base L, cut (wordsFor size) ⟨n, false⟩ ++ []) :=
    replaceFirst_eq_some.mpr ⟨[], ⟨n, false⟩, [], rfl, rfl, by simp, fits_iff.mpr ⟨rfl, hfits⟩, rfl⟩
  have hspan := firstFit_span hfit
  have hallocate : allocate (base L) L.memMaxAddr size [⟨n, false⟩] =
      (base L + PAYLOAD, cut (wordsFor size) ⟨n, false⟩ ++ []) := by
    rw [allocate, if_neg (Nat.ne_of_gt hpos), hfit]
  rw [hallocate] at hrun hends'
  simp only [span_cons, span_nil, bytes_eq] at hspan
  refine ⟨s', ?_, by simp only at hends'; omega⟩
  rw [hrun, hbase, hP]

theorem emptied_heap_whole_freed : ∃ (c : Session) (n : Nat), c.arrays = [] ∧
    4096 + 16 + 4 * n = c.state.memBrk := by
  obtain ⟨r, c, hr, hrun, hsim⟩ := @sample_exec
    [.malloc 24, .malloc 40, .malloc 5000, .free 4144, .free 4112, .free 4192]
    ([⟨1024 + 1252, false⟩], []) rfl
  obtain ⟨c', bs, heq, -, hempty⟩ := emptied_heap_whole (Reachable.exec (.start hr) hrun)
  cases heq
  obtain ⟨n, -, hn, -⟩ := hempty hsim.arrays
  exact ⟨c, n, hsim.arrays, hn⟩

end FirstFit

end ComputerSystems.Implicit.Safety
