/- A NULL result of `mm_malloc` or `mm_realloc` means that nothing has happened. -/

import ComputerSystems.Malloc.Safety

set_option autoImplicit false
set_option relaxedAutoImplicit false

namespace ComputerSystems.Malloc.Failure

open ComputerSystems.Systems.Runs
open ComputerSystems.Systems.Computations (bind_ok bind_inv pure_ok get_ok)
open ComputerSystems.Malloc.Machine
open ComputerSystems.Malloc.Mm
open ComputerSystems.Malloc.Frames
open ComputerSystems.Malloc.Representation
open ComputerSystems.Malloc.Allocator
open ComputerSystems.Malloc.Client
open ComputerSystems.Malloc.Safety

section Results

variable {α : Type} {x y : Prog Nat} {f : Nat → Prog Nat}

def NonNull (x : Prog Nat) : Prop := ∀ s s', x s ≠ .ok (0, s')

def NullKeeps (x : Prog Nat) : Prop := ∀ s s', s.memBrk ≠ 0 → x s = .ok (0, s') → s' = s

theorem NonNull.bind {z : Prog α} {g : α → Prog Nat} (hg : ∀ a, NonNull (g a)) :
    NonNull (z >>= g) := by
  intro s s' h
  obtain ⟨a, t, -, ht⟩ := bind_inv h
  exact hg a t s' ht

theorem nonNull_pure {n : Nat} (h : n ≠ 0) : NonNull (pure n) := by
  intro s s' heq
  cases heq
  exact h rfl

theorem NonNull.keeps (hx : NonNull x) : NullKeeps x := fun s s' _ h => absurd h (hx s s')

theorem nullKeeps_readOnly (hx : ReadOnly x) : NullKeeps x := fun s s' _ h => hx s 0 s' h

theorem nullKeeps_ite {c : Prop} [Decidable c] (hx : NullKeeps x) (hy : NullKeeps y) :
    NullKeeps (if c then x else y) := by
  split
  · exact hx
  · exact hy

theorem NullKeeps.after {z : Prog α} {g : α → Prog Nat} (hz : ReadOnly z)
    (hg : ∀ a, NullKeeps (g a)) : NullKeeps (z >>= g) := by
  intro s s' hbrk h
  obtain ⟨a, t, hread, ht⟩ := bind_inv h
  obtain rfl := hz s a t hread
  exact hg a t s' hbrk ht

theorem NullKeeps.orElse (hx : NullKeeps x) (hf : ∀ n, n ≠ 0 → NonNull (f n)) :
    NullKeeps (do let n ← x; if n = 0 then return 0 else f n) := by
  intro s s' hbrk h
  obtain ⟨n, t, hrun, ht⟩ := bind_inv h
  split at ht
  · rename_i hn
    subst hn
    cases ht
    exact hx s _ hbrk hrun
  · rename_i hn
    exact absurd ht (hf n hn t s')

end Results

section Allocator

variable {L : Layout}

/-- `insert_free_block` reads the header of the block, so the block is no null pointer. -/
theorem insertFreeBlock_null (s : State) : ∀ r, insertFreeBlock L 0 s ≠ .ok r := by
  rintro ⟨_, s'⟩ h
  obtain ⟨_, t, -, h⟩ := bind_inv h
  obtain ⟨n, t', hsize, -⟩ := bind_inv h
  obtain ⟨w, t'', hread, -⟩ := bind_inv hsize
  obtain ⟨_, u, haccess, -⟩ := bind_inv hread
  rw [access_null rfl] at haccess
  cases haccess

theorem nonNull_coalesce (bp : Nat) : NonNull (coalesce L bp) := by
  have hinsert : ∀ n, NonNull (do
      let inserted ← insertFreeBlock L n
      assert L inserted
      return n : Prog Nat) := by
    intro n
    by_cases hn : n = 0
    · subst hn
      intro s s' h
      obtain ⟨b, t, hrun, -⟩ := bind_inv h
      exact insertFreeBlock_null s _ hrun
    · exact .bind fun _ => .bind fun _ => nonNull_pure hn
  refine .bind fun prev => .bind fun next => .bind fun free => .bind fun size => ?_
  intro s s'
  split
  · exact hinsert bp s s'
  · exact NonNull.bind hinsert s s'

theorem nullKeeps_extendHeap (words : Nat) : NullKeeps (extendHeap L words) := by
  have hsbrk : NullKeeps (memSbrk L (toInt (mul64 words WSIZE))) := by
    intro s s' hbrk h
    rw [memSbrk, bind_ok get_ok] at h
    split at h
    · cases h
      rfl
    · -- the old break is the result, so it would be NULL
      rw [bind_ok (modify_ok _), pure_ok] at h
      exact absurd (congrArg Prod.fst (Except.ok.inj h)) hbrk
  refine hsbrk.orElse fun bp _ => ?_
  exact .bind fun _ => .bind fun _ => .bind fun _ => nonNull_coalesce _

theorem nullKeeps_mmMalloc (size : Nat) : NullKeeps (mmMalloc L size) := by
  have hnull : NullKeeps (pure 0) := nullKeeps_readOnly (readOnly_pure 0)
  have hplace : ∀ bp asize, NonNull (do place L bp asize; return bp + PAYLOAD : Prog Nat) :=
    fun bp asize => .bind fun _ => nonNull_pure (by unfold PAYLOAD; omega)
  apply nullKeeps_ite
  · exact hnull
  apply nullKeeps_ite
  · exact hnull
  refine .after (readOnly_findFit _) fun bp => ?_
  apply nullKeeps_ite
  · exact (hplace bp _).keeps
  · exact (nullKeeps_extendHeap _).orElse fun bp _ => hplace bp _

theorem nullKeeps_reallocGrow (ptr size oldblocksize newblocksize : Nat)
    (prevAlloc nextAlloc : Bool) :
    NullKeeps (reallocGrow L ptr size oldblocksize newblocksize prevAlloc nextAlloc) := by
  have hpayload : ∀ a, NonNull (pure (a + PAYLOAD)) := fun a =>
    nonNull_pure (by unfold PAYLOAD; omega)
  refine .after ?_ fun withNext => .after ?_ fun withPrev => .after ?_ fun withBoth => ?_
  · apply ensures_ite
    · exact (readOnly_nextBlk _).bind fun _ => (readOnly_blkSize _).bind fun _ => readOnly_pure _
    · exact readOnly_pure 0
  · apply ensures_ite
    · exact (readOnly_prevBlk _).bind fun _ => (readOnly_blkSize _).bind fun _ => readOnly_pure _
    · exact readOnly_pure 0
  · apply ensures_ite
    · exact (readOnly_prevBlk _).bind fun _ => (readOnly_blkSize _).bind fun _ =>
        (readOnly_nextBlk _).bind fun _ => (readOnly_blkSize _).bind fun _ => readOnly_pure _
    · exact readOnly_pure 0
  apply nullKeeps_ite
  · exact NonNull.keeps (.bind fun _ => .bind fun _ => .bind fun _ => hpayload _)
  apply nullKeeps_ite
  · exact NonNull.keeps (.bind fun _ => .bind fun _ => .bind fun _ => .bind fun _ => .bind fun _ =>
      hpayload _)
  apply nullKeeps_ite
  · exact NonNull.keeps (.bind fun _ => .bind fun _ => .bind fun _ => .bind fun _ => .bind fun _ =>
      .bind fun _ => .bind fun _ => hpayload _)
  refine .after (readOnly_nextBlk _) fun _ => .after (readOnly_blkSize _) fun _ => ?_
  apply nullKeeps_ite
  · exact (nullKeeps_extendHeap _).orElse fun _ _ => .bind fun _ => .bind fun _ => .bind fun _ =>
      hpayload _
  · exact (nullKeeps_mmMalloc size).orElse fun newptr hne => .bind fun _ => .bind fun _ =>
      .bind fun _ => nonNull_pure hne

theorem nullKeeps_mmRealloc {ptr size : Nat} (hptr : ptr ≠ 0) (hsize : size ≠ 0) :
    NullKeeps (mmRealloc L ptr size) := by
  rw [mmRealloc, if_neg hsize, if_neg hptr]
  refine .after (readOnly_blkSize _) fun oldblocksize => ?_
  apply nullKeeps_ite
  · exact nullKeeps_readOnly (readOnly_pure 0)
  refine .after (readOnly_readWord _ _) fun _ => .after (readOnly_nextBlk _) fun _ =>
    .after (readOnly_blkFree _) fun _ => ?_
  apply nullKeeps_ite
  · exact (nonNull_pure hptr).keeps
  · exact nullKeeps_reallocGrow _ _ _ _ _ _

end Allocator

section Runs

variable {L : Layout} {r : Except Fault Session}

def Grounded (r : Except Fault Session) : Prop :=
  ∀ c, r = .ok c → c.state.memBrk ≠ 0 ∧ ∀ a ∈ c.live, a.1 ≠ 0

theorem stable_grounded : Stable fun s s' : State => s.memBrk ≠ 0 → s'.memBrk ≠ 0 where
  refl s h := h
  trans h h' hs := h' (h hs)
  write s m h := h
  record s call h := h
  sbrk s n h := by
    simp only
    omega

theorem grounded_start (hr : (system L).init r) : Grounded r := by
  obtain ⟨c, h, rfl, hs, ho⟩ := sound_start hr
  rintro c ⟨⟩
  have hends := hs.ends
  unfold base WSIZE at hends
  refine ⟨by omega, fun a ha => ?_⟩
  obtain ⟨d, m, hd, -⟩ := ho.large a.1 a.2 ha
  unfold PAYLOAD at hd
  omega

theorem grounded_step {op : Op} {r' : Except Fault Session} (hr : Grounded r)
    (hnext : (system L).next r op = some r') : Grounded r' := by
  cases r with
  | error e => cases hnext
  | ok c =>
    obtain ⟨hbrk, hlive⟩ := hr c rfl
    rintro c' rfl
    have hstep := stepped_of_next hnext
    -- a new allocation is entered only under a pointer that is not NULL
    have hentered : ∀ p n (live : List (Nat × Nat)), live ⊆ c.live →
        ∀ a ∈ (if p = 0 then c.live else (p, n) :: live), a.1 ≠ 0 := by
      intro p n live hsub a ha
      split at ha
      · exact hlive a ha
      · rename_i hp
        rcases List.mem_cons.mp ha with rfl | ha
        · exact hp
        · exact hlive a (hsub ha)
    cases op with
    | malloc size =>
      obtain ⟨-, p, hrun, heq⟩ := hstep
      rw [heq]
      exact ⟨ensures_mmMalloc stable_grounded size _ _ _ hrun hbrk,
        hentered p size c.live (List.Subset.refl _)⟩
    | free p =>
      obtain ⟨-, hrun, heq⟩ := hstep
      rw [heq]
      exact ⟨ensures_mmFree stable_grounded p _ _ _ hrun hbrk,
        fun a ha => hlive a (List.mem_of_mem_filter ha)⟩
    | realloc p size =>
      obtain ⟨-, q, hrun, heq⟩ := hstep
      rw [heq]
      exact ⟨ensures_mmRealloc stable_grounded p size _ _ _ hrun hbrk,
        hentered q size _ fun a ha => List.mem_of_mem_filter ha⟩
    | write a v =>
      obtain ⟨-, rfl⟩ := hstep
      exact ⟨hbrk, hlive⟩

theorem grounded_of_reachable (hr : Reachable (system L) r) : Grounded r :=
  hr.invariant (fun _ => grounded_start) fun _ _ _ hs _ hnext => grounded_step hs hnext

/-- The step leaves the program state and the live allocations as they are, and so every later run
is one without it. -/
structure NoEffect (L : Layout) (c : Session) (op : Op) : Prop where
  same : next L c op = some (.ok c)
  later : ∀ ops, (system L).exec (.ok c) (op :: ops) = (system L).exec (.ok c) ops

theorem noEffect_of_same {c : Session} {op : Op} (h : next L c op = some (.ok c)) :
    NoEffect L c op := by
  refine ⟨h, fun ops => ?_⟩
  have hnext : (system L).next (.ok c) op = some (.ok c) := h
  rw [System.exec, hnext, Option.bind_some]

/-- In every state of every run, a call that returns NULL has no effect. -/
theorem failure_atomic (hr : Reachable (system L) r) :
    ∀ c, r = .ok c →
      (∀ n s', 0 < n → n ≤ INT_MAX → mmMalloc L n c.state = .ok (0, s') →
        s' = c.state ∧ NoEffect L c (.malloc n)) ∧
      ∀ p n s', p ∈ c.live.map Prod.fst → 0 < n → n ≤ INT_MAX →
        mmRealloc L p n c.state = .ok (0, s') → s' = c.state ∧ NoEffect L c (.realloc p n) := by
  intro c hc
  obtain ⟨hbrk, hlive⟩ := grounded_of_reachable hr c hc
  constructor
  · intro n s' hpos hn hrun
    obtain rfl := nullKeeps_mmMalloc n _ s' hbrk hrun
    refine ⟨rfl, noEffect_of_same ?_⟩
    rw [next, if_pos hn, hrun]
    rfl
  · intro p n s' hp hpos hn hrun
    have hptr : p ≠ 0 := by
      obtain ⟨a, ha, rfl⟩ := List.mem_map.mp hp
      exact hlive a ha
    obtain rfl := nullKeeps_mmRealloc hptr (by omega) _ s' hbrk hrun
    refine ⟨rfl, noEffect_of_same ?_⟩
    rw [next, if_pos ⟨hp, hpos, hn⟩, hrun]
    rfl

end Runs

def small : Layout where
  memStartBrk := 4096
  heapSize := 160
  freeLists := 1024
  ndebug := false
  start_pos := (sample false).start_pos
  start_aligned := (sample false).start_aligned
  heapSize_le := by decide
  start_below := (sample false).start_below
  lists_pos := (sample false).lists_pos
  lists_below := (sample false).lists_below
  lists_apart := by decide

/-- After `mm_malloc (120)` neither 60 bytes more nor 137 for the allocation fit into it. -/
theorem failure_atomic_small :
    ∃ (c : Session) (s s' : State), c.live = [(4112, 120)] ∧
      mmMalloc small 60 c.state = .ok (0, s) ∧ s = c.state ∧
      mmRealloc small 4112 137 c.state = .ok (0, s') ∧ s' = c.state := by
  have hrun : ((do
      let i ← mmInit small
      let p ← mmMalloc small 120
      let s ← get
      let q ← mmMalloc small 60
      set s
      let q' ← mmRealloc small 4112 137
      return (i, p, q, q') : Prog _) ⟨fun _ => 0, 4096, 0, fun _ => 0, []⟩).map Prod.fst =
      .ok (0, 4112, 0, 0) := by decide +kernel
  obtain ⟨t, hrun⟩ := exists_of_result hrun
  obtain ⟨i, s₀, hinit, hrun⟩ := bind_inv hrun
  obtain ⟨p, s, hmalloc, hrun⟩ := bind_inv hrun
  rw [bind_ok get_ok] at hrun
  obtain ⟨q, s₁, hfull, hrun⟩ := bind_inv hrun
  obtain ⟨_, s₂, hset, hrun⟩ := bind_inv hrun
  cases hset
  obtain ⟨q', s₃, hfull', hrun⟩ := bind_inv hrun
  rw [pure_ok] at hrun
  simp only [Except.ok.injEq, Prod.mk.injEq] at hrun
  obtain ⟨⟨rfl, rfl, rfl, rfl⟩, -⟩ := hrun
  have hreach : Reachable (system small) (.ok ⟨s, [(4112, 120)]⟩) := by
    refine .step (i := .malloc 120) (.start ⟨_, s₀, rfl, rfl, hinit, rfl⟩) trivial ?_
    change next small ⟨s₀, []⟩ (.malloc 120) = _
    rw [next, if_pos (by decide), hmalloc]
    rfl
  obtain ⟨hmallocs, hreallocs⟩ := failure_atomic hreach _ rfl
  exact ⟨⟨s, [(4112, 120)]⟩, s₁, s₃, rfl, hfull,
    (hmallocs 60 s₁ (by decide) (by decide) hfull).1, hfull',
    (hreallocs 4112 137 s₃ (by simp) (by decide) (by decide) hfull').1⟩

end ComputerSystems.Malloc.Failure
