/- The verdicts of the driver on the two allocators, and what its verdict on a package is worth. -/

import ComputerSystems.Implicit.Safety
import ComputerSystems.Mdriver.Contracts

set_option autoImplicit false
set_option relaxedAutoImplicit false

namespace ComputerSystems.Mdriver.Verdicts

open ComputerSystems.Memory.Bytes
open ComputerSystems.Memory.Tiling
open ComputerSystems.Systems.Computations
open ComputerSystems.Malloc.Machine (ALIGNMENT Layout State Prog Fault)
open ComputerSystems.Malloc.Mm (WSIZE PAYLOAD)
open ComputerSystems.Malloc.Blocks (Blk bytes_eq blockWords)
open ComputerSystems.Malloc.Representation (base Kept)
open ComputerSystems.Malloc.Allocator (INT_MAX)
open ComputerSystems.Malloc.Client (Owns)
open ComputerSystems.Malloc.Safety (located_aligned base_aligned sample)
open ComputerSystems.Mdriver.Program
open ComputerSystems.Mdriver.Contracts

variable {α : Type} {L : Layout} {s s' : State} {bs : List Blk} {live : Payloads}

section Tilings

theorem sound_of_tiling (ho : Owns (fun d m => (d, ⟨m, true⟩) ∈ located Blk.bytes (base L) bs) live)
    (hends : base L + span Blk.bytes bs + WSIZE = s.memBrk) (hfour : ∀ b ∈ bs, b.size % 4 = 0)
    (hpos : ∀ a ∈ live, 0 < a.2) : Sound L s live := by
  have hW : WSIZE = 4 := rfl
  have hP : PAYLOAD = 4 := rfl
  have hbase : base L = L.memStartBrk + 12 := rfl
  refine ⟨hpos, fun a ha => ?_, fun a ha => ?_, ?_⟩
  · obtain ⟨d, m, hp, hd, -⟩ := ho.large a.1 a.2 ha
    have hmod := located_aligned base_aligned hfour hd
    unfold ALIGNMENT
    omega
  · obtain ⟨d, m, hp, hd, hlarge⟩ := ho.large a.1 a.2 ha
    have hin := located_within hd
    rw [bytes_eq] at hin
    omega
  · refine (List.pairwise_map.mp ho.distinct).imp_of_mem fun {a b} ha hb hne => ?_
    obtain ⟨d, m, hp, hd, hlarge⟩ := ho.large a.1 a.2 ha
    obtain ⟨e, k, hq, he, hlarge'⟩ := ho.large b.1 b.2 hb
    have hapart := located_apart hd he
    rw [bytes_eq, bytes_eq] at hapart
    rcases hapart with ⟨rfl, -⟩ | hapart | hapart
    · exact absurd (hp.trans hq.symm) hne
    · exact Or.inl (by omega)
    · exact Or.inr (by omega)

theorem sameBytes_of_kept {used kept : Nat → Nat → Prop} {m m' : Mem} {ys : Payloads} (ho : Owns used live)
    (hkept : Kept kept m m')
    (hsub : ∀ a ∈ ys, a ∈ live ∧ ∀ d n, a.1 = d + PAYLOAD → used d n → kept d n) : SameBytes ys m m' := by
  intro a ha j hj
  obtain ⟨hlive, hkeeps⟩ := hsub a ha
  obtain ⟨d, n, hp, hd, hlarge⟩ := ho.large a.1 a.2 hlive
  unfold PAYLOAD WSIZE at *
  exact hkept d n (hkeeps d n hp hd) _ (by unfold WSIZE; omega) (by unfold WSIZE; omega)

theorem others_kept {used : Nat → Nat → Prop} (d : Nat) : ∀ a ∈ without live (d + PAYLOAD), a ∈ live ∧
    ∀ e n, a.1 = e + PAYLOAD → used e n → used e n ∧ e ≠ d := by
  intro a ha
  obtain ⟨hlive, hne⟩ := mem_without.mp ha
  exact ⟨hlive, fun e n hae hen => ⟨hen, fun heq => hne (heq ▸ hae)⟩⟩

theorem fill_frame {d m n : Nat} {c : UInt8} (hlarge : n + 2 * WSIZE ≤ 4 * m) (y : Nat)
    (hy : y < d + WSIZE ∨ d + 4 * m - WSIZE ≤ y) : fill s.mem (d + PAYLOAD) c n y = s.mem y := by
  unfold PAYLOAD
  unfold WSIZE at *
  exact fill_outside (by omega)

end Tilings

section Implicit

open ComputerSystems.Implicit.Program (mmInit mmMalloc mmFree mmRealloc CHUNKSIZE)
open ComputerSystems.Implicit.Heap (Holds InUse)
open ComputerSystems.Implicit.Allocator (mmInit_ok mmInit_full mmMalloc_ok mmFree_ok mmRealloc_ok)

def ended (x : Prog (Option α)) : StateT State (Except (Option Fault)) α := fun s =>
  match x s with
  | .ok (some a, s') => .ok (a, s')
  | .ok (none, _) => .error none
  | .error e => .error (some e)

/-- `mm-gback-implicit.c`. -/
def implicit (L : Layout) : Package (Option Fault) where
  mmInit := ended (some <$> mmInit L)
  mmMalloc size := ended (mmMalloc L L.heapSize size)
  mmFree ptr := ended (some <$> mmFree L ptr)
  mmRealloc ptr size := ended (mmRealloc L L.heapSize ptr size)

theorem ended_ok {x : Prog (Option α)} {a : α} (h : x s = .ok (some a, s')) : ended x s = .ok (a, s') := by
  rw [ended, h]

theorem ended_map {x : Prog α} {a : α} (h : x s = .ok (a, s')) : ended (some <$> x) s = .ok (a, s') := by
  refine ended_ok ?_
  rw [map_eq_pure_bind, bind_ok h]
  rfl

def Owned (L : Layout) (s : State) (live : Payloads) : Prop :=
  ∃ bs, Holds L s bs ∧ Owns (InUse L bs) live ∧ ∀ a ∈ live, 0 < a.2

theorem implicit_contract : Contract L (implicit L) (Owned L) fun _ _ _ => True where
  init s hbrk _ := by
    by_cases hroom : 4 * WSIZE + 4 * CHUNKSIZE ≤ L.heapSize
    · obtain ⟨s', hinit, hholds⟩ := mmInit_ok hbrk hroom
      refine ⟨0, s', ended_map hinit, fun _ => ⟨_, hholds, ?_, fun a ha => absurd ha List.not_mem_nil⟩⟩
      exact ⟨fun d => by simp [InUse], by simp, by simp⟩
    · obtain ⟨s', hinit⟩ := mmInit_full hbrk (Nat.lt_of_not_le hroom)
      exact ⟨-1, s', ended_map hinit, fun h => absurd h (by decide)⟩
  sound s live := by
    rintro ⟨bs, hholds, ho, hpos⟩
    exact sound_of_tiling ho hholds.tagged.ends (fun b hb => (hholds.tagged.whole b hb).2) hpos
  write s live p n c := by
    rintro ⟨bs, hholds, ho, hpos⟩ hp
    obtain ⟨d, m, rfl, hd, hlarge⟩ := ho.large p n hp
    exact ⟨bs, ⟨hholds.tagged.payload hd (fill_frame hlarge), hholds.separated⟩, ho, hpos⟩
  malloc s live size := by
    rintro ⟨bs, hholds, ho, hpos⟩ hsize
    obtain ⟨s', hrun, hm⟩ := mmMalloc_ok hholds hsize hholds.tagged.length_lt
    refine ⟨_, s', ended_ok hrun, fun hne => ?_⟩
    rcases hm.result with ⟨hnull, -⟩ | ⟨d, m, hp, hnew⟩
    · exact absurd hnull hne
    · refine ⟨⟨_, hm.holds, ?_, List.forall_mem_cons.mpr ⟨?_, hpos⟩⟩, ?_⟩
      · rw [hp]
        exact ho.insert hnew.large hnew.fresh hnew.used
      · refine Nat.pos_of_ne_zero fun hzero => hne ?_
        rw [ComputerSystems.Implicit.Tilings.allocate, if_pos hzero]
      · exact sameBytes_of_kept ho hm.kept fun a ha => ⟨ha, fun _ _ _ hd => hd⟩
  free s live p n := by
    rintro ⟨bs, hholds, ho, hpos⟩ hp
    obtain ⟨d, m, rfl, hd, -⟩ := ho.large p n hp
    obtain ⟨s', hrun, hfreed⟩ := mmFree_ok hholds hd
    refine ⟨s', ended_map hrun, ⟨_, hfreed.holds, ho.erase hfreed.used, fun a ha => ?_⟩, ?_⟩
    · exact hpos a (mem_without.mp ha).1
    · exact sameBytes_of_kept ho hfreed.kept (others_kept d)
  realloc s live p n size := by
    rintro ⟨bs, hholds, ho, hpos⟩ hp hsize -
    obtain ⟨d, m, rfl, hd, hlarge⟩ := ho.large p n hp
    by_cases hzero : size = 0
    · obtain ⟨s', hrun, -⟩ := mmFree_ok hholds hd
      refine ⟨0, s', ended_ok ?_, fun hne => absurd rfl hne⟩
      rw [mmRealloc, if_pos hzero, bind_ok hrun]
      rfl
    · obtain ⟨s', hrun, hresult⟩ := mmRealloc_ok hholds hd hzero hsize hholds.tagged.length_lt
      refine ⟨_, s', ended_ok hrun, fun hne => ?_⟩
      rcases hresult with ⟨hnull, -⟩ | ⟨e, hq, hre⟩
      · exact absurd hnull hne
      · obtain ⟨k, hlarge', hused⟩ := hre.used
        have herased : Owns (fun a j => InUse L bs a j ∧ a ≠ d) _ := ho.erase fun _ _ => Iff.rfl
        refine ⟨⟨_, hre.holds, ?_, List.forall_mem_cons.mpr ⟨Nat.pos_of_ne_zero hzero, fun a ha => ?_⟩⟩,
          sameBytes_of_kept ho hre.kept (others_kept d), fun j hj => ?_⟩
        · rw [hq]
          exact herased.insert hlarge' (fun j hj => hre.fresh j hj.1) hused
        · exact hpos a (mem_without.mp ha).1
        · rw [hq]
          have hj := Nat.lt_min.mp hj
          exact hre.copied j hj.1 (by unfold WSIZE at *; omega)

end Implicit

section Explicit

open ComputerSystems.Malloc.Mm (mmInit mmMalloc mmFree mmRealloc)
open ComputerSystems.Malloc.Place (Holds InUse)
open ComputerSystems.Malloc.Allocator (mmInit_ok mmInit_full mmMalloc_ok mmFree_ok allocate)
open ComputerSystems.Malloc.Realloc (UnitGrowth mmRealloc_ok holds_payload)
open ComputerSystems.Malloc.Client (owns_reallocated)

/-- `mm.c`. -/
def mm (L : Layout) : Package Fault where
  mmInit := mmInit L
  mmMalloc := mmMalloc L
  mmFree := mmFree L
  mmRealloc := mmRealloc L

def InLists (L : Layout) (s : State) (live : Payloads) : Prop :=
  ∃ h, Holds L s h ∧ Owns (InUse L h) live ∧ ∀ a ∈ live, 0 < a.2

theorem mm_contract : Contract L (mm L) (InLists L) fun s p size => ¬ UnitGrowth L s p size where
  init s hbrk hcalls := by
    by_cases hroom : 4 * WSIZE ≤ L.heapSize
    · obtain ⟨s', hinit, hholds⟩ := mmInit_ok hbrk hcalls hroom
      refine ⟨0, s', hinit, fun _ => ⟨_, hholds, ?_, fun a ha => absurd ha List.not_mem_nil⟩⟩
      exact ⟨fun d => by simp [InUse], by simp, by simp⟩
    · exact ⟨-1, s, mmInit_full hbrk (Nat.lt_of_not_le hroom), fun h => absurd h (by decide)⟩
  sound s live := by
    rintro ⟨h, hholds, ho, hpos⟩
    exact sound_of_tiling ho hholds.ends (fun b hb => (hholds.ok.sizes b hb).2) hpos
  write s live p n c := by
    rintro ⟨h, hholds, ho, hpos⟩ hp
    obtain ⟨d, m, rfl, hd, hlarge⟩ := ho.large p n hp
    exact ⟨h, holds_payload hholds hd (fill_frame hlarge), ho, hpos⟩
  malloc s live size := by
    rintro ⟨h, hholds, ho, hpos⟩ hsize
    obtain ⟨s', hrun, hm⟩ := mmMalloc_ok size hholds hsize
    refine ⟨_, s', hrun, fun hne => ?_⟩
    rcases hm.result with ⟨hnull, -⟩ | ⟨d, m, hp, hnew⟩
    · exact absurd hnull hne
    · refine ⟨⟨_, hm.holds, ?_, List.forall_mem_cons.mpr ⟨?_, hpos⟩⟩, ?_⟩
      · rw [hp]
        exact ho.insert hnew.large hnew.fresh hnew.used
      · refine Nat.pos_of_ne_zero fun hzero => hne ?_
        rw [allocate, if_pos hzero]
      · exact sameBytes_of_kept ho hm.kept fun a ha => ⟨ha, fun _ _ _ hd => hd⟩
  free s live p n := by
    rintro ⟨h, hholds, ho, hpos⟩ hp
    obtain ⟨d, m, rfl, hd, -⟩ := ho.large p n hp
    obtain ⟨s', hrun, hleads, hused⟩ := mmFree_ok hholds hd
    refine ⟨s', hrun, ⟨_, hleads.holds, ho.erase hused, fun a ha => hpos a (mem_without.mp ha).1⟩, ?_⟩
    exact sameBytes_of_kept ho hleads.kept (others_kept d)
  realloc s live p n size := by
    rintro ⟨h, hholds, ho, hpos⟩ hp hsize hgood
    obtain ⟨d, m, rfl, hd, hlarge⟩ := ho.large p n hp
    by_cases hzero : size = 0
    · obtain ⟨s', hrun, -⟩ := mmFree_ok hholds hd
      refine ⟨0, s', ?_, fun hne => absurd rfl hne⟩
      change mmRealloc L (d + PAYLOAD) size s = _
      rw [mmRealloc, if_pos hzero]
      exact (bind_ok hrun).trans (pure_ok 0)
    · obtain ⟨q, s', hrun, hresult⟩ := mmRealloc_ok hholds hd (Nat.pos_of_ne_zero hzero) hsize hgood
      refine ⟨q, s', hrun, fun hne => ?_⟩
      rcases hresult with ⟨hnull, -⟩ | ⟨e, h', rfl, hre⟩
      · exact absurd hnull hne
      · refine ⟨⟨h', hre.holds, owns_reallocated ho hre, ?_⟩, sameBytes_of_kept ho hre.kept (others_kept d),
          fun j hj => ?_⟩
        · exact List.forall_mem_cons.mpr ⟨Nat.pos_of_ne_zero hzero, fun a ha => hpos a (mem_without.mp ha).1⟩
        · have hj := Nat.lt_min.mp hj
          exact hre.copied j hj.1 (by unfold WSIZE at *; omega)

end Explicit

section Verdicts

open ComputerSystems.Malloc.Mm (MIN_BLOCK_SIZE_WORDS)
open ComputerSystems.Malloc.Allocator (wordsFor)
open ComputerSystems.Malloc.Realloc (UnitGrowth unitGrowth_iff)

variable {checkHeapBounds : Bool} {scale : Int → Int} {ops : List Traceop} {t : Trial}

/-- On every trace the driver has nothing to report of `mm-gback-implicit.c` but that it returned NULL, and
lost data on a request to reallocate a block whose index has a low byte from 128 on. It does not get past
such a request. -/
theorem implicit_checked (hops : WellFormed [] ops) (hscale : ∀ op ∈ ops, scale op.size ≤ INT_MAX)
    (hcalls : t.state.calls = []) :
    (∃ t', evalMmValid L checkHeapBounds (implicit L) scale ops t = .ok ((), t') ∧
      ∀ op ∈ ops, op.type = .REALLOC → op.index % 256 < 128) ∨
    ∃ k msg, evalMmValid L checkHeapBounds (implicit L) scale ops t = .error (.error k msg) ∧
      (k = 0 ∧ msg = .initFailed ∨ ∃ op, ops[k]? = some op ∧ Justified op msg) := by
  have hgood : ∀ t', (resetHeap L (implicit L)) t = .ok ((), t') →
      Avoids (fun _ _ _ => True) L checkHeapBounds (implicit L) scale 0 ops { t' with ranges := [] } :=
    fun _ _ _ _ _ _ _ _ => trivial
  refine (evalMmValid_answers implicit_contract hops hcalls hscale hgood).imp ?_ id
  exact fun ⟨t', hok, _, hsmall⟩ => ⟨t', hok, hsmall⟩

def bench : Trial := ⟨⟨fun _ => 0, 4096, 0, fun _ => 0, []⟩, [], fun _ => 0, fun _ => 0⟩

/-- The block of index 200 is reallocated. -/
theorem implicit_checked_sample : ∃ k msg,
    evalMmValid (sample true) true (implicit (sample true)) id [⟨.ALLOC, 200, 24⟩, ⟨.REALLOC, 200, 40⟩] bench =
      .error (.error k msg) := by
  have hops : WellFormed [] [⟨.ALLOC, 200, 24⟩, ⟨.REALLOC, 200, 40⟩] :=
    ⟨by decide, by decide, trivial⟩
  rcases @implicit_checked (sample true) true id _ bench hops (by decide) rfl with
    ⟨t', -, hsmall⟩ | ⟨k, msg, hstop, -⟩
  · exact absurd (hsmall ⟨.REALLOC, 200, 40⟩ (by decide) rfl) (by decide)
  · exact ⟨k, msg, hstop⟩

/-- The same goes for `mm.c`, as long as no call of `mm_realloc` is one of those that it gets wrong. -/
theorem mm_checked (hops : WellFormed [] ops) (hscale : ∀ op ∈ ops, scale op.size ≤ INT_MAX)
    (hcalls : t.state.calls = [])
    (hgood : ∀ t', (resetHeap L (mm L)) t = .ok ((), t') →
      Avoids (fun s p size => ¬ UnitGrowth L s p size) L checkHeapBounds (mm L) scale 0 ops
        { t' with ranges := [] }) :
    (∃ t', evalMmValid L checkHeapBounds (mm L) scale ops t = .ok ((), t') ∧
      ∀ op ∈ ops, op.type = .REALLOC → op.index % 256 < 128) ∨
    ∃ k msg, evalMmValid L checkHeapBounds (mm L) scale ops t = .error (.error k msg) ∧
      (k = 0 ∧ msg = .initFailed ∨ ∃ op, ops[k]? = some op ∧ Justified op msg) := by
  refine (evalMmValid_answers mm_contract hops hcalls hscale hgood).imp ?_ id
  exact fun ⟨t', hok, _, hsmall⟩ => ⟨t', hok, hsmall⟩

theorem not_unitGrowth {p n size : Nat} (h : InLists L s live) (hp : (p, n) ∈ live) (hsize : size ≤ n) :
    ¬ UnitGrowth L s p size := by
  obtain ⟨⟨bs, lists⟩, hholds, ho, -⟩ := h
  obtain ⟨d, m, rfl, hd, hlarge⟩ := ho.large p n hp
  obtain ⟨l, r, rfl, hl⟩ := located_split hd
  obtain ⟨l, rfl⟩ : ∃ l', l = l'.reverse := ⟨l.reverse, by simp⟩
  rw [span_reverse] at hl
  have hm := hholds.ok.sizes ⟨m, true⟩ (by simp)
  intro hunit
  obtain ⟨hgrows, -⟩ := (unitGrowth_iff size hholds hl).mp hunit
  unfold wordsFor blockWords ALIGNMENT MIN_BLOCK_SIZE_WORDS WSIZE at *
  dsimp only at hm
  omega

def shrinking : List Traceop := [⟨.ALLOC, 0, 24⟩, ⟨.ALLOC, 1, 40⟩, ⟨.REALLOC, 0, 1⟩]

theorem mm_checked_sample :
    (∃ t', evalMmValid (sample true) true (mm (sample true)) id shrinking bench = .ok ((), t')) ∨
    ∃ k msg, evalMmValid (sample true) true (mm (sample true)) id shrinking bench = .error (.error k msg) ∧
      (msg = .initFailed ∨ msg = .mallocFailed ∨ msg = .reallocFailed) := by
  have hwell : WellFormed [] shrinking := ⟨by decide, by decide, by decide, trivial⟩
  have hgood : ∀ t', (resetHeap (sample true) (mm (sample true))) bench = .ok ((), t') →
      Avoids (fun s p size => ¬ UnitGrowth (sample true) s p size) (sample true) true (mm (sample true)) id 0
        shrinking { t' with ranges := [] } := by
    intro t' hreset j op u hop htype hrun
    obtain rfl : j = 2 := by
      match j, hop with
      | 0, hop => cases hop; cases htype
      | 1, hop => cases hop; cases htype
      | 2, _ => rfl
    cases hop
    rcases @resetHeap_answers _ _ _ _ _ bench (@mm_contract (sample true)) rfl with ⟨_, hok, howned⟩ | ⟨_, _, hstop, -⟩
    · cases hok.symm.trans hreset
      have hfollows : Follows (InLists (sample true)) { t' with ranges := [] } [] :=
        ⟨howned, rfl, List.nodup_nil, fun i hi => absurd hi List.not_mem_nil⟩
      have hnone : Avoids (fun s p size => ¬ UnitGrowth (sample true) s p size) (sample true) true
          (mm (sample true)) id 0 (shrinking.take 2) { t' with ranges := [] } := by
        intro j op u hop htype _
        match j, hop with
        | 0, hop => cases hop; cases htype
        | 1, hop => cases hop; cases htype
      have hfirst : WellFormed [] (shrinking.take 2) := ⟨by decide, by decide, trivial⟩
      rcases evalFrom_answers mm_contract hfollows hfirst (by decide) hnone with ⟨v, hok', hv, -⟩ | ⟨_, _, hstop, -⟩
      · cases hok'.symm.trans hrun
        have hlive : (u.blocks 0, u.blockSizes 0) ∈ payloads u [1, 0] := mem_payloads (by decide)
        exact not_unitGrowth hv.owned hlive ((mm_contract.sound _ _ hv.owned).positive _ hlive)
      · cases hstop.symm.trans hrun
    · cases hstop.symm.trans hreset
  rcases mm_checked hwell (by decide) rfl hgood with ⟨t', hok, -⟩ | ⟨k, msg, hstop, hmsg⟩
  · exact Or.inl ⟨t', hok⟩
  · refine Or.inr ⟨k, msg, hstop, ?_⟩
    rcases hmsg with ⟨-, rfl⟩ | ⟨op, hop, ⟨-, rfl⟩ | ⟨-, rfl⟩ | ⟨-, hbyte, -⟩⟩
    · exact Or.inl rfl
    · exact Or.inr (Or.inl rfl)
    · exact Or.inr (Or.inr rfl)
    · have hsmall : ∀ o ∈ shrinking, o.index % 256 < 128 := by decide
      exact absurd hbyte (Nat.not_le_of_lt (hsmall op (List.mem_of_getElem? hop)))

end Verdicts

section Acceptance

variable {ε : Type} {checkHeapBounds : Bool} {pkg : Package ε} {scale : Int → Int} {ops : List Traceop}
  {op : Traceop} {t t' : Trial} {ids : List Nat} {i : Nat}

/-- The later payload lies around the earlier one. -/
def Around (new old : Nat × Nat) : Prop := new.1 < old.1 ∧ old.1 + old.2 < new.1 + new.2

/-- What the driver makes sure of: each payload is aligned, and is apart from the earlier ones or around
them. -/
structure Recorded (t : Trial) (ids : List Nat) : Prop where
  ranges : t.ranges = (payloads t ids).map rangeOf
  distinct : ids.Nodup
  positive : ∀ a ∈ payloads t ids, 0 < a.2
  aligned : ∀ a ∈ payloads t ids, a.1 % ALIGNMENT = 0
  nested : (payloads t ids).Pairwise fun new old => Apart new old ∨ Around new old

theorem Recorded.starts (h : Recorded t ids) : ((payloads t ids).map Prod.fst).Nodup := by
  rw [List.Nodup, List.pairwise_map]
  refine h.nested.imp_of_mem fun {a b} ha hb hab heq => ?_
  have hapos := h.positive a ha
  have hbpos := h.positive b hb
  unfold Apart Around at hab
  omega

theorem Recorded.without (h : Recorded t ids) {u : Trial} (hblocks : u.blocks = t.blocks)
    (hsizes : u.blockSizes = t.blockSizes) {index : Nat}
    (hranges : u.ranges = (payloads t (ids.filter (· ≠ index))).map rangeOf) :
    Recorded u (ids.filter (· ≠ index)) := by
  have hsame : payloads u (ids.filter (· ≠ index)) = payloads t (ids.filter (· ≠ index)) := by
    rw [payloads, payloads, hblocks, hsizes]
  have hsub : (payloads t (ids.filter (· ≠ index))).Sublist (payloads t ids) := List.filter_sublist.map _
  refine ⟨hsame ▸ hranges, h.distinct.filter _, ?_, ?_, ?_⟩
  · rw [hsame]
    exact fun a ha => h.positive a (hsub.subset ha)
  · rw [hsame]
    exact fun a ha => h.aligned a (hsub.subset ha)
  · rw [hsame]
    exact h.nested.sublist hsub

theorem package_inv {α : Type} {x : StateT State (Except ε) α} {a : α} (h : package x t = .ok (a, t')) :
    ∃ s', x t.state = .ok (a, s') ∧ t' = { t with state := s' } := by
  have h := get_bind_inv h
  cases hx : x t.state with
  | error e =>
    rw [hx] at h
    cases h
  | ok r =>
    rw [hx] at h
    cases h
    exact ⟨_, rfl, rfl⟩

theorem addRange_inv {lo size : Nat} (h : (addRange L checkHeapBounds lo size i : Check ε Unit) t = .ok ((), t')) :
    lo % ALIGNMENT = 0 ∧ (∀ r ∈ t.ranges, Range.overlapped lo (lo + size - 1) r = false) ∧
      t' = { t with ranges := rangeOf (lo, size) :: t.ranges } := by
  have h := get_bind_inv h
  split at h
  · cases h
  · split at h
    · cases h
    · split at h
      · cases h
      · split at h
        · cases h
        · rename_i haligned _ hapart
          cases h
          refine ⟨not_not.mp haligned, fun r hr => ?_, rfl⟩
          exact Bool.eq_false_of_not_eq_true fun hover => hapart (List.any_eq_true.mpr ⟨r, hr, hover⟩)

theorem remember_recorded {index p size : Nat} {u : Trial} (h : Recorded t ids) (hindex : index ∉ ids)
    (hpos : 0 < size) (haligned : p % ALIGNMENT = 0)
    (hapart : ∀ r ∈ t.ranges, Range.overlapped p (p + size - 1) r = false)
    (hblocks : u.blocks = t.blocks) (hsizes : u.blockSizes = t.blockSizes)
    (hranges : u.ranges = rangeOf (p, size) :: t.ranges) :
    Recorded (u.remember index p size) (index :: ids) := by
  have hlive : payloads (u.remember index p size) (index :: ids) = (p, size) :: payloads t ids :=
    remember_payloads hindex hblocks hsizes
  refine ⟨?_, List.nodup_cons.mpr ⟨hindex, h.distinct⟩, ?_, ?_, ?_⟩
  · rw [hlive, List.map_cons, ← h.ranges]
    exact hranges
  · rw [hlive]
    exact List.forall_mem_cons.mpr ⟨hpos, h.positive⟩
  · rw [hlive]
    exact List.forall_mem_cons.mpr ⟨haligned, h.aligned⟩
  · rw [hlive]
    refine List.pairwise_cons.mpr ⟨fun a ha => ?_, h.nested⟩
    have hrange := hapart (rangeOf a) (h.ranges ▸ List.mem_map_of_mem ha)
    have hapos := h.positive a ha
    simp only [Range.overlapped, Bool.or_eq_false_iff, Bool.and_eq_false_iff, decide_eq_false_iff_not] at hrange
    unfold rangeOf at hrange
    unfold Apart Around
    dsimp only at hrange ⊢
    omega

theorem evalOp_recorded (h : Recorded t ids) (hop : op.type = .ALLOC ↔ op.index ∉ ids)
    (hpos : op.type ≠ .FREE → 0 < requested scale op)
    (hrun : evalOp L checkHeapBounds pkg scale i op t = .ok ((), t')) : Recorded t' (nextIds ids op) := by
  have hlive : op.type ≠ .ALLOC → op.index ∈ ids := fun hne => not_not.mp (mt hop.mpr hne)
  have hremoved : op.index ∈ ids → (t.ranges.eraseP fun r => r.lo = t.blocks op.index) =
      (payloads t (ids.filter (· ≠ op.index))).map rangeOf := by
    intro hindex
    rw [h.ranges, removeRange_payloads h.starts, without_payloads h.starts hindex]
  rw [evalOp] at hrun
  rw [nextIds]
  cases htype : op.type with
  | ALLOC =>
    simp only [htype] at hrun
    obtain ⟨p, t₁, hp, hrun⟩ := bind_inv hrun
    obtain ⟨s', -, rfl⟩ := package_inv hp
    split at hrun
    · cases hrun
    · obtain ⟨_, t₂, hadd, hrun⟩ := bind_inv hrun
      obtain ⟨haligned, hapart, rfl⟩ := addRange_inv hadd
      cases hrun
      exact remember_recorded h (hop.mp htype) (hpos (by rw [htype]; decide)) haligned hapart rfl rfl rfl
  | FREE =>
    have hindex := hlive (by rw [htype]; decide)
    simp only [htype] at hrun
    obtain ⟨_, t₁, hremove, hrun⟩ := bind_inv (get_bind_inv hrun)
    cases hremove
    obtain ⟨s', -, rfl⟩ := package_inv hrun
    refine h.without ?_ ?_ ?_
    · rfl
    · rfl
    · exact hremoved hindex
  | REALLOC =>
    have hindex := hlive (by rw [htype]; decide)
    simp only [htype] at hrun
    obtain ⟨q, t₁, hq, hrun⟩ := bind_inv (get_bind_inv hrun)
    obtain ⟨s', -, rfl⟩ := package_inv hq
    split at hrun
    · cases hrun
    · obtain ⟨_, t₂, hremove, hrun⟩ := bind_inv hrun
      cases hremove
      have h₂ : Recorded { t with
          state := s'
          ranges := t.ranges.eraseP fun r => r.lo = t.blocks op.index } (ids.filter (· ≠ op.index)) := by
        refine h.without ?_ ?_ ?_
        · rfl
        · rfl
        · exact hremoved hindex
      obtain ⟨_, t₃, hadd, hrun⟩ := bind_inv hrun
      obtain ⟨haligned, hapart, rfl⟩ := addRange_inv hadd
      have hrun := get_bind_inv hrun
      generalize holdsData _ _ _ _ = kept at hrun
      cases kept with
      | false => cases hrun
      | true =>
        cases hrun
        have hother : op.index ∉ ids.filter (· ≠ op.index) := by simp
        exact remember_recorded h₂ hother (hpos (by rw [htype]; decide)) haligned hapart rfl rfl rfl

theorem evalFrom_recorded (h : Recorded t ids) (hops : WellFormed ids ops)
    (hpos : ∀ op ∈ ops, op.type ≠ .FREE → 0 < requested scale op)
    (hrun : evalFrom L checkHeapBounds pkg scale i ops t = .ok ((), t')) :
    Recorded t' (ops.foldl nextIds ids) := by
  induction ops generalizing ids t i with
  | nil =>
    cases hrun
    exact h
  | cons op ops ih =>
    obtain ⟨_, t₁, hfirst, hrest⟩ := bind_inv hrun
    exact ih (evalOp_recorded h hops.1 (hpos op List.mem_cons_self) hfirst) hops.2
      (fun o ho => hpos o (List.mem_cons_of_mem _ ho)) hrest

/-- A package that the driver accepts, whatever it is, has handed out aligned payloads, and each was
apart from the payloads that were live, or around them. -/
theorem accepted_nested (hops : WellFormed [] ops)
    (hpos : ∀ op ∈ ops, op.type ≠ .FREE → 0 < requested scale op)
    (h : evalMmValid L checkHeapBounds pkg scale ops t = .ok ((), t')) :
    (∀ a ∈ payloads t' (ops.foldl nextIds []), a.1 % ALIGNMENT = 0) ∧
      (payloads t' (ops.foldl nextIds [])).Pairwise fun new old => Apart new old ∨ Around new old := by
  obtain ⟨_, t₁, -, hrun⟩ := bind_inv h
  obtain ⟨_, t₂, hclear, hrun⟩ := bind_inv hrun
  cases hclear
  have hstart : Recorded { t₁ with ranges := [] } [] :=
    ⟨rfl, List.nodup_nil, fun a ha => absurd ha List.not_mem_nil, fun a ha => absurd ha List.not_mem_nil,
      List.Pairwise.nil⟩
  have hrecorded := evalFrom_recorded hstart hops hpos hrun
  exact ⟨hrecorded.aligned, hrecorded.nested⟩

def covering : Package Fault where
  mmInit s := .ok (0, { s with memBrk := 8192 })
  mmMalloc size s := .ok (if size = 16 then 4128 else 4112, s)
  mmFree _ s := .ok ((), s)
  mmRealloc _ _ s := .ok (0, s)

def covered : List Traceop := [⟨.ALLOC, 0, 16⟩, ⟨.ALLOC, 1, 64⟩]

/-- The driver accepts a payload around one that is live. -/
theorem accepted_nested_sample : ∃ t',
    evalMmValid (sample true) true covering id covered bench = .ok ((), t') ∧
      Around (t'.blocks 1, t'.blockSizes 1) (t'.blocks 0, t'.blockSizes 0) := by
  have hrun : (evalMmValid (sample true) true covering id covered bench).map
      (fun r => ((r.2.blocks 1, r.2.blockSizes 1), (r.2.blocks 0, r.2.blockSizes 0))) =
      .ok ((4112, 64), (4128, 16)) := by
    rfl
  cases hresult : evalMmValid (sample true) true covering id covered bench with
  | error e =>
    rw [hresult] at hrun
    cases hrun
  | ok r =>
    obtain ⟨_, t'⟩ := r
    rw [hresult] at hrun
    obtain ⟨hnew, hold⟩ := Prod.mk.inj (Except.ok.inj hrun)
    have hwell : WellFormed [] covered := ⟨by decide, by decide, trivial⟩
    obtain ⟨-, hnested⟩ := accepted_nested hwell (by decide) hresult
    have hlive : (t'.blocks 0, t'.blockSizes 0) ∈ payloads t' [0] := mem_payloads List.mem_cons_self
    refine ⟨t', rfl, ((List.pairwise_cons.mp hnested).1 _ hlive).resolve_left ?_⟩
    change ¬ Apart (t'.blocks 1, t'.blockSizes 1) _
    dsimp only at hnew hold
    rw [hnew, hold]
    unfold Apart
    decide

end Acceptance

end ComputerSystems.Mdriver.Verdicts
