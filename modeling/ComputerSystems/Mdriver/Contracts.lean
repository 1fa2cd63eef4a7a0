/- What a package promises, and what the driver reports on a package that keeps its promise. -/

import ComputerSystems.Malloc.Allocator
import ComputerSystems.Mdriver.Program
import ComputerSystems.Systems.Computations

set_option autoImplicit false
set_option relaxedAutoImplicit false

namespace ComputerSystems.Mdriver.Contracts

open ComputerSystems.Memory.Bytes
open ComputerSystems.Systems.Computations
open ComputerSystems.Malloc.Machine (ALIGNMENT Layout State)
open ComputerSystems.Malloc.Allocator (INT_MAX)
open ComputerSystems.Mdriver.Program

abbrev Payloads := List (Nat × Nat)

def Apart (a b : Nat × Nat) : Prop := a.1 + a.2 ≤ b.1 ∨ b.1 + b.2 ≤ a.1

structure Sound (L : Layout) (s : State) (live : Payloads) : Prop where
  positive : ∀ a ∈ live, 0 < a.2
  aligned : ∀ a ∈ live, a.1 % ALIGNMENT = 0
  inside : ∀ a ∈ live, L.memStartBrk ≤ a.1 ∧ a.1 + a.2 ≤ s.memBrk
  apart : live.Pairwise Apart

def SameBytes (live : Payloads) (m m' : Mem) : Prop :=
  ∀ a ∈ live, ∀ j < a.2, m' (a.1 + j) = m (a.1 + j)

def without (live : Payloads) (p : Nat) : Payloads := live.filter fun a => a.1 ≠ p

/-- In terms of the states in which it `Owned` some payloads, a package serves every request or returns
NULL, and leaves alone what is in the payloads. `mm_realloc` does so on the calls that are `Good`. -/
structure Contract {ε : Type} (L : Layout) (mm : Package ε) (Owned : State → Payloads → Prop)
    (Good : State → Nat → Nat → Prop) : Prop where
  init : ∀ s, s.memBrk = L.memStartBrk → s.calls = [] →
    ∃ rc s', mm.mmInit s = .ok (rc, s') ∧ (0 ≤ rc → Owned s' [])
  sound : ∀ s live, Owned s live → Sound L s live
  write : ∀ s live p n c, Owned s live → (p, n) ∈ live → Owned { s with mem := fill s.mem p c n } live
  malloc : ∀ s live size, Owned s live → size ≤ INT_MAX → ∃ p s', mm.mmMalloc size s = .ok (p, s') ∧
    (p ≠ 0 → Owned s' ((p, size) :: live) ∧ SameBytes live s.mem s'.mem)
  free : ∀ s live p n, Owned s live → (p, n) ∈ live → ∃ s', mm.mmFree p s = .ok ((), s') ∧
    Owned s' (without live p) ∧ SameBytes (without live p) s.mem s'.mem
  realloc : ∀ s live p n size, Owned s live → (p, n) ∈ live → size ≤ INT_MAX → Good s p size →
    ∃ q s', mm.mmRealloc p size s = .ok (q, s') ∧
      (q ≠ 0 → Owned s' ((q, size) :: without live p) ∧ SameBytes (without live p) s.mem s'.mem ∧
        ∀ j < min size n, s'.mem (q + j) = s.mem (p + j))

def nextIds (ids : List Nat) (op : Traceop) : List Nat :=
  match op.type with
  | .ALLOC => op.index :: ids
  | .REALLOC => op.index :: ids.filter (· ≠ op.index)
  | .FREE => ids.filter (· ≠ op.index)

/-- Blocks are allocated under an id that is free, and only live ones are freed and reallocated. -/
def WellFormed : List Nat → List Traceop → Prop
  | _, [] => True
  | ids, op :: ops => (op.type = .ALLOC ↔ op.index ∉ ids) ∧ WellFormed (nextIds ids op) ops

/-- The errors that are reported on a package that keeps its contract: that it returned NULL, and that
data was lost when a block is reallocated whose index is, as a byte, beyond the positive `char`s. -/
def Justified (op : Traceop) (msg : Message) : Prop :=
  op.type = .ALLOC ∧ msg = .mallocFailed ∨ op.type = .REALLOC ∧ msg = .reallocFailed ∨
    op.type = .REALLOC ∧ 128 ≤ op.index % 256 ∧ msg = .notPreserved

def Answers {ε : Type} (x : Except (Stop ε) (Unit × Trial)) (Q : Trial → Prop)
    (E : Nat → Message → Prop) : Prop :=
  (∃ t, x = .ok ((), t) ∧ Q t) ∨ ∃ i msg, x = .error (.error i msg) ∧ E i msg

def payloads (t : Trial) (ids : List Nat) : Payloads := ids.map fun i => (t.blocks i, t.blockSizes i)

def rangeOf (a : Nat × Nat) : Range := ⟨a.1, a.1 + a.2 - 1⟩

/-- The driver knows the live payloads, and finds in each the low byte of its index. -/
structure Follows (Owned : State → Payloads → Prop) (t : Trial) (ids : List Nat) : Prop where
  owned : Owned t.state (payloads t ids)
  ranges : t.ranges = (payloads t ids).map rangeOf
  distinct : ids.Nodup
  filled : ∀ i ∈ ids, ∀ j < t.blockSizes i, t.state.mem (t.blocks i + j) = UInt8.ofNat (i % 256)

section Lists

variable {α β : Type} [DecidableEq β]

theorem eraseP_eq_filter {l : List α} {f : α → β} {b : β} (h : (l.map f).Nodup) :
    (l.eraseP fun a => f a = b) = l.filter fun a => f a ≠ b := by
  induction l with
  | nil => rfl
  | cons a l ih =>
    rw [List.map_cons, List.nodup_cons] at h
    by_cases ha : f a = b
    · rw [List.eraseP_cons_of_pos (by simpa using ha), List.filter_cons_of_neg (by simpa using ha)]
      refine (List.filter_eq_self.mpr fun x hx => ?_).symm
      have hne : f x ≠ b := by
        rintro rfl
        exact h.1 (ha ▸ List.mem_map_of_mem hx)
      simpa using hne
    · rw [List.eraseP_cons_of_neg (by simpa using ha), List.filter_cons_of_pos (by simpa using ha),
        ih h.2]

end Lists

section Payloads

variable {L : Layout} {s : State} {live : Payloads} {t : Trial} {ids : List Nat} {p n : Nat}

theorem Sound.distinct (h : Sound L s live) : (live.map Prod.fst).Nodup := by
  rw [List.Nodup, List.pairwise_map]
  refine h.apart.imp_of_mem fun {a b} ha hb hapart heq => ?_
  have hapos := h.positive a ha
  have hbpos := h.positive b hb
  unfold Apart at hapart
  omega

theorem mem_without {a : Nat × Nat} : a ∈ without live p ↔ a ∈ live ∧ a.1 ≠ p := by
  rw [without, List.mem_filter, decide_eq_true_eq]

theorem mem_payloads {i : Nat} (hi : i ∈ ids) : (t.blocks i, t.blockSizes i) ∈ payloads t ids :=
  List.mem_map.mpr ⟨i, hi, rfl⟩

theorem without_payloads {index : Nat} (h : ((payloads t ids).map Prod.fst).Nodup) (hindex : index ∈ ids) :
    without (payloads t ids) (t.blocks index) = payloads t (ids.filter (· ≠ index)) := by
  rw [payloads, List.map_map] at h
  rw [without, payloads, payloads, List.filter_map]
  congr 1
  refine List.filter_congr fun i hi => ?_
  have hinjective := List.inj_on_of_nodup_map h hi hindex
  simp only [Function.comp, decide_eq_decide, not_iff_not, ne_eq] at hinjective ⊢
  exact ⟨fun heq => hinjective heq, fun heq => heq ▸ rfl⟩

theorem removeRange_payloads (h : (live.map Prod.fst).Nodup) :
    ((live.map rangeOf).eraseP fun r => r.lo = p) = (without live p).map rangeOf := by
  have hlows : ((live.map rangeOf).map Range.lo).Nodup := by
    rw [List.map_map]
    exact h
  rw [eraseP_eq_filter hlows, List.filter_map]
  rfl

end Payloads

section Steps

variable {ε α : Type} {L : Layout} {checkHeapBounds : Bool} {mm : Package ε} {scale : Int → Int}
  {Owned : State → Payloads → Prop} {Good : State → Nat → Nat → Prop} {t : Trial} {ids : List Nat} {op : Traceop} {i : Nat}
  {Q R : Trial → Prop} {E E' : Nat → Message → Prop}

theorem Answers.after {x : Check ε α} {f : α → Check ε Unit} {a : α} {t' : Trial} (h : x t = .ok (a, t'))
    (hf : Answers (f a t') Q E) : Answers ((x >>= f) t) Q E := by
  rwa [bind_ok h]

theorem package_ok {x : StateT State (Except ε) α} {a : α} {s' : State} (h : x t.state = .ok (a, s')) :
    package x t = .ok (a, { t with state := s' }) := by
  rw [package, bind_ok get_ok, h]
  rfl

theorem addRange_ok {live : Payloads} {p size : Nat} (h : Sound L t.state ((p, size) :: live))
    (hranges : t.ranges = live.map rangeOf) :
    (addRange L checkHeapBounds p size i : Check ε Unit) t =
      .ok ((), { t with ranges := rangeOf (p, size) :: live.map rangeOf }) := by
  have hpos : 0 < size := h.positive (p, size) List.mem_cons_self
  have haligned : p % ALIGNMENT = 0 := h.aligned (p, size) List.mem_cons_self
  obtain ⟨hlow, hhigh⟩ := h.inside (p, size) List.mem_cons_self
  have hinside : Range.outside L p (p + size - 1) t.state = false := by
    dsimp only at hlow hhigh
    simp only [Range.outside, Bool.or_eq_false_iff, decide_eq_false_iff_not]
    unfold memHeapLo memHeapHi
    omega
  have hapart : t.ranges.any (Range.overlapped p (p + size - 1)) = false := by
    rw [hranges, List.any_map, List.any_eq_false]
    intro a ha
    have hdisjoint := (List.pairwise_cons.mp h.apart).1 a ha
    have hapos := h.positive a (List.mem_cons_of_mem _ ha)
    unfold Apart at hdisjoint
    dsimp only at hdisjoint
    simp only [Function.comp, Range.overlapped, Bool.or_eq_true, Bool.and_eq_true, decide_eq_true_eq]
    unfold rangeOf
    dsimp only
    omega
  have hsize : (!L.ndebug && decide (size = 0)) = false := by
    rw [decide_eq_false (Nat.ne_of_gt hpos), Bool.and_false]
  rw [addRange, bind_ok get_ok, hsize, hinside, hapart, Bool.and_false, if_neg Bool.false_ne_true,
    if_neg (not_not.mpr haligned), if_neg Bool.false_ne_true, if_neg Bool.false_ne_true, hranges]
  rfl

theorem fill_inside {m : Mem} {p j n : Nat} {c : UInt8} (hj : j < n) : fill m p c n (p + j) = c := by
  rw [fill, if_pos (by omega)]

theorem fill_outside {m : Mem} {p x n : Nat} {c : UInt8} (hx : x < p ∨ p + n ≤ x) : fill m p c n x = m x := by
  rw [fill, if_neg (by omega)]

theorem remember_payloads {index p size : Nat} {old : Trial} (hindex : index ∉ ids)
    (hblocks : t.blocks = old.blocks) (hsizes : t.blockSizes = old.blockSizes) :
    payloads (t.remember index p size) (index :: ids) = (p, size) :: payloads old ids := by
  have hother : ∀ i ∈ ids, i ≠ index := fun i hi heq => hindex (heq ▸ hi)
  rw [payloads, List.map_cons]
  dsimp only [Trial.remember]
  rw [Function.update_self, Function.update_self, payloads, hblocks, hsizes]
  refine congrArg _ (List.map_congr_left fun i hi => ?_)
  rw [Function.update_of_ne (hother i hi), Function.update_of_ne (hother i hi)]

theorem remember_follows {index p size : Nat} {old : Trial} (hmm : Contract L mm Owned Good)
    (hindex : index ∉ ids) (howned : Owned t.state ((p, size) :: payloads old ids))
    (hblocks : t.blocks = old.blocks) (hsizes : t.blockSizes = old.blockSizes)
    (hranges : t.ranges = rangeOf (p, size) :: (payloads old ids).map rangeOf) (hdistinct : ids.Nodup)
    (hfilled : ∀ i ∈ ids, ∀ j < old.blockSizes i, t.state.mem (old.blocks i + j) = UInt8.ofNat (i % 256)) :
    Follows Owned (t.remember index p size) (index :: ids) := by
  have hother : ∀ i ∈ ids, i ≠ index := fun i hi heq => hindex (heq ▸ hi)
  have hlive : payloads (t.remember index p size) (index :: ids) = (p, size) :: payloads old ids :=
    remember_payloads hindex hblocks hsizes
  refine ⟨?_, ?_, List.nodup_cons.mpr ⟨hindex, hdistinct⟩, ?_⟩
  · rw [hlive]
    exact hmm.write _ _ p size _ howned List.mem_cons_self
  · rw [hlive, List.map_cons]
    exact hranges
  · intro k hk j hj
    rcases List.mem_cons.mp hk with rfl | hk
    · dsimp only [Trial.remember] at hj ⊢
      rw [Function.update_self] at hj ⊢
      exact fill_inside hj
    · dsimp only [Trial.remember] at hj ⊢
      rw [Function.update_of_ne (hother k hk)] at hj ⊢
      rw [hsizes] at hj
      rw [hblocks]
      have hapart := (List.pairwise_cons.mp (hmm.sound _ _ howned).apart).1 _ (mem_payloads hk)
      unfold Apart at hapart
      dsimp only at hapart
      rw [fill_outside (by omega)]
      exact hfilled k hk j hj

theorem requested_le (hscale : scale op.size ≤ INT_MAX) : requested scale op ≤ INT_MAX := by
  unfold requested
  omega

theorem alloc_answers (hmm : Contract L mm Owned Good) (h : Follows Owned t ids)
    (hindex : op.index ∉ ids) (htype : op.type = .ALLOC) (hscale : scale op.size ≤ INT_MAX) :
    Answers (evalOp L checkHeapBounds mm scale i op t) (fun t' => Follows Owned t' (nextIds ids op))
      fun k msg => k = i ∧ Justified op msg := by
  rw [evalOp, nextIds, htype]
  obtain ⟨p, s', hrun, hserved⟩ := hmm.malloc _ _ _ h.owned (requested_le hscale)
  refine Answers.after (package_ok hrun) ?_
  by_cases hnull : p = 0
  · rw [if_pos hnull]
    exact Or.inr ⟨i, _, rfl, rfl, Or.inl ⟨htype, rfl⟩⟩
  · obtain ⟨howned, hsame⟩ := hserved hnull
    rw [if_neg hnull]
    refine Answers.after (addRange_ok (hmm.sound _ _ howned) h.ranges) ?_
    refine Or.inl ⟨_, rfl, remember_follows hmm hindex howned rfl rfl rfl h.distinct fun k hk j hj => ?_⟩
    exact (hsame _ (mem_payloads hk) j hj).trans (h.filled k hk j hj)

theorem charValue_byte (n : Nat) : charValue (UInt8.ofNat (n % 256)) = (n % 256 : Nat) ↔ n % 256 < 128 := by
  have hbyte : (UInt8.ofNat (n % 256)).toNat = n % 256 := by
    rw [UInt8.toNat_ofNat', Nat.mod_mod]
  rw [charValue, hbyte]
  split
  · simp_all
  · omega

/-- Data that was kept compares equal if its byte is a positive `char`. -/
theorem holdsData_iff {m : Mem} {p index n : Nat} (hpos : 0 < n)
    (hdata : ∀ j < n, m (p + j) = UInt8.ofNat (index % 256)) :
    holdsData m p index n = true ↔ index % 256 < 128 := by
  rw [holdsData, List.all_eq_true]
  simp only [List.mem_range, decide_eq_true_eq]
  constructor
  · intro hall
    have hfirst := hall 0 hpos
    rw [hdata 0 hpos] at hfirst
    exact (charValue_byte index).mp hfirst
  · intro hsmall j hj
    rw [hdata j hj]
    exact (charValue_byte index).mpr hsmall

theorem removeRange_ok {index : Nat} {t' : Trial} (hmm : Contract L mm Owned Good)
    (h : Follows Owned t ids) (hindex : index ∈ ids) (hsame : t'.ranges = t.ranges) :
    (removeRange (t.blocks index) : Check ε Unit) t' =
      .ok ((), { t' with ranges := (payloads t (ids.filter (· ≠ index))).map rangeOf }) := by
  have hsound := hmm.sound _ _ h.owned
  have hranges : (t'.ranges.eraseP fun r => r.lo = t.blocks index) =
      (payloads t (ids.filter (· ≠ index))).map rangeOf := by
    rw [hsame, h.ranges, removeRange_payloads hsound.distinct, without_payloads hsound.distinct hindex]
  rw [← hranges]
  rfl

theorem free_answers (hmm : Contract L mm Owned Good) (h : Follows Owned t ids)
    (hindex : op.index ∈ ids) (htype : op.type = .FREE) :
    Answers (evalOp L checkHeapBounds mm scale i op t) (fun t' => Follows Owned t' (nextIds ids op))
      fun k msg => k = i ∧ Justified op msg := by
  obtain ⟨s', hrun, howned, hsame⟩ := hmm.free _ _ _ _ h.owned (mem_payloads hindex)
  rw [without_payloads (hmm.sound _ _ h.owned).distinct hindex] at howned hsame
  rw [evalOp, nextIds, htype]
  refine Answers.after get_ok (Answers.after (removeRange_ok hmm h hindex rfl) ?_)
  refine Or.inl ⟨_, package_ok hrun, howned, rfl, h.distinct.filter _, fun k hk j hj => ?_⟩
  exact (hsame _ (mem_payloads hk) j hj).trans (h.filled k (List.mem_of_mem_filter hk) j hj)

theorem realloc_answers (hmm : Contract L mm Owned Good)
    (hgood : Good t.state (t.blocks op.index) (requested scale op)) (h : Follows Owned t ids) (hindex : op.index ∈ ids) (htype : op.type = .REALLOC)
    (hscale : scale op.size ≤ INT_MAX) :
    Answers (evalOp L checkHeapBounds mm scale i op t)
      (fun t' => Follows Owned t' (nextIds ids op) ∧ op.index % 256 < 128)
      fun k msg => k = i ∧ Justified op msg := by
  have hsound := hmm.sound _ _ h.owned
  obtain ⟨q, s', hrun, hserved⟩ := hmm.realloc _ _ _ _ _ h.owned (mem_payloads hindex)
    (requested_le hscale) hgood
  rw [without_payloads hsound.distinct hindex] at hserved
  rw [evalOp, nextIds, htype]
  refine Answers.after get_ok (Answers.after (package_ok hrun) ?_)
  by_cases hnull : q = 0
  · rw [if_pos hnull]
    exact Or.inr ⟨i, _, rfl, rfl, Or.inr (Or.inl ⟨htype, rfl⟩)⟩
  · obtain ⟨howned, hsame, hcopied⟩ := hserved hnull
    have hsound' := hmm.sound _ _ howned
    rw [if_neg hnull]
    refine Answers.after (removeRange_ok hmm h hindex rfl) ?_
    refine Answers.after (addRange_ok hsound' rfl) (Answers.after get_ok ?_)
    dsimp only
    have hmin : ∀ a b : Nat, (if a < b then a else b) = min a b := by
      intro a b
      split
      · omega
      · omega
    rw [hmin]
    have hpos : 0 < min (requested scale op) (t.blockSizes op.index) :=
      Nat.lt_min.mpr ⟨hsound'.positive _ List.mem_cons_self, hsound.positive _ (mem_payloads hindex)⟩
    have hdata := @holdsData_iff s'.mem q op.index _ hpos fun j hj =>
      (hcopied j hj).trans (h.filled op.index hindex j (Nat.lt_min.mp hj).2)
    by_cases hsmall : op.index % 256 < 128
    · rw [if_pos (hdata.mpr hsmall)]
      refine Or.inl ⟨_, rfl, remember_follows hmm ?_ howned rfl rfl rfl (h.distinct.filter _) ?_, hsmall⟩
      · simp
      · intro k hk j hj
        exact (hsame _ (mem_payloads hk) j hj).trans (h.filled k (List.mem_of_mem_filter hk) j hj)
    · rw [if_neg (mt hdata.mp hsmall)]
      exact Or.inr ⟨i, _, rfl, rfl, Or.inr (Or.inr ⟨htype, Nat.le_of_not_lt hsmall, rfl⟩)⟩

theorem evalOp_answers (hmm : Contract L mm Owned Good) (h : Follows Owned t ids)
    (hop : op.type = .ALLOC ↔ op.index ∉ ids) (hscale : scale op.size ≤ INT_MAX)
    (hgood : op.type = .REALLOC → Good t.state (t.blocks op.index) (requested scale op)) :
    Answers (evalOp L checkHeapBounds mm scale i op t)
      (fun t' => Follows Owned t' (nextIds ids op) ∧ (op.type = .REALLOC → op.index % 256 < 128))
      fun k msg => k = i ∧ Justified op msg := by
  have hlive : op.type ≠ .ALLOC → op.index ∈ ids := fun hne => not_not.mp (mt hop.mpr hne)
  cases htype : op.type with
  | ALLOC =>
    refine (alloc_answers hmm h (hop.mp htype) htype hscale).imp ?_ id
    exact fun ⟨t', hok, hfollows⟩ => ⟨t', hok, hfollows, fun hrealloc => by cases hrealloc⟩
  | FREE =>
    refine (free_answers hmm h (hlive (by rw [htype]; decide)) htype).imp ?_ id
    exact fun ⟨t', hok, hfollows⟩ => ⟨t', hok, hfollows, fun hrealloc => by cases hrealloc⟩
  | REALLOC =>
    refine (realloc_answers hmm (hgood htype) h (hlive (by rw [htype]; decide)) htype hscale).imp ?_ id
    exact fun ⟨t', hok, hfollows, hsmall⟩ => ⟨t', hok, hfollows, fun _ => hsmall⟩

end Steps

section Runs

variable {ε : Type} {L : Layout} {checkHeapBounds : Bool} {mm : Package ε} {scale : Int → Int}
  {Owned : State → Payloads → Prop} {Good : State → Nat → Nat → Prop} {t : Trial} {ids : List Nat} {ops : List Traceop}

/-- All calls of `mm_realloc` that the driver makes are good. -/
def Avoids (Good : State → Nat → Nat → Prop) (L : Layout) (checkHeapBounds : Bool) (mm : Package ε)
    (scale : Int → Int) (i : Nat) (ops : List Traceop) (t : Trial) : Prop :=
  ∀ j op t', ops[j]? = some op → op.type = .REALLOC →
    evalFrom L checkHeapBounds mm scale i (ops.take j) t = .ok ((), t') →
      Good t'.state (t'.blocks op.index) (requested scale op)

theorem evalFrom_answers {i : Nat} (hmm : Contract L mm Owned Good) (h : Follows Owned t ids)
    (hops : WellFormed ids ops) (hscale : ∀ op ∈ ops, scale op.size ≤ INT_MAX)
    (hgood : Avoids Good L checkHeapBounds mm scale i ops t) :
    Answers (evalFrom L checkHeapBounds mm scale i ops t)
      (fun t' => Follows Owned t' (ops.foldl nextIds ids) ∧
        ∀ op ∈ ops, op.type = .REALLOC → op.index % 256 < 128)
      fun k msg => ∃ j op, k = i + j ∧ ops[j]? = some op ∧ Justified op msg := by
  induction ops generalizing ids t i with
  | nil => exact Or.inl ⟨t, rfl, h, fun op hop => absurd hop List.not_mem_nil⟩
  | cons op ops ih =>
    have hstep := @evalOp_answers ε L checkHeapBounds mm scale Owned Good t ids op i hmm h hops.1
      (hscale op List.mem_cons_self) fun htype => hgood 0 op t rfl htype rfl
    rcases hstep with ⟨t', hok, hfollows, hsmall⟩ | ⟨k, msg, hstop, rfl, hjustified⟩
    · have hrest := @ih t' _ (i + 1) hfollows hops.2 (fun o ho => hscale o (List.mem_cons_of_mem _ ho))
        fun j o u ho htype hrun => hgood (j + 1) o u ho htype ((bind_ok hok).trans hrun)
      rw [evalFrom, bind_ok hok]
      rcases hrest with ⟨u, hok', hfollows', hall⟩ | ⟨k, msg, hstop, j, o, rfl, ho, hjustified⟩
      · exact Or.inl ⟨u, hok', hfollows', List.forall_mem_cons.mpr ⟨hsmall, hall⟩⟩
      · exact Or.inr ⟨_, msg, hstop, j + 1, o, by omega, ho, hjustified⟩
    · exact Or.inr ⟨_, msg, bind_error hstop, 0, op, rfl, rfl, hjustified⟩

theorem resetHeap_answers (hmm : Contract L mm Owned Good) (hcalls : t.state.calls = []) :
    Answers (resetHeap L mm t) (fun t' => Owned t'.state []) fun k msg => k = 0 ∧ msg = .initFailed := by
  obtain ⟨rc, s', hinit, hstart⟩ := hmm.init { t.state with memBrk := L.memStartBrk } rfl hcalls
  have hpackage := @package_ok ε Int { t with state := { t.state with memBrk := L.memStartBrk } } _ _ _ hinit
  refine Answers.after rfl (Answers.after hpackage ?_)
  by_cases hrc : rc < 0
  · rw [if_pos hrc]
    exact Or.inr ⟨0, _, rfl, rfl, rfl⟩
  · rw [if_neg hrc]
    exact Or.inl ⟨_, rfl, hstart (Int.not_lt.mp hrc)⟩

theorem evalMmValid_answers (hmm : Contract L mm Owned Good) (hops : WellFormed [] ops)
    (hcalls : t.state.calls = []) (hscale : ∀ op ∈ ops, scale op.size ≤ INT_MAX)
    (hgood : ∀ t', (resetHeap L mm t) = .ok ((), t') →
      Avoids Good L checkHeapBounds mm scale 0 ops { t' with ranges := [] }) :
    Answers (evalMmValid L checkHeapBounds mm scale ops t)
      (fun t' => Follows Owned t' (ops.foldl nextIds []) ∧
        ∀ op ∈ ops, op.type = .REALLOC → op.index % 256 < 128)
      fun k msg => k = 0 ∧ msg = .initFailed ∨ ∃ op, ops[k]? = some op ∧ Justified op msg := by
  rcases @resetHeap_answers ε L mm Owned Good t hmm hcalls with ⟨t', hok, howned⟩ | ⟨k, msg, hstop, hE⟩
  · rw [evalMmValid, bind_ok hok]
    refine Answers.after rfl ?_
    have hfollows : Follows Owned { t' with ranges := [] } [] :=
      ⟨howned, rfl, List.nodup_nil, fun i hi => absurd hi List.not_mem_nil⟩
    refine (evalFrom_answers hmm hfollows hops hscale (hgood t' hok)).imp id ?_
    rintro ⟨k, msg, hstop, j, op, rfl, hop, hjustified⟩
    exact ⟨_, msg, hstop, Or.inr ⟨op, by rwa [Nat.zero_add], hjustified⟩⟩
  · exact Or.inr ⟨k, msg, bind_error hstop, Or.inl hE⟩

end Runs

end ComputerSystems.Mdriver.Contracts
