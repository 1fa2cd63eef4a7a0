/- The high water mark of a trace, as `eval_mm_util` measures it. -/

import ComputerSystems.Mdriver.Verdicts

set_option autoImplicit false
set_option relaxedAutoImplicit false

namespace ComputerSystems.Mdriver.Utilization

open ComputerSystems.Systems.Computations
open ComputerSystems.Malloc.Machine (Layout)
open ComputerSystems.Malloc.Safety (sample)
open ComputerSystems.Mdriver.Program
open ComputerSystems.Mdriver.Contracts
open ComputerSystems.Mdriver.Verdicts

/-- The ids whose blocks are live, with the sizes that were asked for last. -/
abbrev Sizes := List (Nat × Nat)

def nextSizes (scale : Int → Int) (sizes : Sizes) (op : Traceop) : Sizes :=
  match op.type with
  | .ALLOC => (op.index, requested scale op) :: sizes
  | .REALLOC => (op.index, requested scale op) :: without sizes op.index
  | .FREE => without sizes op.index

def total (sizes : Sizes) : Nat := (sizes.map Prod.snd).sum

def liveBytes (scale : Int → Int) (sizes : Sizes) (ops : List Traceop) : Nat :=
  total (ops.foldl (nextSizes scale) sizes)

def highWater (scale : Int → Int) : Sizes → List Traceop → Nat
  | sizes, [] => total sizes
  | sizes, op :: ops => max (total sizes) (highWater scale (nextSizes scale sizes op) ops)

section Totals

variable {sizes : Sizes} {index n : Nat} {scale : Int → Int} {op : Traceop}

theorem total_cons : total ((index, n) :: sizes) = n + total sizes := by
  rw [total, List.map_cons, List.sum_cons, total]

theorem total_without (h : (sizes.map Prod.fst).Nodup) (hmem : (index, n) ∈ sizes) :
    total sizes = n + total (without sizes index) := by
  induction sizes with
  | nil => cases hmem
  | cons a sizes ih =>
    obtain ⟨i, k⟩ := a
    rw [List.map_cons, List.nodup_cons] at h
    rw [total_cons, without]
    rcases List.mem_cons.mp hmem with heq | hmem
    · cases heq
      have hall : (sizes.filter fun a => a.1 ≠ index) = sizes := by
        refine List.filter_eq_self.mpr fun a ha => ?_
        have hne : a.1 ≠ index := fun heq => h.1 (List.mem_map.mpr ⟨a, ha, heq⟩)
        simpa using hne
      rw [List.filter_cons_of_neg (by simp), hall]
    · have hne : i ≠ index := fun heq => h.1 (List.mem_map.mpr ⟨_, hmem, heq.symm⟩)
      rw [List.filter_cons_of_pos (by simpa using hne), total_cons, ih h.2 hmem, without]
      omega

theorem without_fst : (without sizes index).map Prod.fst = (sizes.map Prod.fst).filter (· ≠ index) := by
  rw [without, List.filter_map]
  rfl

theorem nextSizes_fst : (nextSizes scale sizes op).map Prod.fst = nextIds (sizes.map Prod.fst) op := by
  unfold nextSizes nextIds
  cases op.type with
  | ALLOC => rfl
  | REALLOC => exact congrArg _ without_fst
  | FREE => exact without_fst

theorem highWater_greatest {ops : List Traceop} :
    IsGreatest {n | ∃ j, n = liveBytes scale sizes (ops.take j)} (highWater scale sizes ops) := by
  induction ops generalizing sizes with
  | nil =>
    refine ⟨⟨0, rfl⟩, ?_⟩
    rintro n ⟨j, rfl⟩
    rw [List.take_nil]
    exact Nat.le_refl (total sizes)
  | cons op ops ih =>
    obtain ⟨⟨j, hj⟩, hbound⟩ := @ih (nextSizes scale sizes op)
    constructor
    · rcases Nat.le_total (highWater scale (nextSizes scale sizes op) ops) (total sizes) with hle | hle
      · exact ⟨0, Nat.max_eq_left hle⟩
      · exact ⟨j + 1, (Nat.max_eq_right hle).trans hj⟩
    · rintro n ⟨k, rfl⟩
      cases k with
      | zero => exact Nat.le_max_left ..
      | succ k => exact (hbound ⟨k, rfl⟩).trans (Nat.le_max_right ..)

end Totals

section Runs

variable {ε : Type} {L : Layout} {pkg : Package ε} {scale : Int → Int} {sizes : Sizes} {ops : List Traceop}
  {op : Traceop} {t t' : Trial} {v : Int} {m : Nat}

theorem int_eq {z : Int} (hlow : -2 ^ 31 ≤ z) (hhigh : z < 2 ^ 31) : int z = z := by
  rw [int, Int.bmod_def]
  omega

structure Knows (t : Trial) (sizes : Sizes) : Prop where
  distinct : (sizes.map Prod.fst).Nodup
  sizes : ∀ a ∈ sizes, t.blockSizes a.1 = a.2

theorem Knows.without (h : Knows t sizes) {index : Nat} {u : Trial} (hsame : u.blockSizes = t.blockSizes) :
    Knows u (without sizes index) := by
  refine ⟨?_, fun a ha => ?_⟩
  · rw [without_fst]
    exact h.distinct.filter _
  · rw [hsame]
    exact h.sizes a (mem_without.mp ha).1

theorem Knows.keep (h : Knows t sizes) {index p size : Nat} {u : Trial} (hsame : u.blockSizes = t.blockSizes)
    (hindex : index ∉ sizes.map Prod.fst) : Knows (u.keep index p size) ((index, size) :: sizes) := by
  refine ⟨List.nodup_cons.mpr ⟨hindex, h.distinct⟩, fun a ha => ?_⟩
  dsimp only [Trial.keep]
  rcases List.mem_cons.mp ha with rfl | ha
  · exact Function.update_self ..
  · have hne : a.1 ≠ index := fun heq => hindex (List.mem_map.mpr ⟨a, ha, heq⟩)
    rw [Function.update_of_ne hne, hsame]
    exact h.sizes a ha

theorem evalUtilFrom_cons (h : Knows t sizes) (hop : op.type = .ALLOC ↔ op.index ∉ sizes.map Prod.fst)
    (hold : total sizes < 2 ^ 31) (hnew : total (nextSizes scale sizes op) < 2 ^ 31) (hm : total sizes ≤ m)
    (hrun : evalUtilFrom pkg scale (total sizes) m (op :: ops) t = .ok (v, t')) :
    ∃ u, Knows u (nextSizes scale sizes op) ∧
      evalUtilFrom pkg scale (total (nextSizes scale sizes op))
        (max (total (nextSizes scale sizes op)) m : Nat) ops u = .ok (v, t') := by
  have hlive : op.type ≠ .ALLOC → (op.index, t.blockSizes op.index) ∈ sizes := by
    intro hne
    obtain ⟨a, ha, heq⟩ := List.mem_map.mp (not_not.mp (mt hop.mpr hne))
    rw [← heq, h.sizes a ha]
    exact ha
  have hmax : ∀ n : Nat, (if (n : Int) > m then (n : Int) else m) = (max n m : Nat) := by
    intro n
    split
    · omega
    · omega
  rw [evalUtilFrom] at hrun
  unfold nextSizes at hnew ⊢
  cases htype : op.type with
  | ALLOC =>
    simp only [htype] at hrun hnew ⊢
    rw [total_cons] at hnew ⊢
    obtain ⟨p, t₁, hp, hrun⟩ := bind_inv hrun
    obtain ⟨s', -, rfl⟩ := package_inv hp
    split at hrun
    · cases hrun
    · obtain ⟨_, t₂, hkeep, hrun⟩ := bind_inv hrun
      cases hkeep
      have hsum : int ((total sizes : Nat) + (requested scale op : Nat)) =
          (requested scale op + total sizes : Nat) := by
        rw [int_eq (by omega) (by omega)]
        omega
      rw [hsum, hmax] at hrun
      refine ⟨_, ?_, hrun⟩
      exact h.keep rfl (hop.mp htype)
  | FREE =>
    have hblock := hlive (by rw [htype]; decide)
    have htotal := total_without h.distinct hblock
    simp only [htype] at hrun hnew ⊢
    have hrun := get_bind_inv hrun
    have hrun := get_bind_inv hrun
    obtain ⟨_, t₁, hfree, hrun⟩ := bind_inv hrun
    obtain ⟨s', -, rfl⟩ := package_inv hfree
    have hdifference : int ((total sizes : Nat) - (t.blockSizes op.index : Nat)) =
        (total (without sizes op.index) : Nat) := by
      rw [int_eq (by omega) (by omega)]
      omega
    rw [hdifference] at hrun
    rw [Nat.max_eq_right (by omega)]
    refine ⟨_, ?_, hrun⟩
    exact h.without rfl
  | REALLOC =>
    have hblock := hlive (by rw [htype]; decide)
    have htotal := total_without h.distinct hblock
    simp only [htype] at hrun hnew ⊢
    rw [total_cons] at hnew ⊢
    have hrun := get_bind_inv hrun
    have hrun := get_bind_inv hrun
    obtain ⟨q, t₁, hq, hrun⟩ := bind_inv hrun
    obtain ⟨s', -, rfl⟩ := package_inv hq
    split at hrun
    · cases hrun
    · obtain ⟨_, t₂, hkeep, hrun⟩ := bind_inv hrun
      cases hkeep
      have hsum : int ((total sizes : Nat) + int ((requested scale op : Nat) - (t.blockSizes op.index : Nat))) =
          (requested scale op + total (without sizes op.index) : Nat) := by
        rw [@int_eq ((requested scale op : Nat) - (t.blockSizes op.index : Nat)) (by omega) (by omega),
          int_eq (by omega) (by omega)]
        omega
      rw [hsum, hmax] at hrun
      have hother : op.index ∉ (without sizes op.index).map Prod.fst := by
        rw [without_fst]
        simp
      have hothers : Knows { t with state := s' } (without sizes op.index) := h.without rfl
      refine ⟨_, ?_, hrun⟩
      exact hothers.keep rfl hother

theorem evalUtilFrom_highWater (h : Knows t sizes) (hops : WellFormed (sizes.map Prod.fst) ops)
    (hfits : ∀ j, liveBytes scale sizes (ops.take j) < 2 ^ 31) (hm : total sizes ≤ m)
    (hrun : evalUtilFrom pkg scale (total sizes) m ops t = .ok (v, t')) :
    v = (max m (highWater scale sizes ops) : Nat) := by
  induction ops generalizing sizes t m with
  | nil =>
    cases hrun
    rw [highWater, Nat.max_eq_left hm]
  | cons op ops ih =>
    obtain ⟨u, hu, hrest⟩ := evalUtilFrom_cons h hops.1 (hfits 0) (hfits 1) hm hrun
    rw [ih hu (nextSizes_fst ▸ hops.2) (fun j => hfits (j + 1)) (Nat.le_max_left ..) hrest, highWater]
    have hstart : total (nextSizes scale sizes op) ≤ highWater scale (nextSizes scale sizes op) ops :=
      highWater_greatest.2 ⟨0, rfl⟩
    omega

/-- Whatever the package, the driver returns the greatest number of bytes that are live in the trace, if
it fits into an `int`. -/
theorem evalMmUtil_greatest (hops : WellFormed [] ops) (hfits : ∀ j, liveBytes scale [] (ops.take j) < 2 ^ 31)
    (hrun : evalMmUtil L pkg scale ops t = .ok (v, t')) :
    ∃ n : Nat, v = n ∧ IsGreatest {n | ∃ j, n = liveBytes scale [] (ops.take j)} n := by
  obtain ⟨_, t₁, hreset, hrun⟩ := bind_inv hrun
  obtain ⟨rc, t₂, -, hrun⟩ := bind_inv hrun
  split at hrun
  · cases hrun
  · have hstart : Knows t₂ [] := ⟨List.nodup_nil, fun a ha => absurd ha List.not_mem_nil⟩
    have hv := @evalUtilFrom_highWater ε pkg scale [] ops t₂ t' v 0 hstart hops hfits (Nat.le_refl 0) hrun
    rw [Nat.zero_max] at hv
    exact ⟨_, hv, highWater_greatest⟩

def measured : List Traceop := [⟨.ALLOC, 0, 16⟩, ⟨.ALLOC, 1, 64⟩, ⟨.FREE, 0, 0⟩]

theorem evalMmUtil_greatest_sample :
    IsGreatest {n | ∃ j, n = liveBytes id [] (measured.take j)} 80 := by
  have hrun : (evalMmUtil (sample true) covering id measured bench).map Prod.fst = .ok 80 := rfl
  have hwell : WellFormed [] measured := ⟨by decide, by decide, by decide, trivial⟩
  have hfits : ∀ j, liveBytes id [] (measured.take j) < 2 ^ 31 := fun j =>
    (highWater_greatest.2 ⟨j, rfl⟩).trans_lt (show highWater id [] measured < 2 ^ 31 by decide)
  cases hresult : evalMmUtil (sample true) covering id measured bench with
  | error e =>
    rw [hresult] at hrun
    cases hrun
  | ok r =>
    obtain ⟨v, t'⟩ := r
    rw [hresult] at hrun
    obtain rfl : v = 80 := Except.ok.inj hrun
    obtain ⟨n, hn, hgreatest⟩ := evalMmUtil_greatest hwell hfits hresult
    obtain rfl : n = 80 := (Int.ofNat_inj.mp hn).symm
    exact hgreatest

end Runs

end ComputerSystems.Mdriver.Utilization
