/- Natural merge sort: neighbouring runs are merged, pass after pass, until one run is left. -/

import Mathlib.Data.List.Chain
import Mathlib.Tactic.Linarith

set_option autoImplicit false
set_option relaxedAutoImplicit false

namespace ComputerSystems.Lists.NaturalMerge

variable {α : Type}

/-- `less` is a strict weak order: elements neither of which is less than the other are ties. -/
structure WeakOrder (less : α → α → Bool) : Prop where
  asymm : ∀ a b, less a b = true → less b a = false
  trans : ∀ a b c, less b a = false → less c b = false → less c a = false

section Definitions

variable (less : α → α → Bool)

def notGreater (a b : α) : Bool := !less b a

def tie (a b : α) : Bool := !less a b && !less b a

abbrev Sorted (l : List α) : Prop := l.Pairwise fun a b => less b a = false

/-- The longest run that starts at `x`, and what follows it. -/
def run (x : α) : List α → List α × List α
  | [] => ([x], [])
  | y :: ys => if less y x then ([x], y :: ys) else (x :: (run y ys).1, (run y ys).2)

def runs : List α → Nat
  | [] => 0
  | [_] => 1
  | x :: y :: ys => if less y x then runs (y :: ys) + 1 else runs (y :: ys)

theorem run_append (x : α) (xs : List α) : (run less x xs).1 ++ (run less x xs).2 = x :: xs := by
  induction xs generalizing x with
  | nil => rfl
  | cons y ys ih =>
    unfold run
    split
    · rfl
    · exact congrArg (x :: ·) (ih y)

theorem run_head (x : α) (xs : List α) : (run less x xs).1.head? = some x := by
  cases xs with
  | nil => rfl
  | cons y ys =>
    unfold run
    split <;> rfl

theorem run_length (x : α) (xs : List α) : (run less x xs).2.length ≤ xs.length := by
  induction xs generalizing x with
  | nil => exact Nat.le_refl 0
  | cons y ys ih =>
    unfold run
    split
    · exact Nat.le_refl _
    · exact Nat.le_succ_of_le (ih y)

/-- One pass: the first run is merged with the second, the third with the fourth, and so on. The
number is that of the runs put out. -/
def pass : List α → List α × Nat
  | [] => ([], 0)
  | x :: xs =>
    match h : (run less x xs).2 with
    | [] => ((run less x xs).1, 1)
    | y :: ys =>
      let rest := pass (run less y ys).2
      ((run less x xs).1.merge (run less y ys).1 (notGreater less) ++ rest.1, rest.2 + 1)
termination_by l => l.length
decreasing_by
  have hx := run_length less x xs
  have hy := run_length less y ys
  simp only [h, List.length_cons] at hx ⊢
  omega

end Definitions

section Runs

variable {less : α → α → Bool} {x y : α} {xs ys r s : List α}

theorem sorted_of_isChain (hless : WeakOrder less)
    (h : xs.IsChain fun a b => less b a = false) : Sorted less xs := by
  have htrans : Trans (fun a b => less b a = false) (fun a b => less b a = false)
      (fun a b => less b a = false) := ⟨fun hab hbc => hless.trans _ _ _ hab hbc⟩
  exact List.isChain_iff_pairwise.mp h

theorem run_isChain (x : α) (xs : List α) :
    (run less x xs).1.IsChain fun a b => less b a = false := by
  induction xs generalizing x with
  | nil => exact List.isChain_singleton x
  | cons y ys ih =>
    unfold run
    split
    · exact List.isChain_singleton x
    · rename_i hyx
      refine List.isChain_cons.mpr ⟨?_, ih y⟩
      intro z hz
      rw [run_head] at hz
      cases hz
      simpa using hyx

theorem run_sorted (hless : WeakOrder less) (x : α) (xs : List α) :
    Sorted less (run less x xs).1 :=
  sorted_of_isChain hless (run_isChain x xs)

theorem runs_run (x : α) (xs : List α) : runs less (x :: xs) = runs less (run less x xs).2 + 1 := by
  induction xs generalizing x with
  | nil => rfl
  | cons y ys ih =>
    rw [runs, run]
    split
    · rfl
    · exact ih y

theorem runs_cons_le (x : α) (xs : List α) : runs less (x :: xs) ≤ runs less xs + 1 := by
  cases xs with
  | nil => exact Nat.le_refl 1
  | cons y ys =>
    rw [runs]
    split <;> omega

theorem runs_append_le (h : r.IsChain fun a b => less b a = false) (s : List α) :
    runs less (r ++ s) ≤ runs less s + 1 := by
  induction r with
  | nil => exact Nat.le_succ _
  | cons x r ih =>
    cases r with
    | nil => exact runs_cons_le x s
    | cons y r =>
      obtain ⟨hxy, htail⟩ := List.isChain_cons_cons.mp h
      rw [List.cons_append, List.cons_append, runs, if_neg (by simp [hxy])]
      exact ih htail

theorem runs_le_length (xs : List α) : runs less xs ≤ xs.length := by
  induction xs with
  | nil => exact Nat.le_refl 0
  | cons x xs ih => exact (runs_cons_le x xs).trans (Nat.succ_le_succ ih)

theorem sorted_of_runs_le (hless : WeakOrder less) (h : runs less xs ≤ 1) : Sorted less xs := by
  cases xs with
  | nil => exact List.Pairwise.nil
  | cons x xs =>
    have hrest : runs less (run less x xs).2 = 0 := by
      have := @runs_run _ less x xs
      omega
    have hnil : (run less x xs).2 = [] := by
      cases hs : (run less x xs).2 with
      | nil => rfl
      | cons y ys =>
        rw [hs, runs_run] at hrest
        cases hrest
    have happend := run_append less x xs
    rw [hnil, List.append_nil] at happend
    rw [← happend]
    exact run_sorted hless x xs

end Runs

section Stability

variable {less : α → α → Bool} {xs ys zs r s : List α}

structure SameTies (less : α → α → Bool) (xs ys : List α) : Prop where
  perm : xs.Perm ys
  ties : ∀ a, xs.filter (tie less a) = ys.filter (tie less a)

theorem SameTies.refl (xs : List α) : SameTies less xs xs := ⟨List.Perm.refl xs, fun _ => rfl⟩

theorem SameTies.symm (h : SameTies less xs ys) : SameTies less ys xs :=
  ⟨h.perm.symm, fun a => (h.ties a).symm⟩

theorem SameTies.trans (h : SameTies less xs ys) (h' : SameTies less ys zs) :
    SameTies less xs zs :=
  ⟨h.perm.trans h'.perm, fun a => (h.ties a).trans (h'.ties a)⟩

theorem SameTies.append {xs' ys' : List α} (h : SameTies less xs ys) (h' : SameTies less xs' ys') :
    SameTies less (xs ++ xs') (ys ++ ys') :=
  ⟨h.perm.append h'.perm, fun a => by rw [List.filter_append, List.filter_append, h.ties, h'.ties]⟩

variable (hless : WeakOrder less)
include hless

theorem tie_self (a : α) : tie less a a = true := by
  have hirrefl : less a a = false := by
    cases haa : less a a with
    | false => rfl
    | true => exact haa.symm.trans (hless.asymm a a haa)
  simp [tie, hirrefl]

theorem SameTies.eq (h : SameTies less xs ys) (hxs : Sorted less xs) (hys : Sorted less ys) :
    xs = ys := by
  induction xs generalizing ys with
  | nil => exact h.perm.nil_eq
  | cons x xs ih =>
    cases ys with
    | nil => exact h.perm.eq_nil
    | cons y ys =>
      have hxy : less x y = false := by
        rcases List.mem_cons.mp (h.perm.mem_iff.mp List.mem_cons_self) with rfl | hmem
        · simpa [tie] using tie_self hless x
        · exact (List.pairwise_cons.mp hys).1 x hmem
      have hyx : less y x = false := by
        rcases List.mem_cons.mp (h.perm.mem_iff.mpr List.mem_cons_self) with rfl | hmem
        · simpa [tie] using tie_self hless y
        · exact (List.pairwise_cons.mp hxs).1 y hmem
      have hfirst := h.ties x
      rw [List.filter_cons_of_pos (tie_self hless x),
        List.filter_cons_of_pos (by simp [tie, hxy, hyx])] at hfirst
      obtain rfl : x = y := (List.cons.inj hfirst).1
      refine congrArg (x :: ·) (ih ⟨h.perm.cons_inv, ?_⟩ hxs.of_cons hys.of_cons)
      intro a
      have ha := h.ties a
      rw [List.filter_cons, List.filter_cons] at ha
      split at ha
      · exact (List.cons.inj ha).2
      · exact ha

theorem sameTies_merge (hr : Sorted less r) (hs : Sorted less s) :
    SameTies less (r.merge s (notGreater less)) (r ++ s) := by
  refine ⟨List.merge_perm_append _, ?_⟩
  intro a
  induction r generalizing s with
  | nil => simp
  | cons x r ihr =>
    induction s with
    | nil => simp
    | cons y s ihs =>
      rw [List.cons_merge_cons]
      split
      · rw [List.cons_append, List.filter_cons, List.filter_cons, ihr hr.of_cons hs]
      · rename_i hyx
        have hyx : less y x = true := by simpa [notGreater] using hyx
        rw [List.filter_cons, ihs hs.of_cons, List.filter_append, List.filter_append,
          @List.filter_cons _ _ s _]
        split
        · rename_i hay
          -- what is a tie with `y` is no tie with what comes after `x`
          have hnone : (x :: r).filter (tie less a) = [] := by
            refine List.filter_eq_nil_iff.mpr ?_
            intro z hz haz
            have hzx : less z x = false := by
              rcases List.mem_cons.mp hz with rfl | hz
              · simpa [tie] using tie_self hless z
              · exact (List.pairwise_cons.mp hr).1 z hz
            simp only [tie, Bool.and_eq_true, Bool.not_eq_true'] at hay haz
            have hzy : less y z = false := hless.trans _ _ _ haz.1 hay.2
            have hxy : less y x = false := hless.trans _ _ _ hzx hzy
            rw [hyx] at hxy
            cases hxy
          rw [hnone]
          rfl
        · rfl

private theorem notGreater_trans (a b c : α) (hab : notGreater less a b = true)
    (hbc : notGreater less b c = true) : notGreater less a c = true := by
  simp only [notGreater, Bool.not_eq_true'] at hab hbc ⊢
  exact hless.trans a b c hab hbc

private theorem notGreater_total (a b : α) :
    (notGreater less a b || notGreater less b a) = true := by
  cases hba : less b a with
  | false => simp [notGreater, hba]
  | true => simp [notGreater, hless.asymm b a hba]

theorem sorted_merge (hr : Sorted less r) (hs : Sorted less s) :
    Sorted less (r.merge s (notGreater less)) := by
  have hle : ∀ l : List α, Sorted less l ↔ l.Pairwise fun a b => notGreater less a b = true := by
    intro l
    simp [notGreater]
  rw [hle] at hr hs ⊢
  exact List.pairwise_merge (notGreater_trans hless) (notGreater_total hless) r s hr hs

theorem sorted_mergeSort (xs : List α) : Sorted less (xs.mergeSort (notGreater less)) := by
  simpa [notGreater] using
    List.pairwise_mergeSort (notGreater_trans hless) (notGreater_total hless) xs

theorem mergeSort_sameTies (xs : List α) :
    SameTies less (xs.mergeSort (notGreater less)) xs := by
  refine ⟨List.mergeSort_perm xs _, fun a => ?_⟩
  have hperm := (List.mergeSort_perm xs (notGreater less)).filter (tie less a)
  have hties : (xs.filter (tie less a)).Pairwise fun b c => notGreater less b c = true := by
    refine List.Pairwise.imp_of_mem ?_ (List.pairwise_of_forall fun _ _ => trivial)
    intro b c hb hc _
    have hab := (List.mem_filter.mp hb).2
    have hac := (List.mem_filter.mp hc).2
    simp only [tie, notGreater, Bool.and_eq_true, Bool.not_eq_true'] at hab hac ⊢
    exact hless.trans b a c hab.1 hac.2
  have hsub := List.sublist_mergeSort (notGreater_trans hless) (notGreater_total hless) hties
    List.filter_sublist
  have hfilter := hsub.filter (tie less a)
  simp only [List.filter_filter, Bool.and_self] at hfilter
  exact (hfilter.eq_of_length hperm.length_eq.symm).symm

theorem SameTies.eq_mergeSort (h : SameTies less ys xs) (hys : Sorted less ys) :
    ys = xs.mergeSort (notGreater less) :=
  SameTies.eq hless (h.trans (mergeSort_sameTies hless xs).symm) hys (sorted_mergeSort hless xs)

theorem SameTies.mergeSort_eq (h : SameTies less ys xs) :
    ys.mergeSort (notGreater less) = xs.mergeSort (notGreater less) :=
  SameTies.eq_mergeSort hless ((mergeSort_sameTies hless ys).trans h) (sorted_mergeSort hless ys)

end Stability

section Passes

variable {less : α → α → Bool} {x y : α} {xs ys : List α}

theorem pass_nil : pass less [] = ([], 0) := by
  rw [pass]

theorem pass_last (h : (run less x xs).2 = []) : pass less (x :: xs) = (x :: xs, 1) := by
  have happend := run_append less x xs
  rw [h, List.append_nil] at happend
  rw [pass]
  split
  · rw [happend]
  · rename_i y ys hys
    rw [h] at hys
    cases hys

theorem pass_step (h : (run less x xs).2 = y :: ys) :
    pass less (x :: xs) =
      ((run less x xs).1.merge (run less y ys).1 (notGreater less) ++
        (pass less (run less y ys).2).1, (pass less (run less y ys).2).2 + 1) := by
  rw [pass]
  split
  · rename_i hnil
    rw [h] at hnil
    cases hnil
  · rename_i z zs hzs
    rw [h] at hzs
    cases hzs
    rfl

variable (hless : WeakOrder less)
include hless

theorem pass_sameTies (xs : List α) : SameTies less (pass less xs).1 xs := by
  induction hn : xs.length using Nat.strong_induction_on generalizing xs with
  | _ n ih =>
    cases xs with
    | nil =>
      rw [pass_nil]
      exact .refl _
    | cons x xs =>
      cases hrest : (run less x xs).2 with
      | nil =>
        rw [pass_last hrest]
        exact .refl _
      | cons y ys =>
        have hx := run_length less x xs
        have hy := run_length less y ys
        simp only [hrest, List.length_cons] at hx hn
        rw [pass_step hrest]
        have hmerge := sameTies_merge hless (run_sorted hless x xs) (run_sorted hless y ys)
        refine (hmerge.append (ih _ (by omega) _ rfl)).trans ?_
        rw [List.append_assoc, run_append, ← hrest, run_append]
        exact .refl _

theorem runs_pass (xs : List α) :
    runs less (pass less xs).1 ≤ (pass less xs).2 ∧ 2 * (pass less xs).2 ≤ runs less xs + 1 := by
  induction hn : xs.length using Nat.strong_induction_on generalizing xs with
  | _ n ih =>
    cases xs with
    | nil =>
      rw [pass_nil]
      simp [runs]
    | cons x xs =>
      cases hrest : (run less x xs).2 with
      | nil =>
        rw [pass_last hrest, runs_run, hrest]
        simp [runs]
      | cons y ys =>
        have hx := run_length less x xs
        have hy := run_length less y ys
        simp only [hrest, List.length_cons] at hx hn
        have hmerge : ((run less x xs).1.merge (run less y ys).1 (notGreater less)).IsChain
            fun a b => less b a = false :=
          (sorted_merge hless (run_sorted hless x xs) (run_sorted hless y ys)).isChain
        obtain ⟨hout, hcount⟩ := ih _ (by omega) (run less y ys).2 rfl
        have hfirst := runs_append_le hmerge (pass less (run less y ys).2).1
        rw [pass_step hrest, runs_run x xs, hrest, runs_run y ys]
        constructor <;> dsimp only <;> omega

end Passes

end ComputerSystems.Lists.NaturalMerge
