/- Lists of elements that a strict weak order compares: ordered insertion, the first of every group
of ties, and the earliest extreme element. -/

import ComputerSystems.Lists.NaturalMerge

set_option autoImplicit false
set_option relaxedAutoImplicit false

namespace ComputerSystems.Lists.WeakOrders

open ComputerSystems.Lists.NaturalMerge

variable {α : Type} {less : α → α → Bool} {x e : α} {xs ys : List α}

theorem weakOrder_of_key (f : α → Nat) : WeakOrder fun a b => decide (f a < f b) := by
  constructor
  · intro a b h
    simp only [decide_eq_true_eq, decide_eq_false_iff_not] at h ⊢
    omega
  · intro a b c h h'
    simp only [decide_eq_false_iff_not] at h h' ⊢
    omega

theorem weakOrder_irrefl (h : WeakOrder less) (a : α) : less a a = false := by
  simpa [tie] using tie_self h a

theorem weakOrder_flip (h : WeakOrder less) : WeakOrder fun a b => less b a :=
  ⟨fun a b hab => h.asymm b a hab, fun a b c hab hbc => h.trans c b a hbc hab⟩

theorem weakOrder_less_of_less_of_le (h : WeakOrder less) {a b c : α} (hab : less a b = true)
    (hbc : less c b = false) : less a c = true := by
  cases hac : less a c with
  | true => rfl
  | false =>
    have hab' := h.trans b c a hbc hac
    rw [hab] at hab'
    cases hab'

theorem tie_symm {a b : α} (h : tie less a b = true) : tie less b a = true := by
  simp only [tie, Bool.and_eq_true] at h ⊢
  exact h.symm

theorem tie_trans (h : WeakOrder less) {a b c : α} (hab : tie less a b = true)
    (hbc : tie less b c = true) : tie less a c = true := by
  simp only [tie, Bool.and_eq_true, Bool.not_eq_true'] at hab hbc ⊢
  exact ⟨h.trans c b a hbc.1 hab.1, h.trans a b c hab.2 hbc.2⟩

theorem weakOrder_less_of_le_of_less (h : WeakOrder less) {a b c : α} (hab : less b a = false)
    (hbc : less b c = true) : less a c = true := by
  cases hac : less a c with
  | true => rfl
  | false =>
    have hbc' := h.trans c a b hac hab
    rw [hbc] at hbc'
    cases hbc'

section Insertion

variable (less)

def insertOrdered (e : α) (xs : List α) : List α :=
  xs.takeWhile (fun y => !less e y) ++ e :: xs.dropWhile fun y => !less e y

variable {less} (hless : WeakOrder less)
include hless

theorem insertOrdered_sorted (h : Sorted less xs) : Sorted less (insertOrdered less e xs) := by
  induction xs with
  | nil => exact List.pairwise_singleton _ _
  | cons x xs ih =>
    obtain ⟨hx, hxs⟩ := List.pairwise_cons.mp h
    unfold insertOrdered
    cases hex : less e x with
    | true =>
      rw [List.takeWhile_cons_of_neg (by simp [hex]), List.dropWhile_cons_of_neg (by simp [hex])]
      refine List.pairwise_cons.mpr ⟨?_, h⟩
      intro y hy
      rcases List.mem_cons.mp hy with rfl | hy
      · exact hless.asymm _ _ hex
      · exact hless.trans _ _ _ (hless.asymm _ _ hex) (hx y hy)
    | false =>
      rw [List.takeWhile_cons_of_pos (by simp [hex]), List.dropWhile_cons_of_pos (by simp [hex])]
      refine List.pairwise_cons.mpr ⟨?_, ih hxs⟩
      intro y hy
      have hmem : y = e ∨ y ∈ xs := by
        have hsplit := List.takeWhile_append_dropWhile (p := fun y => !less e y) (l := xs)
        rw [← hsplit, List.mem_append]
        rcases List.mem_append.mp hy with hy | hy
        · exact Or.inr (Or.inl hy)
        · exact (List.mem_cons.mp hy).imp_right Or.inr
      rcases hmem with rfl | hy
      · exact hex
      · exact hx y hy

theorem insertOrdered_sameTies (h : Sorted less xs) :
    SameTies less (insertOrdered less e xs) (xs ++ [e]) := by
  have hsplit := List.takeWhile_append_dropWhile (p := fun y => !less e y) (l := xs)
  constructor
  · have hperm : (insertOrdered less e xs).Perm (e :: xs) := by
      have hmiddle := @List.perm_middle _ e (xs.takeWhile fun y => !less e y)
        (xs.dropWhile fun y => !less e y)
      rw [hsplit] at hmiddle
      exact hmiddle
    exact hperm.trans (List.perm_append_singleton e xs).symm
  · intro a
    -- what comes behind the inserted element is no tie of it
    have hnone : tie less a e = true → (xs.dropWhile fun y => !less e y).filter (tie less a) = [] := by
      intro hae
      refine List.filter_eq_nil_iff.mpr ?_
      intro z hz haz
      have hez : less e z = true := by
        cases hdrop : xs.dropWhile (fun y => !less e y) with
        | nil =>
          rw [hdrop] at hz
          cases hz
        | cons w ws =>
          have hew : less e w = true := by
            have hhead := List.head?_dropWhile_not (fun y => !less e y) xs
            simpa [hdrop] using hhead
          rw [hdrop] at hz
          have hsorted : Sorted less (w :: ws) :=
            hdrop ▸ h.sublist (List.dropWhile_sublist _)
          rcases List.mem_cons.mp hz with rfl | hz
          · exact hew
          · exact weakOrder_less_of_less_of_le hless hew ((List.pairwise_cons.mp hsorted).1 z hz)
      simp only [tie, Bool.and_eq_true, Bool.not_eq_true'] at hae haz
      have hez' := hless.trans z a e haz.1 hae.2
      rw [hez] at hez'
      cases hez'
    rw [insertOrdered, List.filter_append, List.filter_append, List.filter_cons]
    conv_rhs => rw [← hsplit, List.filter_append]
    split
    · rename_i hae
      simp [hnone hae, hae]
    · rename_i hae
      simp [hae]

end Insertion

section Unique

variable (less)

/-- What is kept behind `x` and what is taken out, when every element that is a tie of the last one
kept is taken out. -/
def unique (x : α) : List α → List α × List α
  | [] => ([], [])
  | y :: ys =>
    if tie less x y then ((unique x ys).1, y :: (unique x ys).2)
    else (y :: (unique y ys).1, (unique y ys).2)

theorem unique_isChain (x : α) (xs : List α) :
    (x :: (unique less x xs).1).IsChain fun a b => tie less a b = false := by
  induction xs generalizing x with
  | nil => exact List.isChain_singleton x
  | cons y ys ih =>
    unfold unique
    split
    · exact ih x
    · rename_i hxy
      exact List.isChain_cons_cons.mpr ⟨by simpa using hxy, ih y⟩

theorem unique_sublist (x : α) (xs : List α) :
    (unique less x xs).1.Sublist xs ∧ (unique less x xs).2.Sublist xs := by
  induction xs generalizing x with
  | nil => exact ⟨.slnil, .slnil⟩
  | cons y ys ih =>
    unfold unique
    split
    · exact ⟨(ih x).1.cons y, (ih x).2.cons_cons y⟩
    · exact ⟨(ih y).1.cons_cons y, (ih y).2.cons y⟩

variable {less} (hless : WeakOrder less)
include hless

theorem unique_ties (h : Sorted less (x :: xs)) (a : α) :
    (x :: (unique less x xs).1).filter (tie less a) = ((x :: xs).filter (tie less a)).take 1 ∧
      (unique less x xs).2.filter (tie less a) = ((x :: xs).filter (tie less a)).drop 1 := by
  induction xs generalizing x with
  | nil =>
    rw [unique, List.filter_cons]
    split <;> exact ⟨rfl, rfl⟩
  | cons y ys ih =>
    obtain ⟨hx, hys⟩ := List.pairwise_cons.mp h
    rw [unique]
    split
    · rename_i hxy
      have hsorted : Sorted less (x :: ys) := h.sublist ((List.sublist_cons_self y ys).cons_cons x)
      obtain ⟨hkept, hout⟩ := ih hsorted
      by_cases hax : tie less a x = true
      · have hay := tie_trans hless hax hxy
        rw [List.filter_cons_of_pos hax] at hkept hout ⊢
        rw [List.filter_cons_of_pos hay, List.filter_cons_of_pos hax, List.filter_cons_of_pos hay]
        rw [List.filter_cons_of_pos hax] at hkept
        exact ⟨hkept, congrArg (y :: ·) hout⟩
      · have hay : ¬ tie less a y = true := fun hay =>
          hax (tie_trans hless hay (tie_symm hxy))
        rw [List.filter_cons_of_neg hax] at hkept hout ⊢
        rw [List.filter_cons_of_neg hay, List.filter_cons_of_neg hax, List.filter_cons_of_neg hay]
        rw [List.filter_cons_of_neg hax] at hkept
        exact ⟨hkept, hout⟩
    · rename_i hxy
      have hlt : less x y = true := by
        have hyx := hx y List.mem_cons_self
        simpa [tie, hyx] using hxy
      obtain ⟨hkept, hout⟩ := ih hys
      by_cases hax : tie less a x = true
      · -- a tie of `x` is less than all that follows
        have hnone : (y :: ys).filter (tie less a) = [] := by
          refine List.filter_eq_nil_iff.mpr ?_
          intro z hz haz
          have hyz : less z y = false := by
            rcases List.mem_cons.mp hz with rfl | hz
            · exact weakOrder_irrefl hless z
            · exact (List.pairwise_cons.mp hys).1 z hz
          have hxz := weakOrder_less_of_less_of_le hless hlt hyz
          have htie := tie_trans hless (tie_symm hax) haz
          simp [tie, hxz] at htie
        rw [hnone] at hkept hout
        rw [List.filter_cons_of_pos hax, List.filter_cons_of_pos hax, hkept, hnone]
        exact ⟨rfl, hout⟩
      · rw [List.filter_cons_of_neg hax, List.filter_cons_of_neg hax]
        exact ⟨hkept, hout⟩

theorem unique_increasing (h : Sorted less (x :: xs)) :
    (x :: (unique less x xs).1).Pairwise fun a b => less a b = true := by
  have hsorted := h.sublist ((unique_sublist less x xs).1.cons_cons x)
  have htrans : Trans (fun a b => less a b = true) (fun a b => less a b = true)
      (fun a b => less a b = true) :=
    ⟨fun hab hbc => weakOrder_less_of_less_of_le hless hab (hless.asymm _ _ hbc)⟩
  refine List.isChain_iff_pairwise.mp ?_
  have hties := unique_isChain less x xs
  rw [List.isChain_iff_forall_rel_of_append_cons_cons] at hties ⊢
  intro a b l r hsplit
  have hab : ∀ z ∈ b :: r, less z a = false := by
    rw [hsplit] at hsorted
    exact (List.pairwise_cons.mp (List.pairwise_append.mp hsorted).2.1).1
  simpa [tie, hab b List.mem_cons_self] using hties hsplit

end Unique

section Extremes

variable (better : α → α → Bool)

/-- What is left when one element after the other is compared with the best so far. -/
def best (x : α) (xs : List α) : α := xs.foldl (fun m e => if better m e then e else m) x

/-- The best element stands in the list, is better than all in front of it, and none behind it is
better. -/
def Earliest (m : α) (xs : List α) : Prop :=
  ∃ ys zs, xs = ys ++ m :: zs ∧ (∀ y ∈ ys, better y m = true) ∧ ∀ z ∈ zs, better m z = false

variable {better} (hbetter : WeakOrder better)
include hbetter

theorem best_earliest (x : α) (xs : List α) : Earliest better (best better x xs) (x :: xs) := by
  induction xs using List.reverseRecOn with
  | nil => exact ⟨[], [], rfl, by simp, by simp⟩
  | append_singleton xs e ih =>
    obtain ⟨ys, zs, hxs, hys, hzs⟩ := ih
    have hsplit : x :: (xs ++ [e]) = ys ++ best better x xs :: (zs ++ [e]) := by
      rw [← List.cons_append, hxs]
      simp
    rw [best, List.foldl_concat]
    change Earliest better (if better (best better x xs) e then e else best better x xs) _
    split
    · rename_i hme
      refine ⟨x :: xs, [], rfl, ?_, by simp⟩
      intro y hy
      rw [hxs] at hy
      rcases List.mem_append.mp hy with hy | hy
      · exact weakOrder_less_of_less_of_le hbetter (hys y hy) (hbetter.asymm _ _ hme)
      · rcases List.mem_cons.mp hy with rfl | hy
        · exact hme
        · exact weakOrder_less_of_le_of_less hbetter (hzs y hy) hme
    · rename_i hme
      refine ⟨ys, zs ++ [e], hsplit, hys, ?_⟩
      intro z hz
      rcases List.mem_append.mp hz with hz | hz
      · exact hzs z hz
      · rw [List.mem_singleton.mp hz]
        simpa using hme

end Extremes

end ComputerSystems.Lists.WeakOrders
