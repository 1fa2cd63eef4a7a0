/- Transition systems with labelled steps, their runs and their invariants. -/

import Mathlib.Data.List.Basic

set_option autoImplicit false
set_option relaxedAutoImplicit false

namespace ComputerSystems.Systems.Runs

variable {σ ι : Type}

/-- Where a system starts and what each label does to a state, if it can happen there. -/
structure System (σ ι : Type) where
  init : σ → Prop
  next : σ → ι → Option σ

/-- The states at the ends of the runs all of whose steps meet `ok`. -/
inductive ReachableBy (S : System σ ι) (ok : σ → ι → Prop) : σ → Prop where
  | start {s : σ} : S.init s → ReachableBy S ok s
  | step {s s' : σ} {i : ι} : ReachableBy S ok s → ok s i → S.next s i = some s' →
      ReachableBy S ok s'

/-- The states at the ends of all runs. -/
abbrev Reachable (S : System σ ι) : σ → Prop := ReachableBy S fun _ _ => True

variable {S : System σ ι} {ok ok' : σ → ι → Prop} {s s' : σ}

theorem ReachableBy.invariant {P : σ → Prop} (h : ReachableBy S ok s)
    (hstart : ∀ s, S.init s → P s)
    (hstep : ∀ s i s', P s → ok s i → S.next s i = some s' → P s') : P s := by
  induction h with
  | start hs => exact hstart _ hs
  | step _ hok hnext ih => exact hstep _ _ _ ih hok hnext

theorem ReachableBy.mono (h : ReachableBy S ok s) (hsub : ∀ s i, ok s i → ok' s i) :
    ReachableBy S ok' s := by
  induction h with
  | start hs => exact .start hs
  | step _ hok hnext ih => exact .step ih (hsub _ _ hok) hnext

/-- The states at the ends of runs from the state `s`. -/
def After (S : System σ ι) (ok : σ → ι → Prop) (s s' : σ) : Prop :=
  ReachableBy { S with init := (· = s) } ok s'

theorem After.refl : After S ok s s := .start rfl

theorem After.step {t : σ} {i : ι} (h : After S ok s s') (hok : ok s' i)
    (hnext : S.next s' i = some t) : After S ok s t :=
  ReachableBy.step h hok hnext

theorem After.trans {t : σ} (h : After S ok s s') (hrest : After S ok s' t) : After S ok s t := by
  induction hrest with
  | start hs =>
    obtain rfl : _ = s' := hs
    exact h
  | step _ hok hnext ih => exact ih.step hok hnext

theorem After.reachable (h : After S ok s s') (hs : ReachableBy S ok s) : ReachableBy S ok s' := by
  induction h with
  | start hs' =>
    obtain rfl : _ = s := hs'
    exact hs
  | step _ hok hnext ih => exact .step ih hok hnext

/-- When each step of `S` is a run of `T`, the runs of `S` are runs of `T`. -/
theorem ReachableBy.simulated {τ κ : Type} {T : System τ κ} {R : σ → τ → Prop}
    (h : ReachableBy S ok s) (hstart : ∀ s, S.init s → ∃ t, T.init t ∧ R s t)
    (hstep : ∀ s i s' t, ReachableBy S ok s → S.next s i = some s' → R s t →
      ∃ t', After T (fun _ _ => True) t t' ∧ R s' t') :
    ∃ t, Reachable T t ∧ R s t := by
  induction h with
  | start hs =>
    obtain ⟨t, ht, hrel⟩ := hstart _ hs
    exact ⟨t, .start ht, hrel⟩
  | step hs _ hnext ih =>
    obtain ⟨t, ht, hrel⟩ := ih
    obtain ⟨t', hafter, hrel'⟩ := hstep _ _ _ t hs hnext hrel
    exact ⟨t', hafter.reachable ht, hrel'⟩

theorem After.invariant {P : σ → Prop} (h : After S ok s s') (hs : ReachableBy S ok s)
    (hstart : P s)
    (hstep : ∀ s i s', ReachableBy S ok s → P s → ok s i → S.next s i = some s' → P s') :
    ReachableBy S ok s' ∧ P s' := by
  induction h with
  | start hs' =>
    obtain rfl : _ = s := hs'
    exact ⟨hs, hstart⟩
  | step _ hok hnext ih => exact ⟨.step ih.1 hok hnext, hstep _ _ _ ih.1 ih.2 hok hnext⟩

def System.exec (S : System σ ι) : σ → List ι → Option σ
  | s, [] => some s
  | s, i :: is => (S.next s i).bind fun s' => S.exec s' is

theorem Reachable.exec {is : List ι} (h : Reachable S s) (hrun : S.exec s is = some s') :
    Reachable S s' := by
  induction is generalizing s with
  | nil =>
    cases hrun
    exact h
  | cons i is ih =>
    obtain ⟨t, ht, hrest⟩ := Option.bind_eq_some_iff.mp hrun
    exact ih (.step h trivial ht) hrest

/-- The system that takes only the steps that meet `ok`. -/
def System.restrict (S : System σ ι) (ok : σ → ι → Prop) [∀ s i, Decidable (ok s i)] :
    System σ ι where
  init := S.init
  next s i := if ok s i then S.next s i else none

theorem ReachableBy.of_restrict [∀ s i, Decidable (ok s i)]
    (h : Reachable (S.restrict ok) s) : ReachableBy S ok s := by
  induction h with
  | start hs => exact .start hs
  | @step s s' i _ _ hnext ih =>
    by_cases hok : ok s i
    · exact .step ih hok (by simpa [System.restrict, hok] using hnext)
    · simp [System.restrict, hok] at hnext

theorem System.exec_of_restrict [∀ s i, Decidable (ok s i)] {is : List ι}
    (hrun : (S.restrict ok).exec s is = some s') : S.exec s is = some s' := by
  induction is generalizing s with
  | nil => exact hrun
  | cons i is ih =>
    obtain ⟨t, ht, hrest⟩ := Option.bind_eq_some_iff.mp hrun
    by_cases hok : ok s i
    · refine Option.bind_eq_some_iff.mpr ⟨t, ?_, ih hrest⟩
      simpa [System.restrict, hok] using ht
    · simp [System.restrict, hok] at ht

theorem After.exec [∀ s i, Decidable (ok s i)] {t : σ} {is : List ι} (h : After S ok t s)
    (hrun : (S.restrict ok).exec s is = some s') : After S ok t s' := by
  induction is generalizing s with
  | nil =>
    cases hrun
    exact h
  | cons i is ih =>
    obtain ⟨u, hu, hrest⟩ := Option.bind_eq_some_iff.mp hrun
    by_cases hok : ok s i
    · exact ih (h.step hok (by simpa [System.restrict, hok] using hu)) hrest
    · simp [System.restrict, hok] at hu

theorem After.of_exec {t : σ} {is : List ι} (h : After S (fun _ _ => True) t s)
    (hrun : S.exec s is = some s') : After S (fun _ _ => True) t s' := by
  induction is generalizing s with
  | nil =>
    cases hrun
    exact h
  | cons i is ih =>
    obtain ⟨u, hu, hrest⟩ := Option.bind_eq_some_iff.mp hrun
    exact ih (h.step trivial hu) hrest

end ComputerSystems.Systems.Runs
