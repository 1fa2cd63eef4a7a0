/- Mutexes with owners, and threads that release them in the reverse order. -/

import Mathlib.Data.List.Nodup
import Mathlib.Logic.Function.Basic

set_option autoImplicit false
set_option relaxedAutoImplicit false

namespace ComputerSystems.Systems.Mutexes

variable {μ τ : Type} [DecidableEq μ]

/-- What a thread does to a mutex; `wait` is the release at the start of a wait for a condition. -/
inductive Action (μ : Type) where
  | none
  | lock (m : μ)
  | unlock (m : μ)
  | wait (m : μ)

def perform (owner : μ → Option τ) (t : τ) : Action μ → Option (μ → Option τ)
  | .none => some owner
  | .lock m => if (owner m).isNone then some (Function.update owner m (some t)) else .none
  | .unlock m => some (Function.update owner m .none)
  | .wait m => some (Function.update owner m .none)

/-- The mutexes before and after the action, the one taken last first. -/
def Follows : Action μ → List μ → List μ → Prop
  | .none, l, l' => l' = l
  | .lock m, l, l' => l' = m :: l
  | .unlock m, l, l' => l = m :: l'
  | .wait m, l, l' => l = m :: l'

def Releases (owner : μ → Option τ) (t : τ) : Action μ → Prop
  | .unlock m => owner m = some t
  | .wait m => owner m = some t
  | _ => True

def OwnsExactly (owner : μ → Option τ) (t : τ) (l : List μ) : Prop :=
  l.Nodup ∧ ∀ m, owner m = some t ↔ m ∈ l

variable {owner owner' : μ → Option τ} {t u : τ} {a : Action μ} {l l' : List μ}

omit [DecidableEq μ] in
theorem OwnsExactly.releases (h : OwnsExactly owner t l) (hfollows : Follows a l l') :
    Releases owner t a := by
  cases a with
  | none => trivial
  | lock m => trivial
  | unlock m =>
    cases hfollows
    exact (h.2 m).mpr List.mem_cons_self
  | wait m =>
    cases hfollows
    exact (h.2 m).mpr List.mem_cons_self

private theorem OwnsExactly.release {m : μ} (h : OwnsExactly owner t (m :: l)) :
    OwnsExactly (Function.update owner m none) t l := by
  obtain ⟨hm, hl⟩ := List.nodup_cons.mp h.1
  refine ⟨hl, fun k => ?_⟩
  by_cases heq : k = m
  · subst heq
    simpa using hm
  · rw [Function.update_of_ne heq, h.2 k, List.mem_cons, or_iff_right heq]

theorem OwnsExactly.perform (h : OwnsExactly owner t l) (hfollows : Follows a l l')
    (hperform : perform owner t a = some owner') : OwnsExactly owner' t l' := by
  cases a with
  | none =>
    cases hfollows
    cases hperform
    exact h
  | lock m =>
    cases hfollows
    rw [Mutexes.perform] at hperform
    split at hperform
    · rename_i hfree
      cases hperform
      have hm : m ∉ l := fun hmem => by
        rw [(h.2 m).mpr hmem] at hfree
        cases hfree
      refine ⟨List.nodup_cons.mpr ⟨hm, h.1⟩, fun k => ?_⟩
      by_cases heq : k = m
      · subst heq
        simp
      · rw [Function.update_of_ne heq, h.2 k, List.mem_cons, or_iff_right heq]
    · cases hperform
  | unlock m =>
    cases hfollows
    cases hperform
    exact h.release
  | wait m =>
    cases hfollows
    cases hperform
    exact h.release

private theorem OwnsExactly.update (h : OwnsExactly owner u l) {m : μ} {o : Option τ}
    (hold : owner m ≠ some u) (hnew : o ≠ some u) :
    OwnsExactly (Function.update owner m o) u l := by
  refine ⟨h.1, fun k => ?_⟩
  by_cases heq : k = m
  · subst heq
    rw [Function.update_self, ← h.2 k]
    exact iff_of_false hnew hold
  · rw [Function.update_of_ne heq, h.2 k]

theorem OwnsExactly.other (h : OwnsExactly owner u l) (hne : u ≠ t)
    (hreleases : Releases owner t a) (hperform : Mutexes.perform owner t a = some owner') :
    OwnsExactly owner' u l := by
  have hsome : some t ≠ some u := fun heq => hne (Option.some.inj heq).symm
  cases a with
  | none =>
    cases hperform
    exact h
  | lock m =>
    rw [Mutexes.perform] at hperform
    split at hperform
    · rename_i hfree
      cases hperform
      refine h.update (fun hu => ?_) hsome
      rw [hu] at hfree
      cases hfree
    · cases hperform
  | unlock m =>
    cases hperform
    exact h.update (hreleases ▸ hsome) (by simp)
  | wait m =>
    cases hperform
    exact h.update (hreleases ▸ hsome) (by simp)

end ComputerSystems.Systems.Mutexes
