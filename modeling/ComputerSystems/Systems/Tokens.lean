/- Tokens in places: where a token lies, and moves from one place to another. -/

import Mathlib.Data.List.Perm.Basic
import Mathlib.Logic.Function.Basic

set_option autoImplicit false
set_option relaxedAutoImplicit false

namespace ComputerSystems.Systems.Tokens

variable {π ι : Type} [DecidableEq π] [DecidableEq ι]
variable {holds holds' : π → List ι} {i j : ι} {p q : π}

/-- Token `i` lies in place `p`, once, and in no other place. -/
def At (holds : π → List ι) (i : ι) (p : π) : Prop :=
  ∀ q, (holds q).count i = if q = p then 1 else 0

/-- Token `i` lies in no place. -/
def Nowhere (holds : π → List ι) (i : ι) : Prop :=
  ∀ q, (holds q).count i = 0

/-- Token `i` leaves the place `a` and comes to the place `b`; `none` is outside all places. -/
def Moves (holds holds' : π → List ι) (i : ι) (a b : Option π) : Prop :=
  ∀ j q, (holds' q).count j + (if j = i ∧ a = some q then 1 else 0) =
    (holds q).count j + (if j = i ∧ b = some q then 1 else 0)

theorem At.mem (h : At holds i p) : i ∈ holds p := by
  have hcount := h p
  rw [if_pos rfl] at hcount
  exact List.count_pos_iff.mp (by omega)

theorem At.unique (h : At holds i p) (hq : i ∈ holds q) : q = p := by
  have hcount := h q
  have hpos := List.count_pos_iff.mpr hq
  by_contra hne
  rw [if_neg hne] at hcount
  omega

omit [DecidableEq π] in
theorem Nowhere.notMem (h : Nowhere holds i) : i ∉ holds p :=
  List.count_eq_zero.mp (h p)

section Moves

variable {a b : Option π}

theorem Moves.count_of_ne (h : Moves holds holds' i a b) (hne : j ≠ i) (q : π) :
    (holds' q).count j = (holds q).count j := by
  simpa [hne] using h j q

theorem Moves.nowhere_of_ne (h : Moves holds holds' i a b) (hne : j ≠ i)
    (hj : Nowhere holds j) : Nowhere holds' j := fun q => (h.count_of_ne hne q).trans (hj q)

theorem Moves.to (h : Moves holds holds' i (some p) (some q)) (hi : At holds i p) :
    At holds' i q := by
  intro r
  have hr := h i r
  have hp := hi r
  simp only [true_and, Option.some.injEq, eq_comm (b := r)] at hr
  omega

theorem Moves.enter (h : Moves holds holds' i none (some q)) (hi : Nowhere holds i) :
    At holds' i q := by
  intro r
  have hr := h i r
  have hp := hi r
  simp only [true_and, Option.some.injEq, reduceCtorEq, if_false, eq_comm (b := r)] at hr
  omega

theorem Moves.leave (h : Moves holds holds' i (some p) none) (hi : At holds i p) :
    Nowhere holds' i := by
  intro r
  have hr := h i r
  have hp := hi r
  simp only [true_and, Option.some.injEq, reduceCtorEq, if_false, eq_comm (b := r)] at hr
  omega

end Moves

end ComputerSystems.Systems.Tokens
