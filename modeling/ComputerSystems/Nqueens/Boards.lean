/- Boards of queens, and the placements that complete a board row by row. -/

import Mathlib.Algebra.BigOperators.Fin
import Mathlib.Data.Fintype.CardEmbedding
import Mathlib.Data.Fintype.Pi
import Mathlib.Data.Fintype.Powerset
import Mathlib.Data.Fintype.Prod

set_option autoImplicit false
set_option relaxedAutoImplicit false

namespace ComputerSystems.Nqueens.Boards

def Attacks (x y x' y' : Int) : Prop := x = x' ∨ y = y' ∨ x - x' = y - y' ∨ x - x' = y' - y

instance decidableAttacks (x y x' y' : Int) : Decidable (Attacks x y x' y') :=
  inferInstanceAs (Decidable (_ ∨ _ ∨ _ ∨ _))

/-- All ways to put `n` queens on a board of side `n` such that none attacks another. -/
def solutions (n : Nat) : Finset (Finset (Fin n × Fin n)) :=
  Finset.univ.filter fun S =>
    S.card = n ∧ ∀ p ∈ S, ∀ q ∈ S, p ≠ q → ¬ Attacks p.1.val p.2.val q.1.val q.2.val

/-- One queen in each row, the one in row `x` in column `f x`. -/
def NonAttacking {n : Nat} (f : Fin n → Fin n) : Prop :=
  ∀ x x' : Fin n, x < x' → ¬ Attacks x.val (f x).val x'.val (f x').val

instance decidableNonAttacking {n : Nat} (f : Fin n → Fin n) : Decidable (NonAttacking f) :=
  inferInstanceAs (Decidable (∀ _, _))

/-- The queens in the rows up to `r` do not attack each other. -/
def Peaceful (r : Nat) (c : Nat → Nat) : Prop :=
  ∀ x x' : Nat, x < x' → x' < r → ¬ Attacks x (c x) x' (c x')

/-- The placements whose first `r` rows are those of `c`. -/
def completions (n r : Nat) (c : Nat → Nat) : Finset (Fin n → Fin n) :=
  Finset.univ.filter fun f => NonAttacking f ∧ ∀ x : Fin n, x.val < r → (f x).val = c x

section Rows

variable {n r : Nat} {c : Nat → Nat} {f : Fin n → Fin n}

theorem mem_completions :
    f ∈ completions n r c ↔ NonAttacking f ∧ ∀ x : Fin n, x.val < r → (f x).val = c x := by
  simp [completions]

theorem completions_of_not_peaceful (hr : r ≤ n) (h : ¬ Peaceful r c) : completions n r c = ∅ := by
  apply Finset.eq_empty_of_forall_notMem
  intro f hf
  obtain ⟨hpeace, hrows⟩ := mem_completions.mp hf
  apply h
  intro x x' hlt hx' hattacks
  have hx := hrows ⟨x, by omega⟩ (by change x < r; omega)
  have hx'' := hrows ⟨x', by omega⟩ hx'
  apply hpeace ⟨x, by omega⟩ ⟨x', by omega⟩ hlt
  rw [hx, hx'']
  exact hattacks

theorem completions_full (hc : ∀ x, x < n → c x < n) (h : Peaceful n c) :
    (completions n n c).card = 1 := by
  rw [Finset.card_eq_one]
  refine ⟨fun x => ⟨c x, hc x x.isLt⟩, ?_⟩
  ext f
  rw [mem_completions, Finset.mem_singleton]
  constructor
  · rintro ⟨-, hrows⟩
    funext x
    exact Fin.ext (hrows x x.isLt)
  · rintro rfl
    exact ⟨fun x x' hlt => h x x' hlt x'.isLt, fun x _ => rfl⟩

theorem completions_step (hr : r < n) :
    (completions n r c).card =
      ∑ i ∈ Finset.range n, (completions n (r + 1) (Function.update c r i)).card := by
  have hmaps : ∀ f ∈ completions n r c, f ⟨r, hr⟩ ∈ (Finset.univ : Finset (Fin n)) :=
    fun f _ => Finset.mem_univ _
  rw [Finset.card_eq_sum_card_fiberwise hmaps, ← Fin.sum_univ_eq_sum_range fun i =>
    (completions n (r + 1) (Function.update c r i)).card]
  refine Finset.sum_congr rfl fun i _ => congrArg Finset.card ?_
  ext f
  rw [Finset.mem_filter, mem_completions, mem_completions, and_assoc]
  refine and_congr_right fun _ => ?_
  constructor
  · rintro ⟨hrows, hi⟩ x hx
    by_cases hxr : x.val = r
    · rw [hxr, Function.update_self, ← hi]
      exact congrArg (fun y => (f y).val) (Fin.ext hxr)
    · rw [Function.update_of_ne hxr]
      exact hrows x (by omega)
  · intro hrows
    constructor
    · intro x hx
      rw [hrows x (by omega), Function.update_of_ne (by omega)]
    · apply Fin.ext
      rw [hrows ⟨r, hr⟩ (by simp)]
      exact Function.update_self r i.val c

theorem completions_card_le : (completions n r c).card ≤ n.factorial := by
  have hsubset : completions n r c ⊆ Finset.univ.filter Function.Injective := by
    intro f hf
    have hpeace := (mem_completions.mp hf).1
    rw [Finset.mem_filter]
    refine ⟨Finset.mem_univ f, ?_⟩
    intro x x' heq
    rcases lt_trichotomy x x' with hlt | hsame | hlt
    · exact absurd (Or.inr (Or.inl (by rw [heq]))) (hpeace x x' hlt)
    · exact hsame
    · exact absurd (Or.inr (Or.inl (by rw [heq]))) (hpeace x' x hlt)
  have hcard : (Finset.univ.filter (Function.Injective : (Fin n → Fin n) → Prop)).card =
      n.factorial := by
    rw [← Fintype.card_subtype, Fintype.card_congr (Equiv.subtypeInjectiveEquivEmbedding _ _),
      Fintype.card_embedding_eq, Fintype.card_fin, Nat.descFactorial_self]
  exact hcard ▸ Finset.card_le_card hsubset

end Rows

section Squares

variable {n : Nat}

def squares (f : Fin n → Fin n) : Finset (Fin n × Fin n) := Finset.univ.image fun x => (x, f x)

theorem mem_squares {f : Fin n → Fin n} {p : Fin n × Fin n} : p ∈ squares f ↔ f p.1 = p.2 := by
  rw [squares, Finset.mem_image]
  constructor
  · rintro ⟨x, -, rfl⟩
    rfl
  · intro h
    exact ⟨p.1, Finset.mem_univ _, Prod.ext rfl h⟩

theorem squares_injective : Function.Injective (squares : (Fin n → Fin n) → _) := by
  intro f g h
  funext x
  have hx : (x, f x) ∈ squares g := h ▸ mem_squares.mpr rfl
  exact (mem_squares.mp hx).symm

theorem card_squares (f : Fin n → Fin n) : (squares f).card = n := by
  rw [squares, Finset.card_image_of_injective _ fun x x' h => congrArg Prod.fst h, Finset.card_univ,
    Fintype.card_fin]

theorem attacks_symm {x y x' y' : Int} (h : Attacks x y x' y') : Attacks x' y' x y := by
  unfold Attacks at h ⊢
  omega

theorem exists_rows {S : Finset (Fin n × Fin n)} (hcard : S.card = n)
    (hS : ∀ p ∈ S, ∀ q ∈ S, p ≠ q → ¬ Attacks p.1.val p.2.val q.1.val q.2.val) :
    ∃ f, squares f = S := by
  have hinj : Set.InjOn Prod.fst (S : Set (Fin n × Fin n)) := by
    intro p hp q hq heq
    by_contra hne
    exact hS p hp q hq hne (Or.inl (by rw [heq]))
  have hrows : S.image Prod.fst = Finset.univ := by
    apply Finset.eq_univ_of_card
    rw [Finset.card_image_of_injOn hinj, hcard, Fintype.card_fin]
  have hrow : ∀ x : Fin n, ∃ y, (x, y) ∈ S := by
    intro x
    have hx : x ∈ S.image Prod.fst := hrows ▸ Finset.mem_univ x
    obtain ⟨⟨x', y⟩, hp, rfl⟩ := Finset.mem_image.mp hx
    exact ⟨y, hp⟩
  choose f hf using hrow
  refine ⟨f, Finset.eq_of_subset_of_card_le ?_ (by rw [hcard, card_squares])⟩
  intro p hp
  have hp' := hf p.1
  rw [mem_squares.mp hp] at hp'
  exact hp'

theorem solutions_eq (c : Nat → Nat) : solutions n = (completions n 0 c).image squares := by
  ext S
  rw [solutions, Finset.mem_filter, Finset.mem_image]
  constructor
  · rintro ⟨-, hcard, hS⟩
    obtain ⟨f, rfl⟩ := exists_rows hcard hS
    refine ⟨f, mem_completions.mpr ⟨?_, fun x hx => absurd hx (by omega)⟩, rfl⟩
    intro x x' hlt
    exact hS (x, f x) (mem_squares.mpr rfl) (x', f x') (mem_squares.mpr rfl)
      fun h => hlt.ne (congrArg Prod.fst h)
  · rintro ⟨f, hf, rfl⟩
    have hpeace := (mem_completions.mp hf).1
    refine ⟨Finset.mem_univ _, card_squares f, ?_⟩
    rintro ⟨x, y⟩ hp ⟨x', y'⟩ hq hne hattacks
    obtain rfl : f x = y := mem_squares.mp hp
    obtain rfl : f x' = y' := mem_squares.mp hq
    rcases lt_trichotomy x x' with hlt | rfl | hlt
    · exact hpeace x x' hlt hattacks
    · exact hne rfl
    · exact hpeace x' x hlt (attacks_symm hattacks)

theorem card_solutions (c : Nat → Nat) : (solutions n).card = (completions n 0 c).card := by
  rw [solutions_eq c, Finset.card_image_of_injective _ squares_injective]

end Squares

end ComputerSystems.Nqueens.Boards
