/- Joining adjacent free segments of a tiling, and the first free segment that is long enough. -/

import ComputerSystems.Memory.Tiling
import Mathlib.Data.List.Chain

set_option autoImplicit false
set_option relaxedAutoImplicit false

namespace ComputerSystems.Memory.Joining

open ComputerSystems.Memory.Tiling

variable {β : Type} (free : β → Bool) (join : β → β → β)

def push (b : β) : List β → List β
  | [] => [b]
  | x :: xs => if free b && free x then join b x :: xs else b :: x :: xs

def joinFree : List β → List β
  | [] => []
  | b :: bs => push free join b (joinFree bs)

abbrev Separated (bs : List β) : Prop := bs.IsChain fun a b => free a = false ∨ free b = false

variable {free join} {b x : β} {l r bs xs : List β}

theorem push_of_used (h : free b = false) : push free join b xs = b :: xs := by
  cases xs with
  | nil => rfl
  | cons x xs => simp [push, h]

theorem push_of_front (h : ∀ x ∈ xs.head?, free x = false) : push free join b xs = b :: xs := by
  cases xs with
  | nil => rfl
  | cons x xs =>
    have hx := h x (by simp)
    simp [push, hx]

theorem push_free (hb : free b = true) (hx : free x = true) :
    push free join b (x :: xs) = join b x :: xs := by
  simp [push, hb, hx]

theorem joinFree_of_separated (h : Separated free bs) : joinFree free join bs = bs := by
  induction bs with
  | nil => rfl
  | cons b bs ih =>
    rw [Separated, List.isChain_cons] at h
    rw [joinFree, ih h.2]
    cases hb : free b with
    | false => exact push_of_used hb
    | true => exact push_of_front fun x hx => (h.1 x hx).resolve_left (by simp [hb])

theorem joinFree_append (h : Separated free l) (hlast : ∀ b ∈ l.getLast?, free b = false) :
    joinFree free join (l ++ r) = l ++ joinFree free join r := by
  induction l with
  | nil => rfl
  | cons b l ih =>
    rw [Separated, List.isChain_cons] at h
    rw [List.cons_append, joinFree]
    cases l with
    | nil => exact push_of_used (hlast b rfl)
    | cons x l =>
      rw [ih h.2 (by simpa using hlast), List.cons_append, List.cons_append]
      cases hb : free b with
      | false => exact push_of_used hb
      | true =>
        have hx := (h.1 x rfl).resolve_left (by simp [hb])
        exact push_of_front fun y hy => by
          obtain rfl : x = y := by simpa using hy
          exact hx

theorem push_separated (h : Separated free xs) : Separated free (push free join b xs) := by
  cases xs with
  | nil => exact List.isChain_singleton _
  | cons x xs =>
    rw [push]
    split
    · rename_i hboth
      obtain ⟨hb, hx⟩ := Bool.and_eq_true_iff.mp hboth
      rw [Separated, List.isChain_cons] at h ⊢
      exact ⟨fun y hy => Or.inr ((h.1 y hy).resolve_left (by simp [hx])), h.2⟩
    · rename_i hnot
      refine List.isChain_cons_cons.mpr ⟨?_, h⟩
      cases hb : free b with
      | false => exact Or.inl rfl
      | true => exact Or.inr (by simpa [hb] using hnot)

theorem joinFree_separated : Separated free (joinFree free join bs) := by
  induction bs with
  | nil => exact List.isChain_nil
  | cons b bs ih => exact push_separated ih

section Joins

variable {len : β → Nat} {used : β → Prop} {a d : Nat}
  (hlen : ∀ x y, len (join x y) = len x + len y)
  (hjoin : ∀ x y, free x = true → free y = true → free (join x y) = true)
  (hused : ∀ x, used x → free x = false)

include hlen in
theorem push_span : span len (push free join b xs) = len b + span len xs := by
  cases xs with
  | nil => rfl
  | cons x xs =>
    rw [push]
    split
    · rw [span_cons, span_cons, hlen, Nat.add_assoc]
    · rfl

include hlen in
theorem joinFree_span : span len (joinFree free join bs) = span len bs := by
  induction bs with
  | nil => rfl
  | cons b bs ih => rw [joinFree, push_span hlen, ih, span_cons]

include hlen hjoin hused in
theorem push_located (hx : used x) :
    (d, x) ∈ located len a (push free join b xs) ↔ (d, x) ∈ located len a (b :: xs) := by
  cases xs with
  | nil => rfl
  | cons y ys =>
    rw [push]
    split
    · rename_i hboth
      obtain ⟨hb, hy⟩ := Bool.and_eq_true_iff.mp hboth
      have hne : ∀ z, free z = true → x ≠ z := by
        rintro z hz rfl
        rw [hused x hx] at hz
        cases hz
      simp only [located_cons, List.mem_cons, Prod.mk.injEq, hne _ hb, hne _ hy,
        hne _ (hjoin b y hb hy), and_false, false_or, hlen, Nat.add_assoc]
    · rfl

include hlen hjoin hused in
theorem joinFree_located (hx : used x) :
    (d, x) ∈ located len a (joinFree free join bs) ↔ (d, x) ∈ located len a bs := by
  induction bs generalizing a with
  | nil => rfl
  | cons b bs ih =>
    rw [joinFree, push_located hlen hjoin hused hx, located_cons, located_cons, List.mem_cons,
      List.mem_cons, ih]

end Joins

section FirstFit

variable {len : β → Nat} {ok : β → Bool} {place : β → List β} {a c : Nat}

/-- Replace the first segment that `ok` accepts; the result has its address as well. -/
def replaceFirst (len : β → Nat) (ok : β → Bool) (place : β → List β) (a : Nat) :
    List β → Option (Nat × List β)
  | [] => none
  | b :: bs =>
    if ok b then some (a, place b ++ bs)
    else (replaceFirst len ok place (a + len b) bs).map fun p => (p.1, b :: p.2)

theorem replaceFirst_eq_none :
    replaceFirst len ok place a bs = none ↔ ∀ b ∈ bs, ok b = false := by
  induction bs generalizing a with
  | nil => simp [replaceFirst]
  | cons b bs ih =>
    rw [replaceFirst]
    cases hb : ok b with
    | true => simp [hb]
    | false => simp [hb, ih]

theorem replaceFirst_eq_some :
    replaceFirst len ok place a bs = some (c, xs) ↔
      ∃ l b r, bs = l ++ b :: r ∧ c = a + span len l ∧ (∀ x ∈ l, ok x = false) ∧ ok b = true ∧
        xs = l ++ (place b ++ r) := by
  induction bs generalizing a c xs with
  | nil => simp [replaceFirst]
  | cons b bs ih =>
    rw [replaceFirst]
    cases hb : ok b with
    | true =>
      rw [if_pos rfl, Option.some.injEq, Prod.mk.injEq]
      constructor
      · rintro ⟨rfl, rfl⟩
        exact ⟨[], b, bs, rfl, rfl, by simp, hb, rfl⟩
      · rintro ⟨l, x, r, hbs, rfl, hl, hx, rfl⟩
        cases l with
        | nil =>
          cases hbs
          exact ⟨rfl, rfl⟩
        | cons y l =>
          cases hbs
          exact absurd (hl _ List.mem_cons_self) (by simp [hb])
    | false =>
      rw [if_neg (by simp), Option.map_eq_some_iff]
      constructor
      · rintro ⟨⟨c', xs'⟩, hrest, heq⟩
        cases heq
        obtain ⟨l, x, r, rfl, rfl, hl, hx, rfl⟩ := ih.mp hrest
        exact ⟨b :: l, x, r, rfl, by rw [span_cons, Nat.add_assoc],
          List.forall_mem_cons.mpr ⟨hb, hl⟩, hx, rfl⟩
      · rintro ⟨l, x, r, hbs, rfl, hl, hx, rfl⟩
        cases l with
        | nil =>
          cases hbs
          rw [hb] at hx
          cases hx
        | cons y l =>
          cases hbs
          refine ⟨(_, l ++ (place x ++ r)), ih.mpr ⟨l, x, r, rfl, rfl,
            (List.forall_mem_cons.mp hl).2, hx, rfl⟩, ?_⟩
          rw [span_cons, Nat.add_assoc]
          rfl

end FirstFit

end ComputerSystems.Memory.Joining
