/- Consecutive segments that tile a range of addresses. -/

import Mathlib.Algebra.BigOperators.Group.List.Basic
import Mathlib.Data.List.Basic
import Mathlib.Tactic.Linarith

set_option autoImplicit false
set_option relaxedAutoImplicit false

namespace ComputerSystems.Memory.Tiling

variable {β : Type} (len : β → Nat)

def span (bs : List β) : Nat := (bs.map len).sum

/-- The segments with their first addresses, when the first of them starts at `a`. -/
def located (a : Nat) : List β → List (Nat × β)
  | [] => []
  | b :: bs => (a, b) :: located (a + len b) bs

@[simp] theorem span_nil : span len [] = 0 := rfl

@[simp] theorem span_cons (b : β) (bs : List β) : span len (b :: bs) = len b + span len bs := by
  simp [span]

@[simp] theorem span_append (bs cs : List β) :
    span len (bs ++ cs) = span len bs + span len cs := by
  simp [span]

@[simp] theorem span_reverse (bs : List β) : span len bs.reverse = span len bs := by
  simp [span]

@[simp] theorem located_nil (a : Nat) : located len a [] = [] := rfl

@[simp] theorem located_cons (a : Nat) (b : β) (bs : List β) :
    located len a (b :: bs) = (a, b) :: located len (a + len b) bs := rfl

@[simp] theorem located_append (a : Nat) (bs cs : List β) :
    located len a (bs ++ cs) = located len a bs ++ located len (a + span len bs) cs := by
  induction bs generalizing a with
  | nil => simp
  | cons b bs ih => simp [ih, Nat.add_assoc]

variable {len}

theorem located_within {a c : Nat} {b : β} {bs : List β} (h : (c, b) ∈ located len a bs) :
    a ≤ c ∧ c + len b ≤ a + span len bs := by
  induction bs generalizing a with
  | nil => simp at h
  | cons x bs ih =>
    simp only [located_cons, List.mem_cons, Prod.mk.injEq] at h
    simp only [span_cons]
    rcases h with ⟨rfl, rfl⟩ | h
    · omega
    · have hin := ih h
      omega

theorem mem_of_located {a c : Nat} {b : β} {bs : List β} (h : (c, b) ∈ located len a bs) :
    b ∈ bs := by
  induction bs generalizing a with
  | nil => simp at h
  | cons x bs ih =>
    simp only [located_cons, List.mem_cons, Prod.mk.injEq] at h
    rcases h with ⟨-, rfl⟩ | h
    · exact List.mem_cons_self
    · exact List.mem_cons_of_mem x (ih h)

theorem located_split {a c : Nat} {b : β} {bs : List β} (h : (c, b) ∈ located len a bs) :
    ∃ l r, bs = l ++ b :: r ∧ c = a + span len l := by
  induction bs generalizing a with
  | nil => simp at h
  | cons x bs ih =>
    simp only [located_cons, List.mem_cons, Prod.mk.injEq] at h
    rcases h with ⟨rfl, rfl⟩ | h
    · exact ⟨[], bs, rfl, by simp⟩
    · obtain ⟨l, r, rfl, rfl⟩ := ih h
      exact ⟨x :: l, r, rfl, by simp [Nat.add_assoc]⟩

theorem located_ext {P : Nat → β → Prop} (hP : ∀ d x y, P d x → P d y → x = y) {a : Nat}
    {bs cs : List β} (hbs : ∀ x ∈ bs, 0 < len x) (hcs : ∀ x ∈ cs, 0 < len x)
    (hspan : span len bs = span len cs) (hbsP : ∀ d x, (d, x) ∈ located len a bs → P d x)
    (hcsP : ∀ d x, (d, x) ∈ located len a cs → P d x) : bs = cs := by
  induction bs generalizing a cs with
  | nil =>
    cases cs with
    | nil => rfl
    | cons y cs =>
      have hpos := hcs y List.mem_cons_self
      rw [span_nil, span_cons] at hspan
      omega
  | cons x bs ih =>
    cases cs with
    | nil =>
      have hpos := hbs x List.mem_cons_self
      rw [span_nil, span_cons] at hspan
      omega
    | cons y cs =>
      obtain rfl : x = y := hP a x y (hbsP a x List.mem_cons_self) (hcsP a y List.mem_cons_self)
      rw [span_cons, span_cons] at hspan
      rw [ih (fun z hz => hbs z (List.mem_cons_of_mem x hz))
        (fun z hz => hcs z (List.mem_cons_of_mem x hz)) (Nat.add_left_cancel hspan)
        (fun d z hz => hbsP d z (List.mem_cons_of_mem _ hz))
        (fun d z hz => hcsP d z (List.mem_cons_of_mem _ hz))]

theorem located_middle (a : Nat) (l r : List β) (b : β) :
    (a + span len l, b) ∈ located len a (l ++ b :: r) := by
  simp

theorem located_apart {a c d : Nat} {b x : β} {bs : List β} (hb : (c, b) ∈ located len a bs)
    (hx : (d, x) ∈ located len a bs) :
    (c = d ∧ b = x) ∨ c + len b ≤ d ∨ d + len x ≤ c := by
  induction bs generalizing a with
  | nil => simp at hb
  | cons y bs ih =>
    simp only [located_cons, List.mem_cons, Prod.mk.injEq] at hb hx
    rcases hb with ⟨rfl, rfl⟩ | hb <;> rcases hx with ⟨rfl, rfl⟩ | hx
    · exact Or.inl ⟨rfl, rfl⟩
    · exact Or.inr (Or.inl (located_within hx).1)
    · exact Or.inr (Or.inr (located_within hb).1)
    · exact ih hb hx

theorem located_unique {a c : Nat} {b x : β} {bs : List β} (hpos : ∀ y ∈ bs, 0 < len y)
    (hb : (c, b) ∈ located len a bs) (hx : (c, x) ∈ located len a bs) : b = x := by
  have hlb := hpos b (mem_of_located hb)
  have hlx := hpos x (mem_of_located hx)
  rcases located_apart hb hx with ⟨-, h⟩ | h | h
  · exact h
  · omega
  · omega

theorem located_cons_ne {a c : Nat} {b x : β} {bs : List β} (hb : 0 < len b)
    (hx : (c, x) ∈ located len (a + len b) bs) : c ≠ a := by
  have hin := (located_within hx).1
  omega

theorem located_tail {used : β → Prop} {a : Nat} {b : β} {bs cs : List β} (hb : 0 < len b)
    (h : ∀ d x, used x → ((d, x) ∈ located len a (b :: bs) ↔ (d, x) ∈ located len a (b :: cs))) :
    ∀ d x, used x → ((d, x) ∈ located len (a + len b) bs ↔ (d, x) ∈ located len (a + len b) cs) := by
  intro d x hx
  have hiff := h d x hx
  simp only [located_cons, List.mem_cons, Prod.mk.injEq] at hiff
  constructor
  · intro hd
    exact (hiff.mp (Or.inr hd)).resolve_left fun heq => located_cons_ne hb hd heq.1
  · intro hd
    exact (hiff.mpr (Or.inr hd)).resolve_left fun heq => located_cons_ne hb hd heq.1

/-- A gap that starts where a gap of another tiling starts is no longer than it, if both tilings have
the same used segments and the gap of the other one ends at a used segment or with its range. -/
theorem gap_le {used : β → Prop} {a : Nat} {b c : β} {bs cs : List β} (hc : ¬ used c)
    (hpos : ∀ x ∈ bs, 0 < len x)
    (hchain : (b :: bs).IsChain fun x y => used x ∨ used y) (hb : ¬ used b)
    (hspan : span len (b :: bs) = span len (c :: cs))
    (hused : ∀ d x, used x → (d, x) ∈ located len a (b :: bs) → (d, x) ∈ located len a (c :: cs)) :
    len c ≤ len b := by
  by_contra hlt
  cases bs with
  | nil =>
    rw [span_cons, span_cons, span_nil] at hspan
    omega
  | cons q bs =>
    rw [List.isChain_cons_cons] at hchain
    have hq := hchain.1.resolve_left hb
    have hpq := hpos q List.mem_cons_self
    have hmem := hused (a + len b) q hq (by simp)
    rcases located_apart hmem List.mem_cons_self with ⟨-, rfl⟩ | hapart | hapart
    · exact hc hq
    · omega
    · omega

theorem tiling_ext {used : β → Prop} {a : Nat} {bs cs : List β} (hbs : ∀ x ∈ bs, 0 < len x)
    (hcs : ∀ x ∈ cs, 0 < len x) (hbchain : bs.IsChain fun x y => used x ∨ used y)
    (hcchain : cs.IsChain fun x y => used x ∨ used y) (hspan : span len bs = span len cs)
    (hused : ∀ d x, used x → ((d, x) ∈ located len a bs ↔ (d, x) ∈ located len a cs))
    (hgap : ∀ x y, ¬ used x → ¬ used y → len x = len y → x = y) : bs = cs := by
  induction bs generalizing a cs with
  | nil =>
    cases cs with
    | nil => rfl
    | cons c cs =>
      have hc := hcs c List.mem_cons_self
      rw [span_nil, span_cons] at hspan
      omega
  | cons b bs ih =>
    have hb := hbs b List.mem_cons_self
    cases cs with
    | nil =>
      rw [span_nil, span_cons] at hspan
      omega
    | cons c cs =>
      have hc := hcs c List.mem_cons_self
      have hsame : b = c := by
        by_cases hub : used b
        · exact located_unique hcs ((hused a b hub).mp List.mem_cons_self) List.mem_cons_self
        by_cases huc : used c
        · exact located_unique hbs List.mem_cons_self ((hused a c huc).mpr List.mem_cons_self)
        · refine hgap b c hub huc (Nat.le_antisymm ?_ ?_)
          · exact gap_le hub (fun x hx => hcs x (List.mem_cons_of_mem c hx)) hcchain huc hspan.symm
              fun d x hx => (hused d x hx).mpr
          · exact gap_le huc (fun x hx => hbs x (List.mem_cons_of_mem b hx)) hbchain hub hspan
              fun d x hx => (hused d x hx).mp
      subst hsame
      rw [span_cons, span_cons] at hspan
      rw [ih (fun x hx => hbs x (List.mem_cons_of_mem b hx))
        (fun x hx => hcs x (List.mem_cons_of_mem b hx)) hbchain.of_cons hcchain.of_cons (by omega)
        (located_tail hb hused)]

end ComputerSystems.Memory.Tiling
