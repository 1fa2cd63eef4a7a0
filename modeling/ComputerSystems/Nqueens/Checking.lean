/- What the words of a board say of its queens, and what `solved` finds out about them. -/

import ComputerSystems.Nqueens.Boards
import ComputerSystems.Nqueens.Program
import Mathlib.Tactic.Positivity

set_option autoImplicit false
set_option relaxedAutoImplicit false

namespace ComputerSystems.Nqueens.Checking

open ComputerSystems.Nqueens.Boards
open ComputerSystems.Nqueens.Program
open ComputerSystems.Systems.ForkJoin

variable {m : Store} {s t : Path} {n r i : Nat} {c : Nat → Nat} {p : Place}

theorem readInt_run {k : Int} {next : Int → Code} (h : m p = .int k) :
    (readInt p next).run m = (next k).run m := by
  rw [readInt, Prog.run, h]

theorem readLong_run {b : BitVec wordBits} {next : BitVec wordBits → Code} (h : m p = .long b) :
    (readLong p next).run m = (next b).run m := by
  rw [readLong, Prog.run, h]

section Bits

theorem getLsbD_bitOf {idx : Int} {j : Nat} :
    (bitOf idx).getLsbD j = decide (j = idx.toNat % wordBits) := by
  rw [bitOf, BitVec.getLsbD_shiftLeft, BitVec.getLsbD_one]
  have hlt : idx.toNat % wordBits < wordBits := Nat.mod_lt _ (by decide)
  by_cases heq : j = idx.toNat % wordBits
  · simp [heq, hlt]
  · simp only [heq, decide_false]
    by_cases hbelow : j < idx.toNat % wordBits
    · simp [hbelow]
    · simp
      omega

theorem and_bitOf {idx : Int} {b : BitVec wordBits} :
    (b &&& bitOf idx == bitOf idx) = b.getLsbD (idx.toNat % wordBits) := by
  have hlt : idx.toNat % wordBits < wordBits := Nat.mod_lt _ (by decide)
  rw [Bool.eq_iff_iff, beq_iff_eq]
  constructor
  · intro h
    have hbit := congrArg (fun b => b.getLsbD (idx.toNat % wordBits)) h
    simpa [BitVec.getLsbD_and, getLsbD_bitOf] using hbit
  · intro h
    apply BitVec.eq_of_getLsbD_eq
    intro j hj
    rw [BitVec.getLsbD_and, getLsbD_bitOf]
    by_cases heq : j = idx.toNat % wordBits
    · rw [heq, h]
      rfl
    · simp [heq]

end Bits

/-- There is a queen on the square, when those of the first `r` rows are in the columns of `c`. -/
def On (r : Nat) (c : Nat → Nat) (x y : Int) : Prop := ∃ x' < r, x = x' ∧ y = c x'

/-- The words at `s` hold the queens of the first `r` rows and no others. -/
def Shows (m : Store) (s : Path) (n r : Nat) (c : Nat → Nat) : Prop :=
  ∀ word : Fin maxLongs, ∃ b, m (.bits s word) = .long b ∧
    ∀ j < wordBits, b.getLsbD j = true ↔ ∃ x < r, word * wordBits + j = x * n + c x

/-- The queens stand on the board. -/
structure Fits (n r : Nat) (c : Nat → Nat) : Prop where
  side : n ≤ maxN
  rows : r ≤ n
  columns : ∀ x < r, c x < n

structure Holds (m : Store) (s : Path) (n r : Nat) (c : Nat → Nat) : Prop where
  side : m (.side s) = .int n
  row : m (.row s) = .int r
  shows : Shows m s n r c

section Squares

variable {x y : Nat} {x' y' : Int}

theorem index_lt (hx : x < n) (hy : y < n) : x * n + y < n * n := by
  have hrow : (x + 1) * n ≤ n * n := Nat.mul_le_mul_right n hx
  rw [Nat.add_mul, Nat.one_mul] at hrow
  omega

theorem index_inj {x₁ y₁ : Nat} (hy : y < n) (hy₁ : y₁ < n) (h : x * n + y = x₁ * n + y₁) :
    x = x₁ ∧ y = y₁ := by
  have hx : x = x₁ := by
    have hdiv := congrArg (· / n) h
    simpa [Nat.mul_comm _ n, Nat.mul_add_div (Nat.zero_lt_of_lt hy), Nat.div_eq_of_lt hy,
      Nat.div_eq_of_lt hy₁] using hdiv
  subst hx
  exact ⟨rfl, by omega⟩

theorem word_lt (hn : n ≤ maxN) (hx : x < n) (hy : y < n) :
    (x * n + y) / wordBits < maxLongs := by
  have hidx := index_lt hx hy
  have hsquare : n * n ≤ maxN * maxN := Nat.mul_le_mul hn hn
  have hmax : maxN * maxN = 324 := rfl
  have hlongs : maxLongs = 18 := rfl
  have hbits : wordBits = 64 := rfl
  rw [hlongs, hbits]
  omega

theorem wordOf_run {next : Fin maxLongs → Code} (hn : n ≤ maxN) (hx : x < n) (hy : y < n) :
    wordOf ((x : Int) * n + y) next = next ⟨(x * n + y) / wordBits, word_lt hn hx hy⟩ := by
  have hidx : ((x : Int) * n + y).toNat = x * n + y := by
    rw [show ((x : Int) * n + y) = ((x * n + y : Nat) : Int) by push_cast; rfl, Int.toNat_natCast]
  unfold wordOf
  rw [dif_pos ⟨by positivity, by rw [hidx]; exact word_lt hn hx hy⟩]
  simp only [hidx]

theorem shows_bit (hm : Shows m s n r c) (hc : Fits n r c) (hx : x < n) (hy : y < n) :
    ∃ b, m (.bits s ⟨(x * n + y) / wordBits, word_lt hc.side hx hy⟩) = .long b ∧
      (b.getLsbD ((x * n + y) % wordBits) = true ↔ On r c x y) := by
  obtain ⟨b, hb, hbits⟩ := hm ⟨(x * n + y) / wordBits, word_lt hc.side hx hy⟩
  refine ⟨b, hb, (hbits _ (Nat.mod_lt _ (by decide))).trans ?_⟩
  have hidx : (x * n + y) / wordBits * wordBits + (x * n + y) % wordBits = x * n + y :=
    Nat.div_add_mod' _ _
  simp only [hidx]
  refine exists_congr fun x₁ => and_congr_right fun hlt => ?_
  constructor
  · intro h
    obtain ⟨rfl, rfl⟩ := index_inj hy (hc.columns x₁ hlt) h
    exact ⟨rfl, rfl⟩
  · rintro ⟨h, h'⟩
    rw [Int.natCast_inj.mp h, Int.natCast_inj.mp h']

theorem isQueen_run {next : Bool → Code} (hm : Shows m s n r c) (hc : Fits n r c) :
    ∃ q, (isQueen s x' y' n next).run m = (next q).run m ∧ (q = true ↔ On r c x' y') := by
  unfold isQueen
  split
  · rename_i hout
    refine ⟨false, rfl, fun h => absurd h (by decide), ?_⟩
    rintro ⟨x₁, hlt, rfl, rfl⟩
    have := hc.columns x₁ hlt
    have := hc.rows
    omega
  · rename_i hin
    obtain ⟨x, rfl⟩ := Int.eq_ofNat_of_zero_le (a := x') (by omega)
    obtain ⟨y, rfl⟩ := Int.eq_ofNat_of_zero_le (a := y') (by omega)
    obtain ⟨b, hb, hbit⟩ := shows_bit (x := x) (y := y) hm hc (by omega) (by omega)
    have hidx : ((x : Int) * n + y).toNat = x * n + y := by
      rw [show ((x : Int) * n + y) = ((x * n + y : Nat) : Int) by push_cast; rfl, Int.toNat_natCast]
    refine ⟨b.getLsbD ((x * n + y) % wordBits), ?_, hbit⟩
    rw [wordOf_run hc.side (by omega) (by omega), readLong_run hb, and_bitOf, hidx]

end Squares

section Solved

variable {side : Nat} {x y k : Nat}

/-- `k` squares on, in one of the directions that `solved` looks in, there is a queen. -/
def Hit (r : Nat) (c : Nat → Nat) (x y k : Int) : Prop :=
  On r c (x + k) y ∨ On r c x (y + k) ∨ On r c (x + k) (y + k) ∨ On r c (x + k) (y - k)

/-- The queen in the row `x` attacks another one. -/
def Struck (n r : Nat) (c : Nat → Nat) (x : Nat) : Prop :=
  ∃ k : Nat, 1 ≤ k ∧ k < n ∧ Hit r c x (c x) k

/-- The program comes to `yes` if `P` holds and to `no` if not. -/
def Decides (m : Store) (code yes no : Code) (P : Prop) : Prop :=
  (P → code.run m = yes.run m) ∧ (¬ P → code.run m = no.run m)

theorem Decides.congr {code yes no : Code} {P P' : Prop} (h : Decides m code yes no P)
    (hiff : P ↔ P') : Decides m code yes no P' :=
  ⟨fun hP => h.1 (hiff.mpr hP), fun hP => h.2 fun hP' => hP (hiff.mp hP')⟩

theorem isQueen_decides {next yes no : Code} {x y : Int} {P : Prop} (hm : Shows m s n r c)
    (hc : Fits n r c) (h : Decides m next yes no P) :
    Decides m (isQueen s x y n fun q => if q then yes else next) yes no (On r c x y ∨ P) := by
  obtain ⟨q, hrun, hq⟩ := @isQueen_run m s n r c x y (fun q => if q then yes else next) hm hc
  rw [Decides, hrun]
  cases q with
  | true => exact ⟨fun _ => rfl, fun hnot => absurd (Or.inl (hq.mp rfl)) hnot⟩
  | false =>
    have hon : ¬ On r c x y := fun hon => absurd (hq.mpr hon) (by decide)
    exact ⟨fun hor => h.1 (hor.resolve_left hon), fun hnot => h.2 fun hP => hnot (Or.inr hP)⟩

theorem attacked_decides {yes no : Code} {x y : Int} (hm : Shows m s n r c) (hc : Fits n r c) :
    Decides m (attacked s x y n k yes no) yes no
      (∃ k', k ≤ k' ∧ k' < n ∧ Hit r c x y (k' : Nat)) := by
  induction hn : n - k generalizing k with
  | zero =>
    rw [attacked, if_neg (by omega)]
    refine ⟨?_, fun _ => rfl⟩
    rintro ⟨k', hle, hlt, -⟩
    omega
  | succ d ih =>
    rw [attacked, if_pos (by omega)]
    have hnext := ih (k := k + 1) (by omega)
    have hloop := isQueen_decides (x := x + k) (y := y) hm hc
      (isQueen_decides (x := x) (y := y + k) hm hc
        (isQueen_decides (x := x + k) (y := y + k) hm hc
          (isQueen_decides (x := x + k) (y := y - k) hm hc hnext)))
    have hhere : (Hit r c x y k ∨ ∃ k', k + 1 ≤ k' ∧ k' < n ∧ Hit r c x y (k' : Nat)) ↔
        ∃ k', k ≤ k' ∧ k' < n ∧ Hit r c x y (k' : Nat) := by
      constructor
      · rintro (hhit | ⟨k', hle, hlt, hhit⟩)
        · exact ⟨k, le_rfl, by omega, hhit⟩
        · exact ⟨k', by omega, hlt, hhit⟩
      · rintro ⟨k', hle, hlt, hhit⟩
        rcases Nat.eq_or_lt_of_le hle with rfl | hlt'
        · exact Or.inl hhit
        · exact Or.inr ⟨k', hlt', hlt, hhit⟩
    refine hloop.congr (Iff.trans ?_ hhere)
    unfold Hit
    simp only [or_assoc]

theorem on_row {x y : Nat} (h : On r c x y) : x < r ∧ y = c x := by
  obtain ⟨x₁, hlt, hx, hy⟩ := h
  obtain rfl := Int.natCast_inj.mp hx
  exact ⟨hlt, Int.natCast_inj.mp hy⟩

theorem solvedColumns_past {queens : Int} {ret next : Int → Code} (hm : Shows m s n r c)
    (hc : Fits n r c) (h : ∀ y' : Nat, y ≤ y' → ¬ On r c x y') :
    (solvedColumns s x n y queens ret next).run m = (next queens).run m := by
  induction hn : n - y generalizing y with
  | zero => rw [solvedColumns, if_neg (by omega)]
  | succ d ih =>
    rw [solvedColumns, if_pos (by omega)]
    obtain ⟨q, hrun, hq⟩ := @isQueen_run m s n r c x y _ hm hc
    have hfree : q = false := by
      rw [← Bool.not_eq_true, hq]
      exact h y le_rfl
    rw [hrun, hfree]
    exact ih (y := y + 1) (fun y' hle => h y' (by omega)) (by omega)

theorem solvedColumns_decides {queens : Int} {ret next : Int → Code} (hm : Shows m s n r c)
    (hc : Fits n r c) (hx : x < r) (hy : y ≤ c x) :
    Decides m (solvedColumns s x n y queens ret next) (ret (-1)) (next (queens + 1))
      (Struck n r c x) := by
  have hcolumn := hc.columns x hx
  induction hn : c x - y generalizing y with
  | zero =>
    obtain rfl : y = c x := by omega
    rw [solvedColumns, if_pos (by omega)]
    obtain ⟨q, hrun, hq⟩ := @isQueen_run m s n r c x (c x) _ hm hc
    have hqueen : q = true := hq.mpr ⟨x, hx, rfl, rfl⟩
    rw [Decides, hrun, hqueen]
    have hlook := @attacked_decides m s n r c 1 (ret (-1))
      (solvedColumns s x n (c x + 1) (queens + 1) ret next) x (c x) hm hc
    have hpast := @solvedColumns_past m s n r c x (c x + 1) (queens + 1) ret next hm hc
      fun y' hle hon => by have := (on_row hon).2; omega
    push_cast at hpast
    exact ⟨hlook.1, fun hnot => (hlook.2 hnot).trans hpast⟩
  | succ d ih =>
    rw [solvedColumns, if_pos (by omega)]
    obtain ⟨q, hrun, hq⟩ := @isQueen_run m s n r c x y _ hm hc
    have hfree : q = false := by
      rw [← Bool.not_eq_true, hq]
      intro hon
      have := (on_row hon).2
      omega
    rw [Decides, hrun, hfree]
    exact ih (y := y + 1) (by omega) (by omega)

theorem solvedRows_past {queens : Int} {ret : Int → Code} (hm : Shows m s n r c)
    (hc : Fits n r c) (hx : r ≤ x) : (solvedRows s n x queens ret).run m = (ret queens).run m := by
  induction hn : n - x generalizing x with
  | zero => rw [solvedRows, if_neg (by omega)]
  | succ d ih =>
    rw [solvedRows, if_pos (by omega)]
    have hrow := @solvedColumns_past m s n r c x 0 queens ret
      (fun queens => solvedRows s n (x + 1) queens ret) hm hc
      fun y' _ hon => by have := (on_row hon).1; omega
    exact hrow.trans (ih (x := x + 1) (by omega) (by omega))

theorem solvedRows_decides {queens : Int} {ret : Int → Code} (hm : Shows m s n r c)
    (hc : Fits n r c) (hx : x ≤ r) :
    Decides m (solvedRows s n x queens ret) (ret (-1)) (ret (queens + (r - x : Nat)))
      (∃ x', x ≤ x' ∧ x' < r ∧ Struck n r c x') := by
  induction hn : r - x generalizing x queens with
  | zero =>
    refine ⟨?_, fun _ => ?_⟩
    · rintro ⟨x', hle, hlt, -⟩
      omega
    · rw [solvedRows_past hm hc (by omega), Nat.cast_zero, add_zero]
  | succ d ih =>
    have hrows := hc.rows
    rw [solvedRows, if_pos (by omega)]
    have hrow := @solvedColumns_decides m s n r c x 0 queens ret
      (fun queens => solvedRows s n (x + 1) queens ret) hm hc (by omega) (Nat.zero_le _)
    have hnext := @ih (x + 1) (queens + 1) (by omega) (by omega)
    rw [show queens + 1 + (d : Nat) = queens + (d + 1 : Nat) by omega] at hnext
    constructor
    · rintro ⟨x', hle, hlt, hstruck⟩
      by_cases hhere : Struck n r c x
      · exact hrow.1 hhere
      · refine (hrow.2 hhere).trans (hnext.1 ⟨x', ?_, hlt, hstruck⟩)
        exact Nat.lt_of_le_of_ne hle fun heq => hhere (heq ▸ hstruck)
    · intro hnone
      refine (hrow.2 fun hhere => hnone ⟨x, le_rfl, by omega, hhere⟩).trans (hnext.2 ?_)
      rintro ⟨x', hle, hlt, hstruck⟩
      exact hnone ⟨x', by omega, hlt, hstruck⟩

theorem peaceful_iff (hc : Fits n r c) :
    Peaceful r c ↔ ¬ ∃ x, 0 ≤ x ∧ x < r ∧ Struck n r c x := by
  constructor
  · rintro hpeace ⟨x, -, hx, k, hk, -, hhit⟩
    have hmeets : ∀ y : Int, On r c (x + k) y → Attacks x (c x) (x + k : Nat) y → False := by
      rintro y ⟨x', hx', heq, rfl⟩ hattacks
      obtain rfl : x + k = x' := by omega
      exact hpeace x (x + k) (by omega) hx' hattacks
    rcases hhit with hon | ⟨x', -, heq, heq'⟩ | hon | hon
    · exact hmeets _ hon (Or.inr (Or.inl rfl))
    · obtain rfl : x = x' := Int.natCast_inj.mp heq
      omega
    · exact hmeets _ hon (Or.inr (Or.inr (Or.inl (by omega))))
    · exact hmeets _ hon (Or.inr (Or.inr (Or.inr (by omega))))
  · intro hnone x x' hlt hx' hattacks
    have hrows := hc.rows
    apply hnone
    refine ⟨x, Nat.zero_le x, by omega, x' - x, by omega, by omega, ?_⟩
    have hbehind : (x : Int) + (x' - x : Nat) = x' := by omega
    have hon : ∀ y : Int, y = c x' → On r c (x + (x' - x : Nat)) y :=
      fun y hy => ⟨x', hx', hbehind, hy⟩
    rcases hattacks with hrow | hcolumn | hfall | hrise
    · omega
    · exact Or.inl (hon _ hcolumn)
    · exact Or.inr (Or.inr (Or.inl (hon _ (by omega))))
    · exact Or.inr (Or.inr (Or.inr (hon _ (by omega))))

/-- `solved` counts the queens of a board on which none attacks another, and returns -1 for every
other board. -/
theorem solved_decides {ret : Int → Code} (hm : Shows m s n r c) (hc : Fits n r c) :
    Decides m (solved s n ret) (ret r) (ret (-1)) (Peaceful r c) := by
  have hrows := @solvedRows_decides m s n r c 0 0 ret hm hc (Nat.zero_le r)
  rw [Nat.sub_zero, zero_add] at hrows
  exact ⟨fun hpeace => hrows.2 ((peaceful_iff hc).mp hpeace),
    fun hnot => hrows.1 (not_not.mp fun hnone => hnot ((peaceful_iff hc).mpr hnone))⟩

end Solved

end ComputerSystems.Nqueens.Checking
