/- The solver counts the placements of the queens, in every interleaving of its tasks. -/

import ComputerSystems.Nqueens.Checking
import Mathlib.Algebra.BigOperators.Intervals
import Mathlib.Data.BitVec

set_option autoImplicit false
set_option relaxedAutoImplicit false

namespace ComputerSystems.Nqueens.Solving

open ComputerSystems.Nqueens.Boards
open ComputerSystems.Nqueens.Checking
open ComputerSystems.Nqueens.Program
open ComputerSystems.Systems.ForkJoin

variable {m : Store} {s t : Path} {n r i : Nat} {c : Nat → Nat} {p : Place}

section Moves

/-- From `m` the piece of code comes to `m'`, whatever goes on behind it. -/
def Leads (m : Store) (code : Code → Code) (m' : Store) : Prop := ∀ next, (code next).run m = next.run m'

theorem fits_update (hc : Fits n r c) (hr : r < n) (hi : i < n) :
    Fits n (r + 1) (Function.update c r i) := by
  refine ⟨hc.side, hr, ?_⟩
  intro x hx
  by_cases heq : x = r
  · rw [heq, Function.update_self]
    exact hi
  · rw [Function.update_of_ne heq]
    exact hc.columns x (by omega)

theorem shows_congr {m' : Store} (h : ∀ word, m' (.bits s word) = m (.bits s word)) (hm : Shows m s n r c) :
    Shows m' s n r c := by
  intro word
  rw [h word]
  exact hm word

theorem exists_row_succ {idx : Nat} :
    (∃ x < r + 1, idx = x * n + Function.update c r i x) ↔
      (∃ x < r, idx = x * n + c x) ∨ idx = r * n + i := by
  constructor
  · rintro ⟨x, hx, hidx⟩
    by_cases heq : x = r
    · rw [heq, Function.update_self] at hidx
      exact Or.inr hidx
    · rw [Function.update_of_ne heq] at hidx
      exact Or.inl ⟨x, by omega, hidx⟩
  · rintro (⟨x, hx, hidx⟩ | hidx)
    · exact ⟨x, by omega, by rwa [Function.update_of_ne (by omega)]⟩
    · exact ⟨r, by omega, by rwa [Function.update_self]⟩

theorem index_eq {idx word j : Nat} (hj : j < wordBits) :
    word * wordBits + j = idx ↔ idx / wordBits = word ∧ j = idx % wordBits := by
  have hbits : wordBits = 64 := rfl
  rw [hbits] at hj ⊢
  omega

theorem shows_update {b : BitVec wordBits} {r' : Nat} {c' : Nat → Nat} {idx : Nat}
    (hidx : idx / wordBits < maxLongs) (hm : Shows m s n r c)
    (hb : ∀ j < wordBits, b.getLsbD j = true ↔ ∃ x < r', idx / wordBits * wordBits + j = x * n + c' x)
    (hothers : ∀ idx', idx' / wordBits ≠ idx / wordBits →
      ((∃ x < r, idx' = x * n + c x) ↔ ∃ x < r', idx' = x * n + c' x)) :
    Shows (Function.update m (.bits s ⟨idx / wordBits, hidx⟩) (.long b)) s n r' c' := by
  intro word
  by_cases heq : word = ⟨idx / wordBits, hidx⟩
  · subst heq
    exact ⟨b, Function.update_self _ _ _, hb⟩
  · obtain ⟨b', hb', hbits⟩ := hm word
    refine ⟨b', ?_, fun j hj => (hbits j hj).trans (hothers _ ?_)⟩
    · rw [Function.update_of_ne fun h => heq (Place.bits.inj h).2, hb']
    · intro hsame
      apply heq
      apply Fin.ext
      exact ((index_eq hj).mp rfl).1.symm.trans hsame

theorem bit_iff {j : Nat} (hj : j < wordBits) :
    decide (j = ((r : Int) * n + i).toNat % wordBits) = true ↔
      (r * n + i) / wordBits * wordBits + j = r * n + i := by
  have hidx : ((r : Int) * n + i).toNat = r * n + i := by
    rw [show ((r : Int) * n + i) = ((r * n + i : Nat) : Int) by push_cast; rfl, Int.toNat_natCast]
  rw [decide_eq_true_iff, hidx, index_eq hj]
  exact ⟨fun h => ⟨rfl, h⟩, fun h => h.2⟩

theorem setQueen_run (hm : Shows m s n r c) (hc : Fits n r c) (hr : r < n) (hi : i < n) :
    ∃ m', Leads m (setQueen s r i n) m' ∧ Shows m' s n (r + 1) (Function.update c r i) ∧
      ∀ p, (∀ word, p ≠ .bits s word) → m' p = m p := by
  have hword := word_lt hc.side hr hi
  obtain ⟨b, hb, hbits⟩ := hm ⟨(r * n + i) / wordBits, hword⟩
  refine ⟨Function.update m (.bits s ⟨(r * n + i) / wordBits, hword⟩) (.long (b ||| bitOf (r * n + i))),
    ?_, shows_update hword hm ?_ ?_, fun p hp => Function.update_of_ne (hp _) _ _⟩
  · intro next
    rw [setQueen, wordOf_run hc.side hr hi, readLong_run hb]
    rfl
  · intro j hj
    rw [BitVec.getLsbD_or, getLsbD_bitOf, Bool.or_eq_true, hbits j hj, exists_row_succ]
    rw [bit_iff hj]
  · intro idx' hne
    rw [exists_row_succ]
    refine ⟨Or.inl, fun h => h.resolve_right ?_⟩
    rintro rfl
    exact hne rfl

theorem unsetQueen_run (hm : Shows m s n (r + 1) (Function.update c r i)) (hc : Fits n r c) (hr : r < n)
    (hi : i < n) :
    ∃ m', Leads m (unsetQueen s r i n) m' ∧ Shows m' s n r c ∧
      ∀ p, (∀ word, p ≠ .bits s word) → m' p = m p := by
  have hword := word_lt hc.side hr hi
  obtain ⟨b, hb, hbits⟩ := hm ⟨(r * n + i) / wordBits, hword⟩
  refine ⟨Function.update m (.bits s ⟨(r * n + i) / wordBits, hword⟩) (.long (b &&& ~~~bitOf (r * n + i))),
    ?_, shows_update hword hm ?_ ?_, fun p hp => Function.update_of_ne (hp _) _ _⟩
  · intro next
    rw [unsetQueen, wordOf_run hc.side hr hi, readLong_run hb]
    rfl
  · intro j hj
    rw [BitVec.getLsbD_and, BitVec.getLsbD_not, getLsbD_bitOf, Bool.and_eq_true, hbits j hj,
      exists_row_succ, decide_eq_true hj, Bool.true_and, Bool.not_eq_true', ← Bool.not_eq_true,
      bit_iff hj]
    have hapart : ∀ x < r, x * n + c x ≠ r * n + i := fun x hx heq => by
      have := (index_inj (hc.columns x hx) hi heq).1
      omega
    constructor
    · rintro ⟨hold | hnew, hne⟩
      · exact hold
      · exact absurd hnew hne
    · rintro ⟨x, hx, hidx⟩
      exact ⟨Or.inl ⟨x, hx, hidx⟩, fun hnew => hapart x hx (hidx.symm.trans hnew)⟩
  · intro idx' hne
    rw [exists_row_succ]
    refine ⟨fun h => h.resolve_right ?_, Or.inl⟩
    rintro rfl
    exact hne rfl

theorem copyWords_run {words : List (Fin maxLongs)} (hst : s ≠ t) :
    ∃ m', Leads m (copyWords s t words) m' ∧ (∀ word ∈ words, m' (.bits t word) = m (.bits s word)) ∧
      ∀ p, (∀ word ∈ words, p ≠ .bits t word) → m' p = m p := by
  induction words generalizing m with
  | nil => exact ⟨m, fun next => rfl, fun word hword => absurd hword List.not_mem_nil, fun p _ => rfl⟩
  | cons word words ih =>
    obtain ⟨m', hrun, hcopied, hout⟩ :=
      @ih (Function.update m (.bits t word) (m (.bits s word)))
    have hsource : ∀ w, m (.bits s w) = Function.update m (.bits t word) (m (.bits s word)) (.bits s w) :=
      fun w => (Function.update_of_ne (fun h => hst (Place.bits.inj h).1) _ _).symm
    refine ⟨m', fun next => hrun next, ?_, ?_⟩
    · intro w hw
      by_cases hlater : w ∈ words
      · rw [hcopied w hlater, ← hsource]
      · obtain rfl : w = word := (List.mem_cons.mp hw).resolve_right hlater
        have hkept : ∀ w' ∈ words, Place.bits t w ≠ .bits t w' := by
          intro w' hw' h
          exact hlater ((Place.bits.inj h).2 ▸ hw')
        rw [hout _ hkept, Function.update_self]
    · intro p hp
      rw [hout p fun w hw => hp w (List.mem_cons_of_mem _ hw),
        Function.update_of_ne (hp word List.mem_cons_self)]

theorem clearWords_run {words : List (Fin maxLongs)} :
    ∃ m', Leads m (clearWords s words) m' ∧ (∀ word ∈ words, m' (.bits s word) = .long 0#64) ∧
      ∀ word, m (.bits s word) = .long 0#64 → m' (.bits s word) = .long 0#64 := by
  induction words generalizing m with
  | nil => exact ⟨m, fun next => rfl, fun word hword => absurd hword List.not_mem_nil, fun _ h => h⟩
  | cons word words ih =>
    obtain ⟨m', hrun, hcleared, hkept⟩ := @ih (Function.update m (.bits s word) (.long 0#64))
    refine ⟨m', fun next => hrun next, ?_, ?_⟩
    · intro w hw
      rcases List.mem_cons.mp hw with rfl | hlater
      · exact hkept w (Function.update_self _ _ _)
      · exact hcleared w hlater
    · intro w hw
      apply hkept w
      by_cases heq : w = word
      · rw [heq, Function.update_self]
      · rw [Function.update_of_ne fun h => heq (Place.bits.inj h).2, hw]

end Moves

section Calls

variable {recur : Call} {depth : Int}

theorem Leads.trans {f g : Code → Code} {m₁ m₂ : Store} (hf : Leads m f m₁) (hg : Leads m₁ g m₂) :
    Leads m (fun next => f (g next)) m₂ :=
  fun next => (hf (g next)).trans (hg next)

def answer (n r : Nat) (c : Nat → Nat) : BitVec wordBits :=
  BitVec.ofNat wordBits (completions n r c).card

/-- The call returns the number of placements that complete its board, leaves the board as it was
and changes nothing else. -/
def Solves (recur : Call) (n r : Nat) : Prop :=
  ∀ s c m, Fits n r c → Holds m s n r c →
    ∃ m', (∀ next, (recur s next).run m = (next (answer n r c)).run m') ∧ Holds m' s n r c ∧
      ∀ p, ¬ Under s p → m' p = m p

theorem holds_congr {m' : Store} (hm : Holds m s n r c) (h : ∀ p : Place, p.path = s →
    (∀ t, p ≠ .slns t) → m' p = m p) : Holds m' s n r c := by
  refine ⟨?_, ?_, shows_congr (fun word => h _ rfl fun t => Place.noConfusion) hm.shows⟩
  · rw [h _ rfl fun t => Place.noConfusion, hm.side]
  · rw [h _ rfl fun t => Place.noConfusion, hm.row]

theorem board_run (hm : Holds m s n r c) (hc : Fits n r c) (hr : r < n) (hi : i < n) :
    ∃ m', Leads m (fun next => writeInt (.side (s ++ [(i : Int)])) n
        (writeInt (.row (s ++ [(i : Int)])) (r + 1) (copyWords s (s ++ [(i : Int)])
          (List.finRange maxLongs) (setQueen (s ++ [(i : Int)]) r i n next)))) m' ∧
      Holds m' (s ++ [(i : Int)]) n (r + 1) (Function.update c r i) ∧
      ∀ p : Place, p.path ≠ s ++ [(i : Int)] → m' p = m p := by
  have hst : s ≠ s ++ [(i : Int)] := fun h => by simpa using congrArg List.length h
  generalize s ++ [(i : Int)] = t at hst ⊢
  obtain ⟨m₁, hfields, hside, hrow, hout⟩ : ∃ m₁,
      Leads m (fun next => writeInt (.side t) n (writeInt (.row t) (r + 1) next)) m₁ ∧
      m₁ (.side t) = .int n ∧ m₁ (.row t) = .int (r + 1 : Nat) ∧
      ∀ p : Place, p.path ≠ t → m₁ p = m p := by
    refine ⟨_, fun next => rfl, ?_, Function.update_self _ _ _, ?_⟩
    · rw [Function.update_of_ne (by simp), Function.update_self]
    · intro p hp
      have hrow : p ≠ .row t := fun h => hp (congrArg Place.path h)
      have hside : p ≠ .side t := fun h => hp (congrArg Place.path h)
      rw [Function.update_of_ne hrow, Function.update_of_ne hside]
  obtain ⟨m₂, hcopy, hcopied, hout₂⟩ := @copyWords_run m₁ s t (List.finRange maxLongs) hst
  have hshows : Shows m₂ t n r c := by
    intro word
    rw [hcopied word (List.mem_finRange word), hout (.bits s word) hst]
    exact hm.shows word
  obtain ⟨m₃, hset, hshows₃, hout₃⟩ := setQueen_run hshows hc hr hi
  refine ⟨m₃, hfields.trans (hcopy.trans hset), ⟨?_, ?_, hshows₃⟩, ?_⟩
  · rw [hout₃ _ fun word => Place.noConfusion, hout₂ _ fun word _ => Place.noConfusion, hside]
  · rw [hout₃ _ fun word => Place.noConfusion, hout₂ _ fun word _ => Place.noConfusion, hrow]
  · intro p hp
    have hbits : ∀ word, p ≠ .bits t word := fun word h => hp (congrArg Place.path h)
    rw [hout₃ p hbits, hout₂ p fun word _ => hbits word, hout p hp]

theorem task_run (hrecur : Solves recur n r) (hc : Fits n r c) (hm : Holds m s n r c) :
    ∃ m', ((recur s fun r => writeLong p r .done)).run m = some m' ∧
      m' p = .long (answer n r c) ∧ ∀ q, ¬ Under s q → q ≠ p → m' q = m q := by
  obtain ⟨m', hrun, -, hout⟩ := hrecur s c m hc hm
  refine ⟨_, (hrun _).trans rfl, Function.update_self _ _ _, ?_⟩
  intro q hq hqp
  rw [Function.update_of_ne hqp, hout q hq]

/-- The tasks from the one for the board `i` on leave their results. -/
theorem spawn_run (hrecur : Solves recur n (r + 1)) (hc : Fits n r c) (hm : Holds m s n r c)
    (hr : r < n) (hi : i < n) :
    ∃ m', (spawn recur s n r i).run m = some m' ∧
      (∀ j : Nat, i ≤ j → j + 1 < n → m' (.result (s ++ [(j : Int)])) =
        .long (answer n (r + 1) (Function.update c r j))) ∧
      m' (.slns s) = .long (answer n (r + 1) (Function.update c r (n - 1))) ∧
      ∀ p, p ≠ .slns s → (∀ j : Nat, i ≤ j → ¬ Under (s ++ [(j : Int)]) p) → m' p = m p := by
  induction hn : n - 1 - i generalizing i m with
  | zero =>
    obtain ⟨m₁, hboard, hholds, hout⟩ := board_run hm hc hr hi
    obtain ⟨m₂, hlast, hslns, hout₂⟩ := @task_run m₁ _ n (r + 1) _ (.slns s) recur hrecur
      (fits_update hc hr hi) hholds
    obtain rfl : i = n - 1 := by omega
    have hside : ((n : Int) - 1) = (n - 1 : Nat) := by omega
    refine ⟨m₂, ?_, ?_, hslns, ?_⟩
    · rw [spawn, if_pos (by omega)]
      refine (hboard _).trans ?_
      rw [if_neg (by omega), spawn, if_neg (by omega), hside]
      exact hlast
    · intro j hij hj
      omega
    · intro p hp hout'
      have hunder := hout' (n - 1) le_rfl
      rw [hout₂ p hunder hp, hout p fun hpath => hunder (under_own hpath)]
  | succ d ih =>
    obtain ⟨m₁, hboard, hholds, hout⟩ := board_run hm hc hr hi
    obtain ⟨m₂, htask, hresult, hout₂⟩ := @task_run m₁ _ n (r + 1) _ (.result (s ++ [(i : Int)])) recur
      hrecur (fits_update hc hr hi) hholds
    have hother : ∀ p, ¬ Under (s ++ [(i : Int)]) p → m₂ p = m p := by
      intro p hp
      rw [hout₂ p hp fun h => hp (h ▸ under_own rfl), hout p fun hpath => hp (under_own hpath)]
    have hm₂ : Holds m₂ s n r c := holds_congr hm fun p hp _ => hother p (not_under_child hp)
    obtain ⟨m₃, hrest, hresults, hslns, hout₃⟩ := ih (i := i + 1) hm₂ (by omega) (by omega)
    refine ⟨m₃, ?_, ?_, hslns, ?_⟩
    · rw [spawn, if_pos (by omega)]
      refine (hboard _).trans ?_
      rw [if_pos (by omega), run_fork_done, run_andThen, htask]
      exact hrest
    · intro j hij hj
      rcases Nat.eq_or_lt_of_le hij with rfl | hlt
      · rw [hout₃ _ Place.noConfusion fun j hj => under_apart (by omega) (under_own rfl), hresult]
      · exact hresults j hlt hj
    · intro p hp hout'
      rw [hout₃ p hp fun j hj => hout' j (by omega), hother p (hout' i le_rfl)]

theorem gather_run {g : Nat → BitVec wordBits} {slns : BitVec wordBits}
    {next : BitVec wordBits → Code}
    (h : ∀ j : Nat, i ≤ j → j + 1 < n → m (.result (s ++ [(j : Int)])) = .long (g j)) :
    (gather s n i slns next).run m = (next (slns + ∑ j ∈ Finset.Ico i (n - 1), g j)).run m := by
  induction hn : n - 1 - i generalizing i slns with
  | zero => rw [gather, if_neg (by omega), Finset.Ico_eq_empty (by omega), Finset.sum_empty, add_zero]
  | succ d ih =>
    rw [gather, if_pos (by omega), readLong_run (h i le_rfl (by omega)),
      Finset.sum_eq_sum_Ico_succ_bot (by omega), ← add_assoc]
    exact ih (i := i + 1) (fun j hij hj => h j (by omega) hj) (by omega)

theorem tryColumns_run {slns : BitVec wordBits} (hrecur : Solves recur n (r + 1)) (hc : Fits n r c)
    (hr : r < n) (hside : m (.side s) = .int n) (hrow : m (.row s) = .int (r + 1 : Nat))
    (hm : Shows m s n r c) :
    ∃ m', (∀ next, (tryColumns recur s n i slns next).run m =
        (next (slns + ∑ j ∈ Finset.Ico i n, answer n (r + 1) (Function.update c r j))).run m') ∧
      Holds m' s n r c ∧ ∀ p, ¬ Under s p → m' p = m p := by
  have hup : ((r + 1 : Nat) : Int) - 1 = r := by omega
  induction hn : n - i generalizing i slns m with
  | zero =>
    refine ⟨Function.update m (.row s) (.int r), ?_, ⟨?_, Function.update_self _ _ _, ?_⟩, ?_⟩
    · intro next
      rw [tryColumns, if_neg (by omega), readInt_run hrow, hup, Finset.Ico_eq_empty (by omega),
        Finset.sum_empty, add_zero]
      rfl
    · rw [Function.update_of_ne (by simp), hside]
    · exact shows_congr (fun word => Function.update_of_ne (by simp) _ _) hm
    · intro p hp
      have hrow : p ≠ .row s := fun h => hp (h ▸ under_own rfl)
      exact Function.update_of_ne hrow _ _
  | succ d ih =>
    have hi : i < n := by omega
    obtain ⟨m₁, hset, hshows₁, hout₁⟩ := setQueen_run hm hc hr hi
    have hm₁ : Holds m₁ s n (r + 1) (Function.update c r i) := by
      refine ⟨?_, ?_, hshows₁⟩
      · rw [hout₁ _ fun word => Place.noConfusion, hside]
      · rw [hout₁ _ fun word => Place.noConfusion, hrow]
    obtain ⟨m₂, hcall, hm₂, hout₂⟩ := hrecur s _ m₁ (fits_update hc hr hi) hm₁
    obtain ⟨m₃, hunset, hshows₃, hout₃⟩ := unsetQueen_run hm₂.shows hc hr hi
    have hside₃ : m₃ (.side s) = .int n := by
      rw [hout₃ _ fun word => Place.noConfusion, hm₂.side]
    have hrow₃ : m₃ (.row s) = .int (r + 1 : Nat) := by
      rw [hout₃ _ fun word => Place.noConfusion, hm₂.row]
    obtain ⟨m', hrest, hm', hout'⟩ := @ih m₃ (i + 1)
      (slns + answer n (r + 1) (Function.update c r i)) hside₃ hrow₃ hshows₃ (by omega)
    refine ⟨m', ?_, hm', ?_⟩
    · intro next
      rw [tryColumns, if_pos (by omega), readInt_run hrow, hup, hset, hcall, readInt_run hm₂.row, hup,
        hunset, Finset.sum_eq_sum_Ico_succ_bot hi, ← add_assoc]
      exact hrest next
    · intro p hp
      have hbits : ∀ word, p ≠ .bits s word := fun word h => hp (h ▸ under_own rfl)
      rw [hout' p hp, hout₃ p hbits, hout₂ p hp, hout₁ p hbits]

theorem answer_step (hr : r < n) :
    answer n r c = ∑ j ∈ Finset.range n, answer n (r + 1) (Function.update c r j) := by
  unfold answer
  rw [completions_step hr, ← BitVec.natCast_eq_ofNat, Nat.cast_sum]
  rfl

theorem descend_run (hrecur : Solves recur n (r + 1)) (hc : Fits n r c) (hr : r < n)
    (hm : Holds m s n r c) :
    ∃ m', (∀ next, (descend recur s n r depth next).run m = (next (answer n r c)).run m') ∧
      Holds m' s n r c ∧ ∀ p, ¬ Under s p → m' p = m p := by
  unfold descend
  split
  · obtain ⟨m', hspawn, hresults, hslns, hout⟩ := @spawn_run m s n r 0 c recur hrecur hc hm hr
      (by omega)
    refine ⟨m', ?_, ?_, ?_⟩
    · intro next
      have hgather := @gather_run m' s n 0 _ (answer n (r + 1) (Function.update c r (n - 1))) next
        hresults
      rw [Nat.cast_zero] at hspawn hgather
      have hlast := Finset.sum_range_succ_comm
        (fun j => answer n (r + 1) (Function.update c r j)) (n - 1)
      rw [Nat.sub_add_cancel (by omega)] at hlast
      rw [run_andThen, hspawn, Option.bind_some, readLong_run hslns, hgather, answer_step hr,
        ← Finset.range_eq_Ico, hlast]
    · exact holds_congr hm fun p hp hslns => hout p (hslns s) fun j _ => not_under_child hp
    · intro p hp
      exact hout p (fun h => hp (h ▸ under_own rfl)) fun j _ hj => hp (under_child hj)
  · have hside : Function.update m (.row s) (.int (r + 1 : Nat)) (.side s) = .int n := by
      rw [Function.update_of_ne (by simp), hm.side]
    have hshows : Shows (Function.update m (.row s) (.int (r + 1 : Nat))) s n r c :=
      shows_congr (fun word => Function.update_of_ne (by simp) _ _) hm.shows
    obtain ⟨m', hrun, hm', hout⟩ := @tryColumns_run _ s n r 0 c recur 0#64 hrecur hc hr hside
      (Function.update_self _ _ _) hshows
    refine ⟨m', ?_, hm', ?_⟩
    · intro next
      refine (hrun next).trans ?_
      rw [answer_step hr, ← Finset.range_eq_Ico, BitVec.zero_add]
    · intro p hp
      have hrow : p ≠ .row s := fun h => hp (h ▸ under_own rfl)
      rw [hout p hp, Function.update_of_ne hrow]

theorem backtrack_solves {fuel : Nat} (hfuel : n - r < fuel) : Solves (backtrack depth fuel) n r := by
  induction fuel generalizing r with
  | zero => omega
  | succ fuel ih =>
    intro s c m hc hm
    have hrows := hc.rows
    have hsolved : ∀ ret, Decides m (solved s n ret) (ret r) (ret (-1)) (Peaceful r c) :=
      fun ret => solved_decides hm.shows hc
    by_cases hpeace : Peaceful r c
    · by_cases hfull : r = n
      · subst hfull
        have hone : answer r r c = 1#64 := by rw [answer, completions_full hc.columns hpeace]
        refine ⟨m, ?_, hm, fun p _ => rfl⟩
        intro next
        rw [backtrack, readInt_run hm.side, readInt_run hm.row, if_pos rfl, (hsolved _).1 hpeace,
          if_pos rfl, hone]
      · have hr : r < n := by omega
        obtain ⟨m', hrun, hm', hout⟩ := @descend_run m s n r c (backtrack depth fuel) depth
          (ih (by omega)) hc hr hm
        refine ⟨m', ?_, hm', hout⟩
        intro next
        rw [backtrack, readInt_run hm.side, readInt_run hm.row, if_neg (by omega), prune,
          if_neg (by omega), (hsolved _).1 hpeace, if_neg (by omega)]
        exact hrun next
    · have hnone : answer n r c = 0#64 := by
        rw [answer, completions_of_not_peaceful hrows hpeace, Finset.card_empty]
      have hprune : ∀ next, (prune (backtrack depth fuel) s n r depth next).run m = (next 0#64).run m := by
        intro next
        unfold prune
        split
        · rfl
        · rw [(hsolved _).2 hpeace, if_pos rfl]
      refine ⟨m, ?_, hm, fun p _ => rfl⟩
      intro next
      rw [backtrack, readInt_run hm.side, readInt_run hm.row, hnone]
      split
      · rw [(hsolved _).2 hpeace, if_neg (by omega), hprune]
      · exact hprune next

end Calls

section Results

theorem start_run : ∃ m', Leads m (fun next => clearWords [] (List.finRange maxLongs)
      (writeInt (.side []) n (writeInt (.row []) 0 next))) m' ∧ Holds m' [] n 0 fun _ => 0 := by
  obtain ⟨m₁, hclear, hcleared, -⟩ := @clearWords_run m [] (List.finRange maxLongs)
  refine ⟨Function.update (Function.update m₁ (.side []) (.int n)) (.row []) (.int 0),
    fun next => hclear _, ?_, Function.update_self _ _ _, ?_⟩
  · rw [Function.update_of_ne (by simp), Function.update_self]
  · intro word
    refine ⟨0#64, ?_, ?_⟩
    · rw [Function.update_of_ne (by simp), Function.update_of_ne (by simp),
        hcleared word (List.mem_finRange word)]
    · intro j hj
      constructor
      · intro h
        simp at h
      · rintro ⟨x, hx, -⟩
        omega

theorem factorial_lt (hn : n ≤ maxN) : n.factorial < 2 ^ 63 :=
  (Nat.factorial_le hn).trans_lt (by decide)

/-- Whatever the depth and the order in which the tasks take their steps, on every board that the
solver accepts it comes to an end with the number of ways to place the queens, which fits a `long`.
Tasks that may run at the same time touch no common place. -/
theorem benchmark_counts (depth : Int) (fuel n : Nat) (m : Store) (hn : n ≤ maxN) (hfuel : n < fuel) :
    Ends (benchmark depth fuel n) m (fun m' => ∃ b, m' (.result []) = .long b ∧
      b.toInt = (solutions n).card) ∧
    ∀ x m' y z, Runs (benchmark depth fuel n, m) (x, m') → Beside x y z →
      ∀ p, y.Touches p → ¬ z.Touches p := by
  have hconfined : Confined (benchmark depth fuel n) (Under []) := benchmark_confined
  refine ⟨(ends_iff hconfined.separate).mpr ?_, fun x m' y z hruns hbeside p hy =>
    Runs.apart hruns hconfined.separate hbeside hy⟩
  obtain ⟨m₁, hclear, hholds⟩ := @start_run m n
  have hsolves : Solves (backtrack depth fuel) n 0 := backtrack_solves hfuel
  obtain ⟨m₂, htask, hresult, -⟩ := @task_run m₁ [] n 0 (fun _ => 0) (.result []) _ hsolves
    ⟨hn, Nat.zero_le n, fun x hx => absurd hx (Nat.not_lt_zero x)⟩ hholds
  refine ⟨m₂, ?_, _, hresult, ?_⟩
  · refine (hclear _).trans ?_
    rw [run_fork_done, run_andThen, htask]
    rfl
  · have hle : (completions n 0 fun _ => 0).card < 2 ^ 63 :=
      completions_card_le.trans_lt (factorial_lt hn)
    have hbits : 2 ^ wordBits = 2 * 2 ^ 63 := rfl
    have hnat : (answer n 0 fun _ => 0).toNat = (completions n 0 fun _ => 0).card := by
      rw [answer, BitVec.toNat_ofNat, Nat.mod_eq_of_lt (by omega)]
    rw [card_solutions fun _ => 0, BitVec.toInt_eq_toNat_of_lt (by omega), hnat]

theorem benchmark_counts_eight :
    Ends (benchmark 6 9 (8 : Nat)) (fun _ => .int 0) (fun m' => ∃ b, m' (.result []) = .long b ∧
      b.toInt = (solutions 8).card) ∧
    ∀ x m' y z, Runs (benchmark 6 9 (8 : Nat), fun _ => .int 0) (x, m') → Beside x y z →
      ∀ p, y.Touches p → ¬ z.Touches p :=
  benchmark_counts 6 9 8 (fun _ => .int 0) (by decide) (by decide)

end Results

end ComputerSystems.Nqueens.Solving
