/- The N-queens solver on the pool, and the places that each of its tasks keeps to. -/

import ComputerSystems.Systems.ForkJoin
import Mathlib.Data.List.Infix
import Mathlib.Tactic.Linarith

set_option autoImplicit false
set_option relaxedAutoImplicit false

namespace ComputerSystems.Nqueens.Program

open ComputerSystems.Systems.ForkJoin

def maxN : Nat := 18

/-- The bits of a `long`. -/
abbrev wordBits : Nat := 64

def maxLongs : Nat := (maxN + wordBits - 1) / wordBits * maxN

/-- The way to a state: `boards[i]`, allocated for the state at `s`, is at `s ++ [i]`. -/
abbrev Path := List Int

/-- The fields of the states, and for each the local `slns` of its call and the result of its
future. -/
inductive Place where
  | bits (s : Path) (word : Fin maxLongs)
  | side (s : Path)
  | row (s : Path)
  | slns (s : Path)
  | result (s : Path)
deriving DecidableEq

def Place.path : Place → Path
  | bits s _ => s
  | side s => s
  | row s => s
  | slns s => s
  | result s => s

inductive Value where
  | int (k : Int)
  | long (b : BitVec wordBits)
deriving DecidableEq

abbrev Code := Prog Place Value

abbrev Store := Memory Place Value

def readInt (p : Place) (next : Int → Code) : Code :=
  .read p fun
    | .int k => next k
    | .long _ => .stuck

def readLong (p : Place) (next : BitVec wordBits → Code) : Code :=
  .read p fun
    | .int _ => .stuck
    | .long b => next b

def writeInt (p : Place) (k : Int) (next : Code) : Code := .write p (.int k) next

def writeLong (p : Place) (b : BitVec wordBits) (next : Code) : Code := .write p (.long b) next

section Boards

variable (s : Path)

/-- The word with the bit `idx`; there is none behind the end of the array. -/
def wordOf (idx : Int) (next : Fin maxLongs → Code) : Code :=
  if h : 0 ≤ idx ∧ idx.toNat / wordBits < maxLongs then next ⟨idx.toNat / wordBits, h.2⟩ else .stuck

/-- `1UL << (idx % WORD_BITS)` -/
def bitOf (idx : Int) : BitVec wordBits := 1#64 <<< (idx.toNat % wordBits)

def isQueen (x y side : Int) (next : Bool → Code) : Code :=
  if x < 0 ∨ x ≥ side ∨ y < 0 ∨ y ≥ side then next false
  else
    let idx := x * side + y
    wordOf idx fun word => readLong (.bits s word) fun b => next (b &&& bitOf idx == bitOf idx)

def setQueen (x y side : Int) (next : Code) : Code :=
  let idx := x * side + y
  wordOf idx fun word => readLong (.bits s word) fun b => writeLong (.bits s word) (b ||| bitOf idx) next

def unsetQueen (x y side : Int) (next : Code) : Code :=
  let idx := x * side + y
  wordOf idx fun word =>
    readLong (.bits s word) fun b => writeLong (.bits s word) (b &&& ~~~bitOf idx) next

/-- The loop over `k` in `solved`: `yes` returns from it, `no` comes behind the loop. -/
def attacked (x y side k : Int) (yes no : Code) : Code :=
  if k < side then
    isQueen s (x + k) y side fun q => if q then yes else
    isQueen s x (y + k) side fun q => if q then yes else
    isQueen s (x + k) (y + k) side fun q => if q then yes else
    isQueen s (x + k) (y - k) side fun q => if q then yes else attacked x y side (k + 1) yes no
  else no
termination_by (side - k).toNat

/-- The loop over `y` in `solved`; `ret` returns, `next` comes behind the loop. -/
def solvedColumns (x side y queens : Int) (ret next : Int → Code) : Code :=
  if y < side then
    isQueen s x y side fun q =>
      if q then
        attacked s x y side 1 (ret (-1)) (solvedColumns x side (y + 1) (queens + 1) ret next)
      else solvedColumns x side (y + 1) queens ret next
  else next queens
termination_by (side - y).toNat

def solvedRows (side x queens : Int) (ret : Int → Code) : Code :=
  if x < side then
    solvedColumns s x side 0 queens ret fun queens => solvedRows side (x + 1) queens ret
  else ret queens
termination_by (side - x).toNat

def solved (side : Int) (ret : Int → Code) : Code := solvedRows s side 0 0 ret

def copyWords (t : Path) : List (Fin maxLongs) → Code → Code
  | [], next => next
  | word :: words, next => .read (.bits s word) fun v => .write (.bits t word) v (copyWords t words next)

end Boards

section Calls

/-- A call on the state at a path, and what goes on with the number that it returns. -/
abbrev Call := Path → (BitVec wordBits → Code) → Code

variable (recur : Call) (s : Path) (side row : Int)

/-- The loop that copies and submits the boards, and the call on the last one behind it. A task runs
beside what comes after its submission. The calls of `future_get` stand one behind the other at the
end and are one join here. -/
def spawn (i : Int) : Code :=
  if i < side then
    writeInt (.side (s ++ [i])) side (writeInt (.row (s ++ [i])) (row + 1)
      (copyWords s (s ++ [i]) (List.finRange maxLongs) (setQueen (s ++ [i]) row i side
        (if i ≠ side - 1 then
          .fork (recur (s ++ [i]) fun r => writeLong (.result (s ++ [i])) r .done) (spawn (i + 1)) .done
        else spawn (i + 1)))))
  else recur (s ++ [side - 1]) fun r => writeLong (.slns s) r .done
termination_by (side - i).toNat

def gather (i : Int) (slns : BitVec wordBits) (next : BitVec wordBits → Code) : Code :=
  if i < side - 1 then readLong (.result (s ++ [i])) fun r => gather (i + 1) (slns + r) next
  else next slns
termination_by (side - 1 - i).toNat

/-- The loop that tries the columns in place, and the end of the call behind it. -/
def tryColumns (i : Int) (slns : BitVec wordBits) (next : BitVec wordBits → Code) : Code :=
  if i < side then
    readInt (.row s) fun row => setQueen s (row - 1) i side (recur s fun r =>
      readInt (.row s) fun row => unsetQueen s (row - 1) i side (tryColumns (i + 1) (slns + r) next))
  else readInt (.row s) fun row => writeInt (.row s) (row - 1) (next slns)
termination_by (side - i).toNat

/-- `depth` is `max_parallel_depth`. -/
def descend (depth : Int) (next : BitVec wordBits → Code) : Code :=
  if row < depth then
    (spawn recur s side row 0).andThen
      (readLong (.slns s) fun slns => gather s side 0 slns next)
  else writeInt (.row s) (row + 1) (tryColumns recur s side 0 0#64 next)

/-- The second and the third test of `backtrack`, and what it does when neither holds. -/
def prune (depth : Int) (next : BitVec wordBits → Code) : Code :=
  if row = side then next 0#64
  else
    solved s side fun queens =>
      if queens = -1 then next 0#64 else descend recur s side row depth next

end Calls

def backtrack (depth : Int) : Nat → Call
  | 0, _, _ => .stuck
  | fuel + 1, s, next =>
    readInt (.side s) fun side => readInt (.row s) fun row =>
      if side = row then
        solved s side fun queens =>
          if queens = side then next 1#64
          else prune (backtrack depth fuel) s side row depth next
      else prune (backtrack depth fuel) s side row depth next

def clearWords (s : Path) : List (Fin maxLongs) → Code → Code
  | [], next => next
  | word :: words, next => writeLong (.bits s word) 0#64 (clearWords s words next)

/-- The first task of `benchmark`; the caller waits for it. -/
def benchmark (depth : Int) (fuel : Nat) (side : Int) : Code :=
  clearWords [] (List.finRange maxLongs) (writeInt (.side []) side (writeInt (.row []) 0
    (.fork (backtrack depth fuel [] fun r => writeLong (.result []) r .done) .done .done)))

/-- What belongs to the state at `s` or to one allocated for it, at any depth. -/
def Under (s : Path) (p : Place) : Prop := s <+: p.path

/-- What a call touches from the submission of the board `i` on. -/
def Rest (s : Path) (i : Int) (p : Place) : Prop := Under s p ∧ ∀ j < i, ¬ Under (s ++ [j]) p

section Confinement

variable {s t : Path} {side row i k x y : Int} {R : Place → Prop} {recur : Call} {p : Place}

theorem under_child (h : Under (s ++ [i]) p) : Under s p := (List.prefix_append s [i]).trans h

theorem under_own (h : p.path = s) : Under s p := h ▸ List.prefix_refl _

theorem not_under_child (h : p.path = s) : ¬ Under (s ++ [i]) p := by
  intro hp
  have hlength := hp.length_le
  rw [h, List.length_append, List.length_singleton] at hlength
  omega

theorem under_apart {j : Int} (hij : i ≠ j) (h : Under (s ++ [i]) p) : ¬ Under (s ++ [j]) p := by
  intro h'
  have hprefixes := List.prefix_of_prefix_length_le h h' (by simp)
  have heq := hprefixes.eq_of_length (by simp)
  exact hij (List.singleton_inj.mp (List.append_cancel_left heq))

theorem rest_own (h : p.path = s) : Rest s i p := ⟨under_own h, fun _ _ => not_under_child h⟩

theorem rest_child (h : Under (s ++ [i]) p) : Rest s i p :=
  ⟨under_child h, fun _ hj => under_apart hj.ne' h⟩

theorem rest_mono {j : Int} (hij : i ≤ j) (h : Rest s j p) : Rest s i p :=
  ⟨h.1, fun k hk => h.2 k (hk.trans_le hij)⟩

theorem readInt_confined {next : Int → Code} (hp : R p) (h : ∀ k, Confined (next k) R) :
    Confined (readInt p next) R := by
  refine .read hp fun v => ?_
  cases v with
  | int k => exact h k
  | long b => exact .stuck

theorem readLong_confined {next : BitVec wordBits → Code} (hp : R p) (h : ∀ b, Confined (next b) R) :
    Confined (readLong p next) R := by
  refine .read hp fun v => ?_
  cases v with
  | int k => exact .stuck
  | long b => exact h b

theorem wordOf_confined {idx : Int} {next : Fin maxLongs → Code} (h : ∀ word, Confined (next word) R) :
    Confined (wordOf idx next) R := by
  unfold wordOf
  split
  · exact h _
  · exact .stuck

theorem isQueen_confined {next : Bool → Code} (hs : ∀ word, R (.bits s word))
    (h : ∀ q, Confined (next q) R) : Confined (isQueen s x y side next) R := by
  unfold isQueen
  split
  · exact h false
  · exact wordOf_confined fun word => readLong_confined (hs word) fun b => h _

theorem setQueen_confined {next : Code} (hs : ∀ word, R (.bits s word)) (h : Confined next R) :
    Confined (setQueen s x y side next) R := by
  unfold setQueen
  exact wordOf_confined fun word => readLong_confined (hs word) fun _ => .write (hs word) h

theorem unsetQueen_confined {next : Code} (hs : ∀ word, R (.bits s word)) (h : Confined next R) :
    Confined (unsetQueen s x y side next) R := by
  unfold unsetQueen
  exact wordOf_confined fun word => readLong_confined (hs word) fun _ => .write (hs word) h

theorem attacked_confined {yes no : Code} (hs : ∀ word, R (.bits s word)) (hyes : Confined yes R)
    (hno : Confined no R) : Confined (attacked s x y side k yes no) R := by
  induction hn : (side - k).toNat generalizing k with
  | zero =>
    rw [attacked, if_neg (by omega)]
    exact hno
  | succ n ih =>
    rw [attacked, if_pos (by omega)]
    have hnext : Confined (attacked s x y side (k + 1) yes no) R := ih (by omega)
    -- a square with a queen on it ends the loop
    have hstep {x y : Int} {next : Code} (h : Confined next R) :
        Confined (isQueen s x y side fun q => if q then yes else next) R := by
      refine isQueen_confined hs fun q => ?_
      cases q with
      | true => exact hyes
      | false => exact h
    exact hstep (hstep (hstep (hstep hnext)))

theorem solvedColumns_confined {queens : Int} {ret next : Int → Code} (hs : ∀ word, R (.bits s word))
    (hret : ∀ k, Confined (ret k) R) (hnext : ∀ k, Confined (next k) R) :
    Confined (solvedColumns s x side y queens ret next) R := by
  induction hn : (side - y).toNat generalizing y queens with
  | zero =>
    rw [solvedColumns, if_neg (by omega)]
    exact hnext queens
  | succ n ih =>
    rw [solvedColumns, if_pos (by omega)]
    refine isQueen_confined hs fun q => ?_
    cases q with
    | true => exact attacked_confined hs (hret _) (ih (by omega))
    | false => exact ih (by omega)

theorem solvedRows_confined {queens : Int} {ret : Int → Code} (hs : ∀ word, R (.bits s word))
    (hret : ∀ k, Confined (ret k) R) : Confined (solvedRows s side x queens ret) R := by
  induction hn : (side - x).toNat generalizing x queens with
  | zero =>
    rw [solvedRows, if_neg (by omega)]
    exact hret queens
  | succ n ih =>
    rw [solvedRows, if_pos (by omega)]
    exact solvedColumns_confined hs hret fun queens => ih (by omega)

theorem copyWords_confined {words : List (Fin maxLongs)} {next : Code} (hs : ∀ word, R (.bits s word))
    (ht : ∀ word, R (.bits t word)) (h : Confined next R) : Confined (copyWords s t words next) R := by
  induction words with
  | nil => exact h
  | cons word words ih => exact .read (hs word) fun _ => .write (ht word) ih

theorem clearWords_confined {words : List (Fin maxLongs)} {next : Code} (hs : ∀ word, R (.bits s word))
    (h : Confined next R) : Confined (clearWords s words next) R := by
  induction words with
  | nil => exact h
  | cons word words ih => exact .write (hs word) ih

def Local (recur : Call) : Prop :=
  ∀ (s : Path) (R : Place → Prop) (next : BitVec wordBits → Code), (∀ p, Under s p → R p) →
    (∀ r, Confined (next r) R) → Confined (recur s next) R

theorem spawn_confined (hrecur : Local recur) :
    Confined (spawn recur s side row i) (Rest s (min i (side - 1))) := by
  induction hn : (side - i).toNat generalizing i with
  | zero =>
    rw [spawn, if_neg (by omega), min_eq_right (by omega)]
    exact hrecur _ _ _ (fun p hp => rest_child hp) fun r => .write (rest_own rfl) .done
  | succ n ih =>
    have hrest := ih (i := i + 1) (by omega)
    rw [spawn, if_pos (by omega), min_eq_left (by omega)]
    have hchild : ∀ p : Place, p.path = s ++ [i] → Rest s i p :=
      fun p hp => rest_child (under_own hp)
    refine .write (hchild _ rfl) (.write (hchild _ rfl) (copyWords_confined ?_ ?_ ?_))
    · exact fun word => rest_own rfl
    · exact fun word => hchild _ rfl
    refine setQueen_confined (fun word => hchild _ rfl) ?_
    by_cases hlast : i = side - 1
    · rw [if_neg (not_not.mpr hlast)]
      rw [min_eq_right (by omega), ← hlast] at hrest
      exact hrest
    · rw [if_pos hlast]
      rw [min_eq_left (by omega)] at hrest
      have htask := hrecur (s ++ [i]) (Under (s ++ [i]))
        (fun r => writeLong (.result (s ++ [i])) r .done) (fun p hp => hp)
        fun r => .write (under_own rfl) .done
      refine .fork htask hrest ?_ ?_ ?_ .done
      · exact fun p hp hp' => hp'.2 i (by omega) hp
      · exact fun p hp => rest_child hp
      · exact fun p hp => rest_mono (by omega) hp

theorem gather_confined {slns : BitVec wordBits} {next : BitVec wordBits → Code}
    (hs : ∀ j, R (.result (s ++ [j]))) (h : ∀ r, Confined (next r) R) :
    Confined (gather s side i slns next) R := by
  induction hn : (side - 1 - i).toNat generalizing i slns with
  | zero =>
    rw [gather, if_neg (by omega)]
    exact h slns
  | succ n ih =>
    rw [gather, if_pos (by omega)]
    exact readLong_confined (hs i) fun r => ih (by omega)

theorem tryColumns_confined {slns : BitVec wordBits} {next : BitVec wordBits → Code}
    (hrecur : Local recur) (hR : ∀ p, Under s p → R p) (h : ∀ r, Confined (next r) R) :
    Confined (tryColumns recur s side i slns next) R := by
  have hown : ∀ p : Place, p.path = s → R p := fun p hp => hR p (under_own hp)
  induction hn : (side - i).toNat generalizing i slns with
  | zero =>
    rw [tryColumns, if_neg (by omega)]
    exact readInt_confined (hown _ rfl) fun row => .write (hown _ rfl) (h slns)
  | succ n ih =>
    rw [tryColumns, if_pos (by omega)]
    refine readInt_confined (hown _ rfl) fun row => setQueen_confined (fun word => hown _ rfl) ?_
    refine hrecur s R _ hR fun r => readInt_confined (hown _ rfl) fun row => ?_
    exact unsetQueen_confined (fun word => hown _ rfl) (ih (by omega))

theorem descend_confined {depth : Int} {next : BitVec wordBits → Code} (hrecur : Local recur)
    (hR : ∀ p, Under s p → R p) (h : ∀ r, Confined (next r) R) :
    Confined (descend recur s side row depth next) R := by
  unfold descend
  split
  · refine .andThen ((spawn_confined hrecur).mono fun p hp => hR p hp.1) ?_
    refine readLong_confined (hR _ (under_own rfl)) fun slns => gather_confined ?_ h
    exact fun j => hR _ (under_child (under_own rfl))
  · exact .write (hR _ (under_own rfl)) (tryColumns_confined hrecur hR h)

theorem prune_confined {depth : Int} {next : BitVec wordBits → Code} (hrecur : Local recur)
    (hR : ∀ p, Under s p → R p) (h : ∀ r, Confined (next r) R) :
    Confined (prune recur s side row depth next) R := by
  unfold prune
  split
  · exact h _
  refine solvedRows_confined (fun word => hR _ (under_own rfl)) fun queens => ?_
  split
  · exact h _
  · exact descend_confined hrecur hR h

theorem backtrack_local {depth : Int} {fuel : Nat} : Local (backtrack depth fuel) := by
  induction fuel with
  | zero =>
    intro s R next hR h
    exact .stuck
  | succ fuel ih =>
    intro s R next hR h
    have hown : ∀ p : Place, p.path = s → R p := fun p hp => hR p (under_own hp)
    refine readInt_confined (hown _ rfl) fun side => readInt_confined (hown _ rfl) fun row => ?_
    have hprune : Confined (prune (backtrack depth fuel) s side row depth next) R :=
      prune_confined ih hR h
    split
    · refine solvedRows_confined (fun word => hown _ rfl) fun queens => ?_
      split
      · exact h _
      · exact hprune
    · exact hprune

theorem benchmark_confined {depth : Int} {fuel : Nat} :
    Confined (benchmark depth fuel side) (Under []) := by
  have hunder : ∀ p, Under [] p := fun p => List.nil_prefix
  refine clearWords_confined (fun word => hunder _) (.write (hunder _) (.write (hunder _) ?_))
  have hlocal : Local (backtrack depth fuel) := backtrack_local
  have htask := hlocal [] (Under []) (fun r => writeLong (.result []) r .done) (fun p hp => hp)
    fun r => .write (hunder _) .done
  exact .fork htask (.done (R := fun _ => False)) (fun _ _ h => h) (fun p hp => hp)
    (fun p hp => hp.elim) .done

end Confinement

end ComputerSystems.Nqueens.Program
