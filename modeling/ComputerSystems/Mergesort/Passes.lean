/- What insertion sort and one merge make of a stretch of the array. -/

import ComputerSystems.Memory.Segments
import ComputerSystems.Mergesort.Program
import Mathlib.Data.List.Sort

set_option autoImplicit false
set_option relaxedAutoImplicit false

namespace ComputerSystems.Mergesort.Passes

open ComputerSystems.Memory.Segments
open ComputerSystems.Mergesort.Program
open ComputerSystems.Systems.ForkJoin

/-- The array from `l` to `r`. -/
def contents (m : Store) (l r : Int) : List Int := segment (fun i => m (.array i)) l r

/-- The temporary array from `l` to `r`. -/
def saved (m : Store) (l r : Int) : List Int := segment (fun i => m (.tmp i)) l r

/-- A sorted permutation of what was at `l..r`. -/
def Sorted (m : Store) (l r : Int) (n : Store) : Prop :=
  (contents n l r).Pairwise (· ≤ ·) ∧ (contents n l r).Perm (contents m l r)

variable {m n : Store} {lo hi t i j k b bstart left mid right : Int}

theorem contents_congr {l r : Int} (h : ∀ i, l ≤ i → i ≤ r → m (.array i) = n (.array i)) :
    contents m l r = contents n l r :=
  segment_congr h

theorem saved_congr {l r : Int} (h : ∀ i, l ≤ i → i ≤ r → m (.tmp i) = n (.tmp i)) :
    saved m l r = saved n l r :=
  segment_congr h

theorem tmp_ne : Place.tmp i ≠ .array j := Place.noConfusion

theorem array_ne (h : i ≠ j) : Place.array i ≠ .array j := fun heq => h (Place.array.inj heq)

theorem insertLoop_run (h : lo ≤ j) :
    ∃ n, (insertLoop lo t j).run m = some n ∧
      (contents n lo j).reverse = (contents m lo (j - 1)).reverse.orderedInsert (· ≥ ·) t := by
  induction j, h using Int.leInduction generalizing m with
  | base =>
    rw [insertLoop, dif_neg (lt_irrefl lo)]
    refine ⟨_, rfl, ?_⟩
    rw [contents, contents, segment_single, segment_nil (by omega), Function.update_self]
    rfl
  | succ j hj ih =>
    rw [insertLoop, dif_pos (by omega)]
    simp only [Prog.run, Int.add_sub_cancel]
    have hbefore : (contents m lo j).reverse = m (.array j) :: (contents m lo (j - 1)).reverse := by
      rw [contents, segment_concat hj, List.reverse_concat]
      rfl
    rw [hbefore, List.orderedInsert_cons]
    split_ifs with hlt hge hge
    · omega
    · -- the greater value moves up, and the rest of the loop leaves it there
      let m₁ : Store := Function.update m (.array (j + 1)) (m (.array j))
      obtain ⟨n, hrun, hn⟩ := ih (m := m₁)
      refine ⟨n, hrun, ?_⟩
      have hkept : n (.array (j + 1)) = m (.array j) := by
        have hconfined : Confined (insertLoop lo t j) (Cells lo j 0 0) :=
          insertLoop_confined hj le_rfl
        rw [hconfined.run_outside (fun h => by have := h.2; omega) hrun]
        exact Function.update_self ..
      have hsame : contents m₁ lo (j - 1) = contents m lo (j - 1) :=
        contents_congr fun i _ hi => Function.update_of_ne (array_ne (by omega)) ..
      rw [contents, segment_concat (by omega), List.reverse_concat, hkept, Int.add_sub_cancel,
        ← hsame, ← hn]
      rfl
    · refine ⟨_, rfl, ?_⟩
      have hsame : contents (Function.update m (.array (j + 1)) t) lo j = contents m lo j :=
        contents_congr fun i _ hi => Function.update_of_ne (array_ne (by omega)) ..
      rw [contents, segment_concat (by omega), List.reverse_concat, Function.update_self,
        Int.add_sub_cancel, ← hbefore, ← hsame]
      rfl
    · omega

/-- What is before `i` is sorted, and each further value is inserted into it. -/
theorem insertionsortLoop_run {vs : List Int} (hi' : lo ≤ i) (hi'' : i ≤ hi + 1)
    (hvs : (contents m lo (i - 1)).reverse = vs.insertionSort (· ≥ ·)) :
    ∃ n, (insertionsortLoop lo hi i).run m = some n ∧
      (contents n lo hi).reverse =
        ((contents m i hi).reverse ++ vs).insertionSort (· ≥ ·) := by
  induction hn : (hi + 1 - i).toNat generalizing i m vs with
  | zero =>
    have hend : hi = i - 1 := by omega
    rw [insertionsortLoop, dif_neg (by omega)]
    refine ⟨m, rfl, ?_⟩
    rw [hend, hvs, contents, segment_nil (by omega)]
    rfl
  | succ c ih =>
    rw [insertionsortLoop, dif_pos (by omega)]
    obtain ⟨m₁, hrun, hm₁⟩ := insertLoop_run (m := m) (t := m (.array i)) hi'
    have hnext : (contents m₁ lo (i + 1 - 1)).reverse =
        (m (.array i) :: vs).insertionSort (· ≥ ·) := by
      rw [Int.add_sub_cancel, hm₁, hvs]
      rfl
    obtain ⟨n, hrest, hn⟩ := ih (by omega) (by omega) hnext (by omega)
    refine ⟨n, ?_, ?_⟩
    · rw [Prog.run, run_andThen, hrun]
      exact hrest
    · have hsame : contents m₁ (i + 1) hi = contents m (i + 1) hi := by
        apply contents_congr
        intro i' hi' _
        have hconfined : Confined (insertLoop lo (m (.array i)) i) (Cells lo i 0 0) :=
          insertLoop_confined (by omega) le_rfl
        exact hconfined.run_outside (fun h => by have := h.2; omega) hrun
      have hfirst : contents m i hi = m (.array i) :: contents m (i + 1) hi :=
        segment_cons (by omega)
      rw [hn, hsame, hfirst, List.reverse_cons, List.append_assoc]
      rfl

theorem insertionsort_run :
    ∃ n, (insertionsort lo hi).run m = some n ∧
      (contents n lo hi).reverse = (contents m lo hi).reverse.insertionSort (· ≥ ·) := by
  rcases lt_or_ge hi lo with hlt | hle
  · rw [insertionsort_done (by omega)]
    refine ⟨m, rfl, ?_⟩
    rw [contents, segment_nil hlt]
    rfl
  · have hfirst : contents m lo hi = m (.array lo) :: contents m (lo + 1) hi := segment_cons hle
    have hvs : (contents m lo (lo + 1 - 1)).reverse = [m (.array lo)].insertionSort (· ≥ ·) := by
      rw [Int.add_sub_cancel, contents, segment_single]
      rfl
    obtain ⟨n, hrun, hn⟩ := insertionsortLoop_run (by omega) (by omega : lo + 1 ≤ hi + 1) hvs
    exact ⟨n, hrun, by rw [hn, hfirst, List.reverse_cons]⟩

theorem insertionsort_sorts : ∃ n, (insertionsort lo hi).run m = some n ∧ Sorted m lo hi n := by
  have hpass : ∃ n, (insertionsort lo hi).run m = some n ∧ _ := insertionsort_run
  obtain ⟨n, hrun, hn⟩ := hpass
  refine ⟨n, hrun, ?_, ?_⟩
  · rw [← List.pairwise_reverse, hn]
    exact List.pairwise_insertionSort (· ≥ ·) _
  · have hperm := List.perm_insertionSort (· ≥ ·) (contents m lo hi).reverse
    rw [← hn] at hperm
    exact (List.reverse_perm _).symm.trans (hperm.trans (List.reverse_perm _))

/-- The order of the two runs is that of the comparison: an element of the right run goes first
when the two are equal. -/
def merged (ls rs : List Int) : List Int := rs.merge ls fun x y => decide (x ≤ y)

theorem memcpy_run {dst src : Int → Place} {d s : Int} {c : Nat} (hdst : ∀ i j, dst i = dst j → i = j)
    (hapart : ∀ i j, src i ≠ dst j) :
    ∃ n, (memcpy dst src d s c).run m = some n ∧
      segment (fun i => n (dst i)) d (d + c - 1) = segment (fun i => m (src i)) s (s + c - 1) := by
  induction c generalizing d s m with
  | zero =>
    refine ⟨m, rfl, ?_⟩
    rw [segment_nil (by omega), segment_nil (by omega)]
  | succ c ih =>
    let m₁ : Store := Function.update m (dst d) (m (src s))
    obtain ⟨n, hrun, hn⟩ := ih (m := m₁) (d := d + 1) (s := s + 1)
    refine ⟨n, hrun, ?_⟩
    have hkept : n (dst d) = m (src s) := by
      have hconfined : Confined (memcpy dst src (d + 1) (s + 1) c) fun p => p ≠ dst d :=
        memcpy_confined (fun i hi _ heq => by have := hdst i d heq; omega)
          fun i _ _ => hapart i d
      rw [hconfined.run_outside (fun h => h rfl) hrun]
      exact Function.update_self ..
    have hsame : segment (fun i => m₁ (src i)) (s + 1) (s + 1 + c - 1) =
        segment (fun i => m (src i)) (s + 1) (s + 1 + c - 1) :=
      segment_congr fun i _ _ => Function.update_of_ne (hapart i d) ..
    have hd : d + (c + 1 : Nat) - 1 = d + 1 + c - 1 := by omega
    have hs : s + (c + 1 : Nat) - 1 = s + 1 + c - 1 := by omega
    rw [hd, hs, segment_cons (by omega), hkept, hn, hsame]
    have hfirst : s ≤ s + 1 + c - 1 := by omega
    exact (segment_cons (f := fun i => m (src i)) hfirst).symm

theorem merged_cons {x y : Int} {ls rs : List Int} : merged (x :: ls) (y :: rs) =
    if x < y then x :: merged ls (y :: rs) else y :: merged (x :: ls) rs := by
  rw [merged, List.cons_merge_cons]
  by_cases hlt : x < y
  · rw [if_pos hlt, if_neg (by simpa using hlt)]
    rfl
  · rw [if_neg hlt, if_pos (by simpa using hlt)]
    rfl

/-- One of the two runs is at its end: what is left of the other is in its place already, or is
copied there. -/
theorem copyRest_run (hkj : k ≤ j) (hend : k = j ∨ j = right + 1) :
    ∃ n, (memcpy .array .tmp k i (j - k).toNat).run m = some n ∧
      contents n k right = merged (saved m i (i + (j - k) - 1)) (contents m j right) := by
  rcases hend with rfl | rfl
  · rw [Int.sub_self, saved, segment_nil (by omega)]
    exact ⟨m, rfl, (List.merge_right _).symm⟩
  · obtain ⟨n, hrun, hn⟩ := memcpy_run (m := m) (d := k) (s := i) (c := (right + 1 - k).toNat)
      (fun i j => Place.array.inj) fun i j => tmp_ne
    have hright : k + (right + 1 - k).toNat - 1 = right := by omega
    have hlength : ((right + 1 - k).toNat : Int) = right + 1 - k := by omega
    rw [hright, hlength] at hn
    refine ⟨n, hrun, hn.trans ?_⟩
    have hnone : contents m (right + 1) right = [] := segment_nil (by omega)
    rw [merged, hnone, List.nil_merge]
    rfl

theorem mergeLoop_kept (hkj : k < j) (hj : j ≤ right + 1)
    (hrun : (mergeLoop b right i j (k + 1)).run m = some n) : n (.array k) = m (.array k) := by
  have hconfined : Confined (mergeLoop b right i j (k + 1))
      (Cells (k + 1) right (b + i) (b + i + (j - (k + 1)))) :=
    mergeLoop_confined le_rfl hkj hj le_rfl (by omega)
  exact hconfined.run_outside (fun h => by have := h.1; omega) hrun

/-- What is left of the two runs is merged into the stretch from `k` on. -/
theorem mergeLoop_run (hkj : k ≤ j) (hj : j ≤ right + 1) :
    ∃ n, (mergeLoop b right i j k).run m = some n ∧
      contents n k right =
        merged (saved m (b + i) (b + i + (j - k) - 1)) (contents m j right) := by
  induction hc : (right + 1 - k).toNat generalizing i j k m with
  | zero =>
    rw [mergeLoop, dif_neg (by omega)]
    exact copyRest_run hkj (by omega)
  | succ c ih =>
    rw [mergeLoop]
    split_ifs with hloop
    · obtain ⟨hlt, hle⟩ := hloop
      have hsaved : saved m (b + i) (b + i + (j - k) - 1) =
          m (.tmp (b + i)) :: saved m (b + i + 1) (b + i + (j - k) - 1) := segment_cons (by omega)
      have hcontents : contents m j right = m (.array j) :: contents m (j + 1) right :=
        segment_cons hle
      have hfirst : ∀ n, contents n k right = n (.array k) :: contents n (k + 1) right :=
        fun n => segment_cons (by omega)
      -- writing at `k` changes nothing of what is left of the runs
      have hsaved' : ∀ v l r, saved (Function.update m (.array k) v) l r = saved m l r :=
        fun v l r => saved_congr fun i _ _ => Function.update_of_ne tmp_ne ..
      have hcontents' : ∀ v l, k < l →
          contents (Function.update m (.array k) v) l right = contents m l right :=
        fun v l hl => contents_congr fun i _ _ =>
          Function.update_of_ne (array_ne (by omega)) ..
      simp only [Prog.run]
      rw [hsaved, hcontents, merged_cons]
      split_ifs with hcompare
      · obtain ⟨n, hrun, hn⟩ := ih (m := Function.update m (.array k) (m (.tmp (b + i))))
          (i := i + 1) (by omega : k + 1 ≤ j) hj (by omega)
        refine ⟨n, hrun, ?_⟩
        have hi : b + (i + 1) + (j - (k + 1)) - 1 = b + i + (j - k) - 1 := by omega
        rw [hfirst, mergeLoop_kept hlt hj hrun, Function.update_self, hn, hsaved',
          hcontents' _ _ hlt, hi, ← hcontents, Int.add_assoc b i 1]
      · obtain ⟨n, hrun, hn⟩ := ih (m := Function.update m (.array k) (m (.array j)))
          (i := i) (by omega : k + 1 ≤ j + 1) (by omega) (by omega)
        refine ⟨n, hrun, ?_⟩
        have hi : b + i + (j + 1 - (k + 1)) - 1 = b + i + (j - k) - 1 := by omega
        rw [hfirst, mergeLoop_kept (by omega) (by omega) hrun, Function.update_self, hn, hsaved',
          hcontents' _ _ (by omega), hi, ← hsaved]
    · exact copyRest_run hkj (by omega)

theorem merge_run (hl : left ≤ mid) (hr : mid + 1 ≤ right) :
    ∃ n, (merge b bstart left mid right).run m = some n ∧ contents n left right =
      if m (.array mid) ≤ m (.array (mid + 1)) then contents m left right
      else merged (contents m left mid) (contents m (mid + 1) right) := by
  rw [merge]
  simp only [Prog.run]
  split_ifs with hle
  · exact ⟨m, rfl, rfl⟩
  · obtain ⟨m₁, hcopy, hm₁⟩ := memcpy_run (m := m) (d := b + bstart) (s := left)
      (c := (mid - left + 1).toNat) (fun i j => Place.tmp.inj) fun i j => tmp_ne.symm
    have hloop : ∃ n, (mergeLoop b right bstart (mid + 1) left).run m₁ = some n ∧ _ :=
      mergeLoop_run (by omega) (by omega)
    obtain ⟨n, hrun, hn⟩ := hloop
    refine ⟨n, ?_, ?_⟩
    · rw [run_andThen, hcopy]
      exact hrun
    · have hlength : b + bstart + (mid - left + 1).toNat - 1 =
          b + bstart + (mid + 1 - left) - 1 := by omega
      have hmid : left + (mid - left + 1).toNat - 1 = mid := by omega
      rw [hlength, hmid] at hm₁
      have hsame : contents m₁ (mid + 1) right = contents m (mid + 1) right := by
        apply contents_congr
        intro i hi _
        have hconfined : Confined (memcpy .tmp .array (b + bstart) left (mid - left + 1).toNat)
            fun p => p ≠ .array i :=
          memcpy_confined (fun _ _ _ => tmp_ne)
            fun i' _ hi' => array_ne (by omega)
        exact hconfined.run_outside (fun h => h rfl) hcopy
      rw [hn, hsame]
      exact congrArg (merged · _) hm₁

theorem merge_sorts (hl : left ≤ mid) (hr : mid + 1 ≤ right)
    (hleft : (contents m left mid).Pairwise (· ≤ ·))
    (hright : (contents m (mid + 1) right).Pairwise (· ≤ ·)) :
    ∃ n, (merge b bstart left mid right).run m = some n ∧ Sorted m left right n := by
  have hmerge : ∃ n, (merge b bstart left mid right).run m = some n ∧ _ := merge_run hl hr
  obtain ⟨n, hrun, hn⟩ := hmerge
  have hsplit : contents m left right = contents m left mid ++ contents m (mid + 1) right :=
    segment_split (by omega) (by omega)
  refine ⟨n, hrun, ?_⟩
  rw [Sorted, hn]
  split_ifs with hle
  · refine ⟨?_, List.Perm.refl _⟩
    rw [hsplit, List.pairwise_append]
    refine ⟨hleft, hright, ?_⟩
    intro x hx y hy
    obtain ⟨i, hli, him, rfl⟩ := mem_segment.mp hx
    obtain ⟨j, hmj, hjr, rfl⟩ := mem_segment.mp hy
    have hlast : m (.array i) ≤ m (.array mid) := by
      rcases him.eq_or_lt with rfl | hlt
      · exact le_rfl
      · exact pairwise_segment.mp hleft i mid hli hlt le_rfl
    have hfirst : m (.array (mid + 1)) ≤ m (.array j) := by
      rcases hmj.eq_or_lt with rfl | hlt
      · exact le_rfl
      · exact pairwise_segment.mp hright (mid + 1) j le_rfl hlt hjr
    exact hlast.trans (hle.trans hfirst)
  · constructor
    · exact hright.merge hleft
    · rw [hsplit]
      exact (List.merge_perm_append _).trans List.perm_append_comm

end ComputerSystems.Mergesort.Passes
