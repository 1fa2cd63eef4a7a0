/- `list_sort`, `list_insert_ordered` and `list_unique`: what they leave in the lists. -/

import ComputerSystems.Lists.Operations

set_option autoImplicit false
set_option relaxedAutoImplicit false

namespace ComputerSystems.Lists.Sorting

open ComputerSystems.Lists.NaturalMerge
open ComputerSystems.Lists.Operations
open ComputerSystems.Lists.Program
open ComputerSystems.Lists.Splicing
open ComputerSystems.Lists.Traversal
open ComputerSystems.Lists.WeakOrders
open ComputerSystems.Systems.Computations

variable {H : Heap} {less : Less} {list dup elem x y : Nat} {xs ys zs r s ds S : List Nat}

section Merging

theorem nodes_subset {ys zs : List Nat} (h : ys ⊆ zs) : nodes list ys ⊆ nodes list zs := by
  intro e he
  rw [mem_nodes] at he ⊢
  exact he.imp_right fun he => he.imp_left fun he => h he

theorem moved_subset (x y : Nat) :
    ys ++ [y] ++ (x :: r ++ (s ++ zs)) ⊆ ys ++ (x :: r ++ (y :: s ++ zs)) := by
  intro e he
  simp only [List.mem_append, List.mem_cons] at he ⊢
  tauto

theorem mergeLoop_ok {zs : List Nat} (h : IsList H list (ys ++ (r ++ (s ++ zs)))) {n : Nat}
    (hn : r.length + s.length < n) :
    Leaves (mergeLoop less (zs.headD (tailOf list)) n ((r ++ (s ++ zs)).headD (tailOf list))
      ((s ++ zs).headD (tailOf list))) H () list (ys ++ (r.merge s (notGreater less) ++ zs))
      (nodes list (ys ++ (r ++ (s ++ zs)))) := by
  induction n generalizing H ys r s with
  | zero => exact absurd hn (Nat.not_lt_zero _)
  | succ n ih =>
    cases r with
    | nil =>
      refine Yields.ok (t := H) ?_ ⟨rfl, by simpa using h, .refl _ _⟩
      rw [mergeLoop, if_neg (by simp), pure_ok]
    | cons x r =>
      cases s with
      | nil =>
        refine Yields.ok (t := H) ?_ ⟨rfl, by simpa using h, .refl _ _⟩
        rw [mergeLoop, if_neg (by simp), pure_ok]
      | cons y s =>
        have hx : x ≠ y := @headD_ne _ _ _ _ r (y :: s ++ zs) h
        have hsecond : IsList H list ((ys ++ x :: r) ++ y :: (s ++ zs)) := by simpa using h
        have hy : y ≠ zs.headD (tailOf list) := headD_ne hsecond
        rw [List.length_cons, List.length_cons] at hn
        rw [List.cons_append, List.cons_append, List.headD_cons, List.headD_cons, mergeLoop,
          if_pos ⟨hx, hy⟩, List.cons_merge_cons]
        cases hless : less y x with
        | false =>
          rw [if_pos (by simp), if_pos (by simp [notGreater, hless])]
          have hshift : IsList H list ((ys ++ [x]) ++ (r ++ (y :: s ++ zs))) := by simpa using h
          have hrest := ih hshift (by rw [List.length_cons]; omega)
          refine Leaves.after (listNext_ok h) ?_
          simpa using hrest
        | true =>
          rw [if_neg (by simp), if_neg (by simp [notGreater, hless])]
          have hmoved : IsList H list ((ys ++ x :: r ++ [y]) ++ (s ++ zs)) := by simpa using h
          have hprev := listPrev_ok hmoved
          rw [List.getLastD_concat] at hprev
          refine Leaves.after (listNext_ok hsecond) (Leaves.after hprev ?_)
          have hsplice := @listSplice_within _ _ _ _ ys (x :: (r ++ (s ++ zs))) _ _ hmoved (by simp) rfl
          refine Leaves.bind hsplice (nodes_subset (by simp)) fun H' h' => ?_
          have hrest := (ih (r := x :: r) h' (by rw [List.length_cons]; omega)).mono
            (@nodes_subset _ _ (ys ++ (x :: r ++ (y :: s ++ zs))) (moved_subset x y))
          simpa using hrest

theorem inplaceMerge_ok (h : IsList H list (ys ++ (r ++ (s ++ zs))))
    (hr : Sorted less r) (hs : Sorted less s) {n : Nat} (hn : r.length + s.length < n) :
    Leaves (inplaceMerge less n ((r ++ (s ++ zs)).headD (tailOf list))
      ((s ++ zs).headD (tailOf list)) (zs.headD (tailOf list))) H () list
      (ys ++ (r.merge s (notGreater less) ++ zs)) (nodes list (ys ++ (r ++ (s ++ zs)))) := by
  have hne : ∀ us vs, ys ++ (r ++ (s ++ zs)) = us ++ vs → vs.headD (tailOf list) ≠ 0 := by
    intro us vs heq
    refine h.nonzero _ (List.mem_cons_of_mem _ ?_)
    rw [heq]
    exact headD_mem_append us vs
  refine Leaves.after (assert_ok ?_) (Leaves.after (assert_ok ?_) (Leaves.after (assert_ok ?_) ?_))
  · simpa using hne ys _ rfl
  · simpa using hne (ys ++ r) (s ++ zs) (by simp)
  · simpa using hne (ys ++ r ++ s) zs (by simp)
  refine Leaves.after (@isSorted_ok _ _ _ ys _ _ (by simpa using h) hr.isChain _ (by omega)) ?_
  refine Leaves.after (assert_ok rfl) ?_
  refine Leaves.after
    (@isSorted_ok _ _ _ (ys ++ r) _ _ (by simpa using h) hs.isChain _ (by omega)) ?_
  exact Leaves.after (assert_ok rfl) (mergeLoop_ok h hn)

end Merging

section Passes

theorem passLoop_ok (hless : WeakOrder less) (h : IsList H list (ys ++ zs)) {n k : Nat}
    (hn : zs.length < n) (hk : zs.length < k) (cnt : Nat) :
    Leaves (passLoop less n list k (zs.headD (tailOf list)) cnt) H (cnt + (pass less zs).2) list
      (ys ++ (pass less zs).1) (nodes list (ys ++ zs)) := by
  induction k generalizing H ys zs cnt with
  | zero => exact absurd hk (Nat.not_lt_zero _)
  | succ k ih =>
    cases zs with
    | nil =>
      rw [pass_nil]
      refine Yields.ok (t := H) ?_ ⟨rfl, h, .refl _ _⟩
      rw [passLoop, bind_ok (listEnd_ok h.head_ne), if_neg (by simp), pure_ok]
      rfl
    | cons x xs =>
      rw [List.length_cons] at hn hk
      have hend := listEnd_ok (H := H) h.head_ne
      have hrun := @findEndOfRun_ok _ less _ _ _ _ h n (by omega)
      rw [List.headD_cons, passLoop]
      refine Leaves.after hend ?_
      rw [if_pos (h.ne_tail (by simp))]
      refine Leaves.after hend (Leaves.after hrun (Leaves.after hend ?_))
      have happend := run_append less x xs
      cases hrest : (run less x xs).2 with
      | nil =>
        rw [pass_last hrest, List.headD_nil, if_pos rfl]
        exact Yields.ok (pure_ok _) ⟨rfl, h, .refl _ _⟩
      | cons y ys' =>
        have hlength := run_length less x xs
        have hlength' := run_length less y ys'
        rw [hrest] at happend hlength
        rw [List.length_cons] at hlength
        have happend' := run_append less y ys'
        have hsecond : IsList H list ((ys ++ (run less x xs).1) ++ y :: ys') := by
          rw [List.append_assoc, happend]
          exact h
        have hthird : IsList H list (ys ++ ((run less x xs).1 ++ ((run less y ys').1 ++
            (run less y ys').2))) := by
          rw [happend', happend]
          exact h
        have hlen : (run less x xs).1.length + (run less y ys').1.length < n := by
          have := congrArg List.length happend
          have := congrArg List.length happend'
          simp only [List.length_append, List.length_cons] at *
          omega
        rw [pass_step hrest, List.headD_cons, if_neg (hsecond.ne_tail (by simp))]
        refine Leaves.after hend (Leaves.after (findEndOfRun_ok hsecond (by omega)) ?_)
        have hmerge := inplaceMerge_ok hthird (run_sorted hless x xs)
          (run_sorted hless y ys') hlen
        rw [happend', happend, List.headD_cons, List.headD_cons] at hmerge
        refine Leaves.bind hmerge (List.Subset.refl _) fun H' h' => ?_
        rw [← List.append_assoc] at h'
        have hmerged : ys ++ (run less x xs).1.merge (run less y ys').1 (notGreater less) ++
            (run less y ys').2 ⊆ ys ++ x :: xs := by
          rw [← happend, ← happend', List.append_assoc, ← List.append_assoc (run less x xs).1]
          exact (((List.merge_perm_append _).append_right _).append_left ys).subset
        have hloop := (ih h' (by omega) (by omega) (cnt + 1)).mono (nodes_subset hmerged)
        rw [List.append_assoc, Nat.add_assoc, Nat.add_comm 1] at hloop
        rw [← List.append_assoc] at hloop ⊢
        exact hloop

theorem sortLoop_last (hless : WeakOrder less) (h : IsList H list xs) {n : Nat}
    (hn : xs.length < n) (hcount : (pass less xs).2 ≤ 1) (p : Nat) :
    Leaves (sortLoop less n list (p + 1)) H () list (xs.mergeSort (notGreater less))
      (nodes list xs) := by
  have hpass := @passLoop_ok _ _ _ [] _ hless h _ _ hn hn 0
  rw [Nat.zero_add] at hpass
  have hsorted := sorted_of_runs_le hless ((runs_pass hless xs).1.trans hcount)
  rw [sortLoop, ← (pass_sameTies hless xs).eq_mergeSort hless hsorted]
  refine Leaves.after (listBegin_ok h) (Leaves.bind hpass (List.Subset.refl _) fun H' h' => ?_)
  rw [if_neg (by omega)]
  exact Yields.ok (pure_ok _) ⟨rfl, h', .refl _ _⟩

theorem sortLoop_ok (hless : WeakOrder less) (h : IsList H list xs) {n p : Nat}
    (hn : xs.length < n) (hp : runs less xs ≤ 2 ^ p) :
    Leaves (sortLoop less n list (p + 1)) H () list (xs.mergeSort (notGreater less))
      (nodes list xs) := by
  induction p generalizing H xs with
  | zero =>
    have hcount := (runs_pass hless xs).2
    have hdone := sortLoop_last hless h hn (by omega) 0
    exact hdone
  | succ p ih =>
    obtain ⟨hout, hcount⟩ := runs_pass hless xs
    by_cases hlast : (pass less xs).2 ≤ 1
    · exact sortLoop_last hless h hn hlast (p + 1)
    have hpass := @passLoop_ok _ _ _ [] _ hless h _ _ hn hn 0
    rw [Nat.zero_add, List.nil_append] at hpass
    rw [sortLoop]
    refine Leaves.after (listBegin_ok h) (Leaves.bind hpass (List.Subset.refl _) fun H' h' => ?_)
    rw [if_pos (by omega), ← SameTies.mergeSort_eq hless (pass_sameTies hless xs)]
    have hperm := (pass_sameTies hless xs).perm
    rw [pow_succ] at hp
    exact (ih h' (hperm.length_eq ▸ hn) (by omega)).mono (nodes_subset hperm.subset)

theorem listSort_ok (hless : WeakOrder less) (h : IsList H list xs) {n p : Nat}
    (hn : xs.length < n) (hp : runs less xs ≤ 2 ^ p) :
    Leaves (listSort less (p + 1) n list) H () list (xs.mergeSort (notGreater less))
      (nodes list xs) := by
  refine Leaves.after (assert_ok (by simp [h.head_ne])) ?_
  refine Leaves.bind (sortLoop_ok hless h hn hp) (List.Subset.refl _) fun H' h' => ?_
  refine Leaves.after (listBegin_ok h') (Leaves.after (listEnd_ok h'.head_ne) ?_)
  have hsorted := @isSorted_ok _ less _ [] _ [] (by simpa using h')
    (sorted_mergeSort hless xs).isChain n (by rw [List.length_mergeSort]; omega)
  rw [List.append_nil] at hsorted
  exact Leaves.after hsorted (Yields.ok (assert_ok rfl) ⟨rfl, h', .refl _ _⟩)

end Passes

section Insertion

theorem insertOrderedLoop_ok (h : IsList H list (ys ++ zs)) {n : Nat} (hn : zs.length < n) :
    insertOrderedLoop less list elem n (zs.headD (tailOf list)) H =
      .ok ((zs.dropWhile fun y => !less elem y).headD (tailOf list), H) := by
  induction zs generalizing ys n with
  | nil =>
    obtain ⟨n, rfl⟩ := Nat.exists_eq_add_one_of_ne_zero (Nat.ne_zero_of_lt hn)
    rw [insertOrderedLoop, bind_ok (listEnd_ok h.head_ne), if_neg (by simp), pure_ok]
    rfl
  | cons z zs ih =>
    obtain ⟨n, rfl⟩ := Nat.exists_eq_add_one_of_ne_zero (Nat.ne_zero_of_lt hn)
    rw [List.headD_cons, insertOrderedLoop, bind_ok (listEnd_ok h.head_ne),
      if_pos (h.ne_tail (by simp))]
    cases hz : less elem z with
    | true =>
      rw [if_pos rfl, pure_ok, List.dropWhile_cons_of_neg (by simp [hz])]
      rfl
    | false =>
      have hshift : IsList H list ((ys ++ [z]) ++ zs) := by simpa using h
      rw [if_neg (by simp), bind_ok (listNext_ok h), ih hshift (Nat.lt_of_succ_lt_succ hn),
        List.dropWhile_cons_of_pos (by simp [hz])]

theorem listInsertOrdered_ok (h : IsList H list xs) (hne : elem ≠ 0)
    (hapart : elem ∉ nodes list xs) {n : Nat} (hn : xs.length < n) :
    Leaves (listInsertOrdered less n list elem) H () list (insertOrdered less elem xs)
      (elem :: nodes list xs) := by
  have hsplit := List.takeWhile_append_dropWhile (p := fun y => !less elem y) (l := xs)
  have hinsert := @listInsert_ok _ _ elem _ _ (hsplit.symm ▸ h) hne (hsplit.symm ▸ hapart)
  rw [hsplit] at hinsert
  exact Leaves.after (assert_ok (by simp [h.head_ne])) (Leaves.after (assert_ok (by simp [hne]))
    (Leaves.after (listBegin_ok h) (Leaves.after (@insertOrderedLoop_ok _ _ _ _ [] _ h _ hn) hinsert)))

end Insertion

section Duplicates

/-- The list for the duplicates, if there is one, shares no node with the list at hand. -/
structure Collects (H : Heap) (list : Nat) (xs : List Nat) (dup : Nat) (ds : List Nat) : Prop where
  isList : dup ≠ 0 → IsList H dup ds
  apart : dup ≠ 0 → ∀ e ∈ nodes list xs, e ∉ nodes dup ds

theorem uniqueLoop_ok (h : IsList H list (ys ++ x :: zs)) (hd : Collects H list (ys ++ x :: zs) dup ds)
    (hS : nodes list (ys ++ x :: zs) ⊆ S) (hS' : dup ≠ 0 → nodes dup ds ⊆ S) {n : Nat}
    (hn : zs.length < n) :
    Yields (uniqueLoop less list dup n x) H fun _ H' =>
      IsList H' list (ys ++ x :: (unique less x zs).1) ∧
      Collects H' list (ys ++ x :: (unique less x zs).1) dup (ds ++ (unique less x zs).2) ∧
      SameOutside S H H' := by
  induction zs generalizing H ys x ds n with
  | nil =>
    obtain ⟨n, rfl⟩ := Nat.exists_eq_add_one_of_ne_zero (Nat.ne_zero_of_lt hn)
    refine Yields.ok (a := ()) (t := H) ?_ ⟨h, by simpa [unique] using hd, .refl _ _⟩
    rw [uniqueLoop, bind_ok (listNext_ok h), bind_ok (listEnd_ok h.head_ne), if_neg (by simp), pure_ok]
  | cons y zs ih =>
    obtain ⟨n, rfl⟩ := Nat.exists_eq_add_one_of_ne_zero (Nat.ne_zero_of_lt hn)
    rw [uniqueLoop]
    refine Yields.after (listNext_ok h) (Yields.after (listEnd_ok h.head_ne) ?_)
    rw [List.headD_cons, if_pos (h.ne_tail (by simp)), unique]
    have hshift : IsList H list ((ys ++ [x]) ++ y :: zs) := by simpa using h
    rw [show (!less x y && !less y x) = tie less x y from rfl]
    by_cases htie : tie less x y = true
    · rw [if_pos htie, if_pos htie]
      have hsub : nodes list (ys ++ x :: zs) ⊆ nodes list (ys ++ x :: y :: zs) :=
        nodes_subset ((List.Sublist.refl ys).append ((List.sublist_cons_self y zs).cons_cons x)).subset
      have hmem : y ∈ nodes list (ys ++ x :: y :: zs) := by simp
      have hnotMem : y ∉ nodes list (ys ++ x :: zs) := by
        have hout := @stretch_apart _ _ (ys ++ [x]) zs [y] (by simpa using h)
        exact fun hin => hout y (by simpa using hin) List.mem_cons_self
      refine Yields.bind (listRemove_ok hshift) ?_
      rintro _ H' ⟨-, h', hsame⟩
      rw [List.append_assoc, List.singleton_append] at h' hsame
      have hsame' : SameOutside S H H' := hsame.mono (by simpa using hS)
      dsimp only
      split
      · rename_i hdup
        have hapart := hd.apart hdup
        have hdup' : IsList H' dup ds :=
          IsList.frame (hd.isList hdup) hsame fun e he he' => hapart e (by simpa using he') he
        refine Yields.bind (listPushBack_ok hdup' (h.nonzero y hmem) (hapart y hmem)) ?_
        rintro _ H'' ⟨-, hdup'', hpush⟩
        have h'' : IsList H'' list (ys ++ x :: zs) := by
          refine IsList.frame h' hpush fun e he he' => ?_
          rcases List.mem_cons.mp he' with rfl | he'
          · exact hnotMem he
          · exact hapart e (hsub he) he'
        have hpushS : y :: nodes dup ds ⊆ S := List.cons_subset.mpr ⟨hS hmem, hS' hdup⟩
        have hnodes : nodes dup (ds ++ [y]) ⊆ y :: nodes dup ds := by
          intro e he
          simp only [List.mem_append, List.mem_cons] at he ⊢
          tauto
        refine Yields.mono (ih h'' ⟨fun _ => hdup'', fun _ e he he' => ?_⟩ (List.Subset.trans hsub hS)
          (fun _ => List.Subset.trans hnodes hpushS) (Nat.lt_of_succ_lt_succ hn)) ?_
        · rcases List.mem_cons.mp (hnodes he') with rfl | he'
          · exact hnotMem he
          · exact hapart e (hsub he) he'
        · rintro _ H₃ ⟨hlist, hcollects, hrest⟩
          rw [List.append_assoc] at hcollects
          exact ⟨hlist, hcollects, (hsame'.trans (hpush.mono hpushS)).trans hrest⟩
      · rename_i hdup
        have hnone : ∀ H ds xs, Collects H list xs dup ds :=
          fun _ _ _ => ⟨fun hne => absurd hne hdup, fun hne => absurd hne hdup⟩
        refine Yields.mono (ih h' (hnone _ ds _) (List.Subset.trans hsub hS) hS'
          (Nat.lt_of_succ_lt_succ hn)) ?_
        rintro _ H₃ ⟨hlist, -, hrest⟩
        exact ⟨hlist, hnone _ _ _, hsame'.trans hrest⟩
    · rw [if_neg htie, if_neg htie]
      refine Yields.mono (ih hshift (by simpa using hd) (by simpa using hS) hS'
        (Nat.lt_of_succ_lt_succ hn)) ?_
      rintro _ H' ⟨hlist, hcollects, hsame⟩
      exact ⟨by simpa using hlist, by simpa using hcollects, hsame⟩

/-- What `list_unique` keeps and what it takes out. -/
def uniqueAll (less : Less) : List Nat → List Nat × List Nat
  | [] => ([], [])
  | x :: xs => (x :: (unique less x xs).1, (unique less x xs).2)

theorem uniqueAll_sublist (less : Less) (xs : List Nat) :
    (uniqueAll less xs).1.Sublist xs ∧ (uniqueAll less xs).2.Sublist xs := by
  cases xs with
  | nil => exact ⟨.slnil, .slnil⟩
  | cons x xs =>
    obtain ⟨hkept, hout⟩ := unique_sublist less x xs
    exact ⟨hkept.cons_cons x, hout.cons x⟩

theorem listUnique_ok (h : IsList H list xs) (hd : Collects H list xs dup ds)
    (hS : nodes list xs ⊆ S) (hS' : dup ≠ 0 → nodes dup ds ⊆ S) {n : Nat} (hn : xs.length < n) :
    Yields (listUnique less n list dup) H fun _ H' =>
      IsList H' list (uniqueAll less xs).1 ∧
      Collects H' list (uniqueAll less xs).1 dup (ds ++ (uniqueAll less xs).2) ∧
      SameOutside S H H' := by
  refine Yields.after (assert_ok (by simp [h.head_ne])) (Yields.after (listEmpty_ok h) ?_)
  cases xs with
  | nil =>
    rw [if_neg (by simp)]
    exact Yields.ok (pure_ok _) ⟨h, by simpa [uniqueAll] using hd, .refl _ _⟩
  | cons x xs =>
    rw [if_pos (by simp)]
    refine Yields.after (listBegin_ok h) ?_
    rw [List.length_cons] at hn
    exact @uniqueLoop_ok _ _ _ _ _ [] _ _ _ h hd hS hS' _ (by omega)

end Duplicates

section Results

/-- No assertion of `list_sort` fails, a list of at most `2 ^ p` runs takes at most `p + 1` passes, and
the list ends as the stable sort of what it held. Nothing else is written to. -/
theorem listSort_stable (hless : WeakOrder less) (h : IsList H list xs) {n p : Nat}
    (hn : xs.length < n) (hp : runs less xs ≤ 2 ^ p) :
    ∃ H', listSort less (p + 1) n list H = .ok ((), H') ∧
      IsList H' list (xs.mergeSort (notGreater less)) ∧ SameOutside (nodes list xs) H H' := by
  obtain ⟨_, H', hok, -, hlist, hsame⟩ := listSort_ok hless h hn hp
  exact ⟨H', hok, hlist, hsame⟩

/-- A list at 100 with the elements 300, 200 and 400, and an empty list at 500. -/
def threeElements : Heap where
  next e := if e = 100 then 300 else if e = 300 then 200 else if e = 200 then 400
    else if e = 400 then 116 else if e = 500 then 516 else 0
  prev e := if e = 116 then 400 else if e = 400 then 200 else if e = 200 then 300
    else if e = 300 then 100 else if e = 516 then 500 else 0

theorem threeElements_isList : IsList threeElements 100 [300, 200, 400] := by
  refine ⟨⟨?_, by decide⟩, by decide, by decide, by decide⟩
  simp [DoublyLinked.Linked, threeElements, headOf, tailOf]

theorem threeElements_isList' : IsList threeElements 500 [] := by
  refine ⟨⟨?_, by decide⟩, by decide, by decide, by decide⟩
  simp [DoublyLinked.Linked, threeElements, headOf, tailOf]

theorem listSort_stable_three :
    ∃ H', listSort (fun a b => decide (a < b)) 2 4 100 threeElements = .ok ((), H') ∧
      IsList H' 100 ([300, 200, 400].mergeSort (notGreater fun a b => decide (a < b))) ∧
      SameOutside (nodes 100 [300, 200, 400]) threeElements H' :=
  listSort_stable (weakOrder_of_key fun e => e) threeElements_isList (p := 1) (by decide) (by decide)

theorem eq_of_isList {H' : Heap} (h : IsList H list xs) (h' : IsList H' list xs)
    (hsame : SameOutside (nodes list xs) H H') : H' = H := by
  have hlinks : ∀ e, H'.next e = H.next e ∧ H'.prev e = H.prev e := by
    intro e
    by_cases he : e ∈ nodes list xs
    · rcases mem_nodes.mp he with he | he | he
      · rw [he, h.dlist.next_head, h'.dlist.next_head, h.front, h'.front]
        exact ⟨rfl, rfl⟩
      · obtain ⟨ys, zs, rfl⟩ := List.append_of_mem he
        rw [h.dlist.around.1, h.dlist.around.2, h'.dlist.around.1, h'.dlist.around.2]
        exact ⟨rfl, rfl⟩
      · rw [he, h.dlist.prev_tail, h'.dlist.prev_tail, h.back, h'.back]
        exact ⟨rfl, rfl⟩
    · exact hsame e he
  have hnext : H'.next = H.next := funext fun e => (hlinks e).1
  have hprev : H'.prev = H.prev := funext fun e => (hlinks e).2
  calc H' = ⟨H'.next, H'.prev⟩ := rfl
    _ = ⟨H.next, H.prev⟩ := by rw [hnext, hprev]
    _ = H := rfl

/-- `list_reverse` turns the list around in place, and a second call restores every link. -/
theorem listReverse_twice (h : IsList H list xs) {n : Nat} (hn : xs.length < n) :
    ∃ H', listReverse n list H = .ok ((), H') ∧ IsList H' list xs.reverse ∧
      SameOutside (nodes list xs) H H' ∧ listReverse n list H' = .ok ((), H) := by
  obtain ⟨_, H₁, hok₁, -, hlist₁, hsame₁⟩ := listReverse_ok h hn
  have hn' : xs.reverse.length < n := by rwa [List.length_reverse]
  obtain ⟨_, H₂, hok₂, -, hlist₂, hsame₂⟩ := listReverse_ok hlist₁ hn'
  have hnodes : nodes list xs.reverse ⊆ nodes list xs :=
    nodes_subset (List.reverse_perm xs).subset
  rw [List.reverse_reverse] at hlist₂
  have hback := eq_of_isList h hlist₂ (hsame₁.trans (hsame₂.mono hnodes))
  exact ⟨H₁, hok₁, hlist₁, hsame₁, hback ▸ hok₂⟩

theorem listReverse_twice_three :
    ∃ H', listReverse 4 100 threeElements = .ok ((), H') ∧
      IsList H' 100 [300, 200, 400].reverse ∧
      SameOutside (nodes 100 [300, 200, 400]) threeElements H' ∧
      listReverse 4 100 H' = .ok ((), threeElements) :=
  listReverse_twice threeElements_isList (by decide)

/-- The calls of `list_insert_ordered` that put elements in one after the other. -/
def insertAll (less : Less) (n list : Nat) : List Nat → Prog Unit
  | [] => pure ()
  | e :: es => do
    listInsertOrdered less n list e
    insertAll less n list es

/-- A list that is in order stays so, with new elements behind their ties: insertion one by one
comes to what `list_sort` makes of the elements appended. -/
theorem insertAll_sorts {es : List Nat} (hless : WeakOrder less) (h : IsList H list xs)
    (hsorted : Sorted less xs) (hnodup : es.Nodup) (hne : 0 ∉ es)
    (hapart : ∀ e ∈ es, e ∉ nodes list xs) {n : Nat} (hn : (xs ++ es).length ≤ n) :
    ∃ H', insertAll less n list es H = .ok ((), H') ∧
      IsList H' list ((xs ++ es).mergeSort (notGreater less)) ∧
      SameOutside (es ++ nodes list xs) H H' := by
  induction es generalizing H xs with
  | nil =>
    refine ⟨H, rfl, ?_, .refl _ _⟩
    rw [List.append_nil, ← (SameTies.refl xs).eq_mergeSort hless hsorted]
    exact h
  | cons e es ih =>
    obtain ⟨hees, hes⟩ := List.nodup_cons.mp hnodup
    obtain ⟨h0e, h0es⟩ : 0 ≠ e ∧ 0 ∉ es := by simpa using hne
    have hlength : (xs ++ e :: es).length = xs.length + es.length + 1 := by
      simp [Nat.add_assoc]
    have hties : SameTies less (insertOrdered less e xs) (xs ++ [e]) :=
      insertOrdered_sameTies hless hsorted
    have hmem : nodes list (insertOrdered less e xs) ⊆ e :: nodes list xs := by
      intro z hz
      have hz' := (hties.perm.mem_iff (a := z)).mp
      simp only [List.mem_append, List.mem_cons] at hz hz' ⊢
      tauto
    obtain ⟨_, H₁, hok₁, -, hlist₁, hsame₁⟩ := @listInsertOrdered_ok _ less _ _ _ h h0e.symm
      (hapart e List.mem_cons_self) n (by omega)
    obtain ⟨H₂, hok₂, hlist₂, hsame₂⟩ := ih hlist₁ (insertOrdered_sorted hless hsorted) hes h0es
      (fun z hz hz' => (List.mem_cons.mp (hmem hz')).elim (fun heq => hees (heq ▸ hz))
        (hapart z (List.mem_cons_of_mem e hz)))
      (by rw [List.length_append, hties.perm.length_eq, List.length_append, List.length_singleton]
          omega)
    refine ⟨H₂, by rw [insertAll, bind_ok hok₁, hok₂], ?_, ?_⟩
    · have hall := (hties.append (@SameTies.refl _ less es)).mergeSort_eq hless
      rw [List.append_assoc, List.singleton_append] at hall
      rwa [hall] at hlist₂
    · refine (hsame₁.mono ?_).trans (hsame₂.mono ?_)
      · exact List.cons_subset_cons e (List.subset_append_right es _)
      · intro z hz
        rcases List.mem_append.mp hz with hz | hz
        · simp [hz]
        · rcases List.mem_cons.mp (hmem hz) with rfl | hz
          · exact List.mem_cons_self
          · exact List.mem_cons_of_mem e (List.mem_append_right es hz)

theorem insertAll_sorts_two :
    ∃ H', insertAll (fun a b => decide (a < b)) 5 500 [600, 550] threeElements = .ok ((), H') ∧
      IsList H' 500 (([] ++ [600, 550]).mergeSort (notGreater fun a b => decide (a < b))) ∧
      SameOutside ([600, 550] ++ nodes 500 []) threeElements H' :=
  insertAll_sorts (weakOrder_of_key fun e => e) threeElements_isList' List.Pairwise.nil (by decide) (by decide)
    (by decide) (by decide)

/-- `list_unique` leaves the first of every group of ties, in strictly increasing order, and moves
the others behind the duplicates, in the order they had. -/
theorem listUnique_keepsFirst (hless : WeakOrder less) (h : IsList H list xs)
    (hsorted : Sorted less xs) (hdup : IsList H dup ds)
    (hapart : ∀ e ∈ nodes list xs, e ∉ nodes dup ds) {n : Nat} (hn : xs.length < n) :
    ∃ H' kept out, listUnique less n list dup H = .ok ((), H') ∧ IsList H' list kept ∧
      IsList H' dup (ds ++ out) ∧ kept.Pairwise (fun a b => less a b = true) ∧
      kept.Sublist xs ∧ out.Sublist xs ∧
      (∀ a, kept.filter (tie less a) = (xs.filter (tie less a)).take 1 ∧
        out.filter (tie less a) = (xs.filter (tie less a)).drop 1) ∧
      SameOutside (nodes list xs ++ nodes dup ds) H H' := by
  have hcollects : Collects H list xs dup ds := ⟨fun _ => hdup, fun _ => hapart⟩
  obtain ⟨_, H', hok, hlist, hout, hsame⟩ := @listUnique_ok _ less _ _ _ _
    (nodes list xs ++ nodes dup ds) h hcollects (List.subset_append_left _ _)
    (fun _ => List.subset_append_right _ _) _ hn
  refine ⟨H', (uniqueAll less xs).1, (uniqueAll less xs).2, hok, hlist, hout.isList hdup.head_ne,
    ?_, (uniqueAll_sublist less xs).1, (uniqueAll_sublist less xs).2, ?_, hsame⟩
  · cases xs with
    | nil => exact List.Pairwise.nil
    | cons x xs => exact unique_increasing hless hsorted
  · cases xs with
    | nil => exact fun _ => ⟨rfl, rfl⟩
    | cons x xs => exact unique_ties hless hsorted

theorem listUnique_keepsFirst_three :
    ∃ H' kept out, listUnique (fun a b => decide (a / 350 < b / 350)) 4 100 500 threeElements =
        .ok ((), H') ∧ IsList H' 100 kept ∧
      IsList H' 500 ([] ++ out) ∧ kept.Pairwise (fun a b => decide (a / 350 < b / 350) = true) ∧
      kept.Sublist [300, 200, 400] ∧ out.Sublist [300, 200, 400] ∧
      (∀ a, kept.filter (tie (fun a b => decide (a / 350 < b / 350)) a) =
          ([300, 200, 400].filter (tie (fun a b => decide (a / 350 < b / 350)) a)).take 1 ∧
        out.filter (tie (fun a b => decide (a / 350 < b / 350)) a) =
          ([300, 200, 400].filter (tie (fun a b => decide (a / 350 < b / 350)) a)).drop 1) ∧
      SameOutside (nodes 100 [300, 200, 400] ++ nodes 500 []) threeElements H' :=
  listUnique_keepsFirst (weakOrder_of_key fun e => e / 350) threeElements_isList (by decide)
    threeElements_isList' (by decide) (by decide)

/-- `list_max` and `list_min` find the earliest of the greatest elements and of the least ones, and
write to nothing. -/
theorem listMax_listMin_earliest (hless : WeakOrder less) (h : IsList H list (x :: xs)) {n : Nat}
    (hn : xs.length < n) :
    (∃ m, listMax less n list H = .ok (m, H) ∧ Earliest less m (x :: xs)) ∧
      ∃ m, listMin less n list H = .ok (m, H) ∧ Earliest (fun a b => less b a) m (x :: xs) :=
  ⟨⟨_, listBest_cons h hn, best_earliest hless x xs⟩,
    ⟨_, listBest_cons h hn, best_earliest (weakOrder_flip hless) x xs⟩⟩

theorem listMax_listMin_earliest_three :
    (∃ m, listMax (fun a b => decide (a < b)) 4 100 threeElements = .ok (m, threeElements) ∧
        Earliest (fun a b : Nat => decide (a < b)) m [300, 200, 400]) ∧
      ∃ m, listMin (fun a b => decide (a < b)) 4 100 threeElements = .ok (m, threeElements) ∧
        Earliest (fun a b : Nat => decide (b < a)) m [300, 200, 400] :=
  listMax_listMin_earliest (weakOrder_of_key fun e => e) threeElements_isList (by decide)

end Results

end ComputerSystems.Lists.Sorting
