/- What the reading operations of `list.c` return on a well-formed list. -/

import ComputerSystems.Lists.Program
import ComputerSystems.Lists.Splicing
import ComputerSystems.Lists.WeakOrders

set_option autoImplicit false
set_option relaxedAutoImplicit false

namespace ComputerSystems.Lists.Traversal

open ComputerSystems.Lists.DoublyLinked
open ComputerSystems.Lists.NaturalMerge
open ComputerSystems.Lists.Program
open ComputerSystems.Lists.Splicing
open ComputerSystems.Lists.WeakOrders
open ComputerSystems.Systems.Computations

abbrev nodes (list : Nat) (xs : List Nat) : List Nat := headOf list :: (xs ++ [tailOf list])

/-- The elements of the list are `xs`, and its outer two links are NULL. -/
structure IsList (H : Heap) (list : Nat) (xs : List Nat) : Prop where
  dlist : DList H (headOf list) xs (tailOf list)
  front : H.prev (headOf list) = 0
  back : H.next (tailOf list) = 0
  nonzero : ∀ e ∈ nodes list xs, e ≠ 0

section Steps

variable {H : Heap} {e v : Nat} {c : Bool}

theorem assert_ok (h : c = true) : assert c H = .ok ((), H) := by
  rw [assert, if_pos h, pure_ok]

theorem access_ok (h : e ≠ 0) : access e H = .ok ((), H) := by
  rw [access, if_neg h, pure_ok]

theorem getPrev_ok (h : e ≠ 0) : getPrev e H = .ok (H.prev e, H) := by
  rw [getPrev, bind_ok (access_ok h), bind_ok get_ok, pure_ok]

theorem getNext_ok (h : e ≠ 0) : getNext e H = .ok (H.next e, H) := by
  rw [getNext, bind_ok (access_ok h), bind_ok get_ok, pure_ok]

theorem setPrev_ok (v : Nat) (h : e ≠ 0) :
    setPrev e v H = .ok ((), { H with prev := Function.update H.prev e v }) := by
  rw [setPrev, bind_ok (access_ok h)]
  rfl

theorem setNext_ok (v : Nat) (h : e ≠ 0) :
    setNext e v H = .ok ((), { H with next := Function.update H.next e v }) := by
  rw [setNext, bind_ok (access_ok h)]
  rfl

end Steps

section Nodes

variable {H : Heap} {list e z : Nat} {xs ys zs : List Nat}

theorem headD_mem (zs : List Nat) (t : Nat) : zs.headD t ∈ zs ++ [t] := by
  cases zs <;> simp

theorem getLastD_mem (h : Nat) (ys : List Nat) : ys.getLastD h ∈ h :: ys := by
  rcases List.eq_nil_or_concat ys with rfl | ⟨l, y, rfl⟩ <;> simp

theorem IsList.head_ne (h : IsList H list xs) : list ≠ 0 := h.nonzero list List.mem_cons_self

theorem IsList.tail_ne (h : IsList H list xs) : tailOf list ≠ 0 := h.nonzero _ (by simp)

theorem IsList.mem_ne (h : IsList H list xs) (he : e ∈ xs) : e ≠ 0 := h.nonzero e (by simp [he])

theorem IsList.ne_head (h : IsList H list xs) (he : e ∈ xs) : e ≠ headOf list := by
  have hnotin := (List.nodup_cons.mp h.dlist.nodup).1
  exact fun heq => hnotin (heq ▸ List.mem_append_left _ he)

theorem IsList.ne_tail (h : IsList H list xs) (he : e ∈ xs) : e ≠ tailOf list := by
  have hdisj := (List.nodup_append.mp (List.nodup_cons.mp h.dlist.nodup).2).2.2
  exact hdisj e he _ (by simp)

theorem IsList.nodup (h : IsList H list xs) : xs.Nodup :=
  (List.nodup_append.mp (List.nodup_cons.mp h.dlist.nodup).2).1

theorem IsList.prev_ne (h : IsList H list xs) (he : e ∈ xs ++ [tailOf list]) : H.prev e ≠ 0 := by
  refine h.nonzero _ ?_
  rcases List.mem_cons.mp (h.dlist.prev_mem he) with heq | hmem
  · simp [heq]
  · simp [hmem]

theorem IsList.next_ne (h : IsList H list xs) (he : e ∈ headOf list :: xs) : H.next e ≠ 0 :=
  h.nonzero _ (List.mem_cons_of_mem _ (h.dlist.next_mem he))

theorem IsList.isInterior (h : IsList H list xs) (he : e ∈ xs) : isInterior H e = true := by
  simp [Program.isInterior, h.mem_ne he, h.prev_ne (List.mem_append_left _ he),
    h.next_ne (List.mem_cons_of_mem _ he)]

theorem IsList.isHead (h : IsList H list xs) : isHead H (headOf list) = true := by
  have hnext := h.next_ne List.mem_cons_self
  simp [Program.isHead, h.front, hnext, h.nonzero (headOf list) List.mem_cons_self]

theorem IsList.isTail (h : IsList H list xs) : isTail H (tailOf list) = true := by
  simp [Program.isTail, h.back, h.tail_ne, h.prev_ne (e := tailOf list) (by simp)]

theorem IsList.interior_or_tail (h : IsList H list xs) (he : e ∈ xs ++ [tailOf list]) :
    (Program.isInterior H e || Program.isTail H e) = true := by
  rcases List.mem_append.mp he with he | he
  · simp [h.isInterior he]
  · rw [List.mem_singleton.mp he]
    simp [h.isTail]

theorem IsList.congr {H' : Heap} (h : IsList H list xs)
    (hsame : ∀ e ∈ nodes list xs, H'.next e = H.next e ∧ H'.prev e = H.prev e) :
    IsList H' list xs :=
  ⟨h.dlist.congr hsame, (hsame _ List.mem_cons_self).2.trans h.front,
    (hsame _ (by simp)).1.trans h.back, h.nonzero⟩

end Nodes

section Reading

variable {H : Heap} {list e z : Nat} {xs ys zs : List Nat}

theorem listBegin_ok (h : IsList H list xs) :
    listBegin list H = .ok (xs.headD (tailOf list), H) := by
  rw [listBegin, bind_ok (assert_ok (by simp [h.head_ne])),
    getNext_ok (h.nonzero _ List.mem_cons_self), h.dlist.next_head]

theorem listEnd_ok (h : list ≠ 0) : listEnd list H = .ok (tailOf list, H) := by
  rw [listEnd, bind_ok (assert_ok (by simp [h])), pure_ok]

theorem listRbegin_ok (h : IsList H list xs) :
    listRbegin list H = .ok (xs.getLastD (headOf list), H) := by
  rw [listRbegin, bind_ok (assert_ok (by simp [h.head_ne])), getPrev_ok h.tail_ne,
    h.dlist.prev_tail]

theorem listNext_ok (h : IsList H list (ys ++ z :: zs)) :
    listNext z H = .ok (zs.headD (tailOf list), H) := by
  have hz : z ∈ ys ++ z :: zs := by simp
  rw [listNext, bind_ok get_ok, bind_ok (assert_ok (by simp [h.isInterior hz])),
    getNext_ok (h.mem_ne hz), h.dlist.around.2]

theorem listPrev_ok (h : IsList H list (ys ++ zs)) :
    listPrev (zs.headD (tailOf list)) H = .ok (ys.getLastD (headOf list), H) := by
  have hmem : zs.headD (tailOf list) ∈ ys ++ zs ++ [tailOf list] := by
    rw [List.append_assoc]
    exact List.mem_append_right _ (headD_mem zs _)
  rw [listPrev, bind_ok get_ok, bind_ok (assert_ok (h.interior_or_tail hmem)),
    getPrev_ok (h.nonzero _ (List.mem_cons_of_mem _ hmem)), dlist_prev_headD h.dlist]

theorem headD_eq_tail (h : IsList H list (ys ++ zs)) :
    zs.headD (tailOf list) = tailOf list ↔ zs = [] := by
  cases zs with
  | nil => simp
  | cons z zs => simpa using h.ne_tail (e := z) (by simp)

theorem listEmpty_ok (h : IsList H list xs) : listEmpty list H = .ok (xs.isEmpty, H) := by
  rw [listEmpty, bind_ok (listBegin_ok h), bind_ok (listEnd_ok h.head_ne), pure_ok]
  have hiff := @headD_eq_tail _ _ [] _ h
  cases xs with
  | nil => simp
  | cons x xs => simpa using hiff

theorem listFront_ok (h : IsList H list (z :: zs)) : listFront list H = .ok (z, H) := by
  rw [listFront, bind_ok (listEmpty_ok h), bind_ok (assert_ok (c := !(z :: zs).isEmpty) rfl),
    getNext_ok (h.nonzero _ List.mem_cons_self), h.dlist.next_head]
  rfl

theorem listBack_ok (h : IsList H list (ys ++ [z])) : listBack list H = .ok (z, H) := by
  rw [listBack, bind_ok (listEmpty_ok h), bind_ok (assert_ok (by simp)),
    getPrev_ok h.tail_ne, h.dlist.prev_tail]
  simp

theorem sizeLoop_ok (h : IsList H list (ys ++ zs)) {n : Nat} (hn : zs.length < n) (cnt : Nat) :
    sizeLoop list n (zs.headD (tailOf list)) cnt H = .ok (cnt + zs.length, H) := by
  induction zs generalizing ys n cnt with
  | nil =>
    obtain ⟨n, rfl⟩ := Nat.exists_eq_add_one_of_ne_zero (Nat.ne_zero_of_lt hn)
    rw [sizeLoop, bind_ok (listEnd_ok h.head_ne), if_neg (by simp), pure_ok]
    rfl
  | cons z zs ih =>
    obtain ⟨n, rfl⟩ := Nat.exists_eq_add_one_of_ne_zero (Nat.ne_zero_of_lt hn)
    have hz : z ≠ tailOf list := h.ne_tail (by simp)
    have hshift : IsList H list ((ys ++ [z]) ++ zs) := by simpa using h
    rw [List.headD_cons, sizeLoop, bind_ok (listEnd_ok h.head_ne), if_pos hz,
      bind_ok (listNext_ok h), ih hshift (by simpa using hn)]
    rw [List.length_cons, Nat.add_assoc, Nat.add_comm 1]

theorem listSize_ok (h : IsList H list xs) {n : Nat} (hn : xs.length < n) :
    listSize n list H = .ok (xs.length, H) := by
  rw [listSize, bind_ok (listBegin_ok h), @sizeLoop_ok _ _ [] _ h _ hn, Nat.zero_add]

end Reading

section Ordered

variable {H : Heap} {less : Less} {list x : Nat} {xs ys r zs : List Nat}

theorem listPrev_after {y : Nat} (h : IsList H list (ys ++ x :: y :: zs)) :
    listPrev y H = .ok (x, H) := by
  have hsplit : IsList H list ((ys ++ [x]) ++ y :: zs) := by simpa using h
  have hprev := listPrev_ok hsplit
  rwa [List.headD_cons, List.getLastD_concat] at hprev

theorem headD_ne (h : IsList H list (ys ++ x :: (r ++ zs))) :
    x ≠ zs.headD (tailOf list) := by
  have hnodup := (List.nodup_cons.mp h.dlist.nodup).2
  rw [List.append_assoc, List.cons_append, List.append_assoc] at hnodup
  have hx := (List.nodup_cons.mp (List.nodup_append.mp hnodup).2.1).1
  exact fun heq => hx (heq ▸ List.mem_append_right _ (headD_mem zs _))

theorem isSortedLoop_ok (h : IsList H list (ys ++ x :: (r ++ zs)))
    (hsorted : (x :: r).IsChain fun a b => less b a = false) {n : Nat} (hn : r.length < n) :
    isSortedLoop less (zs.headD (tailOf list)) n x H = .ok (true, H) := by
  induction r generalizing ys x n with
  | nil =>
    obtain ⟨n, rfl⟩ := Nat.exists_eq_add_one_of_ne_zero (Nat.ne_zero_of_lt hn)
    rw [isSortedLoop, bind_ok (listNext_ok h), if_neg (by simp), pure_ok]
  | cons y r ih =>
    obtain ⟨n, rfl⟩ := Nat.exists_eq_add_one_of_ne_zero (Nat.ne_zero_of_lt hn)
    obtain ⟨hyx, hrest⟩ := List.isChain_cons_cons.mp hsorted
    have hshift : IsList H list ((ys ++ [x]) ++ y :: (r ++ zs)) := by simpa using h
    rw [isSortedLoop, bind_ok (listNext_ok h), List.cons_append, List.headD_cons,
      if_pos (headD_ne hshift), bind_ok (listPrev_after h), if_neg (by simp [hyx]),
      ih hshift hrest (by simpa using hn)]

theorem isSorted_ok (h : IsList H list (ys ++ r ++ zs))
    (hsorted : r.IsChain fun a b => less b a = false) {n : Nat} (hn : r.length ≤ n) :
    isSorted less n ((r ++ zs).headD (tailOf list)) (zs.headD (tailOf list)) H = .ok (true, H) := by
  cases r with
  | nil =>
    rw [isSorted, if_neg (by simp), pure_ok]
  | cons x r =>
    have hsplit : IsList H list (ys ++ x :: (r ++ zs)) := by simpa using h
    rw [List.cons_append, List.headD_cons, isSorted, if_pos (headD_ne hsplit),
      isSortedLoop_ok hsplit hsorted hn]

theorem endOfRunLoop_ok (h : IsList H list (ys ++ x :: zs)) {n : Nat} (hn : zs.length < n) :
    endOfRunLoop less (tailOf list) n x H =
      .ok ((run less x zs).2.headD (tailOf list), H) := by
  induction zs generalizing ys x n with
  | nil =>
    obtain ⟨n, rfl⟩ := Nat.exists_eq_add_one_of_ne_zero (Nat.ne_zero_of_lt hn)
    rw [endOfRunLoop, bind_ok (listNext_ok h), if_neg (by simp), pure_ok]
    rfl
  | cons y zs ih =>
    obtain ⟨n, rfl⟩ := Nat.exists_eq_add_one_of_ne_zero (Nat.ne_zero_of_lt hn)
    have hshift : IsList H list ((ys ++ [x]) ++ y :: zs) := by simpa using h
    rw [endOfRunLoop, bind_ok (listNext_ok h), List.headD_cons,
      if_pos (h.ne_tail (by simp)), bind_ok (listPrev_after h), run]
    split
    · rw [pure_ok]
      rfl
    · exact ih hshift (by simpa using hn)

theorem findEndOfRun_ok (h : IsList H list (ys ++ x :: zs)) {n : Nat} (hn : zs.length < n) :
    findEndOfRun less n x (tailOf list) H =
      .ok ((run less x zs).2.headD (tailOf list), H) := by
  have hx : x ∈ ys ++ x :: zs := by simp
  rw [findEndOfRun, bind_ok (assert_ok (by simp [h.mem_ne hx])),
    bind_ok (assert_ok (by simp [h.tail_ne])), bind_ok (assert_ok (by simp [h.ne_tail hx])),
    endOfRunLoop_ok h hn]

theorem bestLoop_ok {better : Less} (h : IsList H list (ys ++ zs)) {n : Nat} (hn : zs.length < n)
    (m : Nat) :
    bestLoop better list n m (zs.headD (tailOf list)) H = .ok (best better m zs, H) := by
  induction zs generalizing ys n m with
  | nil =>
    obtain ⟨n, rfl⟩ := Nat.exists_eq_add_one_of_ne_zero (Nat.ne_zero_of_lt hn)
    rw [bestLoop, bind_ok (listEnd_ok h.head_ne), if_neg (by simp), pure_ok]
    rfl
  | cons z zs ih =>
    obtain ⟨n, rfl⟩ := Nat.exists_eq_add_one_of_ne_zero (Nat.ne_zero_of_lt hn)
    have hshift : IsList H list ((ys ++ [z]) ++ zs) := by simpa using h
    rw [List.headD_cons, bestLoop, bind_ok (listEnd_ok h.head_ne), if_pos (h.ne_tail (by simp)),
      bind_ok (listNext_ok h), ih hshift (by simpa using hn)]
    rfl

theorem listBest_nil {better : Less} (h : IsList H list []) (n : Nat) :
    listBest better n list H = .ok (tailOf list, H) := by
  rw [listBest, bind_ok (listBegin_ok h), bind_ok (listEnd_ok h.head_ne), if_neg (by simp), pure_ok]
  rfl

theorem listBest_cons {better : Less} (h : IsList H list (x :: xs)) {n : Nat}
    (hn : xs.length < n) : listBest better n list H = .ok (best better x xs, H) := by
  rw [listBest, bind_ok (listBegin_ok h), bind_ok (listEnd_ok h.head_ne),
    if_pos (h.ne_tail (by simp)), List.headD_cons, bind_ok (@listNext_ok _ _ _ [] _ h),
    @bestLoop_ok _ _ [x] _ _ h _ hn]

theorem listBest_ok {better : Less} (h : IsList H list xs) {n : Nat} (hn : xs.length < n) :
    listBest better n list H = .ok (xs.tail.foldl (fun m e => if better m e then e else m)
      (xs.headD (tailOf list)), H) := by
  cases xs with
  | nil => exact listBest_nil h n
  | cons x xs => exact listBest_cons h (Nat.lt_of_succ_lt hn)

end Ordered

end ComputerSystems.Lists.Traversal
