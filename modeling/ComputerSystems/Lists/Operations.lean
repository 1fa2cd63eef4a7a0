/- What the operations of `list.c` that write to the links make of a well-formed list. -/

import ComputerSystems.Lists.Traversal

set_option autoImplicit false
set_option relaxedAutoImplicit false

namespace ComputerSystems.Lists.Operations

open ComputerSystems.Lists.DoublyLinked
open ComputerSystems.Lists.Program
open ComputerSystems.Lists.Splicing
open ComputerSystems.Lists.Traversal
open ComputerSystems.Systems.Computations

/-- Only elements in `S` were written to. -/
def SameOutside (S : List Nat) (H H' : Heap) : Prop :=
  ∀ e, e ∉ S → H'.next e = H.next e ∧ H'.prev e = H.prev e

theorem SameOutside.refl (S : List Nat) (H : Heap) : SameOutside S H H := fun _ _ => ⟨rfl, rfl⟩

theorem SameOutside.trans {S : List Nat} {H H' H'' : Heap} (h : SameOutside S H H')
    (h' : SameOutside S H' H'') : SameOutside S H H'' :=
  fun e he => ⟨(h' e he).1.trans (h e he).1, (h' e he).2.trans (h e he).2⟩

theorem SameOutside.mono {S T : List Nat} {H H' : Heap} (h : SameOutside S H H') (hST : S ⊆ T) :
    SameOutside T H H' :=
  fun e he => h e fun hmem => he (hST hmem)

theorem IsList.frame {S : List Nat} {H H' : Heap} {list : Nat} {xs : List Nat}
    (h : IsList H list xs) (hsame : SameOutside S H H') (hapart : ∀ e ∈ nodes list xs, e ∉ S) :
    IsList H' list xs :=
  h.congr fun e he => hsame e (hapart e he)

section Surgery

variable {H : Heap} {list before elem first last : Nat} {ys zs us vs seg xs : List Nat}

theorem mem_nodes : elem ∈ nodes list xs ↔ elem = headOf list ∨ elem ∈ xs ∨ elem = tailOf list := by
  simp [nodes]

theorem getLastD_mem_append (us vs : List Nat) :
    us.getLastD (headOf list) ∈ headOf list :: (us ++ vs) :=
  List.cons_subset_cons _ (List.subset_append_left us vs) (getLastD_mem _ us)

theorem headD_mem_append (us vs : List Nat) :
    vs.headD (tailOf list) ∈ us ++ vs ++ [tailOf list] := by
  rw [List.append_assoc]
  exact List.mem_append_right _ (headD_mem vs _)

theorem head_notMem (h : IsList H list xs) : headOf list ∉ xs ++ [tailOf list] :=
  (List.nodup_cons.mp h.dlist.nodup).1

theorem tail_notMem (h : IsList H list xs) : tailOf list ∉ headOf list :: xs := by
  have hnodup := h.dlist.nodup
  rw [← List.cons_append] at hnodup
  exact fun hmem => (List.nodup_append.mp hnodup).2.2 _ hmem _ (by simp) rfl

theorem cut_isList (h : IsList H list (ys ++ seg ++ zs)) (hf : seg.head? = some first)
    (hl : seg.getLast? = some last) :
    IsList (cut H first last) list (ys ++ zs) ∧ Linked (cut H first last) seg := by
  obtain ⟨hprev, hnext⟩ := dlist_around_stretch h.dlist hf hl
  obtain ⟨hcut, hseg⟩ := dlist_cut h.dlist hf hl
  refine ⟨⟨hcut, ?_, ?_, ?_⟩, hseg⟩
  · rw [cut_prev_of_ne, h.front]
    intro heq
    refine head_notMem h ?_
    rw [heq, hnext]
    exact headD_mem_append _ _
  · rw [cut_next_of_ne, h.back]
    intro heq
    refine tail_notMem h ?_
    rw [heq, hprev, List.append_assoc]
    exact getLastD_mem_append _ _
  · intro e he
    refine h.nonzero e ?_
    simp only [mem_nodes, List.mem_append] at he ⊢
    tauto

theorem nodes_paste_perm : (seg ++ nodes list (us ++ vs)).Perm (nodes list (us ++ seg ++ vs)) := by
  refine List.perm_middle.trans (List.Perm.cons _ ?_)
  rw [← List.append_assoc, ← List.append_assoc]
  exact (List.perm_append_comm.append_right vs).append_right [tailOf list]

theorem paste_isList (h : IsList H list (us ++ vs)) (hseg : Linked H seg) (hnodup : seg.Nodup)
    (hapart : ∀ e ∈ seg, e ∉ nodes list (us ++ vs)) (hne : ∀ e ∈ seg, e ≠ 0)
    (hf : seg.head? = some first) (hl : seg.getLast? = some last) :
    IsList (paste H (vs.headD (tailOf list)) first last) list (us ++ seg ++ vs) := by
  have hfirst := List.mem_of_head? hf
  have hlast := List.mem_of_getLast? hl
  have hall : (nodes list (us ++ seg ++ vs)).Nodup := by
    refine nodes_paste_perm.nodup_iff.mp (List.nodup_append.mpr ⟨hnodup, h.dlist.nodup, ?_⟩)
    exact fun e he e' he' heq => hapart e he (heq ▸ he')
  refine ⟨dlist_paste h.dlist hseg hall hf hl, ?_, ?_, ?_⟩
  · rw [paste_prev_of_ne, h.front]
    · exact fun heq => hapart first hfirst (mem_nodes.mpr (Or.inl heq.symm))
    · intro heq
      refine head_notMem h ?_
      rw [heq]
      exact headD_mem_append _ _
  · rw [paste_next_of_ne, h.back]
    · exact fun heq => hapart last hlast (mem_nodes.mpr (Or.inr (Or.inr heq.symm)))
    · rw [dlist_prev_headD h.dlist]
      intro heq
      refine tail_notMem h ?_
      rw [heq]
      exact getLastD_mem_append _ _
  · intro e he
    rcases List.mem_append.mp (nodes_paste_perm.mem_iff.mpr he) with he | he
    · exact hne e he
    · exact h.nonzero e he

theorem cut_same (h : IsList H list (ys ++ seg ++ zs)) (hf : seg.head? = some first)
    (hl : seg.getLast? = some last) :
    SameOutside (nodes list (ys ++ seg ++ zs)) H (cut H first last) := by
  obtain ⟨hprev, hnext⟩ := dlist_around_stretch h.dlist hf hl
  intro e he
  refine ⟨cut_next_of_ne H fun heq => he ?_, cut_prev_of_ne H fun heq => he ?_⟩
  · rw [heq, hprev, nodes, ← List.cons_append, List.append_assoc]
    exact List.mem_append_left _ (getLastD_mem_append _ _)
  · rw [heq, hnext]
    exact List.mem_cons_of_mem _ (headD_mem_append _ _)

theorem paste_same (h : IsList H list (us ++ vs)) (hf : seg.head? = some first)
    (hl : seg.getLast? = some last) :
    SameOutside (seg ++ nodes list (us ++ vs)) H
      (paste H (vs.headD (tailOf list)) first last) := by
  have hfirst := List.mem_of_head? hf
  have hlast := List.mem_of_getLast? hl
  intro e he
  obtain ⟨hseg, hnodes⟩ := not_or.mp (mt List.mem_append.mpr he)
  refine ⟨paste_next_of_ne H (fun heq => hseg (heq ▸ hlast)) fun heq => hnodes ?_,
    paste_prev_of_ne H (fun heq => hseg (heq ▸ hfirst)) fun heq => hnodes ?_⟩
  · rw [heq, dlist_prev_headD h.dlist, nodes, ← List.cons_append]
    exact List.mem_append_left _ (getLastD_mem_append _ _)
  · rw [heq]
    exact List.mem_cons_of_mem _ (headD_mem_append _ _)

end Surgery

section Writes

variable {H : Heap} {before elem first last : Nat}

theorem listInsert_eq (hb : (isInterior H before || isTail H before) = true) (he : elem ≠ 0) :
    listInsert before elem H = .ok ((), paste H before elem elem) := by
  have hbefore : before ≠ 0 := by
    rintro rfl
    simp [isInterior, isTail] at hb
  have hprev : H.prev before ≠ 0 := by
    intro hzero
    simp [isInterior, isTail, hzero] at hb
  -- the link that is read a second time is the same
  have hagain : Function.update H.prev elem (H.prev before) before = H.prev before := by
    rw [Function.update_apply]
    split <;> rfl
  rw [listInsert, bind_ok get_ok, bind_ok (assert_ok hb), bind_ok (assert_ok (by simp [he])),
    bind_ok (getPrev_ok hbefore), bind_ok (setPrev_ok _ he), bind_ok (setNext_ok _ he),
    bind_ok (getPrev_ok hbefore)]
  dsimp only
  rw [hagain, bind_ok (setNext_ok _ hprev), setPrev_ok _ hbefore]
  rfl

theorem listRemove_eq (he : isInterior H elem = true) (hne : H.prev elem ≠ elem)
    (hne' : H.next elem ≠ elem) :
    listRemove elem H = .ok (H.next elem, cut H elem elem) := by
  have helem : elem ≠ 0 := by
    rintro rfl
    simp [isInterior] at he
  simp only [isInterior, ne_eq, Bool.and_eq_true, decide_eq_true_eq] at he
  rw [listRemove, bind_ok get_ok, bind_ok (assert_ok (by simp [isInterior, he])),
    bind_ok (getPrev_ok helem), bind_ok (getNext_ok helem), bind_ok (setNext_ok _ he.1.2),
    bind_ok (getNext_ok helem), bind_ok (getPrev_ok helem)]
  dsimp only
  rw [Function.update_of_ne (Ne.symm hne), bind_ok (setPrev_ok _ he.2), getNext_ok helem]
  dsimp only
  rw [Function.update_of_ne (Ne.symm hne)]
  rfl

theorem listSplice_self (hb : (isInterior H before || isTail H before) = true) :
    listSplice before first first H = .ok ((), H) := by
  rw [listSplice, bind_ok get_ok, bind_ok (assert_ok hb), if_pos rfl, pure_ok]

theorem listSplice_eq {behind : Nat} (hb : (isInterior H before || isTail H before) = true)
    (hne : first ≠ behind) (hlast : listPrev behind H = .ok (last, H))
    (hfi : isInterior H first = true) (hli : isInterior H last = true)
    (hapart : last ≠ H.prev first) (hprev : (cut H first last).prev before ≠ 0) :
    listSplice before first behind H = .ok ((), paste (cut H first last) before first last) := by
  have hbefore : before ≠ 0 := by
    rintro rfl
    simp [isInterior, isTail] at hb
  have hf := hfi
  have hl := hli
  simp only [isInterior, ne_eq, Bool.and_eq_true, decide_eq_true_eq] at hf hl
  have hagain : Function.update (cut H first last).prev first ((cut H first last).prev before)
      before = (cut H first last).prev before := by
    rw [Function.update_apply]
    split <;> rfl
  rw [listSplice, bind_ok get_ok, bind_ok (assert_ok hb), if_neg hne, bind_ok hlast,
    bind_ok (assert_ok hfi), bind_ok (assert_ok hli), bind_ok (getPrev_ok hf.1.1),
    bind_ok (getNext_ok hl.1.1), bind_ok (setNext_ok _ hf.1.2), bind_ok (getNext_ok hl.1.1),
    bind_ok (getPrev_ok hf.1.1)]
  dsimp only
  rw [Function.update_of_ne hapart, bind_ok (setPrev_ok _ hl.2)]
  change (_ : Prog Unit) (cut H first last) = _
  rw [bind_ok (getPrev_ok hbefore), bind_ok (setPrev_ok _ hf.1.1), bind_ok (setNext_ok _ hl.1.1),
    bind_ok (getPrev_ok hbefore)]
  dsimp only
  rw [hagain, bind_ok (setNext_ok _ hprev), setPrev_ok _ hbefore]
  rfl

end Writes

section Lists

variable {H : Heap} {list list' elem : Nat} {ys zs us vs seg xs : List Nat}

/-- The operation ends with `a`, the list then holds `xs`, and only elements in `S` were written
to. -/
def Leaves {α : Type} (x : Prog α) (H : Heap) (a : α) (list : Nat) (xs S : List Nat) : Prop :=
  Yields x H fun b H' => b = a ∧ IsList H' list xs ∧ SameOutside S H H'

theorem Leaves.bind {α β : Type} {x : Prog α} {f : α → Prog β} {a : α} {b : β} {S T : List Nat}
    (h : Leaves x H a list xs S) (hST : S ⊆ T)
    (hf : ∀ H', IsList H' list xs → Leaves (f a) H' b list' zs T) :
    Leaves (x >>= f) H b list' zs T := by
  refine Yields.bind h ?_
  rintro _ H' ⟨rfl, hlist, hsame⟩
  refine Yields.mono (hf H' hlist) ?_
  rintro _ H'' ⟨rfl, hlist', hsame'⟩
  exact ⟨rfl, hlist', (hsame.mono hST).trans hsame'⟩

theorem Leaves.after {α β : Type} {x : Prog α} {f : α → Prog β} {a : α} {b : β} {S : List Nat}
    (h : x H = .ok (a, H)) (hf : Leaves (f a) H b list xs S) : Leaves (x >>= f) H b list xs S :=
  Yields.after h hf

theorem Leaves.mono {α : Type} {x : Prog α} {a : α} {S T : List Nat} (h : Leaves x H a list xs S)
    (hST : S ⊆ T) : Leaves x H a list xs T :=
  Yields.mono h fun _ _ hend => ⟨hend.1, hend.2.1, hend.2.2.mono hST⟩

theorem listInit_ok (h : list ≠ 0) : Leaves (listInit list) H () list [] (nodes list []) := by
  have hhead : headOf list ≠ 0 := h
  have htail : tailOf list ≠ 0 := by simp [tailOf]
  have hne : headOf list ≠ tailOf list := by simp [headOf, tailOf]
  refine Yields.ok (t := ⟨Function.update (Function.update H.next (headOf list) (tailOf list))
    (tailOf list) 0, Function.update (Function.update H.prev (headOf list) 0) (tailOf list)
    (headOf list)⟩) ?_ ⟨rfl, ⟨⟨?_, ?_⟩, ?_, ?_, ?_⟩, ?_⟩
  · rw [listInit, bind_ok (assert_ok (by simp [h])), bind_ok (setPrev_ok _ hhead),
      bind_ok (setNext_ok _ hhead), bind_ok (setPrev_ok _ htail), setNext_ok _ htail]
  · refine List.isChain_cons_cons.mpr ⟨⟨?_, ?_⟩, List.isChain_singleton _⟩
    · simp [Function.update_of_ne hne]
    · simp
  · simpa using hne
  · simp [Function.update_of_ne hne]
  · simp
  · intro e he
    rcases mem_nodes.mp he with rfl | he | rfl
    · exact hhead
    · cases he
    · exact htail
  · intro e he
    have heh : e ≠ headOf list := fun heq => he (mem_nodes.mpr (Or.inl heq))
    have het : e ≠ tailOf list := fun heq => he (mem_nodes.mpr (Or.inr (Or.inr heq)))
    simp [Function.update_of_ne, heh, het]

theorem listInsert_ok (h : IsList H list (us ++ vs)) (hne : elem ≠ 0)
    (hapart : elem ∉ nodes list (us ++ vs)) :
    Leaves (listInsert (vs.headD (tailOf list)) elem) H () list (us ++ elem :: vs)
      (elem :: nodes list (us ++ vs)) := by
  refine Yields.ok (listInsert_eq (h.interior_or_tail (headD_mem_append us vs)) hne)
    ⟨rfl, ?_, @paste_same _ _ _ _ _ _ [elem] h rfl rfl⟩
  have hpaste := @paste_isList _ _ _ _ _ _ [elem] h (List.isChain_singleton _)
    (List.nodup_singleton _) (by simpa using hapart) (by simpa using hne) rfl rfl
  simpa using hpaste

theorem listPushFront_ok (h : IsList H list xs) (hne : elem ≠ 0) (hapart : elem ∉ nodes list xs) :
    Leaves (listPushFront list elem) H () list (elem :: xs) (elem :: nodes list xs) := by
  exact Yields.after (listBegin_ok h) (@listInsert_ok _ _ _ [] _ h hne hapart)

theorem listPushBack_ok (h : IsList H list xs) (hne : elem ≠ 0) (hapart : elem ∉ nodes list xs) :
    Leaves (listPushBack list elem) H () list (xs ++ [elem]) (elem :: nodes list xs) := by
  have hinsert := @listInsert_ok _ _ _ xs [] (by simpa using h) hne (by simpa using hapart)
  rw [List.append_nil] at hinsert
  exact Yields.after (listEnd_ok h.head_ne) hinsert

theorem listRemove_ok (h : IsList H list (ys ++ elem :: zs)) :
    Leaves (listRemove elem) H (zs.headD (tailOf list)) list (ys ++ zs)
      (nodes list (ys ++ elem :: zs)) := by
  have hmem : elem ∈ ys ++ elem :: zs := by simp
  have hsplit : IsList H list (ys ++ [elem] ++ zs) := by simpa using h
  have hnodup := h.dlist.nodup
  rw [List.append_assoc, List.cons_append, ← List.cons_append, List.nodup_append] at hnodup
  have hprev : H.prev elem ≠ elem := by
    rw [h.dlist.around.1]
    exact hnodup.2.2 _ (getLastD_mem _ ys) elem (by simp)
  have hnext : H.next elem ≠ elem := by
    rw [h.dlist.around.2]
    exact fun heq => (List.nodup_cons.mp hnodup.2.1).1 (heq ▸ headD_mem zs (tailOf list))
  refine Yields.ok (listRemove_eq (h.isInterior hmem) hprev hnext) ⟨h.dlist.around.2, ?_, ?_⟩
  · exact (cut_isList hsplit rfl rfl).1
  · have hsame := @cut_same _ _ _ _ _ _ [elem] hsplit rfl rfl
    simpa using hsame

theorem listPopFront_ok (h : IsList H list (elem :: zs)) :
    Leaves (listPopFront list) H elem list zs (nodes list (elem :: zs)) := by
  refine Yields.after (listFront_ok h) (Yields.bind (@listRemove_ok _ _ _ [] _ h) ?_)
  rintro a H' ⟨-, hlist, hsame⟩
  exact Yields.ok (pure_ok _) ⟨rfl, hlist, hsame⟩

theorem listPopBack_ok (h : IsList H list (ys ++ [elem])) :
    Leaves (listPopBack list) H elem list ys (nodes list (ys ++ [elem])) := by
  refine Yields.after (listBack_ok h) (Yields.bind (@listRemove_ok _ _ _ _ [] h) ?_)
  rintro a H' ⟨-, hlist, hsame⟩
  rw [List.append_nil] at hlist
  exact Yields.ok (pure_ok _) ⟨rfl, hlist, hsame⟩

theorem stretch_apart (h : IsList H list (ys ++ seg ++ zs)) :
    ∀ e ∈ nodes list (ys ++ zs), e ∉ seg := by
  have hnodup := nodes_paste_perm.nodup_iff.mpr h.dlist.nodup
  exact fun e he hseg => (List.nodup_append.mp hnodup).2.2 e hseg e he rfl

private theorem stretch_behind (h : IsList H list (ys ++ seg ++ zs)) {e : Nat} (he : e ∈ seg) :
    e ≠ zs.headD (tailOf list) := by
  intro heq
  refine stretch_apart h e ?_ he
  rw [heq]
  exact List.mem_cons_of_mem _ (headD_mem_append _ _)

private theorem stretch_front (h : IsList H list (ys ++ seg ++ zs)) {first e : Nat}
    (hf : seg.head? = some first) (he : e ∈ seg) : e ≠ H.prev first := by
  obtain ⟨last, hl⟩ : ∃ last, seg.getLast? = some last :=
    Option.isSome_iff_exists.mp (by simpa using List.ne_nil_of_mem he)
  intro heq
  refine stretch_apart h e ?_ he
  rw [heq, (dlist_around_stretch h.dlist hf hl).1, nodes, ← List.cons_append]
  exact List.mem_append_left _ (getLastD_mem_append _ _)

private theorem listPrev_stretch {last : Nat} (h : IsList H list (ys ++ seg ++ zs))
    (hl : seg.getLast? = some last) : listPrev (zs.headD (tailOf list)) H = .ok (last, H) := by
  rw [listPrev_ok h]
  obtain ⟨l, rfl⟩ := List.getLast?_eq_some_iff.mp hl
  simp

/-- The stretch `seg` of one list goes in front of any element of another, or behind its last. -/
theorem listSplice_into {first : Nat} (h : IsList H list (ys ++ seg ++ zs))
    (h' : IsList H list' (us ++ vs)) (hf : seg.head? = some first)
    (hapart : ∀ e ∈ nodes list (ys ++ seg ++ zs), e ∉ nodes list' (us ++ vs)) :
    ∃ H', listSplice (vs.headD (tailOf list')) first (zs.headD (tailOf list)) H = .ok ((), H') ∧
      IsList H' list (ys ++ zs) ∧ IsList H' list' (us ++ seg ++ vs) ∧
      SameOutside (nodes list (ys ++ seg ++ zs) ++ nodes list' (us ++ vs)) H H' := by
  obtain ⟨last, hl⟩ : ∃ last, seg.getLast? = some last :=
    Option.isSome_iff_exists.mp (by simpa using List.ne_nil_of_mem (List.mem_of_head? hf))
  obtain ⟨hcut, hseg⟩ := cut_isList h hf hl
  have hcut' : IsList (cut H first last) list' (us ++ vs) :=
    IsList.frame h' (cut_same h hf hl) fun e he he' => hapart e he' he
  have hin : ∀ e ∈ seg, e ∈ nodes list (ys ++ seg ++ zs) := by
    intro e he
    simp [he]
  have hne : ∀ e ∈ seg, e ≠ 0 := fun e he => h.nonzero e (hin e he)
  have hpaste := paste_isList hcut' hseg (List.Nodup.sublist
    ((List.sublist_append_right _ _).trans (List.sublist_append_left _ _)) h.nodup)
    (fun e he => hapart e (hin e he)) hne hf hl
  have hsame := paste_same hcut' hf hl
  refine ⟨_, listSplice_eq (h'.interior_or_tail (headD_mem_append us vs)) ?_ ?_ ?_ ?_ ?_
    (hcut'.prev_ne (headD_mem_append us vs)), ?_, hpaste, ?_⟩
  · exact stretch_behind h (List.mem_of_head? hf)
  · exact listPrev_stretch h hl
  · exact h.isInterior (by simp [List.mem_of_head? hf])
  · exact h.isInterior (by simp [List.mem_of_getLast? hl])
  · exact stretch_front h hf (List.mem_of_getLast? hl)
  · refine IsList.frame hcut hsame fun e he he' => ?_
    rcases List.mem_append.mp he' with he' | he'
    · exact stretch_apart h e he he'
    · refine hapart e ?_ he'
      simp only [mem_nodes, List.mem_append] at he ⊢
      tauto
  · refine ((cut_same h hf hl).mono (List.subset_append_left _ _)).trans (hsame.mono ?_)
    intro e he
    exact (List.mem_append.mp he).elim (fun he => List.mem_append_left _ (hin e he))
      (List.mem_append_right _)

/-- Within one list: `us` and `vs` are what is left of it in front of `before` and from it on. -/
theorem listSplice_within {first : Nat} (h : IsList H list (ys ++ seg ++ zs))
    (hrest : ys ++ zs = us ++ vs) (hf : seg.head? = some first) :
    Leaves (listSplice (vs.headD (tailOf list)) first (zs.headD (tailOf list))) H () list
      (us ++ seg ++ vs) (nodes list (ys ++ seg ++ zs)) := by
  obtain ⟨last, hl⟩ : ∃ last, seg.getLast? = some last :=
    Option.isSome_iff_exists.mp (by simpa using List.ne_nil_of_mem (List.mem_of_head? hf))
  obtain ⟨hcut, hseg⟩ := cut_isList h hf hl
  rw [hrest] at hcut
  have hin : ∀ e ∈ seg, e ∈ nodes list (ys ++ seg ++ zs) := by
    intro e he
    simp [he]
  have hsub : ∀ e ∈ nodes list (us ++ vs), e ∈ nodes list (ys ++ seg ++ zs) := by
    intro e he
    rw [← hrest] at he
    simp only [mem_nodes, List.mem_append] at he ⊢
    tauto
  have hpaste := paste_isList hcut hseg (List.Nodup.sublist
    ((List.sublist_append_right _ _).trans (List.sublist_append_left _ _)) h.nodup)
    (fun e he he' => stretch_apart h e (hrest ▸ he') he) (fun e he => h.nonzero e (hin e he)) hf hl
  have hbefore : vs.headD (tailOf list) ∈ ys ++ seg ++ zs ++ [tailOf list] := by
    have hmem := @headD_mem_append list us vs
    rw [← hrest] at hmem
    simp only [List.mem_append] at hmem ⊢
    tauto
  refine Yields.ok (listSplice_eq (h.interior_or_tail hbefore) (stretch_behind h (List.mem_of_head? hf))
    (listPrev_stretch h hl) (h.isInterior (by simp [List.mem_of_head? hf]))
    (h.isInterior (by simp [List.mem_of_getLast? hl])) (stretch_front h hf (List.mem_of_getLast? hl))
    (hcut.prev_ne (headD_mem_append us vs))) ⟨rfl, hpaste, ?_⟩
  refine (cut_same h hf hl).trans ((paste_same hcut hf hl).mono ?_)
  exact List.append_subset.mpr ⟨hin, hsub⟩

end Lists

section Reversal

variable {H : Heap} {list e : Nat} {xs ys zs : List Nat}

/-- What `swapLinks` makes of the heap. -/
def exchange (H : Heap) (e : Nat) : Heap where
  next := Function.update H.next e (H.prev e)
  prev := Function.update H.prev e (H.next e)

theorem swapLinks_ok (h : e ≠ 0) : swapLinks e H = .ok ((), exchange H e) := by
  rw [swapLinks, bind_ok (getPrev_ok h), bind_ok (getNext_ok h), bind_ok (setPrev_ok _ h),
    setNext_ok _ h]
  rfl

theorem exchange_notMem (he : e ∉ xs) :
    (xs.foldl exchange H).next e = H.next e ∧ (xs.foldl exchange H).prev e = H.prev e := by
  induction xs generalizing H with
  | nil => exact ⟨rfl, rfl⟩
  | cons x xs ih =>
    obtain ⟨hx, hxs⟩ : e ≠ x ∧ e ∉ xs := by simpa using he
    obtain ⟨hnext, hprev⟩ := ih (H := exchange H x) hxs
    exact ⟨hnext.trans (Function.update_of_ne hx _ _), hprev.trans (Function.update_of_ne hx _ _)⟩

theorem exchange_mem (he : e ∈ xs) (hnodup : xs.Nodup) :
    (xs.foldl exchange H).next e = H.prev e ∧ (xs.foldl exchange H).prev e = H.next e := by
  induction xs generalizing H with
  | nil => cases he
  | cons x xs ih =>
    obtain ⟨hx, hxs⟩ := List.nodup_cons.mp hnodup
    by_cases hex : e = x
    · obtain ⟨hnext, hprev⟩ := exchange_notMem (H := exchange H x) hx
      rw [List.foldl_cons, hex, hnext, hprev]
      simp [exchange]
    · obtain ⟨hnext, hprev⟩ := ih (H := exchange H x) ((List.mem_cons.mp he).resolve_left hex) hxs
      exact ⟨hnext.trans (Function.update_of_ne hex _ _),
        hprev.trans (Function.update_of_ne hex _ _)⟩

/-- The loop follows `prev` since that link is the former `next`. -/
theorem reverseLoop_ok (h : IsList H list (ys ++ zs)) {n : Nat} (hn : zs.length < n) :
    reverseLoop list n (zs.headD (tailOf list)) (ys.foldl exchange H) =
      .ok ((), (ys ++ zs).foldl exchange H) := by
  induction zs generalizing ys n with
  | nil =>
    obtain ⟨n, rfl⟩ := Nat.exists_eq_add_one_of_ne_zero (Nat.ne_zero_of_lt hn)
    rw [reverseLoop, bind_ok (listEnd_ok h.head_ne), if_neg (by simp), pure_ok, List.append_nil]
  | cons z zs ih =>
    obtain ⟨n, rfl⟩ := Nat.exists_eq_add_one_of_ne_zero (Nat.ne_zero_of_lt hn)
    have hz : z ∈ ys ++ z :: zs := by simp
    have hshift : IsList H list ((ys ++ [z]) ++ zs) := by simpa using h
    have hloop := ih hshift (Nat.lt_of_succ_lt_succ hn)
    have hzys : z ∉ ys := fun hmem =>
      (List.nodup_append.mp h.nodup).2.2 z hmem z List.mem_cons_self rfl
    have hnext : (exchange (ys.foldl exchange H) z).prev z = zs.headD (tailOf list) := by
      simp only [exchange, Function.update_self]
      rw [(exchange_notMem hzys).1, h.dlist.around.2]
    rw [List.headD_cons, reverseLoop, bind_ok (listEnd_ok h.head_ne), if_pos (h.ne_tail hz),
      bind_ok (swapLinks_ok (h.mem_ne hz)), bind_ok (getPrev_ok (h.mem_ne hz)), hnext]
    rw [List.foldl_concat, List.append_assoc] at hloop
    exact hloop

theorem swapNextPrev_ok {x y : Nat} (hx : x ≠ 0) (hy : y ≠ 0) :
    swapNextPrev x y H = .ok ((), ⟨Function.update H.next x (H.prev y),
      Function.update H.prev y (H.next x)⟩) := by
  rw [swapNextPrev, bind_ok (getNext_ok hx), bind_ok (getPrev_ok hy), bind_ok (setNext_ok _ hx),
    setPrev_ok _ hy]

theorem swapPrevNext_ok {x y : Nat} (hx : x ≠ 0) (hy : y ≠ 0) :
    swapPrevNext x y H = .ok ((), ⟨Function.update H.next y (H.prev x),
      Function.update H.prev x (H.next y)⟩) := by
  rw [swapPrevNext, bind_ok (getPrev_ok hx), bind_ok (getNext_ok hy), bind_ok (setPrev_ok _ hx),
    setNext_ok _ hy]

theorem listReverse_ok (h : IsList H list xs) {n : Nat} (hn : xs.length < n) :
    Leaves (listReverse n list) H () list xs.reverse (nodes list xs) := by
  by_cases hempty : xs = []
  · subst hempty
    refine Yields.ok (t := H) ?_ ⟨rfl, h, .refl _ H⟩
    rw [listReverse, bind_ok (listEmpty_ok h), if_neg (by simp), pure_ok]
  obtain ⟨first, hf⟩ : ∃ first, xs.head? = some first :=
    Option.isSome_iff_exists.mp (by simpa using hempty)
  obtain ⟨last, hl⟩ : ∃ last, xs.getLast? = some last :=
    Option.isSome_iff_exists.mp (by simpa using hempty)
  have hfirst := List.mem_of_head? hf
  have hlast := List.mem_of_getLast? hl
  have hheadne : headOf list ≠ 0 := h.head_ne
  have hht : headOf list ≠ tailOf list := by simp [headOf, tailOf]
  set E := xs.foldl exchange H with hE
  have hin : ∀ e ∈ xs, E.next e = H.prev e ∧ E.prev e = H.next e :=
    fun e he => exchange_mem he h.nodup
  have hhead : headOf list ∉ xs := fun hmem => h.ne_head hmem rfl
  have htail : tailOf list ∉ xs := fun hmem => h.ne_tail hmem rfl
  have hEhead : E.next (headOf list) = first ∧ E.prev (headOf list) = 0 := by
    rw [hE, (exchange_notMem hhead).1, (exchange_notMem hhead).2, h.dlist.next_head, h.front]
    exact ⟨by simp [hf], rfl⟩
  have hEtail : E.prev (tailOf list) = last ∧ E.next (tailOf list) = 0 := by
    rw [hE, (exchange_notMem htail).1, (exchange_notMem htail).2, h.dlist.prev_tail, h.back]
    exact ⟨by simp [hl], rfl⟩
  have hprevFirst : H.prev first = headOf list := by
    obtain ⟨l, rfl⟩ := List.head?_eq_some_iff.mp hf
    exact (@DList.around _ _ _ _ _ [] _ h.dlist).1
  have hnextLast : H.next last = tailOf list := by
    obtain ⟨l, rfl⟩ := List.getLast?_eq_some_iff.mp hl
    exact (@DList.around _ _ _ _ _ _ [] h.dlist).2
  set E' : Heap := ⟨Function.update E.next (headOf list) last,
    Function.update E.prev (tailOf list) first⟩ with hE'
  -- the two ends of the reversed list, each of which still points at the sentinel it has left
  have hlastPrev : E'.prev last = tailOf list := by
    rw [hE']
    dsimp only
    rw [Function.update_of_ne (h.ne_tail hlast), (hin last hlast).2, hnextLast]
  have hfirstNext : E'.next first = headOf list := by
    rw [hE']
    dsimp only
    rw [Function.update_of_ne (h.ne_head hfirst), (hin first hfirst).1, hprevFirst]
  refine Yields.ok (t := ⟨Function.update E'.next first (tailOf list),
    Function.update E'.prev last (headOf list)⟩) ?_ ⟨rfl, ⟨?_, ?_, ?_, ?_⟩, ?_⟩
  · have hloop := @reverseLoop_ok _ _ [] _ h _ hn
    rw [List.foldl_nil] at hloop
    rw [listReverse, bind_ok (listEmpty_ok h), if_pos (by simp [hempty]), bind_ok (listBegin_ok h),
      bind_ok hloop, bind_ok (swapNextPrev_ok hheadne h.tail_ne), List.nil_append, ← hE, hEhead.1,
      hEtail.1, ← hE', bind_ok (getNext_ok hheadne), bind_ok (getPrev_ok h.tail_ne)]
    have hx : E'.next (headOf list) = last := Function.update_self _ _ _
    have hy : E'.prev (tailOf list) = first := Function.update_self _ _ _
    rw [hx, hy, swapPrevNext_ok (h.mem_ne hlast) (h.mem_ne hfirst), hlastPrev, hfirstNext]
  · refine dlist_reverse h.dlist hf hl ?_ ?_ ?_ ?_
    · intro x hx hne
      have hxf : x ≠ first := fun heq => hne (heq ▸ hprevFirst)
      simp only [hE', Function.update_of_ne hxf, Function.update_of_ne (h.ne_head hx)]
      exact (hin x hx).1
    · intro x hx hne
      have hxl : x ≠ last := fun heq => hne (heq ▸ hnextLast)
      simp only [hE', Function.update_of_ne hxl, Function.update_of_ne (h.ne_tail hx)]
      exact (hin x hx).2
    · simp [hE', Function.update_of_ne (h.ne_head hfirst).symm]
    · simp [hE', Function.update_of_ne (h.ne_tail hlast).symm]
  · simp only [hE', Function.update_of_ne (h.ne_head hlast).symm, Function.update_of_ne hht]
    exact hEhead.2
  · simp only [hE', Function.update_of_ne (h.ne_tail hfirst).symm, Function.update_of_ne hht.symm]
    exact hEtail.2
  · intro e he
    refine h.nonzero e ?_
    simpa [mem_nodes] using he
  · intro e he
    obtain ⟨heh, hex, het⟩ : e ≠ headOf list ∧ e ∉ xs ∧ e ≠ tailOf list := by
      simpa [mem_nodes] using he
    have hef : e ≠ first := fun heq => hex (heq ▸ hfirst)
    have hel : e ≠ last := fun heq => hex (heq ▸ hlast)
    simp only [hE', Function.update_of_ne hef, Function.update_of_ne hel,
      Function.update_of_ne heh, Function.update_of_ne het]
    exact exchange_notMem hex

end Reversal

end ComputerSystems.Lists.Operations
