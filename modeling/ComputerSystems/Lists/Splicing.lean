/- Cutting a stretch out of a doubly linked list, pasting it in elsewhere, and reversing. -/

import ComputerSystems.Lists.DoublyLinked

set_option autoImplicit false
set_option relaxedAutoImplicit false

namespace ComputerSystems.Lists.Splicing

open ComputerSystems.Lists.DoublyLinked

variable {α : Type}

theorem linked_append {L : Links α} {l r : List α} {p n : α} :
    Linked L (l ++ [p] ++ n :: r) ↔
      Linked L (l ++ [p]) ∧ (L.next p = n ∧ L.prev n = p) ∧ Linked L (n :: r) := by
  rw [List.append_assoc, List.singleton_append]
  exact List.isChain_append_cons_cons

section Surgery

variable [DecidableEq α]

/-- Take the stretch from `first` to `last` out: its two neighbours point at each other. -/
def cut (L : Links α) (first last : α) : Links α where
  next := Function.update L.next (L.prev first) (L.next last)
  prev := Function.update L.prev (L.next last) (L.prev first)

/-- Link the stretch from `first` to `last` in front of `before`. -/
def paste (L : Links α) (before first last : α) : Links α where
  next := Function.update (Function.update L.next last before) (L.prev before) first
  prev := Function.update (Function.update L.prev first (L.prev before)) before last

theorem cut_next_of_ne (L : Links α) {first last x : α} (hp : x ≠ L.prev first) :
    (cut L first last).next x = L.next x := Function.update_of_ne hp _ _

theorem cut_prev_of_ne (L : Links α) {first last x : α} (hn : x ≠ L.next last) :
    (cut L first last).prev x = L.prev x := Function.update_of_ne hn _ _

theorem paste_next_of_ne (L : Links α) {before first last x : α} (hl : x ≠ last)
    (hp : x ≠ L.prev before) : (paste L before first last).next x = L.next x := by
  simp only [paste, Function.update_of_ne hp, Function.update_of_ne hl]

theorem paste_prev_of_ne (L : Links α) {before first last x : α} (hf : x ≠ first)
    (hb : x ≠ before) : (paste L before first last).prev x = L.prev x := by
  simp only [paste, Function.update_of_ne hb, Function.update_of_ne hf]

variable {L : Links α} {l r seg : List α} {p n b first last : α}

theorem linked_cut (h : Linked L (l ++ [p] ++ (seg ++ n :: r)))
    (hnodup : (l ++ [p] ++ (seg ++ n :: r)).Nodup) (hfirst : seg.head? = some first)
    (hlast : seg.getLast? = some last) :
    Linked (cut L first last) (l ++ [p] ++ n :: r) ∧ Linked (cut L first last) seg := by
  obtain ⟨hl, hrest, hpf⟩ := List.isChain_append.mp h
  obtain ⟨hseg, hr, hln⟩ := List.isChain_append.mp hrest
  have hp : L.next p = first ∧ L.prev first = p :=
    hpf p (by simp) first (by simp [List.head?_append, hfirst])
  have hn : L.next last = n ∧ L.prev n = last := hln last (by simp [hlast]) n (by simp)
  have hdisj := List.nodup_append.mp hnodup
  have hdisj' := List.nodup_append.mp hdisj.2.1
  have hpl : p ∉ l := by
    have := (List.nodup_append.mp hdisj.1).2.2
    exact fun hmem => this p hmem p (by simp) rfl
  have hpne : ∀ x ∈ seg ++ n :: r, x ≠ p := fun x hx => (hdisj.2.2 p (by simp) x hx).symm
  have hnne : ∀ x ∈ l ++ [p], x ≠ n := fun x hx => hdisj.2.2 x hx n (by simp)
  have hnr : n ∉ r := (List.nodup_cons.mp hdisj'.2.1).1
  constructor
  · refine linked_append.mpr ⟨Linked.congr hl ?_ ?_, ⟨?_, ?_⟩,
      Linked.congr hr ?_ ?_⟩
    · intro x hx
      have hx : x ∈ l := by simpa using hx
      refine cut_next_of_ne L ?_
      rw [hp.2]
      exact fun hxp => hpl (hxp ▸ hx)
    · intro x hx
      refine cut_prev_of_ne L ?_
      rw [hn.1]
      exact hnne x (List.mem_of_mem_tail hx)
    · simp [cut, hp.2, hn.1]
    · simp [cut, hp.2, hn.1]
    · intro x hx
      refine cut_next_of_ne L ?_
      rw [hp.2]
      exact hpne x (List.mem_append_right _ (List.dropLast_subset _ hx))
    · intro x hx
      have hx : x ∈ r := by simpa using hx
      refine cut_prev_of_ne L ?_
      rw [hn.1]
      exact fun hxn => hnr (hxn ▸ hx)
  · refine Linked.congr hseg ?_ ?_
    · intro x hx
      refine cut_next_of_ne L ?_
      rw [hp.2]
      exact hpne x (List.mem_append_left _ (List.dropLast_subset _ hx))
    · intro x hx
      refine cut_prev_of_ne L ?_
      rw [hn.1]
      exact hdisj'.2.2 x (List.mem_of_mem_tail hx) n (by simp)

theorem linked_paste (h : Linked L (l ++ [p] ++ b :: r)) (hseg : Linked L seg)
    (hnodup : (l ++ [p] ++ (seg ++ b :: r)).Nodup) (hfirst : seg.head? = some first)
    (hlast : seg.getLast? = some last) :
    Linked (paste L b first last) (l ++ [p] ++ (seg ++ b :: r)) := by
  obtain ⟨hl, ⟨-, hp⟩, hr⟩ := linked_append.mp h
  obtain ⟨-, hright, hdisj⟩ := List.nodup_append.mp hnodup
  obtain ⟨hsnodup, hbr, hsb⟩ := List.nodup_append.mp hright
  have hpl : p ∉ l := by
    have := (List.nodup_append.mp (List.nodup_append.mp hnodup).1).2.2
    exact fun hmem => this p hmem p (by simp) rfl
  have hfmem : first ∈ seg := List.mem_of_head? hfirst
  have hlmem : last ∈ seg := List.mem_of_getLast? hlast
  have hlp : last ≠ p := (hdisj p (by simp) last (by simp [hlmem])).symm
  have hfb : first ≠ b := hsb first hfmem b (by simp)
  -- the two ends of the stretch are the only ones of its nodes that are written
  have hdrop : ∀ x ∈ seg.dropLast, x ≠ last := by
    obtain ⟨ys, rfl⟩ := List.getLast?_eq_some_iff.mp hlast
    intro x hx
    rw [List.dropLast_concat] at hx
    exact (List.nodup_append.mp hsnodup).2.2 x hx last (by simp)
  have htail : ∀ x ∈ seg.tail, x ≠ first := by
    obtain ⟨ys, rfl⟩ := List.head?_eq_some_iff.mp hfirst
    intro x hx hxf
    exact (List.nodup_cons.mp hsnodup).1 (hxf ▸ hx)
  refine List.isChain_append.mpr ⟨Linked.congr hl ?_ ?_,
    List.isChain_append.mpr ⟨Linked.congr hseg ?_ ?_,
      Linked.congr hr ?_ ?_, ?_⟩, ?_⟩
  · intro x hx
    have hx : x ∈ l := by simpa using hx
    refine paste_next_of_ne L (hdisj x (by simp [hx]) last (by simp [hlmem])) ?_
    rw [hp]
    exact fun hxp => hpl (hxp ▸ hx)
  · intro x hx
    have hx := List.mem_of_mem_tail hx
    exact paste_prev_of_ne L (hdisj x hx first (by simp [hfmem])) (hdisj x hx b (by simp))
  · intro x hx
    refine paste_next_of_ne L (hdrop x hx) ?_
    rw [hp]
    exact (hdisj p (by simp) x (by simp [List.dropLast_subset _ hx])).symm
  · intro x hx
    exact paste_prev_of_ne L (htail x hx) (hsb x (List.mem_of_mem_tail hx) b (by simp))
  · intro x hx
    have hx := List.dropLast_subset _ hx
    refine paste_next_of_ne L (hsb last hlmem x hx).symm ?_
    rw [hp]
    exact (hdisj p (by simp) x (by simp only [List.mem_append]; exact Or.inr hx)).symm
  · intro x hx
    have hx : x ∈ r := by simpa using hx
    refine paste_prev_of_ne L (hsb first hfmem x (by simp [hx])).symm ?_
    exact fun hxb => (List.nodup_cons.mp hbr).1 (hxb ▸ hx)
  · rintro x hx y hy
    obtain rfl : x = last := by simpa [hlast] using hx.symm
    obtain rfl : y = b := by simpa using hy.symm
    simp [paste, hp, Function.update_of_ne hlp]
  · rintro x hx y hy
    obtain rfl : x = p := by simpa using hx.symm
    obtain rfl : y = first := by simpa [List.head?_append, hfirst] using hy.symm
    simp [paste, hp, Function.update_of_ne hfb]

end Surgery

section Lists

variable {L : Links α} {head tail first last : α} {ys seg zs : List α}

private theorem snoc (head : α) (ys : List α) :
    ∃ l p, head :: ys = l ++ [p] ∧ p = ys.getLastD head := by
  rcases List.eq_nil_or_concat ys with rfl | ⟨l, y, rfl⟩
  · exact ⟨[], head, rfl, rfl⟩
  · exact ⟨head :: l, y, by simp, by simp⟩

private theorem uncons (zs : List α) (tail : α) :
    ∃ n r, zs ++ [tail] = n :: r ∧ n = zs.headD tail := by
  cases zs with
  | nil => exact ⟨tail, [], rfl, rfl⟩
  | cons z zs => exact ⟨z, zs ++ [tail], rfl, rfl⟩

theorem dlist_around_stretch (h : DList L head (ys ++ seg ++ zs) tail)
    (hfirst : seg.head? = some first) (hlast : seg.getLast? = some last) :
    L.prev first = ys.getLastD head ∧ L.next last = zs.headD tail := by
  obtain ⟨l, rfl⟩ := List.head?_eq_some_iff.mp hfirst
  constructor
  · have hsplit : ys ++ first :: l ++ zs = ys ++ first :: (l ++ zs) := by simp
    rw [hsplit] at h
    exact h.around.1
  · obtain ⟨r, hr⟩ := List.getLast?_eq_some_iff.mp hlast
    have hsplit : ys ++ first :: l ++ zs = (ys ++ r) ++ last :: zs := by simp [hr]
    rw [hsplit] at h
    exact h.around.2

theorem dlist_prev_headD (h : DList L head (ys ++ zs) tail) :
    L.prev (zs.headD tail) = ys.getLastD head := by
  cases zs with
  | nil =>
    rw [List.append_nil] at h
    exact h.prev_tail
  | cons z zs => exact h.around.1

variable [DecidableEq α]

theorem dlist_cut (h : DList L head (ys ++ seg ++ zs) tail) (hfirst : seg.head? = some first)
    (hlast : seg.getLast? = some last) :
    DList (cut L first last) head (ys ++ zs) tail ∧ Linked (cut L first last) seg := by
  obtain ⟨l, p, hl, -⟩ := snoc head ys
  obtain ⟨n, r, hr, -⟩ := uncons zs tail
  have hshape : head :: (ys ++ seg ++ zs ++ [tail]) = l ++ [p] ++ (seg ++ n :: r) := by
    rw [← hl, ← hr]
    simp
  have hshape' : head :: (ys ++ zs ++ [tail]) = l ++ [p] ++ n :: r := by
    rw [← hl, ← hr]
    simp
  have hlinked := h.linked
  have hnodup := h.nodup
  rw [hshape] at hlinked hnodup
  obtain ⟨hcut, hseg⟩ := linked_cut hlinked hnodup hfirst hlast
  refine ⟨⟨hshape' ▸ hcut, ?_⟩, hseg⟩
  rw [hshape']
  exact hnodup.sublist ((List.Sublist.refl _).append (List.sublist_append_right _ _))

theorem dlist_paste (h : DList L head (ys ++ zs) tail) (hseg : Linked L seg)
    (hnodup : (head :: (ys ++ seg ++ zs ++ [tail])).Nodup) (hfirst : seg.head? = some first)
    (hlast : seg.getLast? = some last) :
    DList (paste L (zs.headD tail) first last) head (ys ++ seg ++ zs) tail := by
  obtain ⟨l, p, hl, -⟩ := snoc head ys
  obtain ⟨n, r, hr, hn⟩ := uncons zs tail
  have hshape : head :: (ys ++ seg ++ zs ++ [tail]) = l ++ [p] ++ (seg ++ n :: r) := by
    rw [← hl, ← hr]
    simp
  have hshape' : head :: (ys ++ zs ++ [tail]) = l ++ [p] ++ n :: r := by
    rw [← hl, ← hr]
    simp
  have hlinked := h.linked
  rw [hshape'] at hlinked
  refine ⟨?_, hnodup⟩
  rw [hshape] at hnodup ⊢
  rw [← hn]
  exact linked_paste hlinked hseg hnodup hfirst hlast

end Lists

/-- The list read backwards: the links between interior nodes are exchanged, and the two ends
change places. -/
theorem dlist_reverse {L L' : Links α} {head tail first last : α} {xs : List α}
    (h : DList L head xs tail) (hf : xs.head? = some first) (hl : xs.getLast? = some last)
    (hnext : ∀ x ∈ xs, L.prev x ≠ head → L'.next x = L.prev x)
    (hprev : ∀ x ∈ xs, L.next x ≠ tail → L'.prev x = L.next x)
    (hhead : L'.next head = last ∧ L'.prev last = head)
    (htail : L'.next first = tail ∧ L'.prev tail = first) : DList L' head xs.reverse tail := by
  have hhx : head ∉ xs := fun hmem => (List.nodup_cons.mp h.nodup).1 (List.mem_append_left _ hmem)
  have htx : tail ∉ xs := by
    have hdisj := (List.nodup_append.mp (List.nodup_cons.mp h.nodup).2).2.2
    exact fun hmem => hdisj tail hmem tail (by simp) rfl
  have hmiddle : Linked L' xs.reverse := by
    have hxs : Linked L xs := h.linked.tail.left_of_append
    refine List.isChain_reverse.mpr (List.IsChain.imp_of_mem_imp ?_ hxs)
    rintro x y hx hy ⟨hxy, hyx⟩
    refine ⟨(hnext y hy ?_).trans hyx, (hprev x hx ?_).trans hxy⟩
    · exact fun hhead => hhx (by rwa [← hhead, hyx])
    · exact fun htail => htx (by rwa [← htail, hxy])
  refine ⟨?_, ?_⟩
  · refine List.isChain_cons.mpr ⟨?_, List.isChain_append.mpr ⟨hmiddle, List.isChain_singleton _, ?_⟩⟩
    · intro y hy
      obtain rfl : last = y := by simpa [List.head?_append, hl] using hy
      exact hhead
    · intro x hx y hy
      obtain rfl : first = x := by simpa [hf] using hx
      obtain rfl : tail = y := by simpa using hy
      exact htail
  · have hperm : (head :: (xs.reverse ++ [tail])).Perm (head :: (xs ++ [tail])) :=
      ((List.reverse_perm xs).append_right [tail]).cons head
    exact hperm.nodup_iff.mpr h.nodup

end ComputerSystems.Lists.Splicing
