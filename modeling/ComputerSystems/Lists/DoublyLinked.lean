/- Doubly linked lists between two sentinels, over any type of nodes. -/

import Mathlib.Data.List.Chain
import Mathlib.Data.List.Nodup
import Mathlib.Logic.Function.Basic
import Mathlib.Tactic.Linarith

set_option autoImplicit false
set_option relaxedAutoImplicit false

namespace ComputerSystems.Lists.DoublyLinked

structure Links (α : Type) where
  next : α → α
  prev : α → α

variable {α : Type}

/-- Each node of the sequence points at its successor and is pointed back at by it. -/
def Linked (L : Links α) : List α → Prop :=
  List.IsChain (fun x y => L.next x = y ∧ L.prev y = x)

/-- The interior nodes `xs`, in order, hang between the sentinels `head` and `tail`. -/
structure DList (L : Links α) (head : α) (xs : List α) (tail : α) : Prop where
  linked : Linked L (head :: (xs ++ [tail]))
  nodup : (head :: (xs ++ [tail])).Nodup

theorem Linked.split {L : Links α} {l r : List α} {x y : α}
    (h : Linked L (l ++ x :: y :: r)) : L.next x = y ∧ L.prev y = x :=
  (List.isChain_append_cons_cons.mp h).2.1

/-- The last node's `next` and the first node's `prev` lead outside and are not read. -/
theorem Linked.congr {L L' : Links α} {l : List α} (h : Linked L l)
    (hnext : ∀ x ∈ l.dropLast, L'.next x = L.next x)
    (hprev : ∀ x ∈ l.tail, L'.prev x = L.prev x) : Linked L' l := by
  induction l with
  | nil => exact List.isChain_nil
  | cons x l ih =>
    cases l with
    | nil => exact List.isChain_singleton x
    | cons y l =>
      obtain ⟨hxy, htail⟩ := List.isChain_cons_cons.mp h
      refine List.isChain_cons_cons.mpr ⟨⟨?_, ?_⟩, ih htail ?_ ?_⟩
      · exact (hnext x (by simp)).trans hxy.1
      · exact (hprev y (by simp)).trans hxy.2
      · intro z hz
        exact hnext z (by simp only [List.dropLast_cons_cons, List.mem_cons]; exact Or.inr hz)
      · intro z hz
        exact hprev z (List.mem_cons_of_mem y hz)

theorem DList.congr {L L' : Links α} {head tail : α} {xs : List α} (h : DList L head xs tail)
    (hsame : ∀ x ∈ head :: (xs ++ [tail]), L'.next x = L.next x ∧ L'.prev x = L.prev x) :
    DList L' head xs tail :=
  ⟨h.linked.congr (fun x hx => (hsame x (List.dropLast_subset _ hx)).1)
    (fun x hx => (hsame x (List.mem_of_mem_tail hx)).2), h.nodup⟩

theorem DList.next_head {L : Links α} {head tail : α} {xs : List α} (h : DList L head xs tail) :
    L.next head = xs.headD tail := by
  cases xs with
  | nil => exact (Linked.split (l := []) (r := []) h.linked).1
  | cons x xs => exact (Linked.split (l := []) (r := xs ++ [tail]) h.linked).1

theorem DList.prev_tail {L : Links α} {head tail : α} {xs : List α} (h : DList L head xs tail) :
    L.prev tail = xs.getLastD head := by
  rcases List.eq_nil_or_concat xs with rfl | ⟨ys, y, rfl⟩
  · exact (Linked.split (l := []) (r := []) h.linked).2
  · have hlink : Linked L ((head :: ys) ++ y :: tail :: []) := by
      simpa using h.linked
    simpa using hlink.split.2

theorem DList.around {L : Links α} {head tail e : α} {ys zs : List α}
    (h : DList L head (ys ++ e :: zs) tail) :
    L.prev e = ys.getLastD head ∧ L.next e = zs.headD tail := by
  constructor
  · rcases List.eq_nil_or_concat ys with rfl | ⟨ys, y, rfl⟩
    · exact (Linked.split (l := []) (r := zs ++ [tail]) (by simpa using h.linked)).2
    · have hlink : Linked L ((head :: ys) ++ y :: e :: (zs ++ [tail])) := by
        simpa using h.linked
      simpa using hlink.split.2
  · cases zs with
    | nil =>
      have hlink : Linked L ((head :: ys) ++ e :: tail :: []) := by simpa using h.linked
      exact hlink.split.1
    | cons z zs =>
      have hlink : Linked L ((head :: ys) ++ e :: z :: (zs ++ [tail])) := by
        simpa using h.linked
      exact hlink.split.1

theorem DList.prev_mem {L : Links α} {head tail x : α} {xs : List α} (h : DList L head xs tail)
    (hx : x ∈ xs ++ [tail]) : L.prev x ∈ head :: xs := by
  rcases List.mem_append.mp hx with hx | hx
  · obtain ⟨ys, zs, rfl⟩ := List.append_of_mem hx
    rw [h.around.1]
    rcases List.eq_nil_or_concat ys with rfl | ⟨ys, y, rfl⟩ <;> simp
  · rw [List.mem_singleton.mp hx, h.prev_tail]
    rcases List.eq_nil_or_concat xs with rfl | ⟨ys, y, rfl⟩ <;> simp

theorem DList.next_mem {L : Links α} {head tail x : α} {xs : List α} (h : DList L head xs tail)
    (hx : x ∈ head :: xs) : L.next x ∈ xs ++ [tail] := by
  rcases List.mem_cons.mp hx with rfl | hx
  · rw [h.next_head]
    cases xs <;> simp
  · obtain ⟨ys, zs, rfl⟩ := List.append_of_mem hx
    rw [h.around.2]
    cases zs <;> simp

private theorem isChain_concat {R : α → α → Prop} {l : List α} {z : α}
    (h : (l ++ [z]).IsChain R) : (l ++ [z]).IsChain fun x y => x ∈ l ∧ R x y := by
  induction l with
  | nil => exact List.isChain_singleton z
  | cons x l ih =>
    rw [List.cons_append, List.isChain_cons] at h ⊢
    refine ⟨fun y hy => ⟨List.mem_cons_self, h.1 y hy⟩, (ih h.2).imp fun y w hyw => ?_⟩
    exact ⟨List.mem_cons_of_mem x hyw.1, hyw.2⟩

/-- Following `next` from the first interior node visits them all and ends at the sentinel. -/
theorem DList.forward {L : Links α} {head tail : α} {xs : List α} (h : DList L head xs tail) :
    (xs ++ [tail]).IsChain fun x y => x ∈ xs ∧ L.next x = y :=
  (isChain_concat h.linked.tail).imp fun _ _ hxy => ⟨hxy.1, hxy.2.1⟩

theorem DList.backward {L : Links α} {head tail : α} {xs : List α} (h : DList L head xs tail) :
    (xs.reverse ++ [head]).IsChain fun x y => x ∈ xs ∧ L.prev x = y := by
  have hlinked : (head :: xs).IsChain fun x y => L.next x = y ∧ L.prev y = x := by
    have hall := h.linked
    rw [← List.cons_append] at hall
    exact hall.left_of_append
  have hreverse : (xs.reverse ++ [head]).IsChain fun y x => L.next x = y ∧ L.prev y = x := by
    rw [← List.reverse_cons, List.isChain_reverse]
    exact hlinked
  exact (isChain_concat hreverse).imp fun _ _ hxy => ⟨List.mem_reverse.mp hxy.1, hxy.2.2⟩

section Surgery

variable [DecidableEq α]

/-- Link `e` in front of the node `before`. -/
def Links.insert (L : Links α) (before e : α) : Links α where
  next := Function.update (Function.update L.next (L.prev before) e) e before
  prev := Function.update (Function.update L.prev e (L.prev before)) before e

/-- Unlink `e`: its two neighbours point at each other. -/
def Links.remove (L : Links α) (e : α) : Links α where
  next := Function.update L.next (L.prev e) (L.next e)
  prev := Function.update L.prev (L.next e) (L.prev e)

theorem Links.insert_next_of_ne (L : Links α) {before e x : α} (he : x ≠ e)
    (hp : x ≠ L.prev before) : (L.insert before e).next x = L.next x := by
  simp [Links.insert, Function.update_of_ne, he, hp]

theorem Links.insert_prev_of_ne (L : Links α) {before e x : α} (he : x ≠ e)
    (hb : x ≠ before) : (L.insert before e).prev x = L.prev x := by
  simp [Links.insert, Function.update_of_ne, he, hb]

theorem Links.remove_next_of_ne (L : Links α) {e x : α} (hp : x ≠ L.prev e) :
    (L.remove e).next x = L.next x := by
  simp [Links.remove, Function.update_of_ne, hp]

theorem Links.remove_prev_of_ne (L : Links α) {e x : α} (hn : x ≠ L.next e) :
    (L.remove e).prev x = L.prev x := by
  simp [Links.remove, Function.update_of_ne, hn]

private theorem linked_insert {L : Links α} {l r : List α} {p b e : α}
    (h : Linked L (l ++ p :: b :: r)) (hnodup : (l ++ p :: b :: r).Nodup)
    (he : e ∉ l ++ p :: b :: r) : Linked (L.insert b e) (l ++ p :: e :: b :: r) := by
  have hp : L.prev b = p := h.split.2
  obtain ⟨hys, _, hzs⟩ := List.isChain_append_cons_cons.mp h
  simp only [List.mem_append, List.mem_cons, not_or] at he
  obtain ⟨hel, hep, heb, her⟩ := he
  simp only [List.nodup_append, List.nodup_cons, List.mem_cons, not_or] at hnodup
  obtain ⟨hnys, ⟨⟨hpb, hpzs⟩, hbzs, hnzs⟩, hdisj⟩ := hnodup
  refine List.isChain_append_cons_cons.mpr ⟨?_, ?_, List.isChain_cons_cons.mpr ⟨?_, ?_⟩⟩
  · refine Linked.congr hys ?_ ?_
    · intro x hx
      have hx : x ∈ l := by simpa using hx
      refine L.insert_next_of_ne (fun h => hel (h ▸ hx)) ?_
      rw [hp]
      exact hdisj x hx p (Or.inl rfl)
    · intro x hx
      have hx : x ∈ l ∨ x = p := by simpa using List.mem_of_mem_tail hx
      rcases hx with hx | rfl
      · exact L.insert_prev_of_ne (fun h => hel (h ▸ hx)) (hdisj x hx b (by simp))
      · exact L.insert_prev_of_ne (Ne.symm hep) hpb
  · refine ⟨?_, ?_⟩
    · simp only [Links.insert, hp]
      rw [Function.update_of_ne (Ne.symm hep), Function.update_self]
    · simp only [Links.insert, hp]
      rw [Function.update_of_ne heb, Function.update_self]
  · simp [Links.insert]
  · refine Linked.congr hzs ?_ ?_
    · intro x hx
      have hx : x = b ∨ x ∈ r := by simpa using List.dropLast_subset _ hx
      rw [← hp] at hpb hpzs
      rcases hx with rfl | hx
      · exact L.insert_next_of_ne (Ne.symm heb) (Ne.symm hpb)
      · exact L.insert_next_of_ne (fun h => her (h ▸ hx)) (fun h => hpzs (h ▸ hx))
    · intro x hx
      have hx : x ∈ r := by simpa using hx
      exact L.insert_prev_of_ne (fun h => her (h ▸ hx)) (fun h => hbzs (h ▸ hx))

private theorem linked_remove {L : Links α} {l r : List α} {p e b : α}
    (h : Linked L (l ++ p :: e :: b :: r)) (hnodup : (l ++ p :: e :: b :: r).Nodup) :
    Linked (L.remove e) (l ++ p :: b :: r) := by
  have hp : L.prev e = p := h.split.2
  obtain ⟨hys, _, htail⟩ := List.isChain_append_cons_cons.mp h
  obtain ⟨⟨hb, _⟩, hzs⟩ := List.isChain_cons_cons.mp htail
  simp only [List.nodup_append, List.nodup_cons, List.mem_cons, not_or] at hnodup
  obtain ⟨hnys, ⟨⟨hpe, hpb, hpzs⟩, _, hbzs, hnzs⟩, hdisj⟩ := hnodup
  refine List.isChain_append_cons_cons.mpr ⟨?_, ?_, ?_⟩
  · refine Linked.congr hys ?_ ?_
    · intro x hx
      have hx : x ∈ l := by simpa using hx
      refine L.remove_next_of_ne ?_
      rw [hp]
      exact hdisj x hx p (Or.inl rfl)
    · intro x hx
      have hx : x ∈ l ∨ x = p := by simpa using List.mem_of_mem_tail hx
      refine L.remove_prev_of_ne ?_
      rw [hb]
      rcases hx with hx | rfl
      · exact hdisj x hx b (by simp)
      · exact hpb
  · simp [Links.remove, hp, hb]
  · refine Linked.congr hzs ?_ ?_
    · intro x hx
      have hx : x = b ∨ x ∈ r := by simpa using List.dropLast_subset _ hx
      refine L.remove_next_of_ne ?_
      rw [hp]
      rcases hx with rfl | hx
      · exact Ne.symm hpb
      · exact fun h => hpzs (h ▸ hx)
    · intro x hx
      have hx : x ∈ r := by simpa using hx
      refine L.remove_prev_of_ne ?_
      rw [hb]
      exact fun h => hbzs (h ▸ hx)

theorem DList.push_front {L : Links α} {head tail e : α} {xs : List α}
    (h : DList L head xs tail) (he : e ∉ head :: (xs ++ [tail])) :
    DList (L.insert (L.next head) e) head (e :: xs) tail := by
  have hnodup : (head :: (e :: xs ++ [tail])).Nodup := by
    have hn := h.nodup
    simp only [List.mem_cons, List.mem_append, List.cons_append, List.nodup_cons, not_or] at *
    tauto
  refine ⟨?_, hnodup⟩
  rw [h.next_head]
  cases xs with
  | nil => exact linked_insert (l := []) (r := []) h.linked h.nodup he
  | cons x xs => exact linked_insert (l := []) (r := xs ++ [tail]) h.linked h.nodup he

theorem DList.push_back {L : Links α} {head tail e : α} {xs : List α}
    (h : DList L head xs tail) (he : e ∉ head :: (xs ++ [tail])) :
    DList (L.insert tail e) head (xs ++ [e]) tail := by
  have hnodup : (head :: (xs ++ [e] ++ [tail])).Nodup := by
    have hn := h.nodup
    simp only [List.mem_cons, List.mem_append, List.nodup_cons, List.nodup_append, not_or] at *
    grind
  refine ⟨?_, hnodup⟩
  rcases List.eq_nil_or_concat xs with rfl | ⟨ys, y, rfl⟩
  · exact linked_insert (l := []) (r := []) h.linked h.nodup he
  · have hins := linked_insert (L := L) (l := head :: ys) (p := y) (b := tail) (e := e) (r := [])
      (by simpa using h.linked) (by simpa using h.nodup) (by simpa using he)
    simpa using hins

theorem DList.remove {L : Links α} {head tail e : α} {xs : List α}
    (h : DList L head xs tail) (he : e ∈ xs) :
    DList (L.remove e) head (xs.erase e) tail := by
  obtain ⟨ys, zs, rfl⟩ := List.append_of_mem he
  have hnodup := h.nodup
  have hey : e ∉ ys := by
    simp only [List.nodup_cons, List.append_assoc, List.cons_append, List.nodup_append] at hnodup
    grind
  have herase : (ys ++ e :: zs).erase e = ys ++ zs := by
    rw [List.erase_append_right _ hey, List.erase_cons_head]
  rw [herase]
  refine ⟨?_, hnodup.sublist ?_⟩
  · rcases List.eq_nil_or_concat ys with rfl | ⟨ys, y, rfl⟩
    · cases zs with
      | nil => exact linked_remove (l := []) (r := []) h.linked hnodup
      | cons z zs => exact linked_remove (l := []) (r := zs ++ [tail]) h.linked hnodup
    · cases zs with
      | nil =>
        have hrem := linked_remove (L := L) (l := head :: ys) (p := y) (e := e) (b := tail)
          (r := []) (by simpa using h.linked) (by simpa using hnodup)
        simpa using hrem
      | cons z zs =>
        have hrem := linked_remove (L := L) (l := head :: ys) (p := y) (e := e) (b := z)
          (r := zs ++ [tail]) (by simpa using h.linked) (by simpa using hnodup)
        simpa using hrem
  · simp

/-- A list none of whose nodes is `e` or one of its new neighbours does not see the insertion. -/
theorem DList.insert_frame {L : Links α} {head tail before e : α} {xs : List α}
    (h : DList L head xs tail) (he : e ∉ head :: (xs ++ [tail]))
    (hb : before ∉ head :: (xs ++ [tail])) (hp : L.prev before ∉ head :: (xs ++ [tail])) :
    DList (L.insert before e) head xs tail :=
  h.congr fun _ hx => ⟨L.insert_next_of_ne (fun hx' => he (hx' ▸ hx)) (fun hx' => hp (hx' ▸ hx)),
    L.insert_prev_of_ne (fun hx' => he (hx' ▸ hx)) (fun hx' => hb (hx' ▸ hx))⟩

theorem DList.remove_frame {L : Links α} {head tail e : α} {xs : List α}
    (h : DList L head xs tail) (hp : L.prev e ∉ head :: (xs ++ [tail]))
    (hn : L.next e ∉ head :: (xs ++ [tail])) : DList (L.remove e) head xs tail :=
  h.congr fun _ hx => ⟨L.remove_next_of_ne (fun hx' => hp (hx' ▸ hx)),
    L.remove_prev_of_ne (fun hx' => hn (hx' ▸ hx))⟩

end Surgery

end ComputerSystems.Lists.DoublyLinked
