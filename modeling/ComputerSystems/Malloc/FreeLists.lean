/- The ten free lists in memory, and what linking and unlinking an element does to them. -/

import ComputerSystems.Lists.DoublyLinked
import ComputerSystems.Malloc.Blocks

set_option autoImplicit false
set_option relaxedAutoImplicit false

namespace ComputerSystems.Malloc.FreeLists

open ComputerSystems.Memory.Bytes
open ComputerSystems.Memory.Tiling
open ComputerSystems.Lists.DoublyLinked
open ComputerSystems.Systems.Computations (bind_ok pure_ok get_ok)
open ComputerSystems.Malloc.Machine
open ComputerSystems.Malloc.ListC
open ComputerSystems.Malloc.Mm
open ComputerSystems.Malloc.Blocks

def linksOf (m : Mem) : Links Nat := ⟨nextOf m, prevOf m⟩

/-- Two `struct list_elem`s do not overlap. -/
def Apart (x y : Nat) : Prop := x + 16 ≤ y ∨ y + 16 ≤ x

/-- A set of elements none of which overlaps another, at addresses a pointer can hold. -/
structure Spread (node : Nat → Prop) : Prop where
  apart : ∀ x y, node x → node y → x = y ∨ Apart x y
  range : ∀ x, node x → 0 < x ∧ x < 2 ^ 63

section Surgery

variable {L : Layout} {node : Nat → Prop} {s : State}

theorem nextOf_setNext {m : Mem} {x y v : Nat} (hxy : x = y ∨ Apart x y) (hv : v < 2 ^ 64) :
    nextOf (store m (x + 8) 8 v) y = if y = x then v else nextOf m y := by
  unfold nextOf
  rcases hxy with rfl | hxy
  · rw [if_pos rfl, load_store_same (by simpa using hv)]
  · unfold Apart at hxy
    rw [if_neg (by omega), load_store_disjoint (by omega)]

theorem prevOf_setNext {m : Mem} {x y v : Nat} (hxy : x = y ∨ Apart x y) :
    prevOf (store m (x + 8) 8 v) y = prevOf m y := by
  unfold prevOf
  unfold Apart at hxy
  rw [load_store_disjoint (by omega)]

theorem nextOf_setPrev {m : Mem} {x y v : Nat} (hxy : x = y ∨ Apart x y) :
    nextOf (store m x 8 v) y = nextOf m y := by
  unfold nextOf
  unfold Apart at hxy
  rw [load_store_disjoint (by omega)]

theorem prevOf_setPrev {m : Mem} {x y v : Nat} (hxy : x = y ∨ Apart x y) (hv : v < 2 ^ 64) :
    prevOf (store m x 8 v) y = if y = x then v else prevOf m y := by
  unfold prevOf
  rcases hxy with rfl | hxy
  · rw [if_pos rfl, load_store_same (by simpa using hv)]
  · unfold Apart at hxy
    rw [if_neg (by omega), load_store_disjoint (by omega)]

/-- `list_insert` links the element in and writes only to it and its two new neighbours. -/
theorem listInsert_ok {before elem : Nat} (hnode : Spread node) (hb : node before)
    (he : node elem) (hp : node (prevOf s.mem before)) (heb : elem ≠ before)
    (hep : elem ≠ prevOf s.mem before) :
    ∃ m', listInsert L before elem s = .ok ((), { s with mem := m' }) ∧
      (∀ x, node x →
        nextOf m' x = ((linksOf s.mem).insert before elem).next x ∧
        prevOf m' x = ((linksOf s.mem).insert before elem).prev x) ∧
      ∀ y, (∀ x, node x → y < x ∨ x + 16 ≤ y) → m' y = s.mem y := by
  set p := prevOf s.mem before with hpdef
  set m₁ := store s.mem elem 8 p with hm₁
  set m₂ := store m₁ (elem + 8) 8 before with hm₂
  set m₃ := store m₂ (p + 8) 8 elem with hm₃
  set m₄ := store m₃ before 8 elem with hm₄
  have hprange := hnode.range p hp
  have hbrange := hnode.range before hb
  have herange := hnode.range elem he
  have hassert : (isInterior s.mem before || isTail s.mem before) = true := by
    have hp0 : prevOf s.mem before ≠ 0 := by omega
    have hb0 : before ≠ 0 := by omega
    simp only [isInterior, isTail, Bool.or_eq_true, Bool.and_eq_true, decide_eq_true_eq]
    by_cases hn : nextOf s.mem before = 0
    · exact Or.inr ⟨⟨hb0, hp0⟩, hn⟩
    · exact Or.inl ⟨⟨hb0, hp0⟩, hn⟩
  have helem : decide (elem ≠ 0) = true := by
    simp only [decide_eq_true_eq]
    omega
  have hprev₂ : prevOf m₂ before = p := by
    rw [hm₂, prevOf_setNext (hnode.apart elem before he hb), hm₁,
      prevOf_setPrev (hnode.apart elem before he hb) (by omega), if_neg (Ne.symm heb)]
  refine ⟨m₄, ?_, ?_, ?_⟩
  · rw [listInsert, bind_ok get_ok, bind_ok (assert_ok hassert), bind_ok (assert_ok helem),
      bind_ok (access_ok (by omega)), bind_ok (setPrev_ok _ (by omega)),
      bind_ok (setNext_ok _ (by omega)), bind_ok get_ok]
    dsimp only
    rw [← hpdef, ← hm₁, ← hm₂, hprev₂, bind_ok (setNext_ok _ (by omega)),
      setPrev_ok _ (by omega)]
  · intro x hx
    have hax := fun y hy => hnode.apart y x hy hx
    constructor
    · rw [hm₄, nextOf_setPrev (hax before hb), hm₃, nextOf_setNext (hax p hp) (by omega), hm₂,
        nextOf_setNext (hax elem he) (by omega), hm₁, nextOf_setPrev (hax elem he)]
      simp only [Links.insert, linksOf, Function.update_apply, ← hpdef]
      by_cases hxe : x = elem
      · simp [hxe, hep]
      · simp [hxe]
    · rw [hm₄, prevOf_setPrev (hax before hb) (by omega), hm₃, prevOf_setNext (hax p hp), hm₂,
        prevOf_setNext (hax elem he), hm₁, prevOf_setPrev (hax elem he) (by omega)]
      simp only [Links.insert, linksOf, Function.update_apply, ← hpdef]
  · intro y hy
    have hye := hy elem he
    have hyb := hy before hb
    have hyp := hy p hp
    rw [hm₄, store_outside (by omega), hm₃, store_outside (by omega), hm₂,
      store_outside (by omega), hm₁, store_outside (by omega)]

/-- `list_remove` unlinks the element and writes only to its two neighbours. -/
theorem listRemove_ok {elem : Nat} (hnode : Spread node) (he : node elem)
    (hp : node (prevOf s.mem elem)) (hn : node (nextOf s.mem elem))
    (hep : elem ≠ prevOf s.mem elem) :
    ∃ m', listRemove L elem s = .ok (nextOf s.mem elem, { s with mem := m' }) ∧
      (∀ x, node x →
        nextOf m' x = ((linksOf s.mem).remove elem).next x ∧
        prevOf m' x = ((linksOf s.mem).remove elem).prev x) ∧
      ∀ y, (∀ x, node x → y < x ∨ x + 16 ≤ y) → m' y = s.mem y := by
  set p := prevOf s.mem elem with hpdef
  set n := nextOf s.mem elem with hndef
  set m₁ := store s.mem (p + 8) 8 n with hm₁
  set m₂ := store m₁ n 8 p with hm₂
  have hprange := hnode.range p hp
  have hnrange := hnode.range n hn
  have herange := hnode.range elem he
  have hassert : isInterior s.mem elem = true := by
    simp only [isInterior, Bool.and_eq_true, decide_eq_true_eq, ← hpdef, ← hndef]
    exact ⟨⟨by omega, by omega⟩, by omega⟩
  have hnext₁ : nextOf m₁ elem = n := by
    rw [hm₁, nextOf_setNext (hnode.apart p elem hp he) (by omega), if_neg hep]
  have hprev₁ : prevOf m₁ elem = p := by
    rw [hm₁, prevOf_setNext (hnode.apart p elem hp he)]
  have hnext₂ : nextOf m₂ elem = n := by
    rw [hm₂, nextOf_setPrev (hnode.apart n elem hn he), hnext₁]
  refine ⟨m₂, ?_, ?_, ?_⟩
  · rw [listRemove, bind_ok get_ok]
    dsimp only
    rw [bind_ok (assert_ok hassert), bind_ok (access_ok (by omega)),
      bind_ok (setNext_ok _ (by omega)), bind_ok get_ok]
    dsimp only
    rw [← hpdef, ← hndef, ← hm₁, hnext₁, hprev₁, bind_ok (setPrev_ok _ (by omega)),
      bind_ok get_ok]
    dsimp only
    rw [← hm₂, hnext₂, pure_ok]
  · intro x hx
    have hax := fun y hy => hnode.apart y x hy hx
    constructor
    · rw [hm₂, nextOf_setPrev (hax n hn), hm₁, nextOf_setNext (hax p hp) (by omega)]
      simp only [Links.remove, linksOf, Function.update_apply, ← hpdef, ← hndef]
    · rw [hm₂, prevOf_setPrev (hax n hn) (by omega), hm₁, prevOf_setNext (hax p hp)]
      simp only [Links.remove, linksOf, Function.update_apply, ← hpdef, ← hndef]
  · intro y hy
    have hyp := hy p hp
    have hyn := hy n hn
    rw [hm₂, store_outside (by omega), hm₁, store_outside (by omega)]

end Surgery

section Lists

variable (L : Layout)

/-- The elements of free list `i`, its two ends included. -/
def elemsOf (lists : Lists) (i : Nat) : List Nat :=
  listHead (freeList L i) :: ((lists i).map (· + ELEM) ++ [listTail (freeList L i)])

def Listed (m : Mem) (lists : Lists) : Prop :=
  ∀ i < FREE_LISTS_SIZE, DList (linksOf m) (listHead (freeList L i))
    ((lists i).map (· + ELEM)) (listTail (freeList L i))

def Disjoint (lists : Lists) : Prop :=
  ∀ i < FREE_LISTS_SIZE, ∀ j < FREE_LISTS_SIZE, ∀ x,
    x ∈ elemsOf L lists i → x ∈ elemsOf L lists j → i = j

variable {L} {s : State} {lists : Lists} {node : Nat → Prop} {i c : Nat}

/-- What linking a fresh element in front of an element of list `i` does to every list. -/
private theorem listed_insert {m m' : Mem} {before : Nat} {xs : List Nat}
    (hl : Listed L m lists) (hd : Disjoint L lists) (hi : i < FREE_LISTS_SIZE)
    (hbefore : before ∈ elemsOf L lists i) (hprev : prevOf m before ∈ elemsOf L lists i)
    (hfresh : ∀ j < FREE_LISTS_SIZE, c + ELEM ∉ elemsOf L lists j)
    (hnew : DList ((linksOf m).insert before (c + ELEM)) (listHead (freeList L i))
      (xs.map (· + ELEM)) (listTail (freeList L i)))
    (hxs : ∀ x ∈ xs, x = c ∨ x ∈ lists i) (hc : node (c + ELEM))
    (hsub : ∀ j < FREE_LISTS_SIZE, ∀ x ∈ elemsOf L lists j, node x)
    (hlinks : ∀ x, node x → nextOf m' x = ((linksOf m).insert before (c + ELEM)).next x ∧
      prevOf m' x = ((linksOf m).insert before (c + ELEM)).prev x) :
    Listed L m' (Function.update lists i xs) := by
  intro j hj
  by_cases hji : j = i
  · subst hji
    rw [Function.update_self]
    refine hnew.congr fun x hx => hlinks x ?_
    simp only [List.mem_cons, List.mem_append, List.mem_map, List.not_mem_nil, or_false] at hx
    rcases hx with rfl | ⟨d, hd', rfl⟩ | rfl
    · exact hsub j hj _ (by simp [elemsOf])
    · rcases hxs d hd' with rfl | hd'
      · exact hc
      · exact hsub j hj _ (by simp [elemsOf, hd'])
    · exact hsub j hj _ (by simp [elemsOf])
  · rw [Function.update_of_ne hji]
    have hout : ∀ x ∈ elemsOf L lists i, x ∉ elemsOf L lists j := fun x hx hx' =>
      hji (hd i hi j hj x hx hx').symm
    exact ((hl j hj).insert_frame (hfresh j hj) (hout before hbefore) (hout _ hprev)).congr
      fun x hx => hlinks x (hsub j hj x hx)

theorem listPushFront_ok (hl : Listed L s.mem lists) (hd : Disjoint L lists)
    (hnode : Spread node) (hi : i < FREE_LISTS_SIZE) (hc : node (c + ELEM))
    (hsub : ∀ j < FREE_LISTS_SIZE, ∀ x ∈ elemsOf L lists j, node x)
    (hfresh : ∀ j < FREE_LISTS_SIZE, c + ELEM ∉ elemsOf L lists j) :
    ∃ m', listPushFront L (freeList L i) (c + ELEM) s = .ok ((), { s with mem := m' }) ∧
      Listed L m' (Function.update lists i (c :: lists i)) ∧
      ∀ y, (∀ x, node x → y < x ∨ x + 16 ≤ y) → m' y = s.mem y := by
  have hdl := hl i hi
  have hnext : nextOf s.mem (listHead (freeList L i)) =
      ((lists i).map (· + ELEM)).headD (listTail (freeList L i)) := hdl.next_head
  set first := nextOf s.mem (listHead (freeList L i)) with hfirst
  have hmem : first ∈ elemsOf L lists i := by
    rw [hnext, elemsOf]
    cases lists i <;> simp
  have hprev : prevOf s.mem first = listHead (freeList L i) := by
    have hlinked := hdl.linked
    rw [hnext]
    cases hcase : lists i with
    | nil =>
      rw [hcase] at hlinked
      exact (Linked.split (l := []) (r := []) hlinked).2
    | cons d ds =>
      rw [hcase] at hlinked
      exact (Linked.split (l := []) (r := ds.map (· + ELEM) ++ [listTail (freeList L i)])
        hlinked).2
  have hhead : listHead (freeList L i) ∈ elemsOf L lists i := by simp [elemsOf]
  have hne : ∀ x ∈ elemsOf L lists i, c + ELEM ≠ x := fun x hx h => hfresh i hi (h ▸ hx)
  obtain ⟨m', hrun, hlinks, hframe⟩ := listInsert_ok (L := L) (s := s) hnode
    (hsub i hi first hmem) hc (hsub i hi _ (hprev ▸ hhead)) (hne first hmem)
    (hne _ (hprev ▸ hhead))
  have hlist : freeList L i ≠ 0 := by
    have hrange := hnode.range _ (hsub i hi _ hhead)
    simp only [listHead] at hrange
    omega
  have hbegin : listBegin L (freeList L i) s = .ok (first, s) := by
    rw [listBegin, bind_ok (assert_ok (by simpa using hlist)), bind_ok (access_ok hlist),
      bind_ok get_ok, pure_ok]
  refine ⟨m', ?_, ?_, hframe⟩
  · rw [listPushFront, bind_ok hbegin, hrun]
  · refine listed_insert hl hd hi hmem (hprev ▸ hhead) hfresh ?_ ?_ hc hsub hlinks
    · have hpush := hdl.push_front (e := c + ELEM) (hfresh i hi)
      simpa [hfirst, linksOf] using hpush
    · intro x hx
      simpa using hx

theorem listPushBack_ok (hl : Listed L s.mem lists) (hd : Disjoint L lists)
    (hnode : Spread node) (hi : i < FREE_LISTS_SIZE) (hc : node (c + ELEM))
    (hsub : ∀ j < FREE_LISTS_SIZE, ∀ x ∈ elemsOf L lists j, node x)
    (hfresh : ∀ j < FREE_LISTS_SIZE, c + ELEM ∉ elemsOf L lists j) :
    ∃ m', listPushBack L (freeList L i) (c + ELEM) s = .ok ((), { s with mem := m' }) ∧
      Listed L m' (Function.update lists i (lists i ++ [c])) ∧
      ∀ y, (∀ x, node x → y < x ∨ x + 16 ≤ y) → m' y = s.mem y := by
  have hdl := hl i hi
  have htail : listTail (freeList L i) ∈ elemsOf L lists i := by simp [elemsOf]
  have hprev : prevOf s.mem (listTail (freeList L i)) ∈ elemsOf L lists i := by
    have hlast : prevOf s.mem (listTail (freeList L i)) =
        ((lists i).map (· + ELEM)).getLastD (listHead (freeList L i)) := hdl.prev_tail
    rw [hlast, elemsOf]
    rcases List.eq_nil_or_concat (lists i) with hnil | ⟨ds, d, hsnoc⟩
    · simp [hnil]
    · simp [hsnoc]
  have hne : ∀ x ∈ elemsOf L lists i, c + ELEM ≠ x := fun x hx h => hfresh i hi (h ▸ hx)
  obtain ⟨m', hrun, hlinks, hframe⟩ := listInsert_ok (L := L) (s := s) hnode
    (hsub i hi (listTail (freeList L i)) htail) hc (hsub i hi _ hprev) (hne _ htail) (hne _ hprev)
  have hend : listEnd L (freeList L i) s = .ok (listTail (freeList L i), s) := by
    rw [listEnd, bind_ok (assert_ok ?_), pure_ok]
    have hrange := hnode.range _ (hsub i hi (listHead (freeList L i)) (by simp [elemsOf]))
    simp only [listHead] at hrange
    simp only [decide_eq_true_eq]
    omega
  refine ⟨m', ?_, ?_, hframe⟩
  · rw [listPushBack, bind_ok hend, hrun]
  · refine listed_insert hl hd hi htail hprev hfresh ?_ ?_ hc hsub hlinks
    · have hpush := hdl.push_back (e := c + ELEM) (hfresh i hi)
      simpa using hpush
    · intro x hx
      simpa [or_comm] using hx

theorem listRemove_listed (hl : Listed L s.mem lists) (hd : Disjoint L lists)
    (hnode : Spread node) (hi : i < FREE_LISTS_SIZE) (hc : c ∈ lists i)
    (hsub : ∀ j < FREE_LISTS_SIZE, ∀ x ∈ elemsOf L lists j, node x) :
    ∃ m' v, listRemove L (c + ELEM) s = .ok (v, { s with mem := m' }) ∧
      Listed L m' (lists.drop c) ∧
      ∀ y, (∀ x, node x → y < x ∨ x + 16 ≤ y) → m' y = s.mem y := by
  have hdl := hl i hi
  obtain ⟨ys, zs, hsplit⟩ := List.append_of_mem hc
  have hdl' : DList (linksOf s.mem) (listHead (freeList L i))
      (ys.map (· + ELEM) ++ (c + ELEM) :: zs.map (· + ELEM)) (listTail (freeList L i)) := by
    simpa [hsplit] using hdl
  have haround := hdl'.around
  have hmem : c + ELEM ∈ elemsOf L lists i := by simp [elemsOf, hc]
  have hprev : prevOf s.mem (c + ELEM) ∈ elemsOf L lists i := by
    have hp : prevOf s.mem (c + ELEM) = _ := haround.1
    rw [hp, elemsOf, hsplit]
    rcases List.eq_nil_or_concat ys with hnil | ⟨ds, d, hsnoc⟩
    · simp [hnil]
    · simp [hsnoc]
  have hnext : nextOf s.mem (c + ELEM) ∈ elemsOf L lists i := by
    have hn : nextOf s.mem (c + ELEM) = _ := haround.2
    rw [hn, elemsOf, hsplit]
    cases zs <;> simp
  have hne : c + ELEM ≠ prevOf s.mem (c + ELEM) := by
    have hp : prevOf s.mem (c + ELEM) = _ := haround.1
    have hnodup := hdl.nodup
    rw [hp]
    rw [hsplit] at hnodup
    rcases List.eq_nil_or_concat ys with hnil | ⟨ds, d, hsnoc⟩
    · subst hnil
      simp only [List.map_nil, List.getLastD_nil]
      intro h
      simp [h] at hnodup
    · subst hsnoc
      intro h
      have h : c = d := by simpa using h
      subst h
      simp [List.nodup_append] at hnodup
  obtain ⟨m', hrun, hlinks, hframe⟩ := listRemove_ok (L := L) (s := s) hnode
    (hsub i hi (c + ELEM) hmem) (hsub i hi _ hprev) (hsub i hi _ hnext) hne
  refine ⟨m', _, hrun, ?_, hframe⟩
  intro j hj
  by_cases hji : j = i
  · subst hji
    have hremove := hdl.remove (e := c + ELEM) (List.mem_map_of_mem hc)
    have herase : ((lists j).map (· + ELEM)).erase (c + ELEM) =
        ((lists.drop c) j).map (· + ELEM) := by
      rw [Lists.drop, ← List.map_erase]
      exact fun a b h => Nat.add_right_cancel h
    rw [herase] at hremove
    refine hremove.congr fun x hx => hlinks x (hsub j hj x ?_)
    simp only [List.mem_cons, List.mem_append, List.mem_map, List.not_mem_nil, or_false,
      elemsOf] at hx ⊢
    rcases hx with rfl | ⟨d, hd', rfl⟩ | rfl
    · exact Or.inl rfl
    · exact Or.inr (Or.inl ⟨d, List.erase_subset hd', rfl⟩)
    · exact Or.inr (Or.inr rfl)
  · have hout : ∀ x ∈ elemsOf L lists i, x ∉ elemsOf L lists j := fun x hx hx' =>
      hji (hd i hi j hj x hx hx').symm
    have hskip : (lists.drop c) j = lists j := by
      refine List.erase_of_not_mem fun hcj => ?_
      exact hout _ hmem (by simp [elemsOf, hcj])
    rw [hskip]
    exact ((hl j hj).remove_frame (hout _ hprev) (hout _ hnext)).congr
      fun x hx => hlinks x (hsub j hj x hx)

end Lists

end ComputerSystems.Malloc.FreeLists
