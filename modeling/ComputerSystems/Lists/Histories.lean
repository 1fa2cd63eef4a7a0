/- Any sequence of list operations on any number of lists does to the links what it does to the
sequences of their elements. -/

import ComputerSystems.Lists.Sorting

set_option autoImplicit false
set_option relaxedAutoImplicit false

namespace ComputerSystems.Lists.Histories

open ComputerSystems.Lists.NaturalMerge
open ComputerSystems.Lists.Operations
open ComputerSystems.Lists.Program
open ComputerSystems.Lists.Sorting
open ComputerSystems.Lists.Traversal
open ComputerSystems.Lists.WeakOrders
open ComputerSystems.Systems.Computations

abbrev Contents := Nat → Option (List Nat)

inductive Op where
  | init (list : Nat)
  | insert (before elem : Nat)
  | pushFront (list elem : Nat)
  | pushBack (list elem : Nat)
  | remove (elem : Nat)
  | popFront (list : Nat)
  | popBack (list : Nat)
  | splice (before first last : Nat)
  | reverse (list : Nat)
  | sort (list : Nat) (less : Less)
  | insertOrdered (list elem : Nat) (less : Less)
  | unique (list duplicates : Nat) (less : Less)
  | next (elem : Nat)
  | prev (elem : Nat)
  | front (list : Nat)
  | back (list : Nat)
  | size (list : Nat)
  | empty (list : Nat)
  | max (list : Nat) (less : Less)
  | min (list : Nat) (less : Less)

inductive Answer where
  | none
  | elem (e : Nat)
  | count (n : Nat)
  | flag (b : Bool)

/-- The operation in the program, `n` the bound on every loop. -/
def Op.exec (n : Nat) : Op → Prog Answer
  | init list => do listInit list; return .none
  | insert before elem => do listInsert before elem; return .none
  | pushFront list elem => do listPushFront list elem; return .none
  | pushBack list elem => do listPushBack list elem; return .none
  | remove elem => do return .elem (← listRemove elem)
  | popFront list => do return .elem (← listPopFront list)
  | popBack list => do return .elem (← listPopBack list)
  | splice before first last => do listSplice before first last; return .none
  | reverse list => do listReverse n list; return .none
  | sort list less => do listSort less n n list; return .none
  | insertOrdered list elem less => do listInsertOrdered less n list elem; return .none
  | unique list duplicates less => do listUnique less n list duplicates; return .none
  | next elem => do return .elem (← listNext elem)
  | prev elem => do return .elem (← listPrev elem)
  | front list => do return .elem (← listFront list)
  | back list => do return .elem (← listBack list)
  | size list => do return .count (← listSize n list)
  | empty list => do return .flag (← listEmpty list)
  | max list less => do return .elem (← listMax less n list)
  | min list less => do return .elem (← listMin less n list)

def execAll (n : Nat) : List Op → Prog (List Answer)
  | [] => return []
  | op :: ops => do
    let a ← op.exec n
    return a :: (← execAll n ops)

def put (A : Contents) (list : Nat) (xs : List Nat) : Contents := Function.update A list (some xs)

structure Free (A : Contents) (e : Nat) : Prop where
  ne : e ≠ 0
  notMem : ∀ list xs, A list = some xs → e ∉ nodes list xs

/-- What an operation means for the sequences, and when a caller may ask for it. -/
inductive Means : Contents → Op → Answer → Contents → Prop where
  | init {A : Contents} {list : Nat} : list ≠ 0 →
      (∀ list' xs, list' ≠ list → A list' = some xs →
        headOf list ∉ nodes list' xs ∧ tailOf list ∉ nodes list' xs) →
      Means A (.init list) .none (put A list [])
  | insert {A : Contents} {list elem : Nat} {us vs : List Nat} : A list = some (us ++ vs) →
      Free A elem →
      Means A (.insert (vs.headD (tailOf list)) elem) .none (put A list (us ++ elem :: vs))
  | pushFront {A : Contents} {list elem : Nat} {xs : List Nat} : A list = some xs → Free A elem →
      Means A (.pushFront list elem) .none (put A list (elem :: xs))
  | pushBack {A : Contents} {list elem : Nat} {xs : List Nat} : A list = some xs → Free A elem →
      Means A (.pushBack list elem) .none (put A list (xs ++ [elem]))
  | remove {A : Contents} {list elem : Nat} {ys zs : List Nat} :
      A list = some (ys ++ elem :: zs) →
      Means A (.remove elem) (.elem (zs.headD (tailOf list))) (put A list (ys ++ zs))
  | popFront {A : Contents} {list elem : Nat} {zs : List Nat} : A list = some (elem :: zs) →
      Means A (.popFront list) (.elem elem) (put A list zs)
  | popBack {A : Contents} {list elem : Nat} {ys : List Nat} : A list = some (ys ++ [elem]) →
      Means A (.popBack list) (.elem elem) (put A list ys)
  | spliceNothing {A : Contents} {list first : Nat} {us vs : List Nat} : A list = some (us ++ vs) →
      Means A (.splice (vs.headD (tailOf list)) first first) .none A
  | spliceInto {A : Contents} {list list' first : Nat} {ys seg zs us vs : List Nat} :
      list ≠ list' → A list = some (ys ++ seg ++ zs) → A list' = some (us ++ vs) →
      seg.head? = some first →
      Means A (.splice (vs.headD (tailOf list')) first (zs.headD (tailOf list))) .none
        (put (put A list (ys ++ zs)) list' (us ++ seg ++ vs))
  | spliceWithin {A : Contents} {list first : Nat} {ys seg zs us vs : List Nat} :
      A list = some (ys ++ seg ++ zs) → ys ++ zs = us ++ vs → seg.head? = some first →
      Means A (.splice (vs.headD (tailOf list)) first (zs.headD (tailOf list))) .none
        (put A list (us ++ seg ++ vs))
  | reverse {A : Contents} {list : Nat} {xs : List Nat} : A list = some xs →
      Means A (.reverse list) .none (put A list xs.reverse)
  | sort {A : Contents} {list : Nat} {less : Less} {xs : List Nat} : WeakOrder less →
      A list = some xs →
      Means A (.sort list less) .none (put A list (xs.mergeSort (notGreater less)))
  | insertOrdered {A : Contents} {list elem : Nat} {less : Less} {xs : List Nat} :
      A list = some xs → Free A elem →
      Means A (.insertOrdered list elem less) .none
        (put A list (WeakOrders.insertOrdered less elem xs))
  | unique {A : Contents} {list : Nat} {less : Less} {xs : List Nat} : A list = some xs →
      Means A (.unique list 0 less) .none (put A list (uniqueAll less xs).1)
  | uniqueInto {A : Contents} {list dup : Nat} {less : Less} {xs ds : List Nat} : list ≠ dup →
      A list = some xs → A dup = some ds →
      Means A (.unique list dup less) .none
        (put (put A list (uniqueAll less xs).1) dup (ds ++ (uniqueAll less xs).2))
  | next {A : Contents} {list elem : Nat} {ys zs : List Nat} : A list = some (ys ++ elem :: zs) →
      Means A (.next elem) (.elem (zs.headD (tailOf list))) A
  | prev {A : Contents} {list : Nat} {ys zs : List Nat} : A list = some (ys ++ zs) →
      Means A (.prev (zs.headD (tailOf list))) (.elem (ys.getLastD (headOf list))) A
  | front {A : Contents} {list elem : Nat} {zs : List Nat} : A list = some (elem :: zs) →
      Means A (.front list) (.elem elem) A
  | back {A : Contents} {list elem : Nat} {ys : List Nat} : A list = some (ys ++ [elem]) →
      Means A (.back list) (.elem elem) A
  | size {A : Contents} {list : Nat} {xs : List Nat} : A list = some xs →
      Means A (.size list) (.count xs.length) A
  | empty {A : Contents} {list : Nat} {xs : List Nat} : A list = some xs →
      Means A (.empty list) (.flag xs.isEmpty) A
  | max {A : Contents} {list : Nat} {less : Less} {xs : List Nat} : A list = some xs →
      Means A (.max list less) (.elem (xs.tail.foldl (fun m e => if less m e then e else m)
        (xs.headD (tailOf list)))) A
  | min {A : Contents} {list : Nat} {less : Less} {xs : List Nat} : A list = some xs →
      Means A (.min list less) (.elem (xs.tail.foldl (fun m e => if less e m then e else m)
        (xs.headD (tailOf list)))) A

/-- The operations one after the other. -/
inductive MeansAll : Contents → List Op → List Answer → Contents → Prop where
  | nil {A : Contents} : MeansAll A [] [] A
  | cons {A B C : Contents} {op : Op} {ops : List Op} {a : Answer} {as : List Answer} :
      Means A op a B → MeansAll B ops as C → MeansAll A (op :: ops) (a :: as) C

/-- Every list is well formed, and no node belongs to two of them. -/
structure Represents (H : Heap) (A : Contents) : Prop where
  isList : ∀ list xs, A list = some xs → IsList H list xs
  apart : ∀ list list' xs xs', list ≠ list' → A list = some xs → A list' = some xs' →
    ∀ e ∈ nodes list xs, e ∉ nodes list' xs'

section Representation

variable {H H' : Heap} {A B : Contents} {list list' : Nat} {xs xs' ys ys' T : List Nat}

theorem put_self (A : Contents) (list : Nat) (xs : List Nat) : put A list xs list = some xs :=
  Function.update_self _ _ _

theorem put_of_ne (A : Contents) {list list' : Nat} (xs : List Nat) (h : list' ≠ list) :
    put A list xs list' = A list' :=
  Function.update_of_ne h _ _

theorem Free.put {e : Nat} (h : Free A e) (he : e ∉ nodes list xs) :
    Free (Histories.put A list xs) e := by
  refine ⟨h.ne, fun l zs hl => ?_⟩
  by_cases heq : l = list
  · subst heq
    rw [put_self, Option.some.injEq] at hl
    exact hl ▸ he
  · rw [put_of_ne A xs heq] at hl
    exact h.notMem l zs hl

/-- Lists none of whose nodes is in `T` stay, the others are within `T`. -/
theorem Represents.step (h : Represents H A) (hsame : SameOutside T H H')
    (hnew : ∀ list xs, B list = some xs → (A list = some xs ∧ ∀ e ∈ nodes list xs, e ∉ T) ∨
      (IsList H' list xs ∧ nodes list xs ⊆ T))
    (hapart : ∀ list list' xs xs', list ≠ list' → B list = some xs → nodes list xs ⊆ T →
      B list' = some xs' → nodes list' xs' ⊆ T → ∀ e ∈ nodes list xs, e ∉ nodes list' xs') :
    Represents H' B := by
  refine ⟨fun list xs hlist => ?_, fun list list' xs xs' hne hlist hlist' e he he' => ?_⟩
  · rcases hnew list xs hlist with ⟨hold, hout⟩ | ⟨hin, -⟩
    · exact IsList.frame (h.isList list xs hold) hsame hout
    · exact hin
  · rcases hnew list xs hlist with ⟨hold, hout⟩ | ⟨-, hin⟩
    · rcases hnew list' xs' hlist' with ⟨hold', -⟩ | ⟨-, hin'⟩
      · exact h.apart list list' xs xs' hne hold hold' e he he'
      · exact hout e he (hin' he')
    · rcases hnew list' xs' hlist' with ⟨-, hout'⟩ | ⟨-, hin'⟩
      · exact hout' e he' (hin he)
      · exact hapart list list' xs xs' hne hlist hin hlist' hin' e he he'

theorem Represents.put (h : Represents H A) (hout : ∀ l zs, l ≠ list → A l = some zs →
      ∀ e ∈ nodes l zs, e ∉ T) (hsame : SameOutside T H H') (hlist : IsList H' list xs)
    (hsub : nodes list xs ⊆ T) : Represents H' (Histories.put A list xs) := by
  refine h.step hsame (fun l zs hl => ?_) fun l l' zs zs' hne hl hin hl' hin' => ?_
  · by_cases heq : l = list
    · subst heq
      rw [put_self, Option.some.injEq] at hl
      exact Or.inr ⟨hl ▸ hlist, hl ▸ hsub⟩
    · rw [put_of_ne A xs heq] at hl
      exact Or.inl ⟨hl, hout l zs heq hl⟩
  · -- one of the two is not the list at hand, so its head is not in `T`
    have hother : ∀ l zs, l ≠ list → Histories.put A list xs l = some zs → ¬ nodes l zs ⊆ T := by
      intro l zs hl hzs hin
      rw [put_of_ne A xs hl] at hzs
      exact hout l zs hl hzs _ List.mem_cons_self (hin List.mem_cons_self)
    by_cases heq : l = list
    · exact absurd hin' (hother l' zs' (fun heq' => hne (heq.trans heq'.symm)) hl')
    · exact absurd hin (hother l zs heq hl)

theorem Represents.put_put (h : Represents H A) (hne : list ≠ list')
    (hout : ∀ l zs, l ≠ list → l ≠ list' → A l = some zs → ∀ e ∈ nodes l zs, e ∉ T)
    (hsame : SameOutside T H H') (hlist : IsList H' list xs) (hlist' : IsList H' list' xs')
    (hsub : nodes list xs ⊆ T) (hsub' : nodes list' xs' ⊆ T)
    (hapart : ∀ e ∈ nodes list xs, e ∉ nodes list' xs') :
    Represents H' (Histories.put (Histories.put A list xs) list' xs') := by
  have hat : ∀ l zs, Histories.put (Histories.put A list xs) list' xs' l = some zs →
      (l = list ∧ zs = xs) ∨ (l = list' ∧ zs = xs') ∨ (l ≠ list ∧ l ≠ list' ∧ A l = some zs) := by
    intro l zs hl
    by_cases heq' : l = list'
    · rw [heq', put_self, Option.some.injEq] at hl
      exact Or.inr (Or.inl ⟨heq', hl.symm⟩)
    · rw [put_of_ne _ _ heq'] at hl
      by_cases heq : l = list
      · rw [heq, put_self, Option.some.injEq] at hl
        exact Or.inl ⟨heq, hl.symm⟩
      · rw [put_of_ne _ _ heq] at hl
        exact Or.inr (Or.inr ⟨heq, heq', hl⟩)
  have hin : ∀ l zs, Histories.put (Histories.put A list xs) list' xs' l = some zs →
      nodes l zs ⊆ T → (l = list ∧ zs = xs) ∨ (l = list' ∧ zs = xs') := by
    intro l zs hl hT
    rcases hat l zs hl with hl | hl | ⟨hl, hl', hzs⟩
    · exact Or.inl hl
    · exact Or.inr hl
    · exact absurd (hT List.mem_cons_self) (hout l zs hl hl' hzs _ List.mem_cons_self)
  refine h.step hsame (fun l zs hl => ?_) fun l l' zs zs' hll hl hT hl' hT' => ?_
  · rcases hat l zs hl with ⟨rfl, rfl⟩ | ⟨rfl, rfl⟩ | ⟨hl, hl', hzs⟩
    · exact Or.inr ⟨hlist, hsub⟩
    · exact Or.inr ⟨hlist', hsub'⟩
    · exact Or.inl ⟨hzs, hout l zs hl hl' hzs⟩
  · rcases hin l zs hl hT with ⟨rfl, rfl⟩ | ⟨rfl, rfl⟩ <;>
      rcases hin l' zs' hl' hT' with ⟨rfl, rfl⟩ | ⟨rfl, rfl⟩
    · exact absurd rfl hll
    · exact hapart
    · exact fun e he he' => hapart e he' he
    · exact absurd rfl hll

theorem Represents.outside (h : Represents H A) (hlist : A list = some xs) (l : Nat)
    (zs : List Nat) (hne : l ≠ list) (hl : A l = some zs) : ∀ e ∈ nodes l zs, e ∉ nodes list xs :=
  h.apart l list zs xs hne hl hlist

theorem Represents.outside_free {elem : Nat} (h : Represents H A) (hlist : A list = some xs)
    (hfree : Free A elem) (l : Nat) (zs : List Nat) (hne : l ≠ list) (hl : A l = some zs) :
    ∀ e ∈ nodes l zs, e ∉ elem :: nodes list xs := by
  intro e he he'
  rcases List.mem_cons.mp he' with rfl | he'
  · exact hfree.notMem l zs hl he
  · exact h.apart l list zs xs hne hl hlist e he he'

theorem Represents.leaves {α : Type} {x : Prog α} {a : α} (h : Represents H A)
    (hout : ∀ l zs, l ≠ list → A l = some zs → ∀ e ∈ nodes l zs, e ∉ T)
    (hx : Leaves x H a list xs T) (hsub : nodes list xs ⊆ T) (f : α → Answer) :
    ∃ H', (do let b ← x; return f b : Prog Answer) H = .ok (f a, H') ∧
      Represents H' (Histories.put A list xs) := by
  obtain ⟨_, H', hok, rfl, hlist, hsame⟩ := hx
  exact ⟨H', by rw [bind_ok hok, pure_ok], h.put hout hsame hlist hsub⟩

end Representation

theorem Represents.reads {α : Type} {x : Prog α} {a : α} {H : Heap} {A : Contents}
    (h : Represents H A) (hx : x H = .ok (a, H)) (f : α → Answer) :
    ∃ H', (do let b ← x; return f b : Prog Answer) H = .ok (f a, H') ∧ Represents H' A :=
  ⟨H, by rw [bind_ok hx, pure_ok], h⟩

section Runs

variable {H : Heap} {A B : Contents} {op : Op} {a : Answer} {list elem : Nat} {xs ys zs us vs : List Nat}

theorem nodes_insert : nodes list (us ++ elem :: vs) ⊆ elem :: nodes list (us ++ vs) := by
  intro e he
  simp only [List.mem_append, List.mem_cons] at he ⊢
  tauto

theorem stretch_subset {seg : List Nat} : ys ++ zs ⊆ ys ++ seg ++ zs := by
  intro e he
  simp only [List.mem_append] at he ⊢
  tauto

theorem nodes_remove : nodes list (ys ++ zs) ⊆ nodes list (ys ++ elem :: zs) :=
  nodes_subset ((List.Sublist.refl ys).append (List.sublist_cons_self elem zs)).subset

/-- Every operation that the caller may ask for succeeds, once the bound on its loops is large
enough, and does to the links what it means for the sequences. -/
theorem exec_ok (hop : Means A op a B) :
    ∃ k, ∀ n, k ≤ n → ∀ H, Represents H A → ∃ H', op.exec n H = .ok (a, H') ∧ Represents H' B := by
  cases hop with
  | init hne hapart =>
    refine ⟨0, fun n _ H h => h.leaves ?_ (listInit_ok hne) (List.Subset.refl _) fun _ => .none⟩
    intro l zs hl hzs e he he'
    obtain ⟨hhead, htail⟩ := hapart l zs hl hzs
    rcases mem_nodes.mp he' with rfl | he' | rfl
    · exact hhead he
    · cases he'
    · exact htail he
  | insert hlist hfree =>
    exact ⟨0, fun n _ H h => h.leaves (h.outside_free hlist hfree)
      (listInsert_ok (h.isList _ _ hlist) hfree.ne (hfree.notMem _ _ hlist)) nodes_insert
      fun _ => .none⟩
  | pushFront hlist hfree =>
    exact ⟨0, fun n _ H h => h.leaves (h.outside_free hlist hfree)
      (listPushFront_ok (h.isList _ _ hlist) hfree.ne (hfree.notMem _ _ hlist))
      (@nodes_insert _ _ [] _) fun _ => .none⟩
  | @pushBack list elem xs hlist hfree =>
    have hsub := @nodes_insert list elem xs []
    rw [List.append_nil] at hsub
    exact ⟨0, fun n _ H h => h.leaves (h.outside_free hlist hfree)
      (listPushBack_ok (h.isList _ _ hlist) hfree.ne (hfree.notMem _ _ hlist)) hsub
      fun _ => .none⟩
  | remove hlist =>
    exact ⟨0, fun n _ H h => h.leaves (h.outside hlist) (listRemove_ok (h.isList _ _ hlist))
      nodes_remove .elem⟩
  | popFront hlist =>
    exact ⟨0, fun n _ H h => h.leaves (h.outside hlist) (listPopFront_ok (h.isList _ _ hlist))
      (@nodes_remove _ _ [] _) .elem⟩
  | @popBack list elem ys hlist =>
    have hsub := @nodes_remove list elem ys []
    rw [List.append_nil] at hsub
    exact ⟨0, fun n _ H h => h.leaves (h.outside hlist) (listPopBack_ok (h.isList _ _ hlist))
      hsub .elem⟩
  | @spliceNothing list _ us vs hlist =>
    exact ⟨0, fun n _ H h => h.reads (listSplice_self ((h.isList _ _ hlist).interior_or_tail
      (headD_mem_append us vs))) fun _ => .none⟩
  | @spliceInto list list' first ys seg zs us vs hne hlist hlist' hfirst =>
    refine ⟨0, fun n _ H h => ?_⟩
    have hold := h.isList _ _ hlist
    have hapart := h.apart list list' _ _ hne hlist hlist'
    obtain ⟨H', hok, hnew, hnew', hsame⟩ :=
      listSplice_into hold (h.isList _ _ hlist') hfirst hapart
    refine ⟨H', ?_, h.put_put hne ?_ hsame hnew hnew' ?_ ?_ ?_⟩
    · rw [Op.exec, bind_ok hok, pure_ok]
    · intro l ws hl hl' hws e he he'
      rcases List.mem_append.mp he' with he' | he'
      · exact h.apart l list ws _ hl hws hlist e he he'
      · exact h.apart l list' ws _ hl' hws hlist' e he he'
    · exact List.subset_append_of_subset_left _ (nodes_subset stretch_subset)
    · intro e he
      rcases List.mem_append.mp (nodes_paste_perm.mem_iff.mpr he) with he | he
      · exact List.mem_append_left _ (by simp [he])
      · exact List.mem_append_right _ he
    · intro e he he'
      rcases List.mem_append.mp (nodes_paste_perm.mem_iff.mpr he') with he' | he'
      · exact stretch_apart hold e he he'
      · exact hapart e (nodes_subset stretch_subset he) he'
  | @spliceWithin list first ys seg zs us vs hlist hrest hfirst =>
    refine ⟨0, fun n _ H h => h.leaves (h.outside hlist)
      (listSplice_within (h.isList _ _ hlist) hrest hfirst) (nodes_subset ?_) fun _ => .none⟩
    have hperm : ∀ as bs : List Nat, (as ++ seg ++ bs).Perm (seg ++ (as ++ bs)) := fun as bs => by
      rw [← List.append_assoc]
      exact List.perm_append_comm.append_right bs
    exact ((hperm us vs).trans ((hrest ▸ hperm ys zs).symm)).subset
  | reverse hlist =>
    refine ⟨_, fun n hn H h => h.leaves (h.outside hlist) (listReverse_ok (h.isList _ _ hlist) hn)
      (nodes_subset ?_) fun _ => .none⟩
    exact List.reverse_subset.mpr (List.Subset.refl _)
  | @sort list less xs hless hlist =>
    refine ⟨xs.length + 1, fun n hn H h => ?_⟩
    obtain ⟨p, rfl⟩ := Nat.exists_eq_add_one_of_ne_zero (Nat.ne_zero_of_lt hn)
    have hruns : runs less xs ≤ 2 ^ p :=
      (runs_le_length xs).trans ((Nat.le_of_succ_le_succ hn).trans Nat.lt_two_pow_self.le)
    exact h.leaves (h.outside hlist) (listSort_ok hless (h.isList _ _ hlist) hn hruns)
      (nodes_subset (List.mergeSort_perm _ _).subset) fun _ => .none
  | @insertOrdered list elem less xs hlist hfree =>
    refine ⟨_, fun n hn H h => h.leaves (h.outside_free hlist hfree)
      (listInsertOrdered_ok (h.isList _ _ hlist) hfree.ne (hfree.notMem _ _ hlist) hn) ?_
      fun _ => .none⟩
    have hsub := @nodes_insert list elem (xs.takeWhile fun y => !less elem y)
      (xs.dropWhile fun y => !less elem y)
    rw [List.takeWhile_append_dropWhile] at hsub
    exact hsub
  | @unique list less xs hlist =>
    have hnone : ∀ H, Collects H list xs 0 [] :=
      fun _ => ⟨fun hne => absurd rfl hne, fun hne => absurd rfl hne⟩
    refine ⟨xs.length + 1, fun n hn H h => h.leaves (h.outside hlist) (a := ()) ?_
      (nodes_subset (uniqueAll_sublist less xs).1.subset) fun _ => .none⟩
    refine Yields.mono (listUnique_ok (h.isList _ _ hlist) (hnone H) (List.Subset.refl _)
      (fun hne => absurd rfl hne) hn) ?_
    exact fun _ _ hend => ⟨rfl, hend.1, hend.2.2⟩
  | @uniqueInto list dup less xs ds hne hlist hdup =>
    refine ⟨xs.length + 1, fun n hn H h => ?_⟩
    have hold := h.isList _ _ hlist
    have hcollects : Collects H list xs dup ds :=
      ⟨fun _ => h.isList _ _ hdup, fun _ => h.apart _ _ _ _ hne hlist hdup⟩
    have hdup0 : dup ≠ 0 := (h.isList _ _ hdup).head_ne
    obtain ⟨_, H', hok, hnew, hcollected, hsame⟩ := listUnique_ok (S := nodes list xs ++ nodes dup ds)
      hold hcollects (List.subset_append_left _ _) (fun _ => List.subset_append_right _ _) hn
    refine ⟨H', ?_, h.put_put hne ?_ hsame hnew (hcollected.isList hdup0) ?_ ?_
      (hcollected.apart hdup0)⟩
    · rw [Op.exec, bind_ok hok, pure_ok]
    · intro l ws hl hl' hws e he he'
      rcases List.mem_append.mp he' with he' | he'
      · exact h.apart l list ws _ hl hws hlist e he he'
      · exact h.apart l dup ws _ hl' hws hdup e he he'
    · exact List.subset_append_of_subset_left _ (nodes_subset (uniqueAll_sublist less xs).1.subset)
    · intro e he
      have hout : e ∈ (uniqueAll less xs).2 → e ∈ xs :=
        fun he => (uniqueAll_sublist less xs).2.subset he
      simp only [List.mem_append, mem_nodes] at he ⊢
      tauto
  | next hlist => exact ⟨0, fun n _ H h => h.reads (listNext_ok (h.isList _ _ hlist)) .elem⟩
  | prev hlist => exact ⟨0, fun n _ H h => h.reads (listPrev_ok (h.isList _ _ hlist)) .elem⟩
  | front hlist => exact ⟨0, fun n _ H h => h.reads (listFront_ok (h.isList _ _ hlist)) .elem⟩
  | back hlist => exact ⟨0, fun n _ H h => h.reads (listBack_ok (h.isList _ _ hlist)) .elem⟩
  | size hlist => exact ⟨_, fun n hn H h => h.reads (listSize_ok (h.isList _ _ hlist) hn) .count⟩
  | empty hlist => exact ⟨0, fun n _ H h => h.reads (listEmpty_ok (h.isList _ _ hlist)) .flag⟩
  | max hlist => exact ⟨_, fun n hn H h => h.reads (listBest_ok (h.isList _ _ hlist) hn) .elem⟩
  | min hlist => exact ⟨_, fun n hn H h => h.reads (listBest_ok (h.isList _ _ hlist) hn) .elem⟩

theorem represents_empty (H : Heap) : Represents H fun _ => Option.none := by
  constructor
  · intro list xs h
    cases h
  · intro list list' xs xs' _ h
    cases h

/-- Whatever the caller does with its lists, no assertion fails, no loop goes on forever, the answers
are those of the sequences, and at the end the links represent the sequences. -/
theorem history_refines {ops : List Op} {as : List Answer} (hops : MeansAll A ops as B) :
    ∃ k, ∀ n, k ≤ n → ∀ H, Represents H A →
      ∃ H', execAll n ops H = .ok (as, H') ∧ Represents H' B := by
  induction hops with
  | nil => exact ⟨0, fun n _ H h => ⟨H, rfl, h⟩⟩
  | cons hop _ ih =>
    obtain ⟨k₁, hk₁⟩ := exec_ok hop
    obtain ⟨k₂, hk₂⟩ := ih
    refine ⟨max k₁ k₂, fun n hn H h => ?_⟩
    obtain ⟨H₁, hok₁, h₁⟩ := hk₁ n ((Nat.le_max_left _ _).trans hn) H h
    obtain ⟨H₂, hok₂, h₂⟩ := hk₂ n ((Nat.le_max_right _ _).trans hn) H₁ h₁
    exact ⟨H₂, by rw [execAll, bind_ok hok₁, bind_ok hok₂, pure_ok], h₂⟩

theorem history_refines_five : ∃ k, ∀ n, k ≤ n → ∀ H : Heap,
    ∃ H', execAll n [.init 100, .pushBack 100 200, .pushFront 100 300, .reverse 100, .popFront 100] H =
      .ok ([.none, .none, .none, .none, .elem 200], H') ∧
      Represents H' (put (put (put (put (put (fun _ => Option.none) 100 []) 100 [200]) 100 [300, 200]) 100
        [200, 300]) 100 [300]) := by
  have hnew : ∀ e, e ≠ 0 → Free (fun _ => Option.none) e := fun e he => ⟨he, fun _ _ h => by cases h⟩
  have hfree : Free (put (fun _ => Option.none) 100 []) 200 := (hnew 200 (by decide)).put (by decide)
  have hfree' : Free (put (put (fun _ => Option.none) 100 []) 100 [200]) 300 :=
    ((hnew 300 (by decide)).put (by decide)).put (by decide)
  obtain ⟨k, hk⟩ := history_refines
    (.cons (.init (by decide) (fun _ _ _ h => by cases h))
      (.cons (.pushBack (put_self _ _ _) hfree)
        (.cons (.pushFront (put_self _ _ _) hfree')
          (.cons (.reverse (put_self _ _ _)) (.cons (.popFront (put_self _ _ _)) .nil)))))
  exact ⟨k, fun n hn H => hk n hn H (represents_empty H)⟩

end Runs

end ComputerSystems.Lists.Histories
