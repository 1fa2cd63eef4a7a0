/- Runs of a client of `mm-gback-implicit.c`: calls and writes in any order, and what it sees. -/

import ComputerSystems.Implicit.Allocator
import ComputerSystems.Malloc.Client

set_option autoImplicit false
set_option relaxedAutoImplicit false

namespace ComputerSystems.Implicit.Runs

open ComputerSystems.Memory.Bytes
open ComputerSystems.Memory.Tiling
open ComputerSystems.Memory.Joining
open ComputerSystems.Systems.Runs
open ComputerSystems.Systems.Computations (bind_ok pure_ok)
open ComputerSystems.Malloc.Machine
open ComputerSystems.Malloc.Mm (WSIZE PAYLOAD FENCE memSbrk)
open ComputerSystems.Malloc.Blocks (Blk bytes_eq)
open ComputerSystems.Malloc.Representation
open ComputerSystems.Malloc.Allocator (INT_MAX)
open ComputerSystems.Malloc.Client (Owns)
open ComputerSystems.Implicit.Program
open ComputerSystems.Implicit.Tilings
open ComputerSystems.Implicit.Heap
open ComputerSystems.Implicit.Allocator

/-- The client's live pointers, each with the bytes that were last written behind it; `none` was never
written. -/
abbrev Arrays := List (Nat × List (Option UInt8))

inductive Op where
  | malloc (size : Nat)
  | free (ptr : Nat)
  | realloc (ptr size : Nat)
  | write (ptr i : Nat) (byte : UInt8)
  deriving DecidableEq, Repr

/-- Pointers passed back are live or NULL, sizes fit into an `int`, and writes stay inside the sizes
that were asked for. -/
def Legal (xs : Arrays) : Op → Prop
  | .malloc size => size ≤ INT_MAX
  | .free ptr => ptr = 0 ∨ ptr ∈ xs.map Prod.fst
  | .realloc ptr size => (ptr = 0 ∨ ptr ∈ xs.map Prod.fst) ∧ size ≤ INT_MAX
  | .write ptr i _ => ∃ a ∈ xs, a.1 = ptr ∧ i < a.2.length

instance (xs : Arrays) : (op : Op) → Decidable (Legal xs op)
  | .malloc size => inferInstanceAs (Decidable (size ≤ INT_MAX))
  | .free ptr => inferInstanceAs (Decidable (ptr = 0 ∨ ptr ∈ xs.map Prod.fst))
  | .realloc ptr size =>
    inferInstanceAs (Decidable ((ptr = 0 ∨ ptr ∈ xs.map Prod.fst) ∧ size ≤ INT_MAX))
  | .write ptr i _ => inferInstanceAs (Decidable (∃ a ∈ xs, a.1 = ptr ∧ i < a.2.length))

def resize (size : Nat) (bytes : List (Option UInt8)) : List (Option UInt8) :=
  (bytes ++ List.replicate (size - bytes.length) none).take size

/-- What the client may expect after `op` has returned `p`. -/
def view (xs : Arrays) : Op → Nat → Arrays
  | .malloc size, p => if p = 0 then xs else (p, List.replicate size none) :: xs
  | .free ptr, _ => xs.filter fun a => a.1 ≠ ptr
  | .realloc ptr size, p =>
    if size = 0 then xs.filter fun a => a.1 ≠ ptr
    else if p = 0 then xs
    else (p, resize size ((xs.lookup ptr).getD [])) :: xs.filter fun a => a.1 ≠ ptr
  | .write ptr i byte, _ => xs.map fun a => if a.1 = ptr then (a.1, a.2.set i (some byte)) else a

variable (L : Layout)

/-- The program runs; the loop of `find_fit` gets as many rounds as the heap has bytes. -/
def call (s : State) : Op → Except Fault (Option Nat × State)
  | .malloc size => mmMalloc L L.heapSize size s
  | .free ptr => (mmFree L ptr s).map fun r => (some 0, r.2)
  | .realloc ptr size => mmRealloc L L.heapSize ptr size s
  | .write ptr i byte => .ok (some 0, { s with mem := Function.update s.mem (ptr + i) byte })

def plan (bs : List Blk) : Op → Nat × List Blk
  | .malloc size => allocate (base L) L.memMaxAddr size bs
  | .free ptr => (0, if ptr = 0 then bs else release (base L) (ptr - PAYLOAD) bs)
  | .realloc ptr size =>
    if size = 0 then (0, if ptr = 0 then bs else release (base L) (ptr - PAYLOAD) bs)
    else if ptr = 0 then allocate (base L) L.memMaxAddr size bs
    else reallocate (base L) L.memMaxAddr (ptr - PAYLOAD) size bs
  | .write _ _ _ => (0, bs)

structure Session where
  state : State
  arrays : Arrays

/-- A failed assertion or a loop that does not end within its rounds ends the run. -/
def next (c : Session) (op : Op) : Option (Except Fault (Option Session)) :=
  if Legal c.arrays op then
    some ((call L c.state op).map fun r => r.1.map fun p => ⟨r.2, view c.arrays op p⟩)
  else none

/-- `mm_init` on a heap with arbitrary contents, then calls and writes in any order. -/
def system : System (Except Fault (Option Session)) Op where
  init r := ∃ s s', s.memBrk = L.memStartBrk ∧ mmInit L s = .ok (0, s') ∧ r = .ok (some ⟨s', []⟩)
  next
    | .ok (some c), op => next L c op
    | _, _ => none

def tilings : System (List Blk × Arrays) Op where
  init t := t = ([⟨CHUNKSIZE, false⟩], [])
  next t op :=
    if Legal t.2 op then some ((plan L t.1 op).2, view t.2 op (plan L t.1 op).1) else none

def sizes (xs : Arrays) : List (Nat × Nat) := xs.map fun a => (a.1, a.2.length)

def Shown (m : Mem) (xs : Arrays) : Prop :=
  ∀ p bytes, (p, bytes) ∈ xs → ∀ i v, bytes[i]? = some (some v) → m (p + i) = v

/-- The program is where the allocator on tilings is. -/
structure Simulates (c : Session) (t : List Blk × Arrays) : Prop where
  holds : Holds L c.state t.1
  arrays : c.arrays = t.2
  owns : Owns (InUse L t.1) (sizes t.2)
  shown : Shown c.state.mem t.2

variable {L} {s s' : State} {bs bs' : List Blk} {xs ys : Arrays} {p ptr size : Nat}

section Views

theorem mem_sizes {bytes : List (Option UInt8)} (h : (p, bytes) ∈ xs) :
    (p, bytes.length) ∈ sizes xs := List.mem_map.mpr ⟨_, h, rfl⟩

theorem sizes_fst : (sizes xs).map Prod.fst = xs.map Prod.fst := by
  rw [sizes, List.map_map]
  rfl

theorem sizes_filter : sizes (xs.filter fun a => a.1 ≠ ptr) = (sizes xs).filter fun a => a.1 ≠ ptr := by
  rw [sizes, sizes, List.filter_map]
  rfl

theorem resize_length (bytes : List (Option UInt8)) : (resize size bytes).length = size := by
  rw [resize, List.length_take, List.length_append, List.length_replicate]
  omega

theorem resize_getElem {bytes : List (Option UInt8)} {i : Nat} {v : UInt8}
    (h : (resize size bytes)[i]? = some (some v)) : i < size ∧ bytes[i]? = some (some v) := by
  rw [resize, List.getElem?_take] at h
  split at h
  · rename_i hi
    refine ⟨hi, ?_⟩
    rw [List.getElem?_append] at h
    split at h
    · exact h
    · rw [List.getElem?_replicate] at h
      split at h <;> cases h
  · cases h

theorem owns_ne_zero (ho : Owns (InUse L bs) (sizes xs))
    (hp : ptr ∈ xs.map Prod.fst) : ptr ≠ 0 := by
  obtain ⟨d, m, rfl, hd⟩ := Malloc.Client.Owns.block ho (sizes_fst ▸ hp)
  unfold PAYLOAD
  omega

theorem written_inside (ho : Owns (InUse L bs) (sizes xs)) {bytes : List (Option UInt8)} {i : Nat}
    {b : Option UInt8} (hmem : (p, bytes) ∈ xs) (hi : bytes[i]? = some b) :
    ∃ d m, p = d + PAYLOAD ∧ InUse L bs d m ∧ d + WSIZE ≤ p + i ∧ p + i < d + WSIZE * m - WSIZE := by
  obtain ⟨d, m, hp, hd, hlarge⟩ := ho.large p _ (mem_sizes hmem)
  have hlt := (List.getElem?_eq_some_iff.mp hi).1
  unfold PAYLOAD WSIZE at *
  exact ⟨d, m, hp, hd, by omega, by omega⟩

theorem Shown.kept {live : Nat → Nat → Prop} (hshown : Shown s.mem xs)
    (ho : Owns (InUse L bs) (sizes xs)) (hkept : Kept live s.mem s'.mem)
    (hsub : ∀ a ∈ ys, a ∈ xs ∧ ∀ d m, a.1 = d + PAYLOAD → InUse L bs d m → live d m) :
    Shown s'.mem ys := by
  intro p bytes hmem i v hi
  obtain ⟨hxs, hlive⟩ := hsub _ hmem
  obtain ⟨d, m, hp, hd, hlow, hhigh⟩ := written_inside ho hxs hi
  exact (hkept d m (hlive d m hp hd) _ hlow hhigh).trans (hshown p bytes hxs i v hi)

theorem Shown.cons {bytes : List (Option UInt8)} {m : Mem}
    (hnew : ∀ i v, bytes[i]? = some (some v) → m (p + i) = v) (hshown : Shown m xs) :
    Shown m ((p, bytes) :: xs) := by
  intro q bytes' hmem i v hi
  rcases List.mem_cons.mp hmem with heq | hmem
  · cases heq
    exact hnew i v hi
  · exact hshown q bytes' hmem i v hi

theorem lookup_mem {bytes : List (Option UInt8)} (h : xs.lookup ptr = some bytes) :
    (ptr, bytes) ∈ xs := by
  obtain ⟨l, r, rfl, -⟩ := List.lookup_eq_some_iff.mp h
  exact List.mem_append_right _ List.mem_cons_self

end Views

section Calls

theorem malloc_simulates (h : Holds L s bs) (ho : Owns (InUse L bs) (sizes xs))
    (hshown : Shown s.mem xs) (hsize : size ≤ INT_MAX) :
    ∃ s', mmMalloc L L.heapSize size s =
        .ok (some (allocate (base L) L.memMaxAddr size bs).1, s') ∧
      Simulates L ⟨s', view xs (.malloc size) (allocate (base L) L.memMaxAddr size bs).1⟩
        ((allocate (base L) L.memMaxAddr size bs).2,
          view xs (.malloc size) (allocate (base L) L.memMaxAddr size bs).1) := by
  obtain ⟨s', hrun, hm⟩ := mmMalloc_ok h hsize h.tagged.length_lt
  generalize allocate (base L) L.memMaxAddr size bs = allocated at hrun hm
  obtain ⟨p, bs'⟩ := allocated
  refine ⟨s', hrun, ?_⟩
  have hold : Shown s'.mem xs := hshown.kept ho hm.kept fun a ha => ⟨ha, fun _ _ _ hd => hd⟩
  rcases hm.result with ⟨rfl, -, rfl⟩ | ⟨c, m, rfl, hnew⟩
  · exact ⟨hm.holds, rfl, ho, hold⟩
  · have hp : c + PAYLOAD ≠ 0 := by
      unfold PAYLOAD
      omega
    simp only [view, if_neg hp]
    refine ⟨hm.holds, rfl, ?_, hold.cons fun i v hi => ?_⟩
    · have hins := ho.insert hnew.large hnew.fresh hnew.used
      rwa [sizes, List.map_cons, List.length_replicate]
    · rw [List.getElem?_replicate] at hi
      split at hi <;> cases hi

theorem free_simulates (h : Holds L s bs) (ho : Owns (InUse L bs) (sizes xs))
    (hshown : Shown s.mem xs) (hptr : ptr = 0 ∨ ptr ∈ xs.map Prod.fst) :
    ∃ s', mmFree L ptr s = .ok ((), s') ∧
      Simulates L ⟨s', xs.filter fun a => a.1 ≠ ptr⟩
        (if ptr = 0 then bs else release (base L) (ptr - PAYLOAD) bs,
          xs.filter fun a => a.1 ≠ ptr) := by
  rcases hptr with rfl | hptr
  · have hfilter : (xs.filter fun a => a.1 ≠ 0) = xs := by
      refine List.filter_eq_self.mpr fun a ha => ?_
      simpa using owns_ne_zero ho (List.mem_map_of_mem ha)
    rw [hfilter]
    exact ⟨s, mmFree_null h.tagged, h, rfl, ho, hshown⟩
  · have hne := owns_ne_zero ho hptr
    obtain ⟨d, m, rfl, hd⟩ := Malloc.Client.Owns.block ho (sizes_fst ▸ hptr)
    obtain ⟨s', hrun, hfreed⟩ := mmFree_ok h hd
    rw [if_neg hne, Nat.add_sub_cancel]
    refine ⟨s', hrun, hfreed.holds, rfl, ?_, hshown.kept ho hfreed.kept fun a ha => ?_⟩
    · rw [sizes_filter]
      exact ho.erase hfreed.used
    · simp only [List.mem_filter, decide_eq_true_eq] at ha
      exact ⟨ha.1, fun e k he hek => ⟨hek, fun heq => ha.2 (heq ▸ he)⟩⟩

theorem realloc_simulates (h : Holds L s bs) (ho : Owns (InUse L bs) (sizes xs))
    (hshown : Shown s.mem xs) (hptr : ptr ∈ xs.map Prod.fst) (hpos : size ≠ 0)
    (hsize : size ≤ INT_MAX) :
    ∃ s', mmRealloc L L.heapSize ptr size s =
        .ok (some (reallocate (base L) L.memMaxAddr (ptr - PAYLOAD) size bs).1, s') ∧
      Simulates L
        ⟨s', view xs (.realloc ptr size)
          (reallocate (base L) L.memMaxAddr (ptr - PAYLOAD) size bs).1⟩
        ((reallocate (base L) L.memMaxAddr (ptr - PAYLOAD) size bs).2,
          view xs (.realloc ptr size)
            (reallocate (base L) L.memMaxAddr (ptr - PAYLOAD) size bs).1) := by
  obtain ⟨d, n, rfl, hd⟩ := Malloc.Client.Owns.block ho (sizes_fst ▸ hptr)
  rw [Nat.add_sub_cancel]
  obtain ⟨s', hrun, hresult⟩ := mmRealloc_ok h hd hpos hsize h.tagged.length_lt
  have hunchanged : (reallocate (base L) L.memMaxAddr d size bs).1 = 0 →
      (reallocate (base L) L.memMaxAddr d size bs).2 = bs := by
    unfold reallocate
    generalize allocate (base L) L.memMaxAddr size bs = allocated
    dsimp only
    split
    · exact fun _ => rfl
    · exact fun hzero => absurd hzero ‹_›
  generalize reallocate (base L) L.memMaxAddr d size bs = reallocated at hrun hresult hunchanged
  obtain ⟨q, bs'⟩ := reallocated
  refine ⟨s', hrun, ?_⟩
  simp only [view, if_neg hpos]
  rcases hresult with ⟨rfl, rfl⟩ | ⟨e, rfl, hre⟩
  · obtain rfl : bs' = bs := hunchanged rfl
    exact ⟨h, rfl, ho, hshown⟩
  · have hq : e + PAYLOAD ≠ 0 := by
      unfold PAYLOAD
      omega
    simp only [if_neg hq]
    obtain ⟨m, hlarge, hused⟩ := hre.used
    refine ⟨hre.holds, rfl, ?_, Shown.cons (fun i v hi => ?_) ?_⟩
    · have herased : Owns (fun a j => InUse L bs a j ∧ a ≠ d) _ := ho.erase fun _ _ => Iff.rfl
      have hins := herased.insert hlarge (fun j hj => hre.fresh j hj.1) hused
      rwa [← sizes_filter, ← @resize_length size ((xs.lookup (d + PAYLOAD)).getD [])] at hins
    · obtain ⟨hi, hbyte⟩ := resize_getElem hi
      cases hlookup : xs.lookup (d + PAYLOAD) with
      | none => simp [hlookup] at hbyte
      | some bytes =>
        rw [hlookup, Option.getD_some] at hbyte
        have hmem := lookup_mem hlookup
        obtain ⟨d', n', hp, hd', -, hhigh⟩ := written_inside ho hmem hbyte
        obtain rfl : d = d' := Nat.add_right_cancel hp
        have hn : n = n' := by
          have hpos : ∀ b ∈ bs, 0 < b.bytes := by
            intro b hb
            have hlow := (h.tagged.whole b hb).bytes_ge
            omega
          have heq := located_unique hpos hd hd'
          cases heq
          rfl
        rw [hre.copied i hi (by unfold PAYLOAD WSIZE at *; omega)]
        exact hshown _ bytes hmem i v hbyte
    · refine hshown.kept ho hre.kept fun a ha => ?_
      simp only [List.mem_filter, decide_eq_true_eq] at ha
      exact ⟨ha.1, fun e k he hek => ⟨hek, fun heq => ha.2 (heq ▸ he)⟩⟩

theorem write_simulates (h : Holds L s bs) (ho : Owns (InUse L bs) (sizes xs))
    (hshown : Shown s.mem xs) {i : Nat} {byte : UInt8}
    (hlegal : ∃ a ∈ xs, a.1 = ptr ∧ i < a.2.length) :
    Simulates L ⟨{ s with mem := Function.update s.mem (ptr + i) byte },
      view xs (.write ptr i byte) 0⟩ (bs, view xs (.write ptr i byte) 0) := by
  obtain ⟨⟨q, bytes⟩, hmem, hq, hi⟩ := hlegal
  obtain rfl : q = ptr := hq
  obtain ⟨d, m, rfl, hd, hlow, hhigh⟩ :=
    written_inside ho hmem (List.getElem?_eq_getElem hi)
  have hsizes : sizes (view xs (.write (d + PAYLOAD) i byte) 0) = sizes xs := by
    rw [view, sizes, sizes, List.map_map]
    refine List.map_congr_left fun a _ => ?_
    simp only [Function.comp]
    split <;> simp
  refine ⟨⟨h.tagged.payload hd fun y hy => Function.update_of_ne ?_ .., h.separated⟩, rfl,
    hsizes ▸ ho, fun p bytes' hmem' j v hj => ?_⟩
  · unfold WSIZE at *
    omega
  · obtain ⟨⟨p₀, bytes₀⟩, hmem₀, heq⟩ := List.mem_map.mp hmem'
    simp only at heq
    split at heq
    · rename_i hp
      cases heq
      by_cases hji : j = i
      · subst hji
        have hset := List.getElem?_set_self' (l := bytes₀) (i := j) (a := some byte)
        rw [hset] at hj
        obtain ⟨-, -, hv⟩ : ∃ b, bytes₀[j]? = some b ∧ some byte = some v :=
          Option.map_eq_some_iff.mp hj
        cases hv
        rw [hp]
        exact Function.update_self ..
      · rw [List.getElem?_set_ne (Ne.symm hji)] at hj
        refine Eq.trans (Function.update_of_ne ?_ ..) (hshown p bytes₀ hmem₀ j v hj)
        rw [hp]
        exact fun heq => hji (Nat.add_left_cancel heq)
    · rename_i hp
      cases heq
      -- the written byte lies in another block
      obtain ⟨e, k, rfl, he, hlow', hhigh'⟩ := written_inside ho hmem₀ hj
      refine Eq.trans (Function.update_of_ne ?_ ..) (hshown _ bytes' hmem₀ j v hj)
      have hapart := located_apart hd he
      have hW : ∀ n, WSIZE * n = 4 * n := fun n => rfl
      rw [bytes_eq, bytes_eq] at hapart
      rw [hW] at hhigh hhigh'
      unfold WSIZE at hlow hlow' hhigh hhigh'
      rcases hapart with ⟨rfl, -⟩ | hapart | hapart
      · exact absurd rfl hp
      · omega
      · omega

end Calls

section Steps

theorem simulates_step {c : Session} {t : List Blk × Arrays} {op : Op} (h : Simulates L c t)
    (hlegal : Legal c.arrays op) :
    ∃ c', next L c op = some (.ok (some c')) ∧
      Simulates L c' ((plan L t.1 op).2, view t.2 op (plan L t.1 op).1) := by
  obtain ⟨s, xs⟩ := c
  obtain ⟨bs, ys⟩ := t
  obtain ⟨hholds, harrays, ho, hshown⟩ := h
  obtain rfl : xs = ys := harrays
  have hnext : ∀ {s' p}, call L s op = .ok (some p, s') →
      next L ⟨s, xs⟩ op = some (.ok (some ⟨s', view xs op p⟩)) := by
    intro s' p hrun
    rw [next, if_pos hlegal, hrun]
    rfl
  cases op with
  | malloc size =>
    obtain ⟨s', hrun, hsim⟩ := malloc_simulates hholds ho hshown hlegal
    exact ⟨_, hnext hrun, hsim⟩
  | free ptr =>
    obtain ⟨s', hrun, hsim⟩ := free_simulates hholds ho hshown hlegal
    exact ⟨⟨s', _⟩, hnext (p := 0) (by rw [call, hrun]; rfl), hsim⟩
  | realloc ptr size =>
    by_cases hzero : size = 0
    · obtain ⟨s', hrun, hsim⟩ := free_simulates hholds ho hshown hlegal.1
      have hcall : call L s (.realloc ptr size) = .ok (some 0, s') := by
        rw [call, mmRealloc, if_pos hzero, bind_ok hrun, pure_ok]
      refine ⟨_, hnext hcall, ?_⟩
      simpa only [plan, view, if_pos hzero] using hsim
    · rcases hlegal.1 with rfl | hptr
      · obtain ⟨s', hrun, hsim⟩ := malloc_simulates hholds ho hshown hlegal.2
        have hcall : call L s (.realloc 0 size) =
            .ok (some (allocate (base L) L.memMaxAddr size bs).1, s') := by
          rw [call, mmRealloc, if_neg hzero, if_pos rfl, hrun]
        refine ⟨_, hnext hcall, ?_⟩
        have hfilter : (xs.filter fun a => a.1 ≠ 0) = xs := by
          refine List.filter_eq_self.mpr fun a ha => ?_
          simpa using owns_ne_zero ho (List.mem_map_of_mem ha)
        have hlookup : (xs.lookup 0).getD [] = [] := by
          cases hfound : xs.lookup 0 with
          | none => rfl
          | some bytes =>
            have hmem : 0 ∈ xs.map Prod.fst := List.mem_map.mpr ⟨_, lookup_mem hfound, rfl⟩
            exact absurd rfl (owns_ne_zero ho hmem)
        have hfresh : resize size [] = List.replicate size none := by simp [resize]
        simpa only [plan, view, if_neg hzero, if_true, hfilter, hlookup, hfresh] using hsim
      · obtain ⟨s', hrun, hsim⟩ :=
          realloc_simulates hholds ho hshown hptr hzero hlegal.2
        refine ⟨_, hnext hrun, ?_⟩
        simpa only [plan, if_neg hzero, if_neg (owns_ne_zero ho hptr)] using hsim
  | write ptr i byte => exact ⟨_, hnext rfl, write_simulates hholds ho hshown hlegal⟩

theorem simulates_start {r : Except Fault (Option Session)} (hr : (system L).init r)
    (hroom : 4 * WSIZE + 4 * CHUNKSIZE ≤ L.heapSize) :
    ∃ c, r = .ok (some c) ∧ Simulates L c ([⟨CHUNKSIZE, false⟩], []) := by
  obtain ⟨s, s', hbrk, hinit, rfl⟩ := hr
  obtain ⟨t, hrun, ht⟩ := mmInit_ok hbrk hroom
  rw [hrun] at hinit
  cases hinit
  exact ⟨_, rfl, ht, rfl, ⟨fun d => by simp [InUse, sizes], by simp [sizes], by simp [sizes]⟩,
    by simp [Shown]⟩

end Steps

end ComputerSystems.Implicit.Runs
