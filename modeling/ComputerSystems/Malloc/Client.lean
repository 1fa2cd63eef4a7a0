/- Runs of a client: calls of the allocator and writes to live payloads, in any order. -/

import ComputerSystems.Malloc.Realloc
import ComputerSystems.Systems.Runs

set_option autoImplicit false
set_option relaxedAutoImplicit false

namespace ComputerSystems.Malloc.Client

open ComputerSystems.Memory.Bytes
open ComputerSystems.Memory.Tiling
open ComputerSystems.Lists.DoublyLinked
open ComputerSystems.Systems.Runs
open ComputerSystems.Malloc.Machine
open ComputerSystems.Malloc.ListC
open ComputerSystems.Malloc.Mm
open ComputerSystems.Malloc.Blocks
open ComputerSystems.Malloc.Operations
open ComputerSystems.Malloc.FreeLists
open ComputerSystems.Malloc.Representation
open ComputerSystems.Malloc.FindFit
open ComputerSystems.Malloc.Place
open ComputerSystems.Malloc.Allocator
open ComputerSystems.Malloc.Realloc

/-- The program state and the live allocations, as pointers with the sizes that were asked for. -/
structure Session where
  state : State
  live : List (Nat × Nat)

inductive Op where
  | malloc (size : Nat)
  | free (ptr : Nat)
  | realloc (ptr size : Nat)
  | write (addr : Nat) (byte : UInt8)
  deriving DecidableEq, Repr

def Op.isRealloc : Op → Bool
  | .realloc _ _ => true
  | _ => false

/-- Pointers passed back are live, and writes stay inside the sizes that were asked for. A failed
assertion ends the run. -/
def next (L : Layout) (c : Session) : Op → Option (Except Fault Session)
  | .malloc size =>
    if size ≤ INT_MAX then
      some do
        let (p, s) ← mmMalloc L size c.state
        return ⟨s, if p = 0 then c.live else (p, size) :: c.live⟩
    else none
  | .free ptr =>
    if ptr ∈ c.live.map Prod.fst then
      some do
        let (_, s) ← mmFree L ptr c.state
        return ⟨s, c.live.filter fun a => a.1 ≠ ptr⟩
    else none
  | .realloc ptr size =>
    if ptr ∈ c.live.map Prod.fst ∧ 0 < size ∧ size ≤ INT_MAX then
      some do
        let (p, s) ← mmRealloc L ptr size c.state
        return ⟨s, if p = 0 then c.live else (p, size) :: c.live.filter fun a => a.1 ≠ ptr⟩
    else none
  | .write addr byte =>
    if ∃ a ∈ c.live, a.1 ≤ addr ∧ addr < a.1 + a.2 then
      some (.ok { c with state := { c.state with mem := Function.update c.state.mem addr byte } })
    else none

def Stepped (L : Layout) (c c' : Session) : Op → Prop
  | .malloc size => size ≤ INT_MAX ∧ ∃ p, mmMalloc L size c.state = .ok (p, c'.state) ∧
      c'.live = if p = 0 then c.live else (p, size) :: c.live
  | .free ptr => ptr ∈ c.live.map Prod.fst ∧ mmFree L ptr c.state = .ok ((), c'.state) ∧
      c'.live = c.live.filter fun a => a.1 ≠ ptr
  | .realloc ptr size => (ptr ∈ c.live.map Prod.fst ∧ 0 < size ∧ size ≤ INT_MAX) ∧
      ∃ p, mmRealloc L ptr size c.state = .ok (p, c'.state) ∧
        c'.live = if p = 0 then c.live else (p, size) :: c.live.filter fun a => a.1 ≠ ptr
  | .write addr byte => (∃ a ∈ c.live, a.1 ≤ addr ∧ addr < a.1 + a.2) ∧ c' =
      { c with state := { c.state with mem := Function.update c.state.mem addr byte } }

theorem stepped_of_next {L : Layout} {c c' : Session} {op : Op}
    (h : next L c op = some (.ok c')) : Stepped L c c' op := by
  cases op with
  | malloc size =>
    rw [next] at h
    split at h
    · rename_i hsize
      cases hrun : mmMalloc L size c.state with
      | error e =>
        rw [hrun] at h
        cases h
      | ok r =>
        rw [hrun] at h
        cases h
        exact ⟨hsize, r.1, hrun, rfl⟩
    · cases h
  | free ptr =>
    rw [next] at h
    split at h
    · rename_i hptr
      cases hrun : mmFree L ptr c.state with
      | error e =>
        rw [hrun] at h
        cases h
      | ok r =>
        rw [hrun] at h
        cases h
        exact ⟨hptr, hrun, rfl⟩
    · cases h
  | realloc ptr size =>
    rw [next] at h
    split at h
    · rename_i hargs
      cases hrun : mmRealloc L ptr size c.state with
      | error e =>
        rw [hrun] at h
        cases h
      | ok r =>
        rw [hrun] at h
        cases h
        exact ⟨hargs, r.1, hrun, rfl⟩
    · cases h
  | write addr byte =>
    rw [next] at h
    split at h
    · rename_i hlive
      cases h
      exact ⟨hlive, rfl⟩
    · cases h

/-- `mm_init` on an empty heap with arbitrary contents, then calls and writes in any order. -/
def system (L : Layout) : System (Except Fault Session) Op where
  init r := ∃ s s', s.memBrk = L.memStartBrk ∧ s.calls = [] ∧ mmInit L s = .ok (0, s') ∧
    r = .ok ⟨s', []⟩
  next
    | .ok c, op => next L c op
    | .error _, _ => none

/-- The live allocations are the payloads of the blocks in use, and fit into them. -/
structure Owns (used : Nat → Nat → Prop) (live : List (Nat × Nat)) : Prop where
  owned : ∀ d, (∃ m, used d m) ↔ ∃ n, (d + PAYLOAD, n) ∈ live
  large : ∀ p n, (p, n) ∈ live → ∃ d m, p = d + PAYLOAD ∧ used d m ∧ n + 2 * WSIZE ≤ 4 * m
  distinct : (live.map Prod.fst).Nodup

def Sound (L : Layout) (r : Except Fault Session) : Prop :=
  ∃ c h, r = .ok c ∧ Holds L c.state h ∧ Owns (InUse L h) c.live

section Owns

variable {used used' : Nat → Nat → Prop} {live : List (Nat × Nat)}

theorem Owns.block (ho : Owns used live) {p : Nat} (hp : p ∈ live.map Prod.fst) :
    ∃ d m, p = d + PAYLOAD ∧ used d m := by
  obtain ⟨⟨q, n⟩, hq, rfl⟩ := List.mem_map.mp hp
  obtain ⟨d, m, hd, hm, -⟩ := ho.large q n hq
  exact ⟨d, m, hd, hm⟩

theorem Owns.insert (ho : Owns used live) {c m size : Nat} (hlarge : size + 2 * WSIZE ≤ 4 * m)
    (hfresh : ∀ k, ¬ used c k)
    (hused : ∀ d k, used' d k ↔ used d k ∨ (d = c ∧ k = m)) :
    Owns used' ((c + PAYLOAD, size) :: live) := by
  refine ⟨fun d => ?_, fun p n hp => ?_, ?_⟩
  · constructor
    · rintro ⟨k, hk⟩
      rcases (hused d k).mp hk with hk | ⟨rfl, -⟩
      · obtain ⟨n, hn⟩ := (ho.owned d).mp ⟨k, hk⟩
        exact ⟨n, List.mem_cons_of_mem _ hn⟩
      · exact ⟨size, List.mem_cons_self⟩
    · rintro ⟨n, hn⟩
      rcases List.mem_cons.mp hn with hn | hn
      · cases hn
        exact ⟨m, (hused _ _).mpr (Or.inr ⟨rfl, rfl⟩)⟩
      · obtain ⟨k, hk⟩ := (ho.owned d).mpr ⟨n, hn⟩
        exact ⟨k, (hused d k).mpr (Or.inl hk)⟩
  · rcases List.mem_cons.mp hp with hp | hp
    · cases hp
      exact ⟨c, m, rfl, (hused c m).mpr (Or.inr ⟨rfl, rfl⟩), hlarge⟩
    · obtain ⟨d, k, hd, hk, hn⟩ := ho.large p n hp
      exact ⟨d, k, hd, (hused d k).mpr (Or.inl hk), hn⟩
  · rw [List.map_cons, List.nodup_cons]
    refine ⟨fun hmem => ?_, ho.distinct⟩
    obtain ⟨d, k, hd, hk⟩ := ho.block hmem
    exact hfresh k ((Nat.add_right_cancel hd : c = d) ▸ hk)

theorem Owns.erase (ho : Owns used live) {c : Nat}
    (hused : ∀ d k, used' d k ↔ used d k ∧ d ≠ c) :
    Owns used' (live.filter fun a => a.1 ≠ c + PAYLOAD) := by
  refine ⟨fun d => ?_, fun p n hp => ?_, ?_⟩
  · simp only [List.mem_filter, decide_eq_true_eq, hused]
    constructor
    · rintro ⟨k, hk, hdc⟩
      obtain ⟨n, hn⟩ := (ho.owned d).mp ⟨k, hk⟩
      exact ⟨n, hn, fun heq => hdc (Nat.add_right_cancel heq)⟩
    · rintro ⟨n, hn, hdc⟩
      obtain ⟨k, hk⟩ := (ho.owned d).mpr ⟨n, hn⟩
      exact ⟨k, hk, fun heq => hdc (heq ▸ rfl)⟩
  · simp only [List.mem_filter, decide_eq_true_eq] at hp
    obtain ⟨d, k, hd, hk, hn⟩ := ho.large p n hp.1
    refine ⟨d, k, hd, (hused d k).mpr ⟨hk, fun heq => hp.2 (heq ▸ hd)⟩, hn⟩
  · exact ho.distinct.sublist (List.filter_sublist.map Prod.fst)

end Owns

section Steps

variable {L : Layout} {c : Session} {h : Heap}

theorem owns_malloced {s s' : State} {h' : Heap} {live : List (Nat × Nat)} {size p : Nat}
    (ho : Owns (InUse L h) live) (hm : Malloced L s s' h h' size p) :
    Owns (InUse L h') (if p = 0 then live else (p, size) :: live) := by
  rcases hm.result with ⟨rfl, -, rfl⟩ | ⟨d, m, rfl, hnew⟩
  · exact ho
  · rw [if_neg (by unfold PAYLOAD; omega)]
    exact ho.insert hnew.large hnew.fresh hnew.used

theorem owns_reallocated {s s' : State} {h' : Heap} {live : List (Nat × Nat)} {d m size q : Nat}
    (ho : Owns (InUse L h) live) (hre : Reallocated L s s' h h' d m size q) :
    Owns (InUse L h') ((q + PAYLOAD, size) :: live.filter fun a => a.1 ≠ d + PAYLOAD) := by
  obtain ⟨k, hlarge, hused⟩ := hre.used
  have herased : Owns (fun a j => InUse L h a j ∧ a ≠ d) _ := ho.erase fun _ _ => Iff.rfl
  exact herased.insert hlarge (fun j hj => hj.2 (hre.fresh j hj.1)) hused

theorem malloc_sound (hs : Holds L c.state h) (ho : Owns (InUse L h) c.live) {size : Nat}
    (hsize : size ≤ INT_MAX) :
    ∃ c' h', next L c (.malloc size) = some (.ok c') ∧ Holds L c'.state h' ∧
      Owns (InUse L h') c'.live ∧ Kept (InUse L h) c.state.mem c'.state.mem := by
  obtain ⟨s', hrun, hm⟩ := mmMalloc_ok size hs hsize
  generalize allocate (base L) L.memMaxAddr size h = allocated at hrun hm
  obtain ⟨p, h'⟩ := allocated
  refine ⟨⟨s', if p = 0 then c.live else (p, size) :: c.live⟩, h', ?_, hm.holds,
    owns_malloced ho hm, hm.kept⟩
  rw [next, if_pos hsize, hrun]
  rfl

theorem free_sound (hs : Holds L c.state h) (ho : Owns (InUse L h) c.live) {p : Nat}
    (hp : p ∈ c.live.map Prod.fst) :
    ∃ c' h', next L c (.free p) = some (.ok c') ∧ Holds L c'.state h' ∧ Owns (InUse L h') c'.live ∧
      Kept (fun d m => InUse L h d m ∧ d + PAYLOAD ≠ p) c.state.mem c'.state.mem ∧
      c'.live = c.live.filter fun a => a.1 ≠ p := by
  obtain ⟨d, m, rfl, hd⟩ := ho.block hp
  obtain ⟨s', hrun, hleads, hused⟩ := mmFree_ok hs hd
  refine ⟨⟨s', c.live.filter fun a => a.1 ≠ d + PAYLOAD⟩, _, ?_, hleads.holds, ho.erase hused,
    hleads.kept.mono fun e k he => ⟨he.1, fun heq => he.2 (heq ▸ rfl)⟩, rfl⟩
  rw [next, if_pos hp, hrun]
  rfl

theorem write_sound (hs : Holds L c.state h) (ho : Owns (InUse L h) c.live) {a : Nat} {v : UInt8}
    {r : Except Fault Session} (hnext : next L c (.write a v) = some r) :
    ∃ c', r = .ok c' ∧ Holds L c'.state h ∧ Owns (InUse L h) c'.live := by
  rw [next] at hnext
  split at hnext
  · rename_i hlive
    cases hnext
    obtain ⟨⟨p, n⟩, hp, hle, hlt⟩ := hlive
    obtain ⟨d, m, rfl, hd, hn⟩ := ho.large p n hp
    have hW : WSIZE = 4 := rfl
    have hP : PAYLOAD = 4 := rfl
    have hm : WSIZE * m = 4 * m := rfl
    refine ⟨_, rfl, holds_payload hs hd fun y hy => Function.update_of_ne ?_ .., ho⟩
    simp only at hle hlt
    omega
  · cases hnext

theorem realloc_sound (hs : Holds L c.state h) (ho : Owns (InUse L h) c.live) {p size : Nat}
    (hp : p ∈ c.live.map Prod.fst) (hpos : 0 < size) (hsize : size ≤ INT_MAX)
    (hgood : ¬ UnitGrowth L c.state p size) :
    ∃ c' h' q, next L c (.realloc p size) = some (.ok c') ∧ Holds L c'.state h' ∧
      Owns (InUse L h') c'.live ∧
      c'.live = if q = 0 then c.live else (q, size) :: c.live.filter fun a => a.1 ≠ p := by
  obtain ⟨d, m, rfl, hd⟩ := ho.block hp
  obtain ⟨q, s', hrun, hresult⟩ := mmRealloc_ok hs hd hpos hsize hgood
  have hnext : next L c (.realloc (d + PAYLOAD) size) = some (.ok ⟨s', if q = 0 then c.live else
      (q, size) :: c.live.filter fun a => a.1 ≠ d + PAYLOAD⟩) := by
    rw [next, if_pos ⟨hp, hpos, hsize⟩, hrun]
    rfl
  rcases hresult with ⟨rfl, rfl⟩ | ⟨e, h', rfl, hre⟩
  · exact ⟨_, h, 0, hnext, hs, ho, rfl⟩
  · refine ⟨_, h', e + PAYLOAD, hnext, hre.holds, ?_, rfl⟩
    rw [if_neg (by unfold PAYLOAD; omega)]
    exact owns_reallocated ho hre

end Steps

end ComputerSystems.Malloc.Client
