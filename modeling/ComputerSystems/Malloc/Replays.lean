/- Replays of a sequence of requests on heaps with different contents, and what they share. -/

import ComputerSystems.Malloc.Offsets
import ComputerSystems.Malloc.Safety

set_option autoImplicit false
set_option relaxedAutoImplicit false

namespace ComputerSystems.Malloc.Replays

open ComputerSystems.Memory.Tiling
open ComputerSystems.Systems.Runs
open ComputerSystems.Malloc.Machine
open ComputerSystems.Malloc.Mm
open ComputerSystems.Malloc.Blocks
open ComputerSystems.Malloc.Operations
open ComputerSystems.Malloc.Representation
open ComputerSystems.Malloc.Place
open ComputerSystems.Malloc.Allocator
open ComputerSystems.Malloc.Client
open ComputerSystems.Malloc.Safety
open ComputerSystems.Malloc.Offsets

/-- `mm_free` names the earlier call whose result it is given. -/
inductive Request where
  | malloc (size : Nat)
  | free (earlier : Nat)
  deriving DecidableEq, Repr

/-- For every call its result, NULL where it has none, and the break behind it. -/
abbrev Record := List (Nat × Nat)

/-- A request in a session; the result that `mm_free` is given must still be live. -/
def call (L : Layout) (c : Session) (record : Record) :
    Request → Option (Except Fault (Nat × Session))
  | .malloc size =>
    if size ≤ INT_MAX then
      some do
        let (p, s) ← mmMalloc L size c.state
        return (p, ⟨s, if p = 0 then c.live else (p, size) :: c.live⟩)
    else none
  | .free earlier =>
    match record[earlier]? with
    | some (p, _) =>
      if p ∈ c.live.map Prod.fst then
        some do
          let (_, s) ← mmFree L p c.state
          return (0, ⟨s, c.live.filter fun a => a.1 ≠ p⟩)
      else none
    | none => none

/-- `mm_init` on a heap with arbitrary contents, then the requests in order, with writes of the
client to its live payloads in between. A fault ends the replay. -/
inductive Replay (L : Layout) : List Request → Except Fault Session → Record → Prop where
  | init {s s' : State} : s.memBrk = L.memStartBrk → s.calls = [] → mmInit L s = .ok (0, s') →
      Replay L [] (.ok ⟨s', []⟩) []
  | write {qs : List Request} {c c' : Session} {record : Record} (a : Nat) (v : UInt8) :
      Replay L qs (.ok c) record → next L c (.write a v) = some (.ok c') →
      Replay L qs (.ok c') record
  | call {qs : List Request} {c c' : Session} {record : Record} {q : Request} {p : Nat} :
      Replay L qs (.ok c) record → call L c record q = some (.ok (p, c')) →
      Replay L (qs ++ [q]) (.ok c') (record ++ [(p, c'.state.memBrk)])
  | fault {qs : List Request} {c : Session} {record : Record} {q : Request} {e : Fault} :
      Replay L qs (.ok c) record → call L c record q = some (.error e) →
      Replay L (qs ++ [q]) (.error e) record

/-- What the allocator decides, in offsets from the start of the heap and without memory. -/
structure Plan where
  heap : Heap
  record : Record

def origin : Nat := 3 * WSIZE

def endOf (h : Heap) : Nat := origin + span Blk.bytes h.blocks + WSIZE

def Plan.next (limit : Nat) (P : Plan) : Request → Option Plan
  | .malloc size =>
    if size ≤ INT_MAX then
      let (p, h) := allocate origin limit size P.heap
      some ⟨h, P.record ++ [(p, endOf h)]⟩
    else none
  | .free earlier =>
    match P.record[earlier]? with
    | some (p, _) =>
      match focus origin (p - PAYLOAD) [] P.heap.blocks with
      | some (_, ⟨_, true⟩, _) =>
        let h := freeAt origin (p - PAYLOAD) P.heap
        some ⟨h, P.record ++ [(0, endOf h)]⟩
      | _ => none
    | none => none

def Plan.start : Plan := ⟨⟨[], fun _ => []⟩, []⟩

def plan (limit : Nat) (qs : List Request) : Option Plan :=
  qs.foldlM (Plan.next limit) Plan.start

/-- An entry of the record of a heap that starts at `start`. -/
def entry (start : Nat) (e : Nat × Nat) : Nat × Nat := (pointer start e.1, e.2 + start)

structure Follows (L : Layout) (c : Session) (record : Record) (P : Plan) : Prop where
  holds : Holds L c.state (shift L.memStartBrk P.heap)
  owns : Owns (InUse L (shift L.memStartBrk P.heap)) c.live
  record : record = P.record.map (entry L.memStartBrk)

section Steps

variable {L : Layout} {c c' : Session} {record : Record} {P P' : Plan} {q : Request}
variable {qs : List Request} {r : Except Fault Session}

theorem base_eq (L : Layout) : base L = origin + L.memStartBrk := Nat.add_comm ..

theorem memMaxAddr_eq (L : Layout) : L.memMaxAddr = L.heapSize + L.memStartBrk := Nat.add_comm ..

theorem memBrk_eq {s : State} {h : Heap} (hs : Holds L s (shift L.memStartBrk h)) :
    s.memBrk = endOf h + L.memStartBrk := by
  have hends := hs.ends
  rw [base_eq] at hends
  unfold endOf
  dsimp only [shift] at hends
  omega

theorem live_pointer {p : Nat} (hf : Follows L c record P)
    (hp : pointer L.memStartBrk p ∈ c.live.map Prod.fst) :
    ∃ m l r, InUse L (shift L.memStartBrk P.heap) (p - PAYLOAD + L.memStartBrk) m ∧
      pointer L.memStartBrk p = p - PAYLOAD + L.memStartBrk + PAYLOAD ∧
      focus origin (p - PAYLOAD) [] P.heap.blocks = some (l, ⟨m, true⟩, r) := by
  obtain ⟨d, m, hd, hm⟩ := hf.owns.block hp
  have hin := (located_within hm).1
  rw [base_eq] at hin
  have hne : p ≠ 0 := by
    rintro rfl
    have hzero : pointer L.memStartBrk 0 = 0 := rfl
    unfold PAYLOAD at hd
    omega
  rw [pointer, if_neg hne] at hd
  have hstart : d = p - PAYLOAD + L.memStartBrk := by
    unfold origin PAYLOAD WSIZE at *
    omega
  subst hstart
  obtain ⟨l, r, hblocks, hat⟩ := located_split hm
  refine ⟨m, l.reverse, r, hm, ?_, ?_⟩
  · rw [pointer, if_neg hne, hd]
  · have hpos : ∀ x ∈ l, 0 < x.bytes := fun x hx =>
      hf.holds.ok.pos x (hblocks ▸ List.mem_append_left _ hx)
    have hblocks : P.heap.blocks = l ++ ⟨m, true⟩ :: r := hblocks
    rw [base_eq] at hat
    have hlead : p - PAYLOAD = origin + span Blk.bytes l := by omega
    rw [hblocks, hlead, focus_split hpos, List.append_nil]

theorem follows_call {x : Except Fault (Nat × Session)} (hf : Follows L c record P)
    (hcall : call L c record q = some x) :
    ∃ p c' P', x = .ok (p, c') ∧ P.next L.heapSize q = some P' ∧
      Follows L c' (record ++ [(p, c'.state.memBrk)]) P' := by
  cases q with
  | malloc size =>
    rw [call] at hcall
    split_ifs at hcall with hsize
    obtain ⟨s', hrun, hm⟩ := mmMalloc_ok size hf.holds hsize
    rw [base_eq, memMaxAddr_eq, shift_allocate] at hrun hm
    have howns := owns_malloced hf.owns hm
    rw [hrun] at hcall
    cases hcall
    refine ⟨_, _, _, rfl, by rw [Plan.next, if_pos hsize], hm.holds, howns, ?_⟩
    rw [List.map_append, ← hf.record, memBrk_eq hm.holds]
    rfl
  | free earlier =>
    rw [call, hf.record, List.getElem?_map] at hcall
    cases hentry : P.record[earlier]? with
    | none =>
      rw [hentry] at hcall
      cases hcall
    | some e =>
      obtain ⟨p, brk⟩ := e
      rw [hentry] at hcall
      dsimp only [Option.map_some, entry] at hcall
      split_ifs at hcall with hlive
      obtain ⟨m, l, r, hused, hpointer, hfocus⟩ := live_pointer hf hlive
      obtain ⟨s', hrun, hleads, hfreed⟩ := mmFree_ok hf.holds hused
      rw [base_eq, shift_freeAt] at hleads hfreed
      have howns := hf.owns.erase hfreed
      rw [hpointer, hrun] at hcall
      cases hcall
      refine ⟨_, _, ⟨freeAt origin (p - PAYLOAD) P.heap,
        P.record ++ [(0, endOf (freeAt origin (p - PAYLOAD) P.heap))]⟩, rfl, ?_, hleads.holds, howns, ?_⟩
      · rw [Plan.next, hentry]
        dsimp only
        rw [hfocus]
      · rw [List.map_append, ← hf.record, memBrk_eq hleads.holds]
        rfl

theorem follows_write {a : Nat} {v : UInt8} (hf : Follows L c record P)
    (hnext : next L c (.write a v) = some (.ok c')) : Follows L c' record P := by
  obtain ⟨c'', heq, hs, ho⟩ := write_sound hf.holds hf.owns hnext
  cases heq
  exact ⟨hs, ho, hf.record⟩

theorem follows_init {s s' : State} (hbrk : s.memBrk = L.memStartBrk) (hcalls : s.calls = [])
    (hinit : mmInit L s = .ok (0, s')) : Follows L ⟨s', []⟩ [] Plan.start := by
  by_cases hroom : 4 * WSIZE ≤ L.heapSize
  · obtain ⟨t, hrun, ht⟩ := mmInit_ok hbrk hcalls hroom
    rw [hrun] at hinit
    cases hinit
    exact ⟨ht, ⟨fun d => by simp [InUse, shift, Plan.start], by simp, by simp⟩, rfl⟩
  · rw [mmInit_full hbrk (by omega)] at hinit
    cases hinit

theorem plan_snoc : plan L.heapSize (qs ++ [q]) = (plan L.heapSize qs).bind
    fun P => P.next L.heapSize q := by
  rw [plan, List.foldlM_append]
  cases hplan : qs.foldlM (Plan.next L.heapSize) Plan.start with
  | none =>
    rw [plan, hplan]
    rfl
  | some P =>
    rw [plan, hplan]
    exact Option.bind_fun_some _

theorem replay_follows (h : Replay L qs r record) :
    ∃ c P, r = .ok c ∧ plan L.heapSize qs = some P ∧ Follows L c record P := by
  induction h with
  | init hbrk hcalls hinit => exact ⟨_, _, rfl, rfl, follows_init hbrk hcalls hinit⟩
  | write a v _ hnext ih =>
    obtain ⟨c, P, heq, hplan, hf⟩ := ih
    cases heq
    exact ⟨_, P, rfl, hplan, follows_write hf hnext⟩
  | call _ hcall ih =>
    obtain ⟨c, P, heq, hplan, hf⟩ := ih
    cases heq
    obtain ⟨p, c', P', heq, hnext, hf'⟩ := follows_call hf hcall
    cases heq
    exact ⟨_, P', rfl, by rw [plan_snoc, hplan, Option.bind_some, hnext], hf'⟩
  | fault _ hcall ih =>
    obtain ⟨c, P, heq, hplan, hf⟩ := ih
    cases heq
    obtain ⟨p, c', P', heq, -⟩ := follows_call hf hcall
    cases heq

def offsets (L : Layout) (e : Nat × Nat) : Option Nat × Nat :=
  (if e.1 = 0 then none else some (e.1 - L.memStartBrk), e.2 - L.memStartBrk)

theorem offsets_entry (e : Nat × Nat) :
    offsets L (entry L.memStartBrk e) = (if e.1 = 0 then none else some e.1, e.2) := by
  unfold offsets entry pointer
  by_cases hzero : e.1 = 0
  · simp [hzero]
  · simp [hzero]

/-- Two replays of the same requests, on any two heaps that can grow by as much, do not fault; their
results and their breaks have the same offsets. -/
theorem same_decisions {L₁ L₂ : Layout} {qs : List Request} {r₁ r₂ : Except Fault Session}
    {record₁ record₂ : Record} (hsize : L₁.heapSize = L₂.heapSize)
    (h₁ : Replay L₁ qs r₁ record₁) (h₂ : Replay L₂ qs r₂ record₂) :
    (∃ c₁ c₂, r₁ = .ok c₁ ∧ r₂ = .ok c₂) ∧
      record₁.map (offsets L₁) = record₂.map (offsets L₂) := by
  obtain ⟨c₁, P₁, rfl, hplan₁, hf₁⟩ := replay_follows h₁
  obtain ⟨c₂, P₂, rfl, hplan₂, hf₂⟩ := replay_follows h₂
  rw [hsize] at hplan₁
  obtain rfl : P₁ = P₂ := Option.some.inj (hplan₁.symm.trans hplan₂)
  refine ⟨⟨c₁, c₂, rfl, rfl⟩, ?_⟩
  rw [hf₁.record, hf₂.record, List.map_map, List.map_map]
  exact List.map_congr_left fun e _ => (offsets_entry e).trans (offsets_entry e).symm

theorem call_of_next (hf : Follows L c record P) (hnext : P.next L.heapSize q = some P') :
    ∃ x, call L c record q = some x := by
  cases q with
  | malloc size =>
    rw [Plan.next] at hnext
    split_ifs at hnext with hsize
    exact ⟨_, by rw [call, if_pos hsize]⟩
  | free earlier =>
    rw [Plan.next] at hnext
    cases hentry : P.record[earlier]? with
    | none =>
      rw [hentry] at hnext
      cases hnext
    | some e =>
      obtain ⟨p, brk⟩ := e
      rw [hentry] at hnext
      dsimp only at hnext
      split at hnext
      · rename_i l m r hfocus
        have hlead := focus_start hfocus
        have hblocks := focus_blocks hfocus
        rw [span_nil, Nat.add_zero] at hlead
        have hused : InUse L (shift L.memStartBrk P.heap) (p - PAYLOAD + L.memStartBrk) m := by
          have hmiddle : (base L + span Blk.bytes l.reverse, ⟨m, true⟩) ∈
              located Blk.bytes (base L) (l.reverse ++ ⟨m, true⟩ :: r) :=
            located_middle _ _ _ _
          rw [span_reverse, base_eq, show origin + L.memStartBrk + span Blk.bytes l =
            p - PAYLOAD + L.memStartBrk by omega, ← base_eq] at hmiddle
          rw [InUse]
          dsimp only [shift]
          rwa [show P.heap.blocks = l.reverse ++ ⟨m, true⟩ :: r from hblocks]
        obtain ⟨n, hn⟩ := (hf.owns.owned _).mp ⟨m, hused⟩
        have hpointer : pointer L.memStartBrk p = p - PAYLOAD + L.memStartBrk + PAYLOAD := by
          unfold origin PAYLOAD WSIZE at *
          rw [pointer, if_neg (by omega)]
          omega
        rw [call, hf.record, List.getElem?_map, hentry]
        dsimp only [Option.map_some, entry]
        rw [if_pos (List.mem_map.mpr ⟨_, hn, hpointer.symm⟩)]
        exact ⟨_, rfl⟩
      · cases hnext

theorem exists_replay (hroom : 4 * WSIZE ≤ L.heapSize) (hplan : plan L.heapSize qs = some P) :
    ∃ c record, Replay L qs (.ok c) record ∧ Follows L c record P := by
  induction qs using List.reverseRecOn generalizing P with
  | nil =>
    cases hplan
    have hbrk : State.memBrk ⟨fun _ => 0, L.memStartBrk, 0, fun _ => 0, []⟩ = L.memStartBrk := rfl
    obtain ⟨s, hinit, -⟩ := mmInit_ok hbrk rfl hroom
    exact ⟨_, _, .init hbrk rfl hinit, follows_init hbrk rfl hinit⟩
  | append_singleton qs q ih =>
    rw [plan_snoc] at hplan
    obtain ⟨P₀, hplan₀, hnext⟩ := Option.bind_eq_some_iff.mp hplan
    obtain ⟨c, record, hreplay, hf⟩ := ih hplan₀
    obtain ⟨x, hcall⟩ := call_of_next hf hnext
    obtain ⟨p, c', P', rfl, hnext', hf'⟩ := follows_call hf hcall
    obtain rfl : P' = P := Option.some.inj (hnext'.symm.trans hnext)
    exact ⟨c', _, .call hreplay hcall, hf'⟩

theorem same_decisions_sample : ∃ c₁ c₂ record₁ record₂,
    Replay (sample true) [.malloc 120, .malloc 40, .free 0, .malloc 8] (.ok c₁) record₁ ∧
      Replay (sample false) [.malloc 120, .malloc 40, .free 0, .malloc 8] (.ok c₂) record₂ ∧
        record₁.map (offsets (sample true)) = record₂.map (offsets (sample false)) := by
  have hplan : ∃ P, plan MAX_HEAP [.malloc 120, .malloc 40, .free 0, .malloc 8] = some P :=
    Option.isSome_iff_exists.mp (by decide)
  obtain ⟨P, hplan⟩ := hplan
  have hroom : 4 * WSIZE ≤ MAX_HEAP := by decide
  obtain ⟨c₁, record₁, h₁, -⟩ := exists_replay (L := sample true) hroom hplan
  obtain ⟨c₂, record₂, h₂, -⟩ := exists_replay (L := sample false) hroom hplan
  have hsize : (sample true).heapSize = (sample false).heapSize := rfl
  exact ⟨c₁, c₂, record₁, record₂, h₁, h₂, (same_decisions hsize h₁ h₂).2⟩

theorem next_of_call {p : Nat} (hcall : call L c record q = some (.ok (p, c'))) :
    ∃ op, op.isRealloc = false ∧ next L c op = some (.ok c') := by
  cases q with
  | malloc size =>
    rw [call] at hcall
    split_ifs at hcall with hsize
    refine ⟨.malloc size, rfl, ?_⟩
    rw [next, if_pos hsize]
    cases hrun : mmMalloc L size c.state with
    | error e =>
      rw [hrun] at hcall
      cases hcall
    | ok result =>
      rw [hrun] at hcall
      cases hcall
      rfl
  | free earlier =>
    rw [call] at hcall
    split at hcall
    · rename_i p brk hentry
      split_ifs at hcall with hlive
      refine ⟨.free p, rfl, ?_⟩
      rw [next, if_pos hlive]
      cases hrun : mmFree L p c.state with
      | error e =>
        rw [hrun] at hcall
        cases hcall
      | ok result =>
        rw [hrun] at hcall
        cases hcall
        rfl
    · cases hcall

theorem reachable_of_replay (h : Replay L qs r record) (hr : r = .ok c) :
    ReachableBy (system L) (fun _ op => op.isRealloc = false) (.ok c) := by
  induction h generalizing c with
  | init hbrk hcalls hinit =>
    cases hr
    exact .start ⟨_, _, hbrk, hcalls, hinit, rfl⟩
  | write a v _ hnext ih =>
    cases hr
    exact .step (i := .write a v) (ih rfl) rfl hnext
  | call _ hcall ih =>
    cases hr
    obtain ⟨op, hop, hnext⟩ := next_of_call hcall
    exact .step (ih rfl) hop hnext
  | fault _ _ _ => cases hr

end Steps

end ComputerSystems.Malloc.Replays
