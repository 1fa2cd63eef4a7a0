/- The list and the table of the shell are those that `job_list` and `jid2job` hold in memory. -/

import ComputerSystems.Cush.Bookkeeping
import ComputerSystems.Cush.JobTable

set_option autoImplicit false
set_option relaxedAutoImplicit false

namespace ComputerSystems.Cush.Storage

open ComputerSystems.Systems.Runs
open ComputerSystems.Cush.Jobs
open ComputerSystems.Cush.Shell
open ComputerSystems.Cush.Steps
open ComputerSystems.Cush.Bookkeeping
open ComputerSystems.Cush.JobTable (Store Agrees addJob listRemove freeJid_least addJob_ok
  addJob_table remove_ok remove_table nodup_jobs)

def adding : Point → List Nat
  | .added r => [r]
  | _ => []

/-- The store holds the jobs of the shell. The store takes up a job with its id, in one operation. -/
structure Stores (m : Store) (jobs : List Nat) (s : State) : Prop where
  agrees : Agrees m jobs
  listed : s.jobList = jobs ++ adding s.point
  table : s.jid2job = m.jid2job
  jids : ∀ a ∈ jobs, (s.job a).jid = m.jid a
  free : ∀ a, s.allocated ≤ a + (adding s.point).length → m.live a = false

/-- What a step of the shell does to the store: nothing, `add_job` with memory that is not in use,
or a removal by `delete_all_finished_jobs`. -/
inductive Update (m : Store) : Store → Prop where
  | same : Update m m
  | added {a : Nat} {m' : Store} : m.live a = false → addJob m a = some m' → Update m m'
  | removed {a : Nat} {t m' : Store} {e : JobTable.Node} : listRemove m (.job a) = some (t, e) →
      JobTable.deleteJob t a = some m' → Update m m'

section Steps

variable {m m' : Store} {jobs : List Nat} {s s' : State} {e : Event} {r i : Nat}

theorem adding_of_launching {p : Point} (h : launching p = none) : adding p = [] := by
  cases p with
  | added r => cases h
  | _ => rfl

theorem adding_leaves (h : Leaves s s') (hlive : s'.point.isHalted = false) :
    adding s'.point = adding s.point := by
  rw [adding_of_launching h.launching]
  rcases h.origin with hnone | ⟨r, k, hspawn⟩ | ⟨-, hhalted⟩
  · exact (adding_of_launching hnone).symm
  · rw [hspawn]
    rfl
  · rw [hlive] at hhalted
    cases hhalted

theorem Stores.keep (h : Stores m jobs s) (hlist : s'.jobList = s.jobList)
    (htable : s'.jid2job = s.jid2job) (hallocated : s'.allocated = s.allocated)
    (hjid : ∀ a, (s'.job a).jid = (s.job a).jid) (hadding : adding s'.point = adding s.point) :
    Stores m jobs s' where
  agrees := h.agrees
  listed := by rw [hlist, hadding, h.listed]
  table := htable.trans h.table
  jids a ha := (hjid a).trans (h.jids a ha)
  free a ha := h.free a (by rwa [← hallocated, ← hadding])

theorem update_jid {job : Nat → Job} {j : Job} (h : j.jid = (job r).jid) (a : Nat) :
    (Function.update job r j a).jid = (job a).jid := by
  by_cases hr : a = r
  · subst hr
    rw [Function.update_self, h]
  · rw [Function.update_of_ne hr]

theorem stores_numbered (hbase : Base s) (h : Stores m jobs s) (hpoint : s.point = .added r)
    (hfree : freeJid s.jid2job = some i) : ∃ m', Update m m' ∧ Stores m' (jobs ++ [r])
      { s.setJob r { s.job r with jid := i } with
        jid2job := Function.update s.jid2job i (some r)
        point := .numbered r } := by
  have hlast := hbase.last r (by rw [hpoint]; rfl)
  have hunused : m.live r = false := by
    refine h.free r ?_
    rw [hpoint, ← hlast]
    exact Nat.le_refl _
  have hfree' : freeJid m.jid2job = some i := h.table ▸ hfree
  obtain ⟨m', -, hadd, hagrees, -⟩ := addJob_ok h.agrees hunused ⟨i, (freeJid_least hfree').1⟩
  obtain ⟨j, hj, htable, hjid, hlive⟩ := addJob_table hadd
  obtain rfl : i = j := Option.some.inj (hfree'.symm.trans hj)
  refine ⟨m', .added hunused hadd, hagrees, ?_, ?_, fun a ha => ?_, fun a ha => ?_⟩
  · have hlisted := h.listed
    rw [hpoint] at hlisted
    exact hlisted.trans (List.append_nil _).symm
  · rw [htable, ← h.table]
  · rw [hjid]
    change (Function.update s.job r { s.job r with jid := (i : Int) } a).jid = _
    by_cases hr : a = r
    · subst hr
      rw [Function.update_self, Function.update_self]
    · rw [Function.update_of_ne hr, Function.update_of_ne hr]
      exact h.jids a ((List.mem_append.mp ha).resolve_right fun hmem => hr (List.mem_singleton.mp hmem))
  · have hle : s.allocated ≤ a := ha
    rw [hlive, Function.update_of_ne (by omega)]
    exact h.free a (Nat.le_add_right_of_le hle)

theorem stores_removed {rest : List Nat} (h : Stores m jobs s) (hpoint : s.point = .deleting (r :: rest))
    (hr : r ∈ s.jobList) (hjid : (s.job r).jid = i) : ∃ m', Update m m' ∧ Stores m' (jobs.erase r)
      { s.setJob r { s.job r with jid := -1 } with
        jobList := s.jobList.erase r
        jid2job := Function.update s.jid2job i none
        point := .deleting rest } := by
  have hlisted : s.jobList = jobs := by
    rw [h.listed, hpoint]
    exact List.append_nil _
  rw [hlisted] at hr ⊢
  obtain ⟨before, after, rfl⟩ := List.append_of_mem hr
  have hnodup := nodup_jobs h.agrees
  have hbefore : r ∉ before := fun hmem =>
    List.disjoint_of_nodup_append hnodup hmem List.mem_cons_self
  have herase : (before ++ r :: after).erase r = before ++ after := by
    rw [List.erase_append_right _ hbefore, List.erase_cons_head]
  rw [herase]
  obtain ⟨t, m', hremove, hdelete, hagrees, hjids⟩ := remove_ok h.agrees
  have hnot : r ∉ before ++ after := by
    rw [List.nodup_middle, List.nodup_cons] at hnodup
    exact hnodup.1
  obtain ⟨htable, hlive⟩ := remove_table hremove hdelete
  rw [← h.jids r hr, hjid, Int.toNat_natCast] at htable
  refine ⟨m', .removed hremove hdelete, hagrees, (List.append_nil _).symm, ?_, fun a ha => ?_,
    fun a ha => ?_⟩
  · rw [htable, ← h.table]
  · have hne : a ≠ r := fun heq => hnot (heq ▸ ha)
    rw [hjids a ha]
    change (Function.update s.job r { s.job r with jid := -1 } a).jid = _
    rw [Function.update_of_ne hne]
    refine h.jids a ?_
    rw [List.mem_append] at ha ⊢
    exact ha.imp_right (List.mem_cons_of_mem r)
  · rw [hlive]
    by_cases heq : a = r
    · rw [heq, Function.update_self]
    · rw [Function.update_of_ne heq]
      have hle : s.allocated ≤ a := ha
      exact h.free a (Nat.le_add_right_of_le hle)

theorem stores_move (hbase : Base s) (h : Stores m jobs s) (hmove : Move s e s')
    (hlive : s'.point.isHalted = false) : ∃ m' jobs', Update m m' ∧ Stores m' jobs' s' := by
  cases hmove with
  | quiet hsame hpoint =>
    have hadding : adding s'.point = adding s.point := by
      rcases hpoint with hpoint | hleaves
      · rw [hpoint]
      · exact adding_leaves hleaves hlive
    exact ⟨m, jobs, .same, h.keep hsame.jobList hsame.jid2job hsame.allocated
      (fun a => by rw [hsame.job]) hadding⟩
  | @pushed pipe pipes fresh hpoint =>
    refine ⟨m, jobs, .same, h.agrees, ?_, h.table, fun a ha => ?_, fun a ha => ?_⟩
    · have hlisted := h.listed
      rw [hpoint] at hlisted
      exact congrArg (· ++ [s.allocated]) (hlisted.trans (List.append_nil _))
    · have hlt := hbase.allocated a (h.listed ▸ List.mem_append_left _ ha)
      change (Function.update s.job s.allocated _ a).jid = _
      rw [Function.update_of_ne (Nat.ne_of_lt hlt)]
      exact h.jids a ha
    · have hle : s.allocated + 1 ≤ a + 1 := ha
      exact h.free a (Nat.le_add_right_of_le (Nat.le_of_succ_le_succ hle))
  | numbered hpoint hfree =>
    obtain ⟨m', hupdate, hstores⟩ := stores_numbered hbase h hpoint hfree
    exact ⟨m', _, hupdate, hstores⟩
  | initialised hpoint =>
    exact ⟨m, jobs, .same, h.keep rfl rfl rfl (update_jid rfl) (by rw [hpoint]; rfl)⟩
  | started hpoint =>
    refine ⟨m, jobs, .same, ?_⟩
    rw [startJob]
    split_ifs
    · exact h.keep rfl rfl rfl (update_jid rfl) (by rw [hpoint]; rfl)
    · exact h.keep rfl rfl rfl (update_jid rfl) (by rw [hpoint]; rfl)
  | @spawned r k result hpoint =>
    refine ⟨m, jobs, .same, h.keep rfl rfl rfl (update_jid ?_) (by rw [hpoint]; rfl)⟩
    rw [Launching.spawned]
    split_ifs <;> rfl
  | failed hpoint =>
    exact ⟨m, jobs, .same, h.keep rfl rfl rfl (update_jid rfl) (by rw [hpoint]; rfl)⟩
  | recorded hpoint =>
    exact ⟨m, jobs, .same, h.keep rfl rfl rfl (update_jid rfl) (by rw [hpoint]; rfl)⟩
  | counted hpoint =>
    exact ⟨m, jobs, .same, h.keep rfl rfl rfl (update_jid rfl) (by rw [hpoint]; rfl)⟩
  | @written r status _ _ _ _ hsame hleaves =>
    refine ⟨m, jobs, .same, h.keep hsame.jobList hsame.jid2job hsame.allocated (fun a => ?_)
      (adding_leaves hleaves hlive)⟩
    rw [hsame.job]
    exact update_jid (j := { s.job r with status := status }) rfl a
  | reported _ _ _ hsame hpoint =>
    refine ⟨m, jobs, .same, h.keep hsame.jobList hsame.jid2job hsame.allocated
      (fun a => ?_) (by rw [hpoint])⟩
    rw [hsame.job]
    exact update_jid (handle_jid ..) a
  | lost _ _ _ hsame hpoint =>
    exact ⟨m, jobs, .same, h.keep hsame.jobList hsame.jid2job hsame.allocated
      (fun a => by rw [hsame.job]) (by rw [hpoint])⟩
  | wild _ _ _ _ _ hpoint =>
    rw [hpoint] at hlive
    cases hlive
  | removed hpoint _ hjid htable =>
    obtain ⟨m', hupdate, hstores⟩ := stores_removed h hpoint (hbase.table _ _ htable).1 hjid
    exact ⟨m', _, hupdate, hstores⟩

end Steps

section Runs

variable {m : Store} {jobs : List Nat} {s s' : State} {e : Event}

theorem stores_next (hbase : Base s) (h : Stores m jobs s) (hnext : next s e = some s')
    (hlive : s'.point.isHalted = false) : ∃ m' jobs', Update m m' ∧ Stores m' jobs' s' :=
  stores_move hbase h (next_move hbase hnext) hlive

theorem stores_init (h : system.init s) : Stores JobTable.start [] s := by
  obtain ⟨hlist, htable, -, hpoint, -⟩ := h
  refine ⟨JobTable.agrees_init JobTable.start_init, ?_, funext htable, nofun, fun _ _ => rfl⟩
  rw [hlist, hpoint]
  rfl

/-- In every run in which no process gets the number of a process that another listed job has
recorded, the jobs of the shell are those of a store, until the shell ends. -/
theorem stores_of_reachable (h : ReachableBy system Distinct s) (hlive : s.point.isHalted = false) :
    ∃ m jobs, Stores m jobs s := by
  have hall : Base s ∧ (s.point.isHalted = false → ∃ m jobs, Stores m jobs s) := by
    refine h.invariant (P := fun s => Base s ∧ (s.point.isHalted = false → ∃ m jobs, Stores m jobs s))
      (fun s hs => ⟨base_init hs, fun _ => ⟨_, _, stores_init hs⟩⟩) ?_
    rintro s e s' ⟨hbase, hstores⟩ hdistinct hnext
    refine ⟨base_next hbase hdistinct hnext, fun hlive => ?_⟩
    obtain ⟨m, jobs, hm⟩ := hstores (live_of_next hnext)
    obtain ⟨m', jobs', -, hm'⟩ := stores_next hbase hm hnext hlive
    exact ⟨m', jobs', hm'⟩
  exact hall.2 hlive

end Runs

end ComputerSystems.Cush.Storage
