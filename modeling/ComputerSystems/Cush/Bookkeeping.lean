/- The job list, the table of ids and the recorded processes along the runs of the shell. -/

import ComputerSystems.Cush.Steps

set_option autoImplicit false
set_option relaxedAutoImplicit false

namespace ComputerSystems.Cush.Bookkeeping

open ComputerSystems.Systems.Runs
open ComputerSystems.Systems.Tables
open ComputerSystems.Cush.Ast
open ComputerSystems.Cush.Jobs
open ComputerSystems.Cush.Launching
open ComputerSystems.Cush.Shell
open ComputerSystems.Cush.Steps

section Points

variable {p : Point} {r k : Nat} {pid : Int}

theorem launching_of_unstarted (h : unstarted p = some r) : launching p = some r := by
  unfold unstarted at h
  split at h <;> first | exact h | cases h

theorem used_of_launching (h : launching p = some r) : used p = [r] := by
  cases p <;> cases h <;> rfl

end Points

section Keep

variable {s s' : State} {e : Event}

/-- How the points before and after a step that keeps the list and the records belong together. -/
structure Follows (s s' : State) : Prop where
  used : (used s'.point).Sublist s.jobList
  launching : ∀ r, launching s'.point = some r → launching s.point = some r
  unstarted : ∀ r, unstarted s'.point = some r → unstarted s.point = some r
  added : ∀ r, s.point = .added r → s'.point = .added r ∨ s'.point.isHalted = true
  numbered : ∀ r, s.point = .numbered r → s'.point = .numbered r ∨ s'.point.isHalted = true
  adding : ∀ r, s'.point = .added r → s.point = .added r
  record : ∀ r k pid, s.point = .record r k pid → s'.point = .record r k pid
  recording : ∀ r k pid, s'.point = .record r k pid → s.point = .record r k pid

theorem follows_same (hbase : Base s) (h : s'.point = s.point) : Follows s s' where
  used := h ▸ hbase.used
  launching _ hr := h ▸ hr
  unstarted _ hr := h ▸ hr
  added _ hr := Or.inl (h.trans hr)
  numbered _ hr := Or.inl (h.trans hr)
  adding _ hr := h.symm.trans hr
  record _ _ _ hr := h.trans hr
  recording _ _ _ hr := h.symm.trans hr

theorem follows_leaves (h : Leaves s s') : Follows s s' where
  used := h.used
  launching r hr := by
    rw [h.launching] at hr
    cases hr
  unstarted r hr := by
    have hlaunching := launching_of_unstarted hr
    rw [h.launching] at hlaunching
    cases hlaunching
  added r hr := by
    rcases h.origin with hnone | ⟨r', k, hspawn⟩ | ⟨-, hhalted⟩
    · rw [hr] at hnone
      cases hnone
    · rw [hr] at hspawn
      cases hspawn
    · exact Or.inr hhalted
  numbered r hr := by
    rcases h.origin with hnone | ⟨r', k, hspawn⟩ | ⟨⟨r', hadded⟩, -⟩
    · rw [hr] at hnone
      cases hnone
    · rw [hr] at hspawn
      cases hspawn
    · rw [hr] at hadded
      cases hadded
  adding r hr := by
    have hlaunching := h.launching
    rw [hr] at hlaunching
    cases hlaunching
  record r k pid hr := by
    rcases h.origin with hnone | ⟨r', k', hspawn⟩ | ⟨⟨r', hadded⟩, -⟩
    · rw [hr] at hnone
      cases hnone
    · rw [hr] at hspawn
      cases hspawn
    · rw [hr] at hadded
      cases hadded
  recording r k pid hr := by
    have hlaunching := h.launching
    rw [hr] at hlaunching
    cases hlaunching

theorem base_keep (hbase : Base s) (hlive : s.point.isHalted = false) (hfollows : Follows s s') (hlist : s'.jobList = s.jobList)
    (htable : s'.jid2job = s.jid2job) (hallocated : s'.allocated = s.allocated)
    (hfailures : s'.failures = s.failures)
    (hjid : ∀ r, (s'.job r).jid = (s.job r).jid) (hpids : ∀ r, (s'.job r).pids = (s.job r).pids)
    (hchild : ∀ pid c, s'.child.lookup pid = some c → s.child.lookup pid = some c) : Base s' where
  sorted := hlist ▸ hbase.sorted
  allocated := by
    rw [hlist, hallocated]
    exact hbase.allocated
  table i r hr := by
    rw [htable] at hr
    rw [hlist, hjid]
    exact hbase.table i r hr
  agree r hr := by
    rw [hlist] at hr
    rw [htable]
    rcases hbase.agree r hr with hadded | hhalted | hsome
    · rcases hfollows.added r hadded with h | h
      · exact Or.inl h
      · exact Or.inr (Or.inl h)
    · rw [hlive] at hhalted
      cases hhalted
    · exact Or.inr (Or.inr hsome)
  owner pid c hc := by
    rw [hallocated]
    exact hbase.owner pid c (hchild pid c hc)
  used := hlist ▸ hfollows.used
  unnumbered r hr := by
    rw [htable]
    exact hbase.unnumbered r (hfollows.adding r hr)
  last r hr := by
    rw [hallocated]
    exact hbase.last r (hfollows.launching r hr)
  unstarted r hr := by
    obtain ⟨hzero, hnone⟩ := hbase.unstarted r (hfollows.unstarted r hr)
    rw [hfailures]
    exact ⟨hzero, fun pid c hc => hnone pid c (hchild pid c hc)⟩
  fresh r hr := by
    rw [hallocated] at hr
    rw [hfailures]
    exact hbase.fresh r hr
  initialised r hr hnone := by
    rw [hlist] at hr
    rw [hpids] at hnone
    rcases hbase.initialised r hr hnone with h | h | h
    · rcases hfollows.added r h with h | h
      · exact Or.inl h
      · exact Or.inr (Or.inr h)
    · rcases hfollows.numbered r h with h | h
      · exact Or.inr (Or.inl h)
      · exact Or.inr (Or.inr h)
    · rw [hlive] at h
      cases h
  attributed pid c hc r hr pids hsome hmem := by
    rw [hlist] at hr
    rw [hpids] at hsome
    rw [hfailures]
    exact hbase.attributed pid c (hchild pid c hc) r hr pids hsome hmem
  recorded pid c hc hlisted := by
    rw [hlist] at hlisted
    rw [hpids]
    rcases hbase.recorded pid c (hchild pid c hc) hlisted with h | ⟨k, h⟩
    · exact Or.inl h
    · exact Or.inr ⟨k, hfollows.record _ _ _ h⟩
  recording r k pid hr c hc := by
    rw [hfailures]
    exact hbase.recording r k pid (hfollows.recording r k pid hr) c (hchild pid c hc)

end Keep

section Preserved

variable {s s' : State} {e : Event} {r k i : Nat} {pid : Int}

theorem base_init (h : system.init s) : Base s := by
  obtain ⟨hlist, htable, -, hpoint, hchild, hallocated, hfailures, -⟩ := h
  have hnone : ∀ pid c, s.child.lookup pid ≠ some c := by
    intro pid c hc
    rw [hchild] at hc
    cases hc
  refine ⟨?_, ?_, ?_, ?_, fun pid c hc => absurd hc (hnone pid c), ?_, ?_, ?_, ?_,
    fun r _ => hfailures r, ?_, fun pid c hc => absurd hc (hnone pid c),
    fun pid c hc => absurd hc (hnone pid c), ?_⟩
  · rw [hlist]
    exact .nil
  · rw [hlist]
    exact nofun
  · intro i r hr
    rw [htable] at hr
    cases hr
  · rw [hlist]
    exact nofun
  · rw [hpoint]
    exact List.nil_sublist _
  · intro r hr
    rw [hpoint] at hr
    cases hr
  · intro r hr
    rw [hpoint] at hr
    cases hr
  · intro r hr
    rw [hpoint] at hr
    cases hr
  · rw [hlist]
    exact nofun
  · intro r k pid hr
    rw [hpoint] at hr
    cases hr

theorem launching_mem (hbase : Base s) (h : launching s.point = some r) : r ∈ s.jobList := by
  have hused := hbase.used
  rw [used_of_launching h] at hused
  exact List.singleton_sublist.mp hused

def late : Point → Bool
  | .added _ => false
  | .numbered _ => false
  | .halted _ => false
  | _ => true

theorem has_pids (hbase : Base s) (hlate : late s.point = true) (hr : r ∈ s.jobList) :
    ∃ pids, (s.job r).pids = some pids := by
  cases hpids : (s.job r).pids with
  | some pids => exact ⟨pids, rfl⟩
  | none =>
    rcases hbase.initialised r hr hpids with h | h | h
    · rw [h] at hlate
      cases hlate
    · rw [h] at hlate
      cases hlate
    · cases hpoint : s.point <;> rw [hpoint] at h hlate
      case halted => cases hlate
      all_goals cases h

theorem has_jid (hbase : Base s) (hlate : late s.point = true) (hr : r ∈ s.jobList) :
    ∃ i, s.jid2job i = some r := by
  rcases hbase.agree r hr with h | h | h
  · rw [h] at hlate
    cases hlate
  · cases hpoint : s.point <;> rw [hpoint] at h hlate
    case halted => cases hlate
    all_goals cases h
  · exact h

theorem base_pushed (hbase : Base s) {pipe : Pipeline} {pipes : CommandLine} {fresh : Job}
    (hpoint : s.point = .line) : Base (pushJob { s with pipes := pipes } pipe fresh) := by
  have hne : ∀ r ∈ s.jobList, r ≠ s.allocated := fun r hr => (hbase.allocated r hr).ne
  have hjob : ∀ r, r ≠ s.allocated →
      (pushJob { s with pipes := pipes } pipe fresh).job r = s.job r :=
    fun r hr => Function.update_of_ne hr _ _
  have hnew : ((pushJob { s with pipes := pipes } pipe fresh).job s.allocated).pids = none := by
    rw [pushJob, State.setJob]
    simp only [Function.update_self]
  have hmem : ∀ r, r ∈ s.jobList ++ [s.allocated] → r ∈ s.jobList ∨ r = s.allocated := by
    intro r hr
    rwa [List.mem_append, List.mem_singleton] at hr
  refine ⟨?_, ?_, ?_, ?_, ?_, ?_, ?_, ?_, ?_, ?_, ?_, ?_, ?_, ?_⟩
  · refine List.pairwise_append.mpr ⟨hbase.sorted, List.pairwise_singleton _ _, ?_⟩
    intro r hr r' hr'
    rw [List.mem_singleton.mp hr']
    exact hbase.allocated r hr
  · intro r hr
    rcases hmem r hr with hr | rfl
    · exact Nat.lt_succ_of_lt (hbase.allocated r hr)
    · exact Nat.lt_succ_self _
  · intro i r hr
    obtain ⟨hlisted, hjid⟩ := hbase.table i r hr
    rw [hjob r (hne r hlisted)]
    exact ⟨List.mem_append_left _ hlisted, hjid⟩
  · intro r hr
    rcases hmem r hr with hr | rfl
    · rcases hbase.agree r hr with h | h | h
      · rw [hpoint] at h
        cases h
      · rw [hpoint] at h
        cases h
      · exact Or.inr (Or.inr h)
    · exact Or.inl rfl
  · exact fun pid c hc => Nat.lt_succ_of_lt (hbase.owner pid c hc)
  · exact List.sublist_append_right _ _
  · rintro r hr i hi
    cases hr
    exact hne _ (hbase.table i _ hi).1 rfl
  · rintro r hr
    cases hr
    rfl
  · rintro r hr
    cases hr
    exact ⟨hbase.fresh _ (Nat.le_refl _), fun pid c hc => (hbase.owner pid c hc).ne⟩
  · exact fun r hr => hbase.fresh r (Nat.le_of_succ_le hr)
  · intro r hr hnone
    rcases hmem r hr with hr | rfl
    · rw [hjob r (hne r hr)] at hnone
      have hpoint' := hbase.initialised r hr hnone
      rw [hpoint] at hpoint'
      rcases hpoint' with h | h | h <;> cases h
    · exact Or.inl rfl
  · intro pid c hc r hr pids hsome hin
    rcases hmem r hr with hr | rfl
    · rw [hjob r (hne r hr)] at hsome
      exact hbase.attributed pid c hc r hr pids hsome hin
    · rw [hnew] at hsome
      cases hsome
  · intro pid c hc hlisted
    have hlt := hbase.owner pid c hc
    rcases hmem _ hlisted with hlisted | heq
    · rcases hbase.recorded pid c hc hlisted with h | ⟨k, h⟩
      · rw [hjob _ hlt.ne]
        exact Or.inl h
      · rw [hpoint] at h
        cases h
    · exact absurd heq hlt.ne
  · exact nofun

theorem base_numbered (hbase : Base s) (hpoint : s.point = .added r) (hfree : s.jid2job i = none) :
    Base { s.setJob r { s.job r with jid := i } with
      jid2job := Function.update s.jid2job i (some r)
      point := .numbered r } := by
  have hmem : r ∈ s.jobList := launching_mem hbase (by rw [hpoint]; rfl)
  have hpids : ∀ q, (Function.update s.job r { s.job r with jid := (i : Int) } q).pids =
      (s.job q).pids := by
    intro q
    by_cases hq : q = r
    · rw [hq, Function.update_self]
    · rw [Function.update_of_ne hq]
  refine ⟨hbase.sorted, hbase.allocated, ?_, ?_, hbase.owner, ?_, nofun, ?_, ?_, hbase.fresh, ?_, ?_,
    ?_, nofun⟩
  · intro j q hq
    change Function.update s.jid2job i (some r) j = some q at hq
    by_cases hj : j = i
    · rw [hj, Function.update_self, Option.some_inj] at hq
      subst hq
      refine ⟨hmem, ?_⟩
      rw [State.setJob]
      simp only [Function.update_self, hj]
    · rw [Function.update_of_ne hj] at hq
      obtain ⟨hlisted, hjid⟩ := hbase.table j q hq
      have hne : q ≠ r := by
        rintro rfl
        exact hbase.unnumbered q hpoint j hq
      refine ⟨hlisted, ?_⟩
      rw [State.setJob]
      simp only [Function.update_of_ne hne, hjid]
  · intro q hq
    by_cases hqr : q = r
    · exact Or.inr (Or.inr ⟨i, by rw [hqr]; exact Function.update_self ..⟩)
    · rcases hbase.agree q hq with h | h | ⟨j, hj⟩
      · rw [hpoint] at h
        exact absurd (Point.added.inj h).symm hqr
      · rw [hpoint] at h
        cases h
      · refine Or.inr (Or.inr ⟨j, ?_⟩)
        have hne : j ≠ i := by
          rintro rfl
          rw [hfree] at hj
          cases hj
        exact (Function.update_of_ne hne _ _).trans hj
  · exact List.singleton_sublist.mpr hmem
  · rintro q hq
    cases hq
    exact hbase.last r (by rw [hpoint]; rfl)
  · rintro q hq
    cases hq
    exact hbase.unstarted r (by rw [hpoint]; rfl)
  · intro q hq hnone
    have hnone' : (s.job q).pids = none := (hpids q).symm.trans hnone
    rcases hbase.initialised q hq hnone' with h | h | h
    · rw [hpoint] at h
      cases h
      exact Or.inr (Or.inl rfl)
    · rw [hpoint] at h
      cases h
    · rw [hpoint] at h
      cases h
  · intro pid c hc q hq pids hsome hin
    exact hbase.attributed pid c hc q hq pids ((hpids q).symm.trans hsome) hin
  · intro pid c hc hlisted
    rcases hbase.recorded pid c hc hlisted with ⟨pids, hsome, hin⟩ | ⟨k, h⟩
    · exact Or.inl ⟨pids, (hpids _).trans hsome, hin⟩
    · rw [hpoint] at h
      cases h

theorem base_initialise (hbase : Base s) (hpoint : s.point = .numbered r) :
    Base ((s.setJob r { s.job r with pids := some [] }).goto (.initialised r)) := by
  have hlaunching : launching s.point = some r := by
    rw [hpoint]
    rfl
  have hmem : r ∈ s.jobList := launching_mem hbase hlaunching
  have hjid : ∀ q, (Function.update s.job r { s.job r with pids := some [] } q).jid =
      (s.job q).jid := by
    intro q
    by_cases hq : q = r
    · rw [hq, Function.update_self]
    · rw [Function.update_of_ne hq]
  obtain ⟨hzero, hnone⟩ := hbase.unstarted r (by rw [hpoint]; rfl)
  refine ⟨hbase.sorted, hbase.allocated, ?_, ?_, hbase.owner, List.singleton_sublist.mpr hmem, nofun,
    ?_, ?_, hbase.fresh, ?_, ?_, ?_, nofun⟩
  · intro j q hq
    obtain ⟨hlisted, hj⟩ := hbase.table j q hq
    exact ⟨hlisted, (hjid q).trans hj⟩
  · intro q hq
    rcases hbase.agree q hq with h | h | h
    · rw [hpoint] at h
      cases h
    · rw [hpoint] at h
      cases h
    · exact Or.inr (Or.inr h)
  · rintro q hq
    cases hq
    exact hbase.last r hlaunching
  · rintro q hq
    cases hq
    exact ⟨hzero, hnone⟩
  · intro q hq hpids
    change (Function.update s.job r _ q).pids = none at hpids
    by_cases hqr : q = r
    · rw [hqr, Function.update_self] at hpids
      cases hpids
    · rw [Function.update_of_ne hqr] at hpids
      rcases hbase.initialised q hq hpids with h | h | h
      · rw [hpoint] at h
        cases h
      · rw [hpoint] at h
        exact absurd (Point.numbered.inj h).symm hqr
      · rw [hpoint] at h
        cases h
  · intro pid c hc q hq pids hsome hin
    change (Function.update s.job r _ q).pids = some pids at hsome
    by_cases hqr : q = r
    · rw [hqr, Function.update_self] at hsome
      cases hsome
      cases hin
    · rw [Function.update_of_ne hqr] at hsome
      exact hbase.attributed pid c hc q hq pids hsome hin
  · intro pid c hc hlisted
    have hne : c.job ≠ r := hnone pid c hc
    rcases hbase.recorded pid c hc hlisted with h | ⟨k, h⟩
    · refine Or.inl ?_
      change ∃ pids, (Function.update s.job r _ c.job).pids = some pids ∧ pid ∈ pids
      rwa [Function.update_of_ne hne]
    · rw [hpoint] at h
      cases h

/-- No step of `handle_job` changes the id or the records of a job but `list_push_back`. -/
theorem base_spawned (hbase : Base s) {result : SpawnResult} (hdistinct : Distinct s (.spawn result))
    (hpoint : s.point = .spawn r k) (hsuccess : result.success = true) :
    Base (((spawnProcess s r (spawnAttr (s.job r) k) result).setJob r
      (Launching.spawned (s.job r) k result)).goto (.record r k result.pid)) := by
  have hlate : late s.point = true := by
    rw [hpoint]
    rfl
  have hlaunching : launching s.point = some r := by
    rw [hpoint]
    rfl
  have hmem : r ∈ s.jobList := launching_mem hbase hlaunching
  have hkeep : ∀ q, (Function.update s.job r (Launching.spawned (s.job r) k result) q).jid =
      (s.job q).jid ∧ (Function.update s.job r (Launching.spawned (s.job r) k result) q).pids =
      (s.job q).pids := by
    intro q
    by_cases hq : q = r
    · rw [hq, Function.update_self, Launching.spawned]
      split_ifs <;> exact ⟨rfl, rfl⟩
    · rw [Function.update_of_ne hq]
      exact ⟨rfl, rfl⟩
  have hchild : ∀ pid c,
      (spawnProcess s r (spawnAttr (s.job r) k) result).child.lookup pid = some c →
        pid = result.pid ∧ c.job = r ∨ s.child.lookup pid = some c := by
    intro pid c hc
    rcases lookup_insert_eq_some.mp hc with ⟨hpid, rfl⟩ | ⟨-, hc⟩
    · exact Or.inl ⟨hpid, rfl⟩
    · exact Or.inr hc
  refine ⟨hbase.sorted, hbase.allocated, ?_, ?_, ?_, List.singleton_sublist.mpr hmem,
    (fun q hq => by cases hq), ?_, (fun q hq => by cases hq), hbase.fresh, ?_, ?_, ?_, ?_⟩
  · intro j q hq
    obtain ⟨hlisted, hj⟩ := hbase.table j q hq
    exact ⟨hlisted, (hkeep q).1.trans hj⟩
  · exact fun q hq => Or.inr (Or.inr (has_jid (s := s) hbase hlate hq))
  · intro pid c hc
    rcases hchild pid c hc with ⟨-, hjob⟩ | hc
    · rw [hjob]
      exact hbase.allocated r hmem
    · exact hbase.owner pid c hc
  · rintro q hq
    cases hq
    exact hbase.last r hlaunching
  · intro q hq hnone
    obtain ⟨pids, hsome⟩ := has_pids hbase hlate hq
    rw [show (s.job q).pids = none from (hkeep q).2.symm.trans hnone] at hsome
    cases hsome
  · intro pid c hc q hq pids hsome hin
    have hsome' : (s.job q).pids = some pids := (hkeep q).2.symm.trans hsome
    rcases hchild pid c hc with ⟨rfl, hjob⟩ | hc
    · refine Or.inl ?_
      rw [hjob]
      by_contra hne
      exact hdistinct result r k rfl hpoint hsuccess q hq hne pids hsome' hin
    · exact hbase.attributed pid c hc q hq pids hsome' hin
  · intro pid c hc hlisted
    rcases hchild pid c hc with ⟨rfl, hjob⟩ | hc
    · exact Or.inr ⟨k, by rw [hjob]; rfl⟩
    · rcases hbase.recorded pid c hc hlisted with ⟨pids, hsome, hin⟩ | ⟨k', h⟩
      · exact Or.inl ⟨pids, (hkeep _).2.trans hsome, hin⟩
      · rw [hpoint] at h
        cases h
  · intro q k' pid hq c hc
    cases hq
    rcases lookup_insert_eq_some.mp hc with ⟨-, rfl⟩ | ⟨hne, -⟩
    · exact Or.inl rfl
    · exact absurd rfl hne

theorem base_failed (hbase : Base s) (hpoint : s.point = .spawn r k) :
    Base { s.setJob r { s.job r with status := .DNE } with
      failures := Function.update s.failures r (s.failures r + 1)
      point := .record r k pid } := by
  have hlate : late s.point = true := by
    rw [hpoint]
    rfl
  have hlaunching : launching s.point = some r := by
    rw [hpoint]
    rfl
  have hmem : r ∈ s.jobList := launching_mem hbase hlaunching
  have hkeep : ∀ q, (Function.update s.job r { s.job r with status := .DNE } q).jid =
      (s.job q).jid ∧ (Function.update s.job r { s.job r with status := .DNE } q).pids =
      (s.job q).pids := by
    intro q
    by_cases hq : q = r
    · rw [hq, Function.update_self]
      exact ⟨rfl, rfl⟩
    · rw [Function.update_of_ne hq]
      exact ⟨rfl, rfl⟩
  refine ⟨hbase.sorted, hbase.allocated, ?_, ?_, hbase.owner, List.singleton_sublist.mpr hmem, nofun,
    ?_, nofun, ?_, ?_, ?_, ?_, ?_⟩
  · intro j q hq
    obtain ⟨hlisted, hj⟩ := hbase.table j q hq
    exact ⟨hlisted, (hkeep q).1.trans hj⟩
  · exact fun q hq => Or.inr (Or.inr (has_jid (s := s) hbase hlate hq))
  · rintro q hq
    cases hq
    exact hbase.last r hlaunching
  · intro q hq
    have hne : q ≠ r := by
      have hlt : r < s.allocated := hbase.allocated r hmem
      have hle : s.allocated ≤ q := hq
      omega
    exact (Function.update_of_ne hne _ _).trans (hbase.fresh q hq)
  · intro q hq hnone
    obtain ⟨pids, hsome⟩ := has_pids hbase hlate hq
    rw [show (s.job q).pids = none from (hkeep q).2.symm.trans hnone] at hsome
    cases hsome
  · intro pid' c hc q hq pids hsome hin
    rcases hbase.attributed pid' c hc q hq pids ((hkeep q).2.symm.trans hsome) hin with h | ⟨hlt, hpos⟩
    · exact Or.inl h
    · refine Or.inr ⟨hlt, ?_⟩
      show 0 < Function.update s.failures r (s.failures r + 1) q
      by_cases hqr : q = r
      · rw [hqr, Function.update_self]
        exact Nat.succ_pos _
      · rwa [Function.update_of_ne hqr]
  · intro pid' c hc hlisted
    rcases hbase.recorded pid' c hc hlisted with ⟨pids, hsome, hin⟩ | ⟨k', h⟩
    · exact Or.inl ⟨pids, (hkeep _).2.trans hsome, hin⟩
    · rw [hpoint] at h
      cases h
  · intro q k' pid' hq c hc
    cases hq
    refine Or.inr ?_
    show 0 < Function.update s.failures r (s.failures r + 1) r
    rw [Function.update_self]
    exact Nat.succ_pos _

theorem base_record (hbase : Base s) (hpoint : s.point = .record r k pid) :
    Base ((s.setJob r (Launching.recorded (s.job r) pid)).goto (.count r k)) := by
  have hlate : late s.point = true := by
    rw [hpoint]
    rfl
  have hlaunching : launching s.point = some r := by
    rw [hpoint]
    rfl
  have hmem : r ∈ s.jobList := launching_mem hbase hlaunching
  have hjid : ∀ q, (Function.update s.job r (Launching.recorded (s.job r) pid) q).jid =
      (s.job q).jid := by
    intro q
    by_cases hq : q = r
    · rw [hq, Function.update_self, Launching.recorded]
    · rw [Function.update_of_ne hq]
  obtain ⟨old, hold⟩ := has_pids hbase hlate hmem
  have hnew : (Function.update s.job r (Launching.recorded (s.job r) pid) r).pids =
      some (old ++ [pid]) := by
    rw [Function.update_self, Launching.recorded, hold]
    rfl
  refine ⟨hbase.sorted, hbase.allocated, ?_, ?_, hbase.owner, List.singleton_sublist.mpr hmem, nofun,
    ?_, nofun, hbase.fresh, ?_, ?_, ?_, nofun⟩
  · intro j q hq
    obtain ⟨hlisted, hj⟩ := hbase.table j q hq
    exact ⟨hlisted, (hjid q).trans hj⟩
  · exact fun q hq => Or.inr (Or.inr (has_jid (s := s) hbase hlate hq))
  · rintro q hq
    cases hq
    exact hbase.last r hlaunching
  · intro q hq hnone
    change (Function.update s.job r _ q).pids = none at hnone
    by_cases hqr : q = r
    · rw [hqr, hnew] at hnone
      cases hnone
    · rw [Function.update_of_ne hqr] at hnone
      obtain ⟨pids, hsome⟩ := has_pids hbase hlate hq
      rw [hnone] at hsome
      cases hsome
  · intro pid' c hc q hq pids hsome hin
    change (Function.update s.job r _ q).pids = some pids at hsome
    by_cases hqr : q = r
    · subst hqr
      rw [hnew, Option.some_inj] at hsome
      subst hsome
      rcases List.mem_append.mp hin with hin | hin
      · exact hbase.attributed pid' c hc q hq old hold hin
      · rw [List.mem_singleton] at hin
        subst hin
        rcases hbase.recording q k pid' hpoint c hc with h | hpos
        · exact Or.inl h.symm
        · have hlast := hbase.last q hlaunching
          have hlt := hbase.owner pid' c hc
          rcases Nat.lt_or_eq_of_le (Nat.le_of_lt_succ (hlast ▸ hlt)) with h | h
          · exact Or.inr ⟨h, hpos⟩
          · exact Or.inl h.symm
    · rw [Function.update_of_ne hqr] at hsome
      exact hbase.attributed pid' c hc q hq pids hsome hin
  · intro pid' c hc hlisted
    refine Or.inl ?_
    change ∃ pids, (Function.update s.job r _ c.job).pids = some pids ∧ pid' ∈ pids
    by_cases hcr : c.job = r
    · rw [hcr, hnew]
      refine ⟨_, rfl, ?_⟩
      rcases hbase.recorded pid' c hc hlisted with ⟨pids, hsome, hin⟩ | ⟨k', h⟩
      · rw [hcr, hold, Option.some_inj] at hsome
        exact List.mem_append_left _ (hsome ▸ hin)
      · rw [hpoint] at h
        cases h
        exact List.mem_append_right _ (List.mem_singleton_self _)
    · rw [Function.update_of_ne hcr]
      rcases hbase.recorded pid' c hc hlisted with h | ⟨k', h⟩
      · exact h
      · rw [hpoint] at h
        exact absurd (Point.record.inj h).1.symm hcr

theorem base_removed (hbase : Base s) {rest : List Nat} (hpoint : s.point = .deleting (r :: rest))
    (hjid : (s.job r).jid = i) (htable : s.jid2job i = some r) :
    Base { s.setJob r { s.job r with jid := -1 } with
      jobList := s.jobList.erase r
      jid2job := Function.update s.jid2job i none
      point := .deleting rest } := by
  have hlate : late s.point = true := by
    rw [hpoint]
    rfl
  have hnodup : s.jobList.Nodup := hbase.sorted.imp Nat.ne_of_lt
  have hmem : ∀ q, q ∈ s.jobList.erase r ↔ q ≠ r ∧ q ∈ s.jobList := fun q => hnodup.mem_erase_iff
  have hother : ∀ q, q ≠ r → Function.update s.job r { s.job r with jid := -1 } q = s.job q :=
    fun q hq => Function.update_of_ne hq _ _
  refine ⟨hbase.sorted.sublist List.erase_sublist, ?_, ?_, ?_, hbase.owner, ?_, nofun, nofun, nofun,
    hbase.fresh, ?_, ?_, ?_, nofun⟩
  · exact fun q hq => hbase.allocated q ((hmem q).mp hq).2
  · intro j q hq
    change Function.update s.jid2job i none j = some q at hq
    by_cases hj : j = i
    · rw [hj, Function.update_self] at hq
      cases hq
    · rw [Function.update_of_ne hj] at hq
      obtain ⟨hlisted, hqj⟩ := hbase.table j q hq
      have hne : q ≠ r := by
        rintro rfl
        rw [hjid] at hqj
        exact hj (by exact_mod_cast hqj.symm)
      exact ⟨(hmem q).mpr ⟨hne, hlisted⟩, (congrArg Job.jid (hother q hne)).trans hqj⟩
  · intro q hq
    obtain ⟨hne, hlisted⟩ := (hmem q).mp hq
    obtain ⟨j, hj⟩ := has_jid hbase hlate hlisted
    refine Or.inr (Or.inr ⟨j, ?_⟩)
    have hji : j ≠ i := by
      rintro rfl
      rw [htable, Option.some_inj] at hj
      exact hne hj.symm
    exact (Function.update_of_ne hji _ _).trans hj
  · have hused := hbase.used
    rw [hpoint] at hused
    have herase := hused.erase r
    rwa [show (used (.deleting (r :: rest))).erase r = rest from List.erase_cons_head ..] at herase
  · intro q hq hnone
    obtain ⟨hne, hlisted⟩ := (hmem q).mp hq
    obtain ⟨pids, hsome⟩ := has_pids hbase hlate hlisted
    rw [show (s.job q).pids = none from (congrArg Job.pids (hother q hne)).symm.trans hnone] at hsome
    cases hsome
  · intro pid' c hc q hq pids hsome hin
    obtain ⟨hne, hlisted⟩ := (hmem q).mp hq
    exact hbase.attributed pid' c hc q hlisted pids
      ((congrArg Job.pids (hother q hne)).symm.trans hsome) hin
  · intro pid' c hc hlisted
    obtain ⟨hne, hlisted⟩ := (hmem _).mp hlisted
    rcases hbase.recorded pid' c hc hlisted with ⟨pids, hsome, hin⟩ | ⟨k', h⟩
    · exact Or.inl ⟨pids, (congrArg Job.pids (hother _ hne)).trans hsome, hin⟩
    · rw [hpoint] at h
      cases h

end Preserved

section Runs

variable {s s' : State} {e : Event} {r k : Nat} {pid : Int} {status : WaitStatus}

theorem live_of_next (h : next s e = some s') : s.point.isHalted = false := by
  cases hhalted : s.point.isHalted with
  | false => rfl
  | true =>
    have hrun : run s e = none := by
      cases hpoint : s.point <;> rw [hpoint] at hhalted
      case halted =>
        unfold run
        rw [hpoint]
      all_goals cases hhalted
    unfold next at h
    split at h
    · rw [hhalted, Bool.or_true, if_pos rfl] at h
      cases h
    · rw [if_pos hhalted] at h
      cases h
    · rw [hrun] at h
      cases h

theorem afterReport_sub {c : Child} {pid' : Int}
    (h : (afterReport s pid status).lookup pid' = some c) : s.child.lookup pid' = some c := by
  rw [afterReport] at h
  split_ifs at h
  · exact (lookup_erase_eq_some.mp h).2
  · exact h

theorem follows_started (hbase : Base s) (hpoint : s.point = .initialised r) :
    Follows s { s with point := .spawn r 0 } where
  used := by
    have hused := hbase.used
    rwa [hpoint] at hused
  launching q hq := by
    rw [hpoint]
    exact hq
  unstarted q hq := by
    rw [hpoint]
    exact hq
  added q hq := by
    rw [hpoint] at hq
    cases hq
  numbered q hq := by
    rw [hpoint] at hq
    cases hq
  adding q hq := nomatch hq
  record q k pid hq := by
    rw [hpoint] at hq
    cases hq
  recording q k pid hq := nomatch hq

theorem follows_counted (hbase : Base s) (hpoint : s.point = .count r k) :
    Follows s { s with point := .spawn r (k + 1) } where
  used := by
    have hused := hbase.used
    rwa [hpoint] at hused
  launching q hq := by
    rw [hpoint]
    exact hq
  unstarted q hq := nomatch hq
  added q hq := by
    rw [hpoint] at hq
    cases hq
  numbered q hq := by
    rw [hpoint] at hq
    cases hq
  adding q hq := nomatch hq
  record q k pid hq := by
    rw [hpoint] at hq
    cases hq
  recording q k pid hq := nomatch hq

theorem follows_wild (hpoint : s.point = .added r ∨ s.point = .numbered r)
    (hwild : s'.point = .halted .wild) : Follows s s' where
  used := by
    rw [hwild]
    exact List.nil_sublist _
  launching q hq := by
    rw [hwild] at hq
    cases hq
  unstarted q hq := by
    rw [hwild] at hq
    cases hq
  added q hq := by
    rw [hwild]
    exact Or.inr rfl
  numbered q hq := by
    rw [hwild]
    exact Or.inr rfl
  adding q hq := by
    rw [hwild] at hq
    cases hq
  record q k pid hq := by
    rw [hq] at hpoint
    rcases hpoint with h | h <;> cases h
  recording q k pid hq := by
    rw [hwild] at hq
    cases hq

theorem Follows.congr {t : State} (h : Follows s s') (hpoint : t.point = s'.point) :
    Follows s t := by
  obtain ⟨hused, hlaunching, hunstarted, hadded, hnumbered, hadding, hrecord, hrecording⟩ := h
  rw [← hpoint] at hused hlaunching hunstarted hadded hnumbered hadding hrecord hrecording
  exact ⟨hused, hlaunching, hunstarted, hadded, hnumbered, hadding, hrecord, hrecording⟩

theorem update_keep {job : Nat → Job} {new : Job} (hjid : new.jid = (job r).jid)
    (hpids : new.pids = (job r).pids) (q : Nat) :
    (Function.update job r new q).jid = (job q).jid ∧
      (Function.update job r new q).pids = (job q).pids := by
  by_cases hq : q = r
  · subst hq
    rw [Function.update_self]
    exact ⟨hjid, hpids⟩
  · rw [Function.update_of_ne hq]
    exact ⟨rfl, rfl⟩

theorem base_update (new : Job) (child : Table Int Child) (hbase : Base s)
    (hlive : s.point.isHalted = false) (hfollows : Follows s s') {due : Nat → Option Termios}
    (hsame : Same { s.setJob r new with child := child, due := due } s') (hjid : new.jid = (s.job r).jid)
    (hpids : new.pids = (s.job r).pids)
    (hchild : ∀ pid c, child.lookup pid = some c → s.child.lookup pid = some c) : Base s' := by
  refine base_keep hbase hlive hfollows hsame.jobList hsame.jid2job hsame.allocated hsame.failures
    ?_ ?_ ?_
  · intro q
    rw [hsame.job]
    exact (update_keep hjid hpids q).1
  · intro q
    rw [hsame.job]
    exact (update_keep hjid hpids q).2
  · intro pid c hc
    rw [hsame.child] at hc
    exact hchild pid c hc

theorem base_same (hbase : Base s) (hlive : s.point.isHalted = false) (hfollows : Follows s s')
    {child : Table Int Child} {due : Nat → Option Termios}
    (hsame : Same { s with child := child, due := due } s')
    (hchild : ∀ pid c, child.lookup pid = some c → s.child.lookup pid = some c) : Base s' := by
  refine base_keep hbase hlive hfollows hsame.jobList hsame.jid2job hsame.allocated hsame.failures
    ?_ ?_ ?_
  · exact fun q => congrArg (fun job => (job q).jid) hsame.job
  · exact fun q => congrArg (fun job => (job q).pids) hsame.job
  · intro pid c hc
    rw [hsame.child] at hc
    exact hchild pid c hc

theorem base_move (hbase : Base s) (hlive : s.point.isHalted = false) (hdistinct : Distinct s e)
    (hmove : Move s e s') : Base s' := by
  cases hmove with
  | quiet hsame hpoint =>
    rcases hpoint with hpoint | hleaves
    · exact base_same hbase hlive (follows_same hbase hpoint) hsame fun _ _ hc => hc
    · exact base_same hbase hlive (follows_leaves hleaves) hsame fun _ _ hc => hc
  | pushed hpoint => exact base_pushed hbase hpoint
  | numbered hpoint hfree => exact base_numbered hbase hpoint (freeJid_some hfree).2.2
  | initialised hpoint => exact base_initialise hbase hpoint
  | @started r hpoint =>
    rw [startJob]
    split_ifs
    · exact base_update { s.job r with status := .BACKGROUND, savedTtyState := s.tty } s.child hbase
        hlive ((follows_started hbase hpoint).congr rfl) ⟨rfl, rfl, rfl, rfl, rfl, rfl, rfl⟩ rfl rfl
        fun _ _ hc => hc
    · exact base_update { s.job r with status := .FOREGROUND } s.child hbase hlive
        ((follows_started hbase hpoint).congr rfl) ⟨rfl, rfl, rfl, rfl, rfl, rfl, rfl⟩ rfl rfl
        fun _ _ hc => hc
  | spawned hpoint hsuccess _ => exact base_spawned hbase hdistinct hpoint hsuccess
  | failed hpoint _ => exact base_failed hbase hpoint
  | recorded hpoint => exact base_record hbase hpoint
  | @counted r k hpoint =>
    exact base_update (counted (s.job r)) s.child hbase hlive
      ((follows_counted hbase hpoint).congr rfl) ⟨rfl, rfl, rfl, rfl, rfl, rfl, rfl⟩ rfl rfl
      fun _ _ hc => hc
  | @written r status _ _ _ _ hsame hleaves =>
    exact base_update { s.job r with status := status } s.child hbase hlive (follows_leaves hleaves)
      hsame rfl rfl fun _ _ hc => hc
  | @reported _ pid status _ r _ _ _ _ hsame hpoint =>
    exact base_update _ _ hbase hlive (follows_same hbase hpoint) hsame (handle_jid ..)
      (handle_pids ..) fun _ _ hc => afterReport_sub hc
  | lost _ _ _ hsame hpoint =>
    exact base_same hbase hlive (follows_same hbase hpoint) hsame fun _ _ hc => afterReport_sub hc
  | wild _ _ _ hpoint hsame hwild =>
    exact base_same hbase hlive (follows_wild hpoint hwild) hsame fun _ _ hc => afterReport_sub hc
  | removed hpoint _ hjid htable => exact base_removed hbase hpoint hjid htable

theorem base_next (hbase : Base s) (hdistinct : Distinct s e) (h : next s e = some s') : Base s' :=
  base_move hbase (live_of_next h) hdistinct (next_move hbase h)

theorem lookup_recorded (hbase : Base s) {c : Child} (hc : s.child.lookup pid = some c)
    (hlisted : c.job ∈ s.jobList) {pids : List Int} (hpids : (s.job c.job).pids = some pids)
    (hin : pid ∈ pids) (hlive : s.point.isHalted = false) :
    getJobFromPid s.job pid s.jobList = .found c.job := by
  refine lookup_of_mem hbase.sorted hlisted hpids hin ?_
  intro q hq hlt
  cases hqpids : (s.job q).pids with
  | some pids' =>
    refine ⟨pids', rfl, fun hin' => ?_⟩
    rcases hbase.attributed pid c hc q hq pids' hqpids hin' with h | h <;> omega
  | none =>
    -- the only job without a list is the last one
    have hlast : ∀ {p}, s.point = p → launching p = some q → q + 1 = s.allocated := by
      rintro p rfl h
      exact hbase.last q h
    have hbound := hbase.allocated c.job hlisted
    rcases hbase.initialised q hq hqpids with h | h | h
    · have := hlast h rfl
      omega
    · have := hlast h rfl
      omega
    · rw [hlive] at h
      cases h

theorem lookup_child (hbase : Base s) {c : Child} (hc : s.child.lookup pid = some c)
    (hlisted : c.job ∈ s.jobList) (hrecorded : ∀ k, s.point ≠ .record c.job k pid)
    (hlive : s.point.isHalted = false) : getJobFromPid s.job pid s.jobList = .found c.job := by
  obtain ⟨pids, hpids, hin⟩ | ⟨k, h⟩ := hbase.recorded pid c hc hlisted
  · exact lookup_recorded hbase hc hlisted hpids hin hlive
  · exact absurd h (hrecorded k)

theorem found_job (hbase : Base s) {c : Child} (hc : s.child.lookup pid = some c)
    (hfound : getJobFromPid s.job pid s.jobList = .found r) :
    r = c.job ∨ c.job < r ∧ 0 < s.failures r := by
  obtain ⟨hr, pids, hpids, hin⟩ := lookup_found hfound
  exact hbase.attributed pid c hc r hr pids hpids hin

end Runs

end ComputerSystems.Cush.Bookkeeping
