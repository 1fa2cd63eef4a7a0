/- Jobs that are deleted have no process left, as long as no status is final too early. -/

import ComputerSystems.Cush.SpawnFailures
import ComputerSystems.Cush.Views

set_option autoImplicit false
set_option relaxedAutoImplicit false

namespace ComputerSystems.Cush.Deletion

open ComputerSystems.Pserv.Strings (ascii)
open ComputerSystems.Systems.Runs
open ComputerSystems.Systems.Tables
open ComputerSystems.Cush.Ast
open ComputerSystems.Cush.Jobs
open ComputerSystems.Cush.Launching
open ComputerSystems.Cush.SpawnFailures (word)
open ComputerSystems.Cush.Shell
open ComputerSystems.Cush.Steps
open ComputerSystems.Cush.Bookkeeping
open ComputerSystems.Cush.Views

/-- A report for the job `r` does not end it too early: only the last process is killed by a signal,
and none exits as the only one counted while one more has been spawned and is not counted yet. -/
def EndsLast (s : State) (r : Nat) : WaitStatus → Prop
  | .stopped _ => True
  | .exited _ =>
    uncounted s.point = some r → (s.job r).numProcessesAlive = 1 → unreaped s r = 1
  | .signaled _ => unreaped s r = 1

/-- No status becomes final too early in this step: a job that is over gets no process, a spawn
fails and `do_kill` writes `KILLED` only where the job has no process, and a report that ends a job
is about its last one. No process gets the number of one that another listed job has recorded. -/
structure Settled (s : State) (e : Event) : Prop where
  distinct : Distinct s e
  spawned : ∀ call ∈ spawning s e, call.1.success = true →
    toDeleteJob (s.job call.2).status = false
  failed : ∀ call ∈ spawning s e, call.1.success = false → unreaped s call.2 = 0
  killed : ∀ write ∈ writing s e, write.1 = .KILLED → unreaped s write.2 = 0
  reported : ∀ report ∈ handled s e, EndsLast s report.2 report.1

instance (s : State) (r : Nat) : DecidablePred (EndsLast s r)
  | .stopped _ => .isTrue trivial
  | .exited _ => inferInstanceAs (Decidable (_ → _ → _))
  | .signaled _ => inferInstanceAs (Decidable (_ = _))

instance (s : State) (e : Event) : Decidable (Settled s e) :=
  decidable_of_iff (Distinct s e ∧
      (∀ call ∈ spawning s e, call.1.success = true → toDeleteJob (s.job call.2).status = false) ∧
      (∀ call ∈ spawning s e, call.1.success = false → unreaped s call.2 = 0) ∧
      (∀ write ∈ writing s e, write.1 = .KILLED → unreaped s write.2 = 0) ∧
      ∀ report ∈ handled s e, EndsLast s report.2 report.1)
    ⟨fun ⟨h, h1, h2, h3, h4⟩ => ⟨h, h1, h2, h3, h4⟩, fun ⟨h, h1, h2, h3, h4⟩ => ⟨h, h1, h2, h3, h4⟩⟩

/-- A final status leaves no process, and the processes have been counted. -/
structure Counted (v : View) : Prop where
  bound : (v.unreaped : Int) ≤ v.alive + v.pending
  dead : toDeleteJob v.status = true → v.unreaped = 0

section Steps

variable {s : State} {e : Event} {r : Nat} {v : View}

theorem counted_new (h : New v) : Counted v where
  bound := by
    rw [h.unreaped, h.alive, h.pending]
    exact Int.le_refl 0
  dead _ := h.unreaped

theorem counted_reported {status : WaitStatus} (hv : Counted v) (hpos : 0 < v.unreaped)
    (hpending : v.pending ≤ 1) (hlast : match status with
      | .signaled _ => v.unreaped = 1
      | .exited _ => v.pending = 1 → v.alive = 1 → v.unreaped = 1
      | .stopped _ => True) : Counted ((v.handle status).reap status) := by
  have hbound := hv.bound
  cases status with
  | stopped signal =>
    refine ⟨hbound, fun hfinal => ?_⟩
    have : toDeleteJob (stoppedStatus signal) = true := hfinal
    rw [toDeleteJob_stoppedStatus] at this
    cases this
  | exited code =>
    have hreap : ((v.handle (.exited code)).reap (.exited code)).unreaped = v.unreaped - 1 := rfl
    have halive : ((v.handle (.exited code)).reap (.exited code)).alive = v.alive - 1 := rfl
    have hsame : ((v.handle (.exited code)).reap (.exited code)).pending = v.pending := rfl
    refine ⟨by omega, fun hfinal => ?_⟩
    rw [hreap]
    by_cases hzero : v.alive - 1 = 0
    · by_cases hp : v.pending = 1
      · have := hlast hp (by omega)
        omega
      · omega
    · have hstatus : toDeleteJob v.status = true := by
        rwa [View.reap, View.handle, if_neg hzero] at hfinal
      have := hv.dead hstatus
      omega
  | signaled signal =>
    have hone : v.unreaped = 1 := hlast
    have hreap : ((v.handle (.signaled signal)).reap (.signaled signal)).unreaped =
        v.unreaped - 1 := rfl
    have halive : ((v.handle (.signaled signal)).reap (.signaled signal)).alive = v.alive - 1 := rfl
    have hsame : ((v.handle (.signaled signal)).reap (.signaled signal)).pending = v.pending := rfl
    exact ⟨by omega, fun _ => by omega⟩

theorem counted_missed {status : WaitStatus} (hv : Counted v) : Counted (v.reap status) := by
  have hbound := hv.bound
  have hle : (v.reap status).unreaped ≤ v.unreaped := Nat.sub_le _ _
  refine ⟨?_, fun hfinal => ?_⟩
  · change ((v.reap status).unreaped : Int) ≤ v.alive + v.pending
    omega
  · have := hv.dead hfinal
    omega

theorem pending_le : (view s r).pending ≤ 1 := by
  rw [view]
  dsimp only
  split_ifs <;> omega

theorem uncounted_of_pending (h : (view s r).pending = 1) : uncounted s.point = some r := by
  by_contra hnot
  rw [view] at h
  dsimp only at h
  rw [if_neg hnot] at h
  cases h

theorem counted_change {v' : View} (hbase : Base s) (hkept : Kept s)
    (hv : Counted (view s r)) (hsettled : Settled s e) (hchange : Change s e r (view s r) v')
    (hlive : s.point.isHalted = false) : Counted v' := by
  have hbound := hv.bound
  cases hchange with
  | same => exact hv
  | prepared hstatus =>
    refine ⟨hbound, fun hfinal => ?_⟩
    rcases hstatus with rfl | rfl <;> cases hfinal
  | spawned he hpoint hsuccess hpending =>
    subst he
    have hlive : toDeleteJob (s.job r).status = false :=
      hsettled.spawned _ (spawning_eq hpoint) hsuccess
    refine ⟨by push_cast; omega, fun hfinal => ?_⟩
    have : toDeleteJob (s.job r).status = true := hfinal
    rw [hlive] at this
    cases this
  | failed he hpoint hfailure =>
    subst he
    have hpending : (view s r).pending ≤ 1 := pending_le
    exact ⟨by push_cast; omega, fun _ => hsettled.failed _ (spawning_eq hpoint) hfailure⟩
  | counted hpending => exact ⟨by push_cast; omega, hv.dead⟩
  | written he hwrites =>
    subst he
    refine ⟨hbound, fun hfinal => ?_⟩
    have hkilled := hsettled.killed _ (writing_eq hwrites)
    cases hwrites with
    | kill hpoint => exact hkilled rfl
    | foreground | bg | stop => cases hfinal
  | @reported pid c status hreport hc hjob hfound hpos =>
    have hreports := hsettled.reported _ (handled_eq hreport hfound)
    refine counted_reported hv hpos pending_le ?_
    cases status with
    | stopped signal => trivial
    | exited code =>
      intro hpending
      exact hreports (uncounted_of_pending hpending)
    | signaled signal => exact hreports
  | missed => exact counted_missed hv
  | @foreign pid c status hreport hc hjob hfound =>
    -- the process belongs to a listed job, and is found there if it is found
    have hlisted := hkept pid c hc
    by_cases hrecord : ∃ k, s.point = .record c.job k pid
    · obtain ⟨k, hpoint⟩ := hrecord
      have hlast := hbase.last c.job (by rw [hpoint]; rfl)
      have hr := hbase.allocated r (lookup_found hfound).1
      rcases found_job hbase hc hfound with h | h
      · exact absurd h.symm hjob
      · omega
    · have hself := lookup_child hbase hc hlisted (fun k hk => hrecord ⟨k, hk⟩) hlive
      rw [hfound] at hself
      exact absurd (Lookup.found.inj hself).symm hjob

theorem settled_invariant (h : ReachableBy system Settled s) :
    Base s ∧ (s.point.isHalted = false → Kept s ∧ ∀ r ∈ s.jobList, Counted (view s r)) := by
  refine kept_invariant (fun _ _ hok => hok.distinct) (fun _ => counted_new) ?_ ?_ h
  · intro s r rest hbase hviews _ hpoint hdelete
    have hlisted : r ∈ s.jobList := by
      have hused := hbase.used
      rw [hpoint] at hused
      exact hused.subset List.mem_cons_self
    exact (hviews r hlisted).dead hdelete
  · intro s e r v' hbase hkept hlive hviews hok hr hchange
    exact counted_change hbase hkept (hviews r hr) hok hchange hlive

/-- In a run in which no status becomes final too early, a job that is removed has no process that
is still to be reaped. -/
theorem deleted_dead {s' : State} (h : ReachableBy system Settled s) (hnext : next s e = some s')
    (hr : r ∈ s.jobList) (hgone : r ∉ s'.jobList) :
    ∀ pid c, s.child.lookup pid = some c → c.job ≠ r := by
  obtain ⟨hbase, hinv⟩ := settled_invariant h
  obtain ⟨-, hviews⟩ := hinv (live_of_next hnext)
  obtain ⟨-, hdelete, -⟩ := removed_of_move (next_move hbase hnext) hr hgone
  exact count_eq_zero_iff.mp ((hviews r hr).dead hdelete)

end Steps

section Samples

def words (name : String) (names : List String) (background : Bool) : Pipeline :=
  ⟨(name :: names).map word, List.cons_ne_nil _ _, none, none, false, background⟩

/-- Memory for a job, as `malloc` returns it. -/
def blank : Job := ⟨words "a" [] false, 0, .FOREGROUND, 0, 0, none, 0⟩

/-- The shell before its first prompt; its group is `1`. -/
def start : State where
  jobList := []
  jid2job _ := none
  job _ := blank
  pipes := []
  blocked := false
  point := .prompt
  shellTty := 0
  shellPgrp := 1
  tty := 0
  owner := 1
  child := ∅
  allocated := 0
  failures _ := 0
  due _ := none

theorem start_init : system.init start :=
  ⟨rfl, fun _ => rfl, rfl, rfl, rfl, rfl, fun _ => rfl, fun _ => rfl⟩

/-- A command is spawned as the process `10 + k`. -/
def starting (k : Nat) : List Event :=
  [.spawn ⟨true, 10 + k, fun _ => by omega⟩, .step, .step]

/-- A command line with one pipeline is read, and its job made ready for the spawns. -/
def adding (pipe : Pipeline) : List Event :=
  [.readline [pipe], .malloc blank, .step, .step, .step]

/-- `a` runs in the foreground and exits, up to the turn that deletes its job. -/
def exitedLine : List Event :=
  adding (words "a" [] false) ++ starting 0 ++
    [.step, .step, .waitpid 10 (.exited 0), .step, .step]

/-- One process of `a | b &` is terminated at the prompt, up to the turn that deletes the job. -/
def terminatedLine : List Event :=
  adding (words "a" ["b"] true) ++ starting 0 ++ starting 1 ++
    [.step, .step, .step, .step, .handler 10 (.signaled SIGTERM), .readline [words "jobs" [] false],
      .step, .step]

theorem deleted_dead_sample : ∃ s s', ReachableBy system Settled s ∧ next s .step = some s' ∧
    0 ∈ s.jobList ∧ 0 ∉ s'.jobList ∧ ∀ pid c, s.child.lookup pid = some c → c.job ≠ 0 := by
  have hrun : ((system.restrict Settled).exec start exitedLine).map
      (fun s => (s.jobList, (next s .step).map State.jobList)) = some ([0], some []) := by
    decide
  obtain ⟨s, hs, hobs⟩ := Option.map_eq_some_iff.mp hrun
  obtain ⟨hlist, hnext⟩ := Prod.mk.inj hobs
  obtain ⟨s', hs', hlist'⟩ := Option.map_eq_some_iff.mp hnext
  have hinit : (system.restrict Settled).init start := start_init
  have hreach := ReachableBy.of_restrict (Reachable.exec (.start hinit) hs)
  have hlisted : 0 ∈ s.jobList := by
    rw [hlist]
    exact List.mem_singleton_self 0
  have hgone : 0 ∉ s'.jobList := by
    rw [hlist']
    exact List.not_mem_nil
  exact ⟨s, s', hreach, hs', hlisted, hgone, deleted_dead hreach hs' hlisted hgone⟩

/-- The other process is still to be reaped. -/
theorem terminated_deleted : ¬ ∀ s s' e r, Reachable system s → next s e = some s' →
    r ∈ s.jobList → r ∉ s'.jobList → ∀ pid c, s.child.lookup pid = some c → c.job ≠ r := by
  intro hall
  have hrun : (system.exec start terminatedLine).map
      (fun s => (s.jobList, (next s .step).map State.jobList, (s.child.lookup 11).map Child.job)) =
      some ([0], some [], some 0) := by
    decide
  obtain ⟨s, hs, hobs⟩ := Option.map_eq_some_iff.mp hrun
  obtain ⟨hlist, hobs⟩ := Prod.mk.inj hobs
  obtain ⟨hnext, hchild⟩ := Prod.mk.inj hobs
  obtain ⟨s', hs', hlist'⟩ := Option.map_eq_some_iff.mp hnext
  obtain ⟨c, hc, hjob⟩ := Option.map_eq_some_iff.mp hchild
  have hlisted : 0 ∈ s.jobList := by
    rw [hlist]
    exact List.mem_singleton_self 0
  have hgone : 0 ∉ s'.jobList := by
    rw [hlist']
    exact List.not_mem_nil
  exact hall s s' .step 0 (Reachable.exec (.start start_init) hs) hs' hlisted hgone 11 c hc hjob

end Samples

end ComputerSystems.Cush.Deletion
