/- The statuses that `waitpid` reports reach their jobs, as long as the jobs know their processes. -/

import ComputerSystems.Cush.Deletion

set_option autoImplicit false
set_option relaxedAutoImplicit false

namespace ComputerSystems.Cush.Reports

open ComputerSystems.Systems.Runs
open ComputerSystems.Systems.Tables
open ComputerSystems.Cush.Ast
open ComputerSystems.Cush.Jobs
open ComputerSystems.Cush.Launching
open ComputerSystems.Cush.Shell
open ComputerSystems.Cush.Steps
open ComputerSystems.Cush.Bookkeeping
open ComputerSystems.Cush.Views
open ComputerSystems.Cush.Deletion

def Recorded (s : State) (c : Child) (pid : Int) : Prop :=
  ∃ pids ∈ (s.job c.job).pids, pid ∈ pids

/-- The job that a turn of the loop of `delete_all_finished_jobs` looks at. -/
def visited (s : State) : Event → Option Nat
  | .step =>
    match s.point with
    | .deleting (r :: _) => some r
    | _ => none
  | _ => none

/-- Every status reported is that of a process that its job has recorded, no job is deleted before
its last process is reaped, and `do_fg` is not used on a job of which a spawn has failed. No process
gets the number of one that another listed job has recorded. -/
structure Known (s : State) (e : Event) : Prop where
  distinct : Distinct s e
  recorded : ∀ report ∈ Event.report e, ∀ c ∈ s.child.lookup report.1, Recorded s c report.1
  deleted : ∀ r ∈ visited s e, toDeleteJob (s.job r).status = true → unreaped s r = 0
  resumed : ∀ write ∈ writing s e, write.1 = .FOREGROUND → s.failures write.2 = 0

instance (s : State) (c : Child) (pid : Int) : Decidable (Recorded s c pid) :=
  match h : (s.job c.job).pids with
  | none => .isFalse fun ⟨pids, hpids, _⟩ => by
    rw [h] at hpids
    cases hpids
  | some pids => decidable_of_iff (pid ∈ pids)
    ⟨fun hin => ⟨pids, h, hin⟩, fun ⟨pids', hpids, hin⟩ => by
      rw [h] at hpids
      cases hpids
      exact hin⟩

instance (s : State) (e : Event) : Decidable (Known s e) :=
  decidable_of_iff (Distinct s e ∧
      (∀ report ∈ Event.report e, ∀ c ∈ s.child.lookup report.1, Recorded s c report.1) ∧
      (∀ r ∈ visited s e, toDeleteJob (s.job r).status = true → unreaped s r = 0) ∧
      ∀ write ∈ writing s e, write.1 = .FOREGROUND → s.failures write.2 = 0)
    ⟨fun ⟨h, h1, h2, h3⟩ => ⟨h, h1, h2, h3⟩, fun ⟨h, h1, h2, h3⟩ => ⟨h, h1, h2, h3⟩⟩

/-- What a step makes of a report: no list is used before it is initialised, a status is applied to
the job that has spawned the process, and the shell does not wait without a process. -/
structure Heard (s : State) (e : Event) (s' : State) : Prop where
  initialised : s'.point ≠ .halted .wild
  applied : ∀ pid status c, Event.report e = some (pid, status) → s.child.lookup pid = some c →
    c.job ∈ s.jobList ∧ s'.job c.job = (s.job c.job).handle s.tty status ∧
      ∀ r, r ≠ c.job → s'.job r = s.job r
  awaited : ∀ r, s.point = .wait r → s'.point ≠ .halted .fatal

/-- All processes are counted if every spawn has succeeded, and a job of which one has failed is not
in the foreground. -/
structure Exact (v : View) : Prop where
  count : v.failures = 0 → v.alive + v.pending = v.unreaped
  foreground : v.status = .FOREGROUND → v.failures = 0

section Steps

variable {s s' : State} {e : Event} {r : Nat} {v : View}

theorem exact_new (h : New v) : Exact v where
  count _ := by
    rw [h.unreaped, h.alive, h.pending]
    rfl
  foreground _ := h.failures

theorem stoppedStatus_ne (signal : Nat) : stoppedStatus signal ≠ .FOREGROUND := by
  rw [stoppedStatus]
  split_ifs <;> decide

theorem signaledStatus_ne (signal : Nat) : signaledStatus signal ≠ .FOREGROUND := by
  rw [signaledStatus]
  split_ifs <;> decide

theorem handle_foreground {status : WaitStatus} (h : (v.handle status).status = .FOREGROUND) :
    v.status = .FOREGROUND := by
  cases status with
  | stopped signal => exact absurd h (stoppedStatus_ne signal)
  | exited code =>
    rw [View.handle] at h
    dsimp only at h
    split_ifs at h
    exact h
  | signaled signal => exact absurd h (signaledStatus_ne signal)

theorem handle_failures (v : View) (status : WaitStatus) :
    (v.handle status).failures = v.failures := by
  cases status <;> rfl

theorem handle_pending (v : View) (status : WaitStatus) :
    (v.handle status).pending = v.pending := by
  cases status <;> rfl

theorem handle_unreaped (v : View) (status : WaitStatus) :
    (v.handle status).unreaped = v.unreaped := by
  cases status <;> rfl

theorem handle_alive (v : View) (status : WaitStatus) :
    (v.handle status).alive = v.alive - if status.final = true then 1 else 0 := by
  cases status with
  | stopped signal => exact (Int.sub_zero _).symm
  | exited code => rfl
  | signaled signal => rfl

theorem count_reported {status : WaitStatus} (hpos : 0 < v.unreaped)
    (h : v.alive + v.pending = v.unreaped) :
    ((v.handle status).reap status).alive + ((v.handle status).reap status).pending =
      ((v.handle status).reap status).unreaped := by
  have halive : ((v.handle status).reap status).alive =
      v.alive - if status.final = true then 1 else 0 := handle_alive v status
  have hpending : ((v.handle status).reap status).pending = v.pending := handle_pending v status
  have hunreaped : ((v.handle status).reap status).unreaped =
      v.unreaped - if status.final = true then 1 else 0 := by
    rw [View.reap, handle_unreaped]
  rw [halive, hpending, hunreaped]
  split_ifs <;> omega

theorem exact_change {v' : View} (hbase : Base s) (hlive : s.point.isHalted = false)
    (hv : Exact (view s r)) (hknown : Known s e) (hr : r ∈ s.jobList)
    (hchange : Change s e r (view s r) v') : Exact v' := by
  cases hchange with
  | same => exact hv
  | prepared _ _ hfailures => exact ⟨hv.count, fun _ => hfailures⟩
  | spawned _ _ _ hpending =>
    refine ⟨fun hzero => ?_, hv.foreground⟩
    have := hv.count hzero
    push_cast
    omega
  | failed => exact ⟨fun hzero => absurd hzero (Nat.succ_ne_zero _), nofun⟩
  | counted hpending =>
    refine ⟨fun hzero => ?_, hv.foreground⟩
    have := hv.count hzero
    push_cast
    omega
  | written he hwrites =>
    subst he
    exact ⟨hv.count, fun h => hknown.resumed _ (writing_eq hwrites) h⟩
  | reported _ _ _ _ hpos =>
    refine ⟨fun hzero => count_reported hpos (hv.count ?_), fun h => ?_⟩
    · rwa [View.reap, handle_failures] at hzero
    · rw [View.reap, handle_failures]
      exact hv.foreground (handle_foreground h)
  | missed hreport hc hjob hmissed =>
    subst hjob
    obtain ⟨pids, hpids, hin⟩ := hknown.recorded _ hreport _ hc
    exact absurd (lookup_recorded hbase hc hr hpids hin hlive) hmissed
  | foreign hreport hc hjob hfound =>
    have hfailures : 0 < s.failures r := by
      rcases found_job hbase hc hfound with h | h
      · exact absurd h.symm hjob
      · exact h.2
    refine ⟨fun hzero => ?_, fun h => ?_⟩
    · rw [handle_failures] at hzero
      exact absurd hzero hfailures.ne'
    · exact absurd (hv.foreground (handle_foreground h)) hfailures.ne'

theorem known_invariant (h : ReachableBy system Known s) :
    Base s ∧ (s.point.isHalted = false → Kept s ∧ ∀ r ∈ s.jobList, Exact (view s r)) := by
  refine kept_invariant (fun _ _ hok => hok.distinct) (fun _ => exact_new) ?_ ?_ h
  · intro s r rest _ _ hok hpoint hdelete
    refine hok.deleted r ?_ hdelete
    rw [visited, hpoint]
    rfl
  · intro s e r v' hbase _ hlive hviews hok hr hchange
    exact exact_change hbase hlive (hviews r hr) hok hr hchange

theorem awaited_child (hv : Exact (view s r)) (hpoint : s.point = .wait r)
    (hstatus : (s.job r).status = .FOREGROUND) (halive : 0 < (s.job r).numProcessesAlive) :
    ∃ pid c, s.child.lookup pid = some c := by
  have hcount := hv.count (hv.foreground hstatus)
  have hpending : (view s r).pending = 0 := by
    rw [view, hpoint]
    rfl
  have hpos : 0 < unreaped s r := by
    change (s.job r).numProcessesAlive + ((view s r).pending : Int) = unreaped s r at hcount
    omega
  obtain ⟨pid, c, hc, -⟩ := count_pos_iff.mp hpos
  exact ⟨pid, c, hc⟩

theorem handleBuiltin_waitpid (s : State) (command : Command) (pid : Int) (status : WaitStatus) :
    handleBuiltin s command (.waitpid pid status) = none := by
  have hfg : doFg s command.argv (.waitpid pid status) = none := by
    unfold doFg
    cases jobArgument s command.argv <;> rfl
  have hbg : doBg s command.argv (.waitpid pid status) = none := by
    unfold doBg
    cases jobArgument s command.argv <;> rfl
  have hstop : doStop s command.argv (.waitpid pid status) = none := by
    unfold doStop
    cases jobArgument s command.argv <;> rfl
  have hkill : doKill s command.argv (.waitpid pid status) = none := by
    unfold doKill
    cases jobArgument s command.argv <;> rfl
  have hstep : ∀ t : State, (if Event.waitpid pid status = .step then some t else none) = none :=
    fun t => if_neg nofun
  rw [handleBuiltin, hfg, hbg, hstop, hkill, hstep, hstep, ite_self, ite_self, ite_self, ite_self,
    ite_self, ite_self]

theorem run_waitpid {pid : Int} {status : WaitStatus}
    (h : run s (.waitpid pid status) = some s') : reap s pid status = some s' := by
  cases hpoint : s.point with
  | wait q =>
    unfold run at h
    rw [hpoint] at h
    change waitForJob s q _ = _ at h
    unfold waitForJob at h
    split at h
    · exact h
    · cases h
  | line =>
    unfold run at h
    rw [hpoint] at h
    change handleCommandLine s _ = _ at h
    rw [handleCommandLine] at h
    cases hpipes : s.pipes with
    | nil =>
      rw [hpipes] at h
      cases h
    | cons pipe pipes =>
      rw [hpipes] at h
      dsimp only at h
      rw [handleBuiltin_waitpid] at h
      split_ifs at h
  | spawn q k =>
    unfold run at h
    rw [hpoint] at h
    change launchTurn s q k _ = _ at h
    unfold launchTurn at h
    split at h <;> cases h
  | deleting rest =>
    unfold run at h
    rw [hpoint] at h
    cases rest <;> cases h
  | prompt | added | numbered | initialised | record | count | fg | foreground | bg | stop | kill
    | block | halted =>
    unfold run at h
    rw [hpoint] at h
    cases h

theorem reap_of_next {pid : Int} {status : WaitStatus}
    (hreport : Event.report e = some (pid, status)) (h : next s e = some s') :
    reap s pid status = some s' := by
  cases e with
  | handler pid' status' =>
    cases hreport
    rw [next] at h
    split_ifs at h
    exact h
  | waitpid pid' status' =>
    cases hreport
    exact run_waitpid h
  | _ => cases hreport

theorem reap_found {pid : Int} {status : WaitStatus} {c : Child}
    (hc : s.child.lookup pid = some c) (hfound : getJobFromPid s.job pid s.jobList = .found c.job)
    (h : reap s pid status = some s') :
    s'.job = Function.update s.job c.job ((s.job c.job).handle s.tty status) ∧
      s'.point = s.point := by
  rw [reap, hc] at h
  dsimp only at h
  rw [Option.some_inj] at h
  subst h
  rw [handleChildStatus]
  dsimp only
  rw [hfound]
  exact ⟨rfl, rfl⟩

theorem wild_of_move (hmove : Move s e s') (hlive : s.point.isHalted = false)
    (hwild : s'.point = .halted .wild) : ∃ pid status c, Event.report e = some (pid, status) ∧
      s.child.lookup pid = some c ∧ getJobFromPid s.job pid s.jobList = .wild := by
  have hkeep : s'.point ≠ s.point := by
    intro hpoint
    rw [← hpoint, hwild] at hlive
    cases hlive
  cases hmove with
  | quiet _ hpoint =>
    rcases hpoint with hpoint | hleaves
    · exact absurd hpoint hkeep
    · exact absurd hwild hleaves.tame
  | started =>
    unfold startJob at hwild
    split_ifs at hwild
    cases hwild
  | written _ _ _ _ hleaves => exact absurd hwild hleaves.tame
  | reported _ _ _ _ hpoint => exact absurd hpoint hkeep
  | lost _ _ _ _ hpoint => exact absurd hpoint hkeep
  | wild hreport hc hlookup => exact ⟨_, _, _, hreport, hc, hlookup⟩
  | pushed | numbered | initialised | spawned | failed | recorded | counted | removed => cases hwild

theorem wait_next (hpoint : s.point = .wait r) (h : next s e = some s')
    (hreport : Event.report e = none) (hchild : (s.job r).status = .FOREGROUND →
      0 < (s.job r).numProcessesAlive → ∃ pid c, s.child.lookup pid = some c) :
    s'.point ≠ .halted .fatal := by
  have hwait : ∀ h : next s .step = some s', s'.point ≠ .halted .fatal := by
    intro h
    change run s .step = _ at h
    unfold run at h
    rw [hpoint] at h
    change waitForJob s r _ = _ at h
    unfold waitForJob at h
    split at h
    · rename_i hloop
      obtain ⟨pid, c, hc⟩ := hchild hloop.1 hloop.2
      have hmem := AList.mem_lookup_iff.mp hc
      have hsome : s.child.entries.isEmpty = false := by
        rw [List.isEmpty_eq_false_iff]
        exact List.ne_nil_of_mem hmem
      rw [hsome] at h
      cases h
    · cases h
      exact nofun
  cases e with
  | handler => cases hreport
  | waitpid => cases hreport
  | terminal tty owner =>
    rw [next] at h
    split_ifs at h
    cases h
    rw [hpoint]
    exact nofun
  | step => exact hwait h
  | readline | eof | malloc | spawn | tcsetpgrp | killpg =>
    change run s _ = _ at h
    unfold run at h
    rw [hpoint] at h
    change waitForJob s r _ = _ at h
    unfold waitForJob at h
    split at h <;> cases h

/-- In a run in which the jobs know their processes, no status is lost. -/
theorem known_heard (h : ReachableBy system Known s) (he : Known s e) (hnext : next s e = some s') :
    Heard s e s' := by
  obtain ⟨hbase, hinv⟩ := known_invariant h
  have hlive := live_of_next hnext
  obtain ⟨hkept, hviews⟩ := hinv hlive
  have hfound : ∀ {pid status c}, Event.report e = some (pid, status) →
      s.child.lookup pid = some c → getJobFromPid s.job pid s.jobList = .found c.job := by
    intro pid status c hreport hc
    obtain ⟨pids, hpids, hin⟩ := he.recorded _ hreport c hc
    exact lookup_recorded hbase hc (hkept pid c hc) hpids hin hlive
  have hkeep : ∀ how, s.point ≠ .halted how := by
    intro how hpoint
    rw [hpoint] at hlive
    cases hlive
  refine ⟨?_, ?_, ?_⟩
  · intro hwild
    obtain ⟨pid, status, c, hreport, hc, hlookup⟩ := wild_of_move (next_move hbase hnext) hlive hwild
    rw [hfound hreport hc] at hlookup
    cases hlookup
  · intro pid status c hreport hc
    obtain ⟨hjob, -⟩ := reap_found hc (hfound hreport hc) (reap_of_next hreport hnext)
    rw [hjob]
    exact ⟨hkept pid c hc, Function.update_self .., fun r hr => Function.update_of_ne hr _ _⟩
  · intro r hpoint
    cases hreport : Event.report e with
    | none =>
      have hlisted : r ∈ s.jobList := by
        have hused := hbase.used
        rw [hpoint] at hused
        exact hused.subset (List.mem_singleton_self r)
      exact wait_next hpoint hnext hreport (awaited_child (hviews r hlisted) hpoint)
    | some report =>
      obtain ⟨pid, status⟩ := report
      have hreap := reap_of_next hreport hnext
      cases hc : s.child.lookup pid with
      | none =>
        rw [reap, hc] at hreap
        cases hreap
      | some c =>
        rw [(reap_found hc (hfound hreport hc) hreap).2]
        exact hkeep _

end Steps

section Samples

/-- `a` exits while it is the only job, with the shell waiting for it. -/
theorem known_heard_sample : ∃ s s', ReachableBy system Known s ∧
    next s (.waitpid 10 (.exited 0)) = some s' ∧ Heard s (.waitpid 10 (.exited 0)) s' := by
  have hrun : ((system.restrict Known).exec start (adding (words "a" [] false) ++ starting 0 ++
      [.step, .step])).map (fun s => (decide (Known s (.waitpid 10 (.exited 0))),
        (next s (.waitpid 10 (.exited 0))).isSome)) = some (true, true) := by
    decide
  obtain ⟨s, hs, hobs⟩ := Option.map_eq_some_iff.mp hrun
  obtain ⟨hknown, hnext⟩ := Prod.mk.inj hobs
  obtain ⟨s', hs'⟩ := Option.isSome_iff_exists.mp hnext
  have hinit : (system.restrict Known).init start := start_init
  have hreach := ReachableBy.of_restrict (Reachable.exec (.start hinit) hs)
  exact ⟨s, s', hreach, hs', known_heard hreach (of_decide_eq_true hknown) hs'⟩

/-- `a` exits before its number is recorded, and the shell waits for it although it is reaped. -/
theorem unrecorded_lost : ¬ ∀ s e s', Reachable system s → next s e = some s' → Heard s e s' := by
  intro hall
  have hrun : (system.exec start (adding (words "a" [] false) ++
      [.spawn ⟨true, 10, fun _ => by decide⟩, .handler 10 (.exited 0), .step, .step, .step,
        .step])).map (fun s => (s.point, (next s .step).map State.point)) =
      some (.wait 0, some (.halted .fatal)) := by
    decide
  obtain ⟨s, hs, hobs⟩ := Option.map_eq_some_iff.mp hrun
  obtain ⟨hpoint, hnext⟩ := Prod.mk.inj hobs
  obtain ⟨s', hs', hfatal⟩ := Option.map_eq_some_iff.mp hnext
  exact (hall s .step s' (Reachable.exec (.start start_init) hs) hs').awaited 0 hpoint hfatal

end Samples

end ComputerSystems.Cush.Reports
