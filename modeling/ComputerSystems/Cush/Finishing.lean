/- A job whose processes have all been reaped is over, and stays so until it is deleted. -/

import ComputerSystems.Cush.Reports

set_option autoImplicit false
set_option relaxedAutoImplicit false

namespace ComputerSystems.Cush.Finishing

open ComputerSystems.Pserv.Strings (ascii)
open ComputerSystems.Systems.Runs
open ComputerSystems.Systems.Tables
open ComputerSystems.Cush.Ast
open ComputerSystems.Cush.Jobs
open ComputerSystems.Cush.Launching
open ComputerSystems.Cush.SpawnFailures (word)
open ComputerSystems.Cush.Shell
open ComputerSystems.Cush.Steps
open ComputerSystems.Cush.Bookkeeping
open ComputerSystems.Cush.Views
open ComputerSystems.Cush.Deletion
open ComputerSystems.Cush.Reports

/-- The last report of the job `r` will find it with a single process counted: none of its processes
stops after a spawn has failed, and none exits as the only process, before it is counted. -/
def Counts (s : State) (r : Nat) : WaitStatus → Prop
  | .stopped _ => s.failures r = 0
  | .exited _ => uncounted s.point = some r → (s.job r).numProcessesAlive ≠ 0
  | .signaled _ => True

/-- The reports are about processes that their jobs have recorded and will count, and the built-in
commands `fg`, `bg` and `stop` are used on jobs that have a process, and of which no spawn has
failed. No process gets the number of one that another listed job has recorded. -/
structure Steady (s : State) (e : Event) : Prop where
  distinct : Distinct s e
  recorded : ∀ report ∈ Event.report e, report.2.final = true →
    ∀ c ∈ s.child.lookup report.1, c.job ∈ s.jobList → Recorded s c report.1
  reported : ∀ report ∈ handled s e, Counts s report.2 report.1
  written : ∀ write ∈ writing s e, write.1 ≠ .KILLED →
    s.failures write.2 = 0 ∧ 0 < unreaped s write.2

instance (s : State) (r : Nat) : DecidablePred (Counts s r)
  | .stopped _ => inferInstanceAs (Decidable (_ = _))
  | .exited _ => inferInstanceAs (Decidable (_ → _))
  | .signaled _ => .isTrue trivial

instance (s : State) (e : Event) : Decidable (Steady s e) :=
  decidable_of_iff (Distinct s e ∧
      (∀ report ∈ Event.report e, report.2.final = true →
        ∀ c ∈ s.child.lookup report.1, c.job ∈ s.jobList → Recorded s c report.1) ∧
      (∀ report ∈ handled s e, Counts s report.2 report.1) ∧
      ∀ write ∈ writing s e, write.1 ≠ .KILLED →
        s.failures write.2 = 0 ∧ 0 < unreaped s write.2)
    ⟨fun ⟨h, h1, h2, h3⟩ => ⟨h, h1, h2, h3⟩, fun ⟨h, h1, h2, h3⟩ => ⟨h, h1, h2, h3⟩⟩

/-- All processes of a job have been spawned, and all of them have been reaped. -/
structure Finished (s : State) (r : Nat) : Prop where
  listed : r ∈ s.jobList
  launched : launching s.point ≠ some r
  reaped : unreaped s r = 0

/-- What becomes of a finished job up to a later state: it is to be deleted as long as it is listed,
`wait_for_job` does not wait for it, the next turns of `delete_all_finished_jobs` remove it, and then
it is never listed or used again. -/
structure Over (ok : State → Event → Prop) (s : State) (r : Nat) (s' : State) : Prop where
  final : r ∈ s'.jobList → toDeleteJob (s'.job r).status = true
  waited : s'.point = .wait r → (s'.job r).status ≠ .FOREGROUND
  removed : ∀ rest, s.point = .deleting rest → r ∈ rest → s'.point = .prompt → r ∉ s'.jobList
  unused : r ∉ s'.jobList → ∀ t, After system ok s' t → r ∉ t.jobList ∧ r ∉ used t.point

/-- A job without processes is over, also one of which a spawn has failed. -/
structure Tracked (v : View) : Prop where
  count : v.failures = 0 → v.alive + v.pending = v.unreaped
  failed : 0 < v.failures → toDeleteJob v.status = true
  ended : v.started = true → v.unreaped = 0 → toDeleteJob v.status = true

section Steps

variable {s s' : State} {e : Event} {r : Nat} {v : View}

theorem tracked_new (h : New v) : Tracked v where
  count _ := by
    rw [h.unreaped, h.alive, h.pending]
    rfl
  failed hpos := by
    rw [h.failures] at hpos
    cases hpos
  ended hstarted := by
    rw [h.started] at hstarted
    cases hstarted

theorem handle_final {status : WaitStatus} (h : toDeleteJob v.status = true)
    (hfinal : status.final = true) : toDeleteJob (v.handle status).status = true := by
  cases status with
  | stopped signal => cases hfinal
  | exited code =>
    rw [View.handle]
    dsimp only
    split_ifs
    · rfl
    · exact h
  | signaled signal => exact toDeleteJob_signaledStatus signal

theorem last_reported {status : WaitStatus} (hv : Tracked v) (hpos : 0 < v.unreaped)
    (hpending : v.pending ≤ 1) (hcounts : match status with
      | .stopped _ => v.failures = 0
      | .exited _ => v.pending = 1 → v.alive ≠ 0
      | .signaled _ => True)
    (hlast : ((v.handle status).reap status).unreaped = 0) :
    toDeleteJob (v.handle status).status = true := by
  rw [View.reap, handle_unreaped] at hlast
  dsimp only at hlast
  cases status with
  | stopped signal =>
    change v.unreaped - 0 = 0 at hlast
    omega
  | exited code =>
    change v.unreaped - 1 = 0 at hlast
    by_cases hfailures : v.failures = 0
    · have hcount := hv.count hfailures
      have hone : v.alive - 1 = 0 := by
        by_cases hp : v.pending = 1
        · have := hcounts hp
          omega
        · omega
      rw [View.handle]
      dsimp only
      rw [if_pos hone]
      rfl
    · exact handle_final (hv.failed (Nat.pos_of_ne_zero hfailures)) rfl
  | signaled signal => exact toDeleteJob_signaledStatus signal

theorem tracked_change {v' : View} (hbase : Base s) (hlive : s.point.isHalted = false)
    (hv : Tracked (view s r)) (hsteady : Steady s e) (hr : r ∈ s.jobList)
    (hchange : Change s e r (view s r) v') : Tracked v' := by
  cases hchange with
  | same => exact hv
  | prepared _ hstarted hfailures =>
    refine ⟨hv.count, fun hpos => ?_, fun h => ?_⟩
    · exact absurd hfailures hpos.ne'
    · rw [show _ = false from hstarted] at h
      cases h
  | spawned _ _ _ hpending =>
    refine ⟨fun hzero => ?_, hv.failed, fun _ h => absurd h (Nat.succ_ne_zero _)⟩
    have := hv.count hzero
    push_cast
    omega
  | failed => exact ⟨fun hzero => absurd hzero (Nat.succ_ne_zero _), fun _ => rfl, fun _ _ => rfl⟩
  | counted hpending =>
    refine ⟨fun hzero => ?_, hv.failed, hv.ended⟩
    have := hv.count hzero
    push_cast
    omega
  | @written status he hwrites =>
    subst he
    have hwritten := hsteady.written _ (writing_eq hwrites)
    by_cases hkilled : status = .KILLED
    · subst hkilled
      exact ⟨hv.count, fun _ => rfl, fun _ _ => rfl⟩
    · obtain ⟨hfailures, hpos⟩ := hwritten hkilled
      refine ⟨hv.count, fun h => absurd hfailures h.ne', fun _ h => absurd h hpos.ne'⟩
  | @reported pid c status hreport hc hjob hfound hpos =>
    have hcounts := hsteady.reported _ (handled_eq hreport hfound)
    refine ⟨fun hzero => count_reported hpos (hv.count ?_), fun h => ?_, fun _ hlast => ?_⟩
    · rwa [View.reap, handle_failures] at hzero
    · rw [View.reap, handle_failures] at h
      refine handle_final (hv.failed h) ?_
      cases status with
      | stopped signal => exact absurd hcounts h.ne'
      | exited code => rfl
      | signaled signal => rfl
    · refine last_reported hv hpos pending_le ?_ hlast
      cases status with
      | stopped signal => exact hcounts
      | exited code =>
        intro hpending
        exact hcounts (uncounted_of_pending hpending)
      | signaled signal => trivial
  | missed hreport hc hjob hmissed hfinal =>
    subst hjob
    obtain ⟨pids, hpids, hin⟩ := hsteady.recorded _ hreport hfinal _ hc hr
    exact absurd (lookup_recorded hbase hc hr hpids hin hlive) hmissed
  | @foreign pid c status hreport hc hjob hfound =>
    have hfailures : 0 < s.failures r := by
      rcases found_job hbase hc hfound with h | h
      · exact absurd h.symm hjob
      · exact h.2
    have hcounts := hsteady.reported _ (handled_eq hreport hfound)
    have hfinal : status.final = true := by
      cases status with
      | stopped signal => exact absurd hcounts hfailures.ne'
      | exited code => rfl
      | signaled signal => rfl
    refine ⟨fun hzero => ?_, fun _ => ?_, fun _ _ => ?_⟩
    · rw [handle_failures] at hzero
      exact absurd hzero hfailures.ne'
    · exact handle_final (hv.failed hfailures) hfinal
    · exact handle_final (hv.failed hfailures) hfinal

theorem steady_invariant (h : ReachableBy system Steady s) :
    Base s ∧ (s.point.isHalted = false → ∀ r ∈ s.jobList, Tracked (view s r)) := by
  refine view_invariant (fun _ _ hok => hok.distinct) (fun _ => tracked_new) ?_ h
  intro s e r v' hbase hlive hviews hok hr hchange
  exact tracked_change hbase hlive (hviews r hr) hok hr hchange

theorem launching_move (hmove : Move s e s') (h : launching s'.point = some r) :
    launching s.point = some r ∨ r = s.allocated := by
  cases hmove with
  | quiet _ hpoint =>
    rcases hpoint with hpoint | hleaves
    · exact Or.inl (hpoint ▸ h)
    · rw [hleaves.launching] at h
      cases h
  | pushed => exact Or.inr (Option.some.inj h).symm
  | @started q hpoint =>
    refine Or.inl ?_
    unfold startJob at h
    rw [hpoint]
    split_ifs at h <;> exact h
  | numbered hpoint | initialised hpoint | spawned hpoint | failed hpoint | recorded hpoint
  | counted hpoint =>
    refine Or.inl ?_
    rw [hpoint]
    exact h
  | written _ _ _ _ hleaves =>
    rw [hleaves.launching] at h
    cases h
  | reported _ _ _ _ hpoint => exact Or.inl (hpoint ▸ h)
  | lost _ _ _ _ hpoint => exact Or.inl (hpoint ▸ h)
  | wild _ _ _ _ _ hwild =>
    rw [hwild] at h
    cases h
  | removed => cases h

theorem finished_move (hbase : Base s) (hfinished : Finished s r) (hmove : Move s e s')
    (hlive : s'.point.isHalted = false) (hr : r ∈ s'.jobList) : Finished s' r := by
  refine ⟨hr, fun h => ?_, ?_⟩
  · rcases launching_move hmove h with h | h
    · exact hfinished.launched h
    · exact (hbase.allocated r hfinished.listed).ne h
  · have hzero : (view s r).unreaped = 0 := hfinished.reaped
    change (view s' r).unreaped = 0
    rcases change_of_move hbase hmove hlive hr with ⟨-, hchange⟩ | ⟨hunlisted, -⟩
    · generalize view s' r = v' at hchange
      cases hchange with
      | spawned _ hpoint => exact absurd (by rw [hpoint]; rfl) hfinished.launched
      | reported _ _ _ _ hpos => exact absurd hzero hpos.ne'
      | missed =>
        change (view s r).unreaped - _ = 0
        rw [hzero, Nat.zero_sub]
      | foreign => rwa [handle_unreaped]
      | same | prepared | failed | counted | written => exact hzero
    · exact absurd hfinished.listed hunlisted

theorem allocated_move (hmove : Move s e s') : s.allocated ≤ s'.allocated := by
  cases hmove with
  | quiet hsame => exact hsame.allocated.ge
  | pushed => exact Nat.le_succ _
  | started =>
    unfold startJob
    split_ifs <;> exact Nat.le_refl _
  | numbered | initialised | spawned | failed | recorded | counted | removed => exact Nat.le_refl _
  | written _ _ _ hsame => exact hsame.allocated.ge
  | reported _ _ _ hsame => exact hsame.allocated.ge
  | lost _ _ _ hsame => exact hsame.allocated.ge
  | wild _ _ _ _ hsame => exact hsame.allocated.ge

theorem unlisted_move (hmove : Move s e s') (hr : r ∉ s.jobList) (hlt : r < s.allocated) :
    r ∉ s'.jobList := by
  cases hmove with
  | quiet hsame => exact hsame.jobList ▸ hr
  | pushed =>
    intro h
    rcases List.mem_append.mp h with h | h
    · exact hr h
    · exact hlt.ne (List.mem_singleton.mp h)
  | started =>
    unfold startJob
    split_ifs <;> exact hr
  | numbered | initialised | spawned | failed | recorded | counted => exact hr
  | written _ _ _ hsame => exact hsame.jobList ▸ hr
  | reported _ _ _ hsame => exact hsame.jobList ▸ hr
  | lost _ _ _ hsame => exact hsame.jobList ▸ hr
  | wild _ _ _ _ hsame => exact hsame.jobList ▸ hr
  | removed => exact fun h => hr (List.mem_of_mem_erase h)

theorem visitJob_cases (s : State) (q : Nat) (rest : List Nat) :
    ((visitJob s q rest).point = .deleting rest ∨ (visitJob s q rest).point.isHalted = true) ∧
      (toDeleteJob (s.job q).status = true → (visitJob s q rest).jobList = s.jobList.erase q) := by
  rw [visitJob]
  split_ifs with hdelete
  · rw [deleteJob]
    dsimp only
    split_ifs
    · exact ⟨Or.inr rfl, fun _ => rfl⟩
    · split
      · exact ⟨Or.inr rfl, fun _ => rfl⟩
      · exact ⟨Or.inl rfl, fun _ => rfl⟩
  · exact ⟨Or.inl rfl, fun h => absurd h hdelete⟩

/-- What can happen between two turns of `delete_all_finished_jobs`, or in one. -/
theorem deleting_next {q : Nat} {rest : List Nat} (hpoint : s.point = .deleting (q :: rest))
    (h : next s e = some s') (hlive : s'.point.isHalted = false) :
    s'.point = s.point ∨ s' = visitJob s q rest := by
  have hrun : run s e = if e = .step then some (visitJob s q rest) else none := by
    unfold run
    rw [hpoint]
  cases hreport : Event.report e with
  | some report =>
    obtain ⟨pid, status⟩ := report
    have hreap := reap_of_next hreport h
    rw [reap] at hreap
    split at hreap
    · cases hreap
    · rw [Option.some_inj] at hreap
      subst hreap
      refine Or.inl ?_
      unfold handleChildStatus at hlive ⊢
      split
      · rfl
      · rw [‹getJobFromPid _ _ _ = _›] at hlive
        cases hlive
      · rfl
  | none =>
    cases e with
    | handler | waitpid => cases hreport
    | terminal =>
      rw [next] at h
      split_ifs at h
      cases h
      exact Or.inl rfl
    | step =>
      change run s _ = _ at h
      rw [hrun, if_pos rfl] at h
      exact Or.inr (Option.some.inj h).symm
    | readline | eof | malloc | spawn | tcsetpgrp | killpg =>
      change run s _ = _ at h
      rw [hrun] at h
      cases h

end Steps

section Runs

variable {ok : State → Event → Prop} {s s' : State} {e : Event} {r : Nat}

theorem reachable_base (hok : ∀ s e, ok s e → Distinct s e) (h : ReachableBy system ok s) :
    Base s :=
  h.invariant (fun _ => base_init) fun s e _ hbase hstep => base_next hbase (hok s e hstep)

theorem unlisted_after (hok : ∀ s e, ok s e → Distinct s e) (hs : ReachableBy system ok s)
    (h : After system ok s s') (hr : r ∉ s.jobList) (hlt : r < s.allocated) :
    ReachableBy system ok s' ∧ r ∉ s'.jobList := by
  have hinv := h.invariant (P := fun t => r ∉ t.jobList ∧ r < t.allocated) hs ⟨hr, hlt⟩ ?_
  · exact ⟨hinv.1, hinv.2.1⟩
  · rintro t e t' ht ⟨hunlisted, hlt⟩ _ hnext
    have hmove := next_move (reachable_base hok ht) hnext
    exact ⟨unlisted_move hmove hunlisted hlt, hlt.trans_le (allocated_move hmove)⟩

theorem finished_after (hok : ∀ s e, ok s e → Distinct s e) (hs : ReachableBy system ok s)
    (h : After system ok s s') (hfinished : Finished s r) :
    ReachableBy system ok s' ∧ r < s'.allocated ∧
      (s'.point.isHalted = false → Finished s' r ∨ r ∉ s'.jobList) := by
  refine h.invariant (P := fun t => r < t.allocated ∧
    (t.point.isHalted = false → Finished t r ∨ r ∉ t.jobList)) hs ?_ ?_
  · exact ⟨(reachable_base hok hs).allocated r hfinished.listed, fun _ => Or.inl hfinished⟩
  · rintro t e t' ht ⟨hlt, hor⟩ _ hnext
    have hbase := reachable_base hok ht
    have hmove := next_move hbase hnext
    refine ⟨hlt.trans_le (allocated_move hmove), fun hlive => ?_⟩
    by_cases hr : r ∈ t'.jobList
    · rcases hor (live_of_next hnext) with hfin | hunlisted
      · exact Or.inl (finished_move hbase hfin hmove hlive hr)
      · exact absurd hr (unlisted_move hmove hunlisted hlt)
    · exact Or.inr hr

/-- The turns of `delete_all_finished_jobs` remove a finished job. -/
theorem removed_after (hok : ∀ s e, ok s e → Distinct s e) (hs : ReachableBy system ok s)
    (h : After system ok s s') (hfinished : Finished s r) {rest : List Nat}
    (hpoint : s.point = .deleting rest) (hr : r ∈ rest)
    (hfinal : ∀ t, ReachableBy system ok t → t.point.isHalted = false → Finished t r →
      toDeleteJob (t.job r).status = true)
    (hprompt : s'.point = .prompt) : r ∉ s'.jobList := by
  have hinv := h.invariant (P := fun t => r < t.allocated ∧ (t.point.isHalted = false →
    r ∉ t.jobList ∨ Finished t r ∧ ∃ rest, t.point = .deleting rest ∧ r ∈ rest)) hs ?_ ?_
  · rcases hinv.2.2 (by rw [hprompt]; rfl) with hunlisted | ⟨-, rest, hdeleting, -⟩
    · exact hunlisted
    · rw [hprompt] at hdeleting
      cases hdeleting
  · exact ⟨(reachable_base hok hs).allocated r hfinished.listed,
      fun _ => Or.inr ⟨hfinished, rest, hpoint, hr⟩⟩
  · rintro t e t' ht ⟨hlt, hor⟩ _ hnext
    have hbase := reachable_base hok ht
    have hmove := next_move hbase hnext
    refine ⟨hlt.trans_le (allocated_move hmove), fun hlive => ?_⟩
    rcases hor (live_of_next hnext) with hunlisted | ⟨hfin, rest, hpoint, hr⟩
    · exact Or.inl (unlisted_move hmove hunlisted hlt)
    · obtain ⟨q, rest, rfl⟩ := List.exists_cons_of_ne_nil (List.ne_nil_of_mem hr)
      by_cases hlisted : r ∈ t'.jobList
      · refine Or.inr ⟨finished_move hbase hfin hmove hlive hlisted, ?_⟩
        rcases deleting_next hpoint hnext hlive with hsame | rfl
        · exact ⟨q :: rest, hsame.trans hpoint, hr⟩
        · obtain ⟨hpoint', hremoved⟩ := visitJob_cases t q rest
          rcases hpoint' with hpoint' | hhalted
          · refine ⟨rest, hpoint', (List.mem_cons.mp hr).resolve_left ?_⟩
            rintro rfl
            -- this turn has removed the job
            rw [hremoved (hfinal t ht (live_of_next hnext) hfin)] at hlisted
            exact List.Nodup.not_mem_erase (hbase.sorted.imp Nat.ne_of_lt) hlisted
          · rw [hlive] at hhalted
            cases hhalted
      · exact Or.inl hlisted

theorem finished_final (h : ReachableBy system Steady s) (hlive : s.point.isHalted = false)
    (hfinished : Finished s r) : toDeleteJob (s.job r).status = true := by
  obtain ⟨-, hviews⟩ := steady_invariant h
  refine (hviews hlive r hfinished.listed).ended (decide_eq_true fun hunstarted => ?_)
    hfinished.reaped
  exact hfinished.launched (launching_of_unstarted hunstarted)

/-- In a steady run, a job whose processes have been reaped is over until it is removed, and then
never comes back. -/
theorem finished_over (h : ReachableBy system Steady s) (hfinished : Finished s r)
    (hafter : After system Steady s s') (hlive : s'.point.isHalted = false) :
    Over Steady s r s' := by
  have hok : ∀ s e, Steady s e → Distinct s e := fun _ _ hstep => hstep.distinct
  obtain ⟨hs', hlt, hor⟩ := finished_after hok h hafter hfinished
  have hbase := reachable_base hok hs'
  have hfinal : r ∈ s'.jobList → toDeleteJob (s'.job r).status = true := by
    intro hr
    rcases hor hlive with hfin | hunlisted
    · exact finished_final hs' hlive hfin
    · exact absurd hr hunlisted
  refine ⟨hfinal, fun hpoint hstatus => ?_, fun rest hpoint hr hprompt => ?_, fun hr t ht => ?_⟩
  · have hr : r ∈ s'.jobList := by
      have hused := hbase.used
      rw [hpoint] at hused
      exact hused.subset (List.mem_singleton_self r)
    have hdelete := hfinal hr
    rw [hstatus] at hdelete
    cases hdelete
  · exact removed_after hok h hafter hfinished hpoint hr (fun _ ht hl hf => finished_final ht hl hf)
      hprompt
  · obtain ⟨hreach, hunlisted⟩ := unlisted_after hok hs' ht hr hlt
    exact ⟨hunlisted, fun hused => hunlisted ((reachable_base hok hreach).used.subset hused)⟩

end Runs

section Samples

/-- The job of `a`, which has exited, before and after the pass that removes it. -/
theorem finished_over_sample : ∃ s s', ReachableBy system Steady s ∧ Finished s 0 ∧
    After system Steady s s' ∧ s'.point = .prompt ∧ Over Steady s 0 s' := by
  have hrun : ((system.restrict Steady).exec start exitedLine).map
      (fun s => (s.jobList, s.point, unreaped s 0, ((system.restrict Steady).exec s [.step, .step]).map
        State.point)) = some ([0], .deleting [0], 0, some .prompt) := by
    decide
  obtain ⟨s, hs, hobs⟩ := Option.map_eq_some_iff.mp hrun
  simp only [Prod.mk.injEq] at hobs
  obtain ⟨hlist, hpoint, hreaped, hnext⟩ := hobs
  obtain ⟨s', hs', hprompt⟩ := Option.map_eq_some_iff.mp hnext
  have hinit : (system.restrict Steady).init start := start_init
  have hreach := ReachableBy.of_restrict (Reachable.exec (.start hinit) hs)
  have hafter : After system Steady s s' := After.exec .refl hs'
  have hfinished : Finished s 0 := by
    refine ⟨?_, ?_, hreaped⟩
    · rw [hlist]
      exact List.mem_singleton_self 0
    · rw [hpoint]
      exact nofun
  exact ⟨s, s', hreach, hfinished, hafter, hprompt,
    finished_over hreach hfinished hafter (by rw [hprompt]; rfl)⟩

/-- `bg` with one argument. -/
def bgLine (jid : String) : Pipeline :=
  ⟨[⟨[ascii "bg", ascii jid], List.cons_ne_nil _ _, false⟩], List.cons_ne_nil _ _, none, none, false,
    false⟩

/-- `a &` exits at the prompt, and `bg 1` follows. -/
theorem bg_revives : ¬ ∀ s s' r, Reachable system s → Finished s r →
    After system (fun _ _ => True) s s' → s'.point.isHalted = false →
      Over (fun _ _ => True) s r s' := by
  intro hall
  have hrun : (system.exec start (adding (words "a" [] true) ++ starting 0 ++
      [.step, .step, .step, .step, .handler 10 (.exited 0)])).map
      (fun s => (s.jobList, s.point, unreaped s 0, (system.exec s
        [.readline [bgLine "1"], .step]).map fun s' => decide (s'.point = .bg 0 ∧
          s'.jobList = [0] ∧ (s'.job 0).status = .BACKGROUND))) =
      some ([0], .prompt, 0, some true) := by
    decide
  obtain ⟨s, hs, hobs⟩ := Option.map_eq_some_iff.mp hrun
  simp only [Prod.mk.injEq] at hobs
  obtain ⟨hlist, hpoint, hreaped, hnext⟩ := hobs
  obtain ⟨s', hs', hobs'⟩ := Option.map_eq_some_iff.mp hnext
  obtain ⟨hpoint', hlist', hstatus⟩ := of_decide_eq_true hobs'
  have hfinished : Finished s 0 := by
    refine ⟨?_, ?_, hreaped⟩
    · rw [hlist]
      exact List.mem_singleton_self 0
    · rw [hpoint]
      exact nofun
  have hover := hall s s' 0 (Reachable.exec (.start start_init) hs) hfinished (After.of_exec .refl hs')
    (by rw [hpoint']; rfl)
  have hfinal := hover.final (by rw [hlist']; exact List.mem_singleton_self 0)
  rw [hstatus] at hfinal
  cases hfinal

end Samples

end ComputerSystems.Cush.Finishing
