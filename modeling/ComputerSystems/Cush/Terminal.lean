/- The settings of the terminal that `fg` restores are those that are due to the job. -/

import ComputerSystems.Cush.Builtins

set_option autoImplicit false
set_option relaxedAutoImplicit false

namespace ComputerSystems.Cush.Terminal

open ComputerSystems.Pserv.Strings (ascii)
open ComputerSystems.Systems.Runs
open ComputerSystems.Systems.Tables
open ComputerSystems.Cush.Ast
open ComputerSystems.Cush.Jobs
open ComputerSystems.Cush.Launching
open ComputerSystems.Cush.Shell
open ComputerSystems.Cush.Steps
open ComputerSystems.Cush.Bookkeeping
open ComputerSystems.Cush.Views
open ComputerSystems.Cush.Deletion
open ComputerSystems.Cush.Builtins

/-- The job to which `do_fg` gives the terminal in a step. -/
def resuming (s : State) : Event → Option Nat
  | .tcsetpgrp true =>
    match s.point, s.pipes with
    | .line, pipe :: _ =>
      if pipe.front.name = ascii "fg" then jobArgument s pipe.front.argv else none
    | _, _ => none
  | _ => none

/-- Stops are reported only of processes that are found in their jobs, while their group has the
terminal, and `fg` is used on jobs that have been in the background or stopped in the foreground.
No process gets the number of one that another listed job has recorded. -/
structure Attended (s : State) (e : Event) : Prop where
  distinct : Distinct s e
  stopped : ∀ report ∈ Event.report e, report.2.final = false →
    ∀ c ∈ s.child.lookup report.1,
      s.owner = c.group ∧ getJobFromPid s.job report.1 s.jobList = .found c.job
  resumed : ∀ r ∈ resuming s e, (s.due r).isSome = true

instance (s : State) (e : Event) : Decidable (Attended s e) :=
  decidable_of_iff (Distinct s e ∧
      (∀ report ∈ Event.report e, report.2.final = false → ∀ c ∈ s.child.lookup report.1,
        s.owner = c.group ∧ getJobFromPid s.job report.1 s.jobList = .found c.job) ∧
      ∀ r ∈ resuming s e, (s.due r).isSome = true)
    ⟨fun ⟨h, h1, h2⟩ => ⟨h, h1, h2⟩, fun ⟨h, h1, h2⟩ => ⟨h, h1, h2⟩⟩

structure Saved (s : State) : Prop where
  saved : ∀ r tty, s.due r = some tty → (s.job r).savedTtyState = tty
  fresh : ∀ r, s.allocated ≤ r → s.due r = none

section Steps

variable {s s' : State} {e : Event} {r : Nat}

theorem handle_saved (tty : Termios) (job : Job) {status : WaitStatus} (hfinal : status.final = true) :
    (job.handle tty status).savedTtyState = job.savedTtyState := by
  cases status with
  | stopped signal => cases hfinal
  | exited code => rfl
  | signaled signal => rfl

theorem stoppedDue_final (s : State) (c : Child) {status : WaitStatus} (hfinal : status.final = true) :
    stoppedDue s c status = s.due := by
  cases status with
  | stopped signal => cases hfinal
  | exited code => rfl
  | signaled signal => rfl

theorem spawned_saved (job : Job) (k : Nat) (result : SpawnResult) :
    (spawned job k result).savedTtyState = job.savedTtyState := by
  unfold spawned
  split_ifs <;> rfl

theorem saved_keep (hsaved : Saved s) (hdue : s'.due = s.due)
    (hjob : ∀ q, (s'.job q).savedTtyState = (s.job q).savedTtyState)
    (hallocated : s.allocated ≤ s'.allocated) : Saved s' := by
  constructor
  · intro q tty h
    rw [hjob]
    exact hsaved.saved q tty (hdue ▸ h)
  · intro q hq
    rw [hdue]
    exact hsaved.fresh q (hallocated.trans hq)

theorem update_saved {job : Nat → Job} {new : Job}
    (h : new.savedTtyState = (job r).savedTtyState) (q : Nat) :
    (Function.update job r new q).savedTtyState = (job q).savedTtyState := by
  by_cases hq : q = r
  · subst hq
    rw [Function.update_self, h]
  · rw [Function.update_of_ne hq]

theorem saved_update (hsaved : Saved s) {tty : Termios} {new : Job} (hr : r < s.allocated)
    (hnew : new.savedTtyState = tty) (hjob : s'.job = Function.update s.job r new)
    (hdue : s'.due = Function.update s.due r (some tty)) (hallocated : s'.allocated = s.allocated) :
    Saved s' := by
  constructor
  · intro q tty' h
    rw [hdue] at h
    rw [hjob]
    by_cases hq : q = r
    · subst hq
      rw [Function.update_self, Option.some_inj] at h
      rw [Function.update_self, hnew, h]
    · rw [Function.update_of_ne hq] at h ⊢
      exact hsaved.saved q tty' h
  · intro q hq
    rw [hallocated] at hq
    rw [hdue, Function.update_of_ne (by omega)]
    exact hsaved.fresh q hq

theorem saved_move (hbase : Base s) (hsaved : Saved s) (hok : Attended s e) (hmove : Move s e s') :
    Saved s' := by
  cases hmove with
  | quiet hsame =>
    exact saved_keep hsaved hsame.due (fun q => by rw [hsame.job]) hsame.allocated.ge
  | pushed =>
    constructor
    · intro q tty h
      have hq : q ≠ s.allocated := by
        rintro rfl
        cases (hsaved.fresh _ (Nat.le_refl _)).symm.trans h
      exact (congrArg Job.savedTtyState (Function.update_of_ne hq _ _)).trans (hsaved.saved q tty h)
    · exact fun q hq => hsaved.fresh q (Nat.le_of_succ_le hq)
  | numbered | initialised | recorded | counted | removed =>
    exact saved_keep hsaved rfl (update_saved rfl) (Nat.le_refl _)
  | @started r hpoint =>
    have hlast := hbase.last r (by rw [hpoint]; rfl)
    unfold startJob
    split_ifs
    · exact saved_update hsaved (by omega) rfl rfl rfl rfl
    · exact saved_keep hsaved rfl (update_saved rfl) (Nat.le_refl _)
  | spawned => exact saved_keep hsaved rfl (update_saved (spawned_saved _ _ _)) (Nat.le_refl _)
  | failed => exact saved_keep hsaved rfl (update_saved rfl) (Nat.le_refl _)
  | @written r status _ _ _ _ hsame =>
    refine saved_keep hsaved hsame.due (fun q => ?_) hsame.allocated.ge
    rw [hsame.job]
    have hnew : { s.job r with status := status }.savedTtyState = (s.job r).savedTtyState := rfl
    exact update_saved hnew q
  | @reported _ pid status c r _ hreport hc hfound hsame =>
    cases hfinal : status.final with
    | true =>
      refine saved_keep hsaved (hsame.due.trans (stoppedDue_final s c hfinal)) (fun q => ?_)
        hsame.allocated.ge
      rw [hsame.job]
      exact update_saved (handle_saved _ _ hfinal) q
    | false =>
      obtain ⟨howner, hown⟩ := hok.stopped _ hreport hfinal c hc
      obtain rfl : r = c.job := Lookup.found.inj (hfound.symm.trans hown)
      cases status with
      | stopped signal =>
        refine saved_update hsaved (hbase.owner pid c hc) rfl hsame.job ?_ hsame.allocated
        exact hsame.due.trans (if_pos howner)
      | exited | signaled => cases hfinal
  | @lost _ pid status c _ hreport hc habsent hsame =>
    cases hfinal : status.final with
    | true =>
      exact saved_keep hsaved (hsame.due.trans (stoppedDue_final s c hfinal))
        (fun q => by rw [hsame.job]) hsame.allocated.ge
    | false =>
      obtain ⟨-, hown⟩ := hok.stopped _ hreport hfinal c hc
      rw [habsent] at hown
      cases hown
  | @wild _ pid status c _ _ hreport hc hwild _ hsame =>
    cases hfinal : status.final with
    | true =>
      exact saved_keep hsaved (hsame.due.trans (stoppedDue_final s c hfinal))
        (fun q => by rw [hsame.job]) hsame.allocated.ge
    | false =>
      obtain ⟨-, hown⟩ := hok.stopped _ hreport hfinal c hc
      rw [hwild] at hown
      cases hown

theorem saved_invariant (h : ReachableBy system Attended s) : Base s ∧ Saved s := by
  refine h.invariant (P := fun s => Base s ∧ Saved s) ?_ ?_
  · intro s hinit
    refine ⟨base_init hinit, fun r tty h => ?_, fun r _ => hinit.2.2.2.2.2.2.2 r⟩
    rw [hinit.2.2.2.2.2.2.2 r] at h
    cases h
  · rintro s e s' ⟨hbase, hsaved⟩ hok hnext
    exact ⟨base_next hbase hok.distinct hnext,
      saved_move hbase hsaved hok (next_move hbase hnext)⟩

theorem resuming_next (hr : resuming s e = some r) (h : next s e = some s') :
    s'.tty = (s.job r).savedTtyState := by
  unfold resuming at hr
  split at hr
  · split at hr
    · rename_i pipe pipes hpoint hpipes
      split_ifs at hr with hname
      have hfg : isBuiltin pipe.front = true := by
        refine decide_eq_true ?_
        rw [hname]
        decide
      change run s _ = _ at h
      unfold run at h
      rw [hpoint] at h
      change handleCommandLine s _ = _ at h
      unfold handleCommandLine at h
      rw [hpipes] at h
      dsimp only at h
      rw [if_pos hfg, handleBuiltin, if_pos hname] at h
      unfold doFg at h
      have hjob : jobArgument { s with pipes := pipes } pipe.front.argv = some r := hr
      rw [hjob] at h
      cases h
      rfl
    · cases hr
  · cases hr

/-- In a run in which stops are attended to, the terminal gets the settings that are due to the job
when it is resumed. -/
theorem restored_due (h : ReachableBy system Attended s) (hok : Attended s e)
    (hnext : next s e = some s') (hr : resuming s e = some r) : s.due r = some s'.tty := by
  obtain ⟨-, hsaved⟩ := saved_invariant h
  obtain ⟨tty, htty⟩ := Option.isSome_iff_exists.mp (hok.resumed r hr)
  rw [resuming_next hr hnext, htty, hsaved.saved r tty htty]

end Steps

section Samples

/-- `fg` with one argument. -/
def fgLine (jid : String) : Pipeline :=
  ⟨[⟨[ascii "fg", ascii jid], List.cons_ne_nil _ _, false⟩], List.cons_ne_nil _ _, none, none, false,
    false⟩

/-- `fg 1` resumes `a &`, after `readline` has changed the settings. -/
theorem restored_due_sample : ∃ s s', ReachableBy system Attended s ∧
    next s (.tcsetpgrp true) = some s' ∧ resuming s (.tcsetpgrp true) = some 0 ∧
      s.due 0 = some s'.tty := by
  have hrun : ((system.restrict Attended).exec start (adding (words "a" [] true) ++ starting 0 ++
      [.step, .step, .step, .step, .terminal 5 1, .readline [fgLine "1"]])).map
      (fun s => (decide (Attended s (.tcsetpgrp true)), (next s (.tcsetpgrp true)).isSome,
        resuming s (.tcsetpgrp true))) = some (true, true, some 0) := by
    decide
  obtain ⟨s, hs, hobs⟩ := Option.map_eq_some_iff.mp hrun
  simp only [Prod.mk.injEq] at hobs
  obtain ⟨hok, hnext, hresuming⟩ := hobs
  obtain ⟨s', hs'⟩ := Option.isSome_iff_exists.mp hnext
  have hinit : (system.restrict Attended).init start := start_init
  have hreach := ReachableBy.of_restrict (Reachable.exec (.start hinit) hs)
  exact ⟨s, s', hreach, hs', hresuming, restored_due hreach (of_decide_eq_true hok) hs' hresuming⟩

/-- `a &` is stopped at the prompt, where `readline` has changed the settings. -/
theorem prompt_restored : ¬ ∀ s e s' r, Reachable system s → next s e = some s' →
    resuming s e = some r → s.due r = some s'.tty := by
  intro hall
  have hrun : (system.exec start (adding (words "a" [] true) ++ starting 0 ++
      [.step, .step, .step, .step, .terminal 5 1, .handler 10 (.stopped SIGSTOP),
        .readline [fgLine "1"]])).map
      (fun s => (s.due 0, (next s (.tcsetpgrp true)).map State.tty, resuming s (.tcsetpgrp true))) =
      some (some 0, some 5, some 0) := by
    decide
  obtain ⟨s, hs, hobs⟩ := Option.map_eq_some_iff.mp hrun
  simp only [Prod.mk.injEq] at hobs
  obtain ⟨hdue, hnext, hresuming⟩ := hobs
  obtain ⟨s', hs', htty⟩ := Option.map_eq_some_iff.mp hnext
  have hlaw := hall s _ s' 0 (Reachable.exec (.start start_init) hs) hs' hresuming
  rw [hdue, htty] at hlaw
  cases hlaw

end Samples

end ComputerSystems.Cush.Terminal
