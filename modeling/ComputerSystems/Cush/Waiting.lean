/- What `wait_for_job` has seen when it returns. -/

import ComputerSystems.Cush.Evaluation
import ComputerSystems.Cush.Reports

set_option autoImplicit false
set_option relaxedAutoImplicit false

namespace ComputerSystems.Cush.Waiting

open ComputerSystems.Systems.Runs
open ComputerSystems.Systems.Tables
open ComputerSystems.Cush.Ast
open ComputerSystems.Cush.Jobs
open ComputerSystems.Cush.Launching
open ComputerSystems.Cush.Shell
open ComputerSystems.Cush.Steps
open ComputerSystems.Cush.Bookkeeping
open ComputerSystems.Cush.Views
open ComputerSystems.Cush.Deletion
open ComputerSystems.Cush.Evaluation (spawned_pipe update_pipe)
open ComputerSystems.Cush.Reports

/-- The process is found in the job `r`. -/
def Of (s : State) (r : Nat) (pid : Int) : Prop :=
  getJobFromPid s.job pid s.jobList = .found r

/-- The processes of the job are found in it, and no others are. -/
structure Finds (s : State) (r : Nat) : Prop where
  found : ∀ pid c, s.child.lookup pid = some c → (Of s r pid ↔ c.job = r)
  tame : ∀ pid, getJobFromPid s.job pid s.jobList ≠ .wild

/-- The shell is about to launch or resume the job and then to wait for it. -/
def entering : Point → Option Nat
  | .spawn r _ => some r
  | .record r _ _ => some r
  | .count r _ => some r
  | .block r => some r
  | _ => none

def heard (s : State) (r : Nat) (e : Event) : List WaitStatus :=
  match handled s e with
  | some (status, q) => if q = r then [status] else []
  | none => []

/-- The way to `wait_for_job` from where the job has been put in the foreground, with the statuses of
its processes that the handler has been told of since. -/
inductive Entered (r : Nat) : State → List WaitStatus → Prop where
  | start {s : State} : s.point = .spawn r 0 ∨ s.point = .block r →
      (s.job r).status = .FOREGROUND → Entered r s []
  | step {s s' : State} {e : Event} {seen : List WaitStatus} : Entered r s seen →
      entering s.point = some r →
      (∀ report ∈ Event.report e, ∀ c ∈ s.child.lookup report.1, Of s r report.1 ↔ c.job = r) →
      next s e = some s' → Entered r s' (seen ++ heard s r e)

/-- A process has been reported stopped. -/
def HasStop (seen : List WaitStatus) : Prop :=
  ∃ signal, .stopped signal ∈ seen

/-- The calls of `waitpid` with these results. -/
def waitpids (reports : List (Int × WaitStatus)) : List Event :=
  reports.map fun report => .waitpid report.1 report.2

/-- Some process of the job has been reported stopped. -/
def Stopped (s : State) (r : Nat) (reports : List (Int × WaitStatus)) : Prop :=
  ∃ pid signal, (pid, .stopped signal) ∈ reports ∧ Of s r pid

/-- A signal ends a process of the job only after all the other ones have been reaped. -/
def KilledLast (s : State) (r : Nat) (reports : List (Int × WaitStatus)) : Prop :=
  ∀ before pid signal after, reports = before ++ (pid, .signaled signal) :: after → Of s r pid →
    ∀ pid' c, s.child.lookup pid' = some c → c.job = r →
      pid' = pid ∨ ∃ status, status.final = true ∧ (pid', status) ∈ before

section Steps

variable {s t t' : State} {e : Event} {r : Nat} {pid : Int} {status : WaitStatus}
variable {reports : List (Int × WaitStatus)}

theorem waitpid_next (hpoint : s.point = .wait r) (h : next s (.waitpid pid status) = some t) :
    (s.job r).status = .FOREGROUND ∧ 0 < (s.job r).numProcessesAlive := by
  change run s _ = _ at h
  unfold run at h
  rw [hpoint] at h
  change waitForJob s r _ = _ at h
  unfold waitForJob at h
  split at h
  · assumption
  · cases h

theorem step_next (hpoint : s.point = .wait r) (h : next s .step = some t) (hline : t.point = .line) :
    ¬ ((s.job r).status = .FOREGROUND ∧ 0 < (s.job r).numProcessesAlive) := by
  intro hloop
  change run s _ = _ at h
  unfold run at h
  rw [hpoint] at h
  change waitForJob s r _ = _ at h
  unfold waitForJob at h
  rw [if_pos hloop] at h
  dsimp only at h
  split_ifs at h
  cases h
  cases hline

/-- What a report about the process `pid` of `c` does to the shell. -/
structure Handled (s : State) (r : Nat) (pid : Int) (status : WaitStatus) (c : Child) (t : State) :
    Prop where
  point : t.point = s.point
  child : t.child = afterReport s pid status
  lookup : ∀ pid, getJobFromPid t.job pid t.jobList = getJobFromPid s.job pid s.jobList
  own : c.job = r → t.job r = (s.job r).handle s.tty status
  other : c.job ≠ r → t.job r = s.job r

theorem lookup_congr {job job' : Nat → Job} (h : ∀ q, (job' q).pids = (job q).pids)
    (l : List Nat) : getJobFromPid job' pid l = getJobFromPid job pid l := by
  induction l with
  | nil => rfl
  | cons q l ih => rw [getJobFromPid, getJobFromPid, h q, ih]

theorem handled_next (hfinds : Finds s r) (h : next s (.waitpid pid status) = some t) :
    ∃ c, s.child.lookup pid = some c ∧ Handled s r pid status c t := by
  have hreap := reap_of_next (e := .waitpid pid status) rfl h
  unfold reap at hreap
  split at hreap
  · cases hreap
  · rename_i c hc
    rw [Option.some_inj] at hreap
    subst hreap
    refine ⟨c, hc, ?_⟩
    have hof := hfinds.found pid c hc
    rw [Of] at hof
    unfold handleChildStatus
    split
    · rename_i habsent
      refine ⟨rfl, rfl, fun _ => rfl, fun hjob => ?_, fun _ => rfl⟩
      have hfound := hof.mpr hjob
      rw [show getJobFromPid s.job pid s.jobList = .absent from habsent] at hfound
      cases hfound
    · rename_i hwild
      exact absurd hwild (hfinds.tame pid)
    · rename_i q hfound
      refine ⟨rfl, rfl, fun pid' => lookup_congr (fun q' => ?_) _, fun hjob => ?_, fun hjob => ?_⟩
      · by_cases hq : q' = q
        · subst hq
          exact (congrArg Job.pids (Function.update_self ..)).trans (handle_pids _ _ _)
        · exact congrArg Job.pids (Function.update_of_ne hq _ _)
      · obtain rfl : q = r := Lookup.found.inj (hfound.symm.trans (hof.mpr hjob))
        exact Function.update_self ..
      · have hne : r ≠ q := by
          rintro rfl
          exact hjob (hof.mp hfound)
        exact Function.update_of_ne hne _ _

theorem unreaped_handled {c : Child} (hc : s.child.lookup pid = some c)
    (h : Handled s r pid status c t) :
    unreaped t r + (if c.job = r ∧ status.final = true then 1 else 0) = unreaped s r := by
  rw [unreaped, h.child]
  exact count_afterReport hc

theorem Handled.finds {c : Child} (h : Handled s r pid status c t) (hfinds : Finds s r) :
    Finds t r := by
  refine ⟨fun pid' c' hc' => ?_, fun pid' => ?_⟩
  · rw [h.child] at hc'
    rw [Of, h.lookup pid']
    exact hfinds.found pid' c' (afterReport_sub hc')
  · rw [h.lookup pid']
    exact hfinds.tame pid'

/-- A report about another job changes nothing of what the loop looks at. An exit leaves the job in the
foreground while a process is counted, and takes as much from the count as from the processes. -/
theorem loop_next {c : Child} (hforeground : (s.job r).status = .FOREGROUND)
    (halive : 0 < (s.job r).numProcessesAlive) (hc : s.child.lookup pid = some c)
    (h : Handled s r pid status c t)
    (hgo : c.job ≠ r ∨ (∃ code, status = .exited code) ∧ (t.job r).numProcessesAlive ≠ 0) :
    (t.job r).status = .FOREGROUND ∧
      (unreaped t r ≤ (t.job r).numProcessesAlive.toNat ↔
        unreaped s r ≤ (s.job r).numProcessesAlive.toNat) := by
  have hcount := unreaped_handled hc h
  by_cases hown : c.job = r
  · obtain ⟨⟨code, rfl⟩, hne⟩ := hgo.resolve_left (not_not_intro hown)
    rw [if_pos ⟨hown, rfl⟩] at hcount
    rw [h.own hown, Job.handle] at hne ⊢
    dsimp only at hne ⊢
    rw [if_neg hne]
    exact ⟨hforeground, by omega⟩
  · rw [if_neg fun h => hown h.1] at hcount
    rw [h.other hown]
    exact ⟨hforeground, by omega⟩

theorem last_report (hpoint : t.point = .wait r)
    (hover : ¬ ((t.job r).status = .FOREGROUND ∧ 0 < (t.job r).numProcessesAlive))
    (hrun : system.exec t (waitpids reports) = some t') : reports = [] ∧ t' = t := by
  cases reports with
  | nil =>
    cases hrun
    exact ⟨rfl, rfl⟩
  | cons report reports =>
    obtain ⟨u, hu, -⟩ := Option.bind_eq_some_iff.mp hrun
    exact absurd (waitpid_next hpoint hu) hover

theorem stopped_cons {c : Child} (hc : s.child.lookup pid = some c) (hfinds : Finds s r)
    (h : Handled s r pid status c t) (hgo : c.job ≠ r ∨ ∃ code, status = .exited code) :
    Stopped s r ((pid, status) :: reports) ↔ Stopped t r reports := by
  constructor
  · rintro ⟨pid', signal, hmem, hof⟩
    rcases List.mem_cons.mp hmem with heq | hmem
    · obtain ⟨rfl, rfl⟩ := Prod.mk.inj heq
      rcases hgo with hne | ⟨code, hexited⟩
      · exact absurd ((hfinds.found _ c hc).mp hof) hne
      · cases hexited
    · refine ⟨pid', signal, hmem, ?_⟩
      rwa [Of, h.lookup]
  · rintro ⟨pid', signal, hmem, hof⟩
    refine ⟨pid', signal, List.mem_cons_of_mem _ hmem, ?_⟩
    rwa [Of, h.lookup] at hof

theorem killedLast_cons {c : Child} (hc : s.child.lookup pid = some c) (hfinds : Finds s r)
    (h : Handled s r pid status c t) (hgo : c.job ≠ r ∨ ∃ code, status = .exited code) :
    KilledLast s r ((pid, status) :: reports) ↔ KilledLast t r reports := by
  have hafter : ∀ pid' c', t.child.lookup pid' = some c' ↔
      s.child.lookup pid' = some c' ∧ (status.final = true → pid' ≠ pid) := by
    intro pid' c'
    rw [h.child, afterReport]
    by_cases hfinal : status.final = true
    · rw [if_pos hfinal, lookup_erase_eq_some]
      constructor
      · rintro ⟨hne, hs⟩
        exact ⟨hs, fun _ => hne⟩
      · rintro ⟨hs, hne⟩
        exact ⟨hne hfinal, hs⟩
    · rw [if_neg hfinal]
      exact ⟨fun hs => ⟨hs, fun hf => absurd hf hfinal⟩, fun hs => hs.1⟩
  constructor
  · rintro hlast before pid₁ signal after rfl hof pid' c' hc' hjob
    rw [Of, h.lookup] at hof
    obtain ⟨hs, hne⟩ := (hafter pid' c').mp hc'
    rcases hlast ((pid, status) :: before) pid₁ signal after rfl hof pid' c' hs hjob with
      heq | ⟨status', hfinal, hmem⟩
    · exact Or.inl heq
    · rcases List.mem_cons.mp hmem with heq | hmem
      · obtain ⟨rfl, rfl⟩ := Prod.mk.inj heq
        exact absurd rfl (hne hfinal)
      · exact Or.inr ⟨status', hfinal, hmem⟩
  · rintro hlast before pid₁ signal after heq hof pid' c' hs hjob
    cases before with
    | nil =>
      obtain ⟨hfirst, -⟩ := List.cons.inj heq
      obtain ⟨rfl, rfl⟩ := Prod.mk.inj hfirst
      rcases hgo with hne | ⟨code, hexited⟩
      · exact absurd ((hfinds.found _ c hc).mp hof) hne
      · cases hexited
    | cons report before =>
      obtain ⟨rfl, rfl⟩ := List.cons.inj heq
      by_cases hchild : ∃ c', t.child.lookup pid' = some c'
      · obtain ⟨c₁, hc₁⟩ := hchild
        obtain rfl : c₁ = c' := Option.some.inj (((hafter pid' c₁).mp hc₁).1.symm.trans hs)
        rcases hlast before pid₁ signal after rfl (by rwa [Of, h.lookup]) pid' c₁ hc₁ hjob with
          heq | ⟨status', hfinal, hmem⟩
        · exact Or.inl heq
        · exact Or.inr ⟨status', hfinal, List.mem_cons_of_mem _ hmem⟩
      · -- the process has been reaped by the first report
        have hreaped : status.final = true ∧ pid' = pid := by
          by_contra hnot
          refine hchild ⟨c', (hafter pid' c').mpr ⟨hs, fun hfinal heq => hnot ⟨hfinal, heq⟩⟩⟩
        obtain ⟨hfinal, rfl⟩ := hreaped
        exact Or.inr ⟨status, hfinal, List.mem_cons_self⟩

theorem killedLast_single {c : Child} {signal : Nat} (hc : s.child.lookup pid = some c)
    (hfinds : Finds s r) (hjob : c.job = r) (h : Handled s r pid (.signaled signal) c t) :
    KilledLast s r [(pid, .signaled signal)] ↔ unreaped t r = 0 := by
  have hchild : t.child = s.child.erase pid := h.child
  rw [unreaped, hchild, count_eq_zero_iff]
  constructor
  · intro hlast pid' c' hc' hjob'
    obtain ⟨hne, hs⟩ := lookup_erase_eq_some.mp hc'
    rcases hlast [] pid signal [] rfl ((hfinds.found pid c hc).mpr hjob) pid' c' hs hjob' with
      heq | ⟨status', -, hmem⟩
    · exact hne heq
    · cases hmem
  · intro hnone before pid₁ signal₁ after heq hof pid' c' hs hjob'
    cases before with
    | nil =>
      obtain ⟨hfirst, -⟩ := List.cons.inj heq
      obtain ⟨rfl, -⟩ := Prod.mk.inj hfirst
      by_contra hnot
      exact hnone pid' c' (lookup_erase_eq_some.mpr ⟨fun heq => hnot (Or.inl heq), hs⟩) hjob'
    | cons report before =>
      have hlength := congrArg List.length heq
      simp only [List.length_cons, List.length_append, List.length_nil] at hlength
      omega

theorem killedLast_other (hnot : ∀ signal, status ≠ .signaled signal) :
    KilledLast s r [(pid, status)] := by
  intro before pid₁ signal after heq
  exfalso
  have hmem : (pid₁, WaitStatus.signaled signal) ∈ [(pid, status)] := by
    rw [heq]
    exact List.mem_append_right _ List.mem_cons_self
  exact hnot signal (Prod.mk.inj (List.mem_singleton.mp hmem)).2.symm

/-- A run of the loop on a job in the foreground has seen one of its processes stop, or the last one
end, when it returns, just when none is killed while another one is left and the count has not run out
before the processes. -/
theorem loop_returned (hpoint : s.point = .wait r) (hfinds : Finds s r)
    (hforeground : (s.job r).status = .FOREGROUND)
    (hrun : system.exec s (waitpids reports) = some t) (hreturn : next t .step = some t')
    (hline : t'.point = .line) :
    Stopped s r reports ∨ unreaped t r = 0 ↔ KilledLast s r reports ∧
      (unreaped s r ≤ (s.job r).numProcessesAlive.toNat ∨ Stopped s r reports) := by
  induction reports generalizing s with
  | nil =>
    have hsame : s = t := Option.some.inj hrun
    subst hsame
    have hover := step_next hpoint hreturn hline
    have hzero : (s.job r).numProcessesAlive.toNat = 0 := by
      by_contra hne
      exact hover ⟨hforeground, by omega⟩
    have hlast : KilledLast s r [] := by
      intro before pid signal after heq
      cases before <;> cases heq
    rw [hzero, Nat.le_zero, or_comm]
    exact ⟨fun h => ⟨hlast, h⟩, And.right⟩
  | cons report reports ih =>
    obtain ⟨pid, status⟩ := report
    obtain ⟨u, hu, hrest⟩ := Option.bind_eq_some_iff.mp hrun
    obtain ⟨c, hc, hhandled⟩ := handled_next hfinds hu
    obtain ⟨-, halive⟩ := waitpid_next hpoint hu
    have hpoint' := hhandled.point.trans hpoint
    by_cases hgo : c.job ≠ r ∨ (∃ code, status = .exited code) ∧ (u.job r).numProcessesAlive ≠ 0
    · have hweak : c.job ≠ r ∨ ∃ code, status = .exited code := hgo.imp_right And.left
      obtain ⟨hforeground', hcount⟩ := loop_next hforeground halive hc hhandled hgo
      rw [stopped_cons hc hfinds hhandled hweak, killedLast_cons hc hfinds hhandled hweak, ← hcount]
      exact ih hpoint' (hhandled.finds hfinds) hforeground' hrest
    · have hjob : c.job = r := by
        by_contra hne
        exact hgo (Or.inl hne)
      have hown := hhandled.own hjob
      have hcount := unreaped_handled (r := r) hc hhandled
      cases status with
      | stopped signal =>
        have hstatus : (u.job r).status = stoppedStatus signal := by
          rw [hown, Job.handle]
        obtain ⟨rfl, rfl⟩ := last_report hpoint'
          (fun hloop => stoppedStatus_ne signal (hstatus.symm.trans hloop.1)) hrest
        have hstopped : Stopped s r [(pid, .stopped signal)] :=
          ⟨pid, signal, List.mem_cons_self, (hfinds.found pid c hc).mpr hjob⟩
        exact ⟨fun _ => ⟨killedLast_other fun _ h => WaitStatus.noConfusion h, Or.inr hstopped⟩,
          fun _ => Or.inl hstopped⟩
      | exited code =>
        have hzero : (u.job r).numProcessesAlive = 0 := by
          by_contra hne
          exact hgo (Or.inr ⟨⟨code, rfl⟩, hne⟩)
        obtain ⟨rfl, rfl⟩ := last_report hpoint' (fun hloop => by omega) hrest
        have hone : (s.job r).numProcessesAlive = 1 := by
          rw [hown, Job.handle] at hzero
          dsimp only at hzero
          omega
        rw [if_pos ⟨hjob, rfl⟩] at hcount
        have hexits : unreaped t r = 0 ↔ unreaped s r ≤ (s.job r).numProcessesAlive.toNat := by
          rw [hone]
          omega
        have hlast : KilledLast s r [(pid, .exited code)] :=
          killedLast_other fun _ h => WaitStatus.noConfusion h
        rw [or_comm, hexits]
        exact ⟨fun h => ⟨hlast, h⟩, And.right⟩
      | signaled signal =>
        have hstatus : (u.job r).status = signaledStatus signal := by
          rw [hown, Job.handle]
        obtain ⟨rfl, rfl⟩ := last_report hpoint'
          (fun hloop => signaledStatus_ne signal (hstatus.symm.trans hloop.1)) hrest
        have hrunning : ¬ Stopped s r [(pid, .signaled signal)] := by
          rintro ⟨pid', signal', hmem, -⟩
          cases List.mem_singleton.mp hmem
        rw [if_pos ⟨hjob, rfl⟩] at hcount
        rw [killedLast_single hc hfinds hjob hhandled]
        exact ⟨fun h => ⟨h.resolve_left hrunning, Or.inl (by have := h.resolve_left hrunning; omega)⟩,
          fun h => Or.inr h.1⟩

theorem hasStop_nil : ¬ HasStop [] := fun ⟨_, hmem⟩ => absurd hmem List.not_mem_nil

theorem heard_none (h : handled s e = none) : heard s r e = [] := by
  rw [heard, h]

theorem heard_some {q : Nat} (h : handled s e = some (status, q)) :
    heard s r e = if q = r then [status] else [] := by
  rw [heard, h]

theorem handled_lost (hreport : Event.report e = some (pid, status))
    (hlost : ∀ q, getJobFromPid s.job pid s.jobList ≠ .found q) : handled s e = none := by
  rw [handled, hreport]
  dsimp only
  split
  · rename_i q hfound
    exact absurd hfound (hlost q)
  · rfl

theorem heard_reap (hreport : Event.report e = some (pid, status))
    (h : reap s pid status = some t) (hforeground : (t.job r).status = .FOREGROUND) :
    (s.job r).status = .FOREGROUND ∧ ¬ HasStop (heard s r e) := by
  rw [reap] at h
  split at h
  · cases h
  · cases h
    unfold handleChildStatus at hforeground
    split at hforeground
    · rename_i habsent
      have hlost : getJobFromPid s.job pid s.jobList = .absent := habsent
      rw [heard_none (handled_lost hreport fun q hq => by rw [hlost] at hq; cases hq)]
      exact ⟨hforeground, hasStop_nil⟩
    · rename_i hwild
      have hlost : getJobFromPid s.job pid s.jobList = .wild := hwild
      rw [heard_none (handled_lost hreport fun q hq => by rw [hlost] at hq; cases hq)]
      exact ⟨hforeground, hasStop_nil⟩
    · rename_i q hfound
      rw [heard_some (s := s) (handled_eq hreport hfound)]
      change (Function.update s.job q ((s.job q).handle s.tty status) r).status = _ at hforeground
      by_cases hq : r = q
      · subst hq
        rw [Function.update_self] at hforeground
        rw [if_pos rfl]
        cases status with
        | stopped signal => exact absurd hforeground (stoppedStatus_ne signal)
        | signaled signal => exact absurd hforeground (signaledStatus_ne signal)
        | exited code =>
          rw [Job.handle] at hforeground
          dsimp only at hforeground
          split_ifs at hforeground
          refine ⟨hforeground, ?_⟩
          rintro ⟨signal, hmem⟩
          cases List.mem_singleton.mp hmem
      · rw [Function.update_of_ne hq] at hforeground
        rw [if_neg (Ne.symm hq)]
        exact ⟨hforeground, hasStop_nil⟩

/-- On the way to the wait nothing but a report takes the job out of the foreground for good, and
nothing puts it back there. -/
theorem entering_next (hentering : entering s.point = some r) (h : next s e = some t)
    (hforeground : (t.job r).status = .FOREGROUND) :
    (s.job r).status = .FOREGROUND ∧ ¬ HasStop (heard s r e) := by
  cases hreport : Event.report e with
  | some report => exact heard_reap hreport (reap_of_next hreport h) hforeground
  | none =>
    have hnone : handled s e = none := by
      rw [handled, hreport]
    rw [heard_none hnone]
    refine ⟨?_, hasStop_nil⟩
    have hrun : run s e = some t ∨ t.job = s.job := by
      unfold next at h
      split at h
      · cases hreport
      · split_ifs at h
        cases h
        exact Or.inr rfl
      · exact Or.inl h
    rcases hrun with hrun | hsame
    · unfold entering at hentering
      unfold run at hrun
      split at hentering
      · rename_i q k hpoint
        cases hentering
        rw [hpoint] at hrun
        change launchTurn s r k e = _ at hrun
        unfold launchTurn at hrun
        split at hrun
        · split at hrun
          · unfold spawnCommand at hrun
            dsimp only at hrun
            split at hrun
            · rename_i hsuccess
              split_ifs at hrun
              cases hrun
              change (Function.update s.job r (spawned (s.job r) k _) r).status = _ at hforeground
              rw [Function.update_self, spawned, if_pos hsuccess] at hforeground
              split_ifs at hforeground <;> exact hforeground
            · rename_i hfailure
              cases hrun
              change (Function.update s.job r (spawned (s.job r) k _) r).status = _ at hforeground
              rw [Function.update_self, spawned, if_neg hfailure] at hforeground
              cases hforeground
          · cases hrun
        · split at hrun
          · cases hrun
            exact hforeground
          · cases hrun
      · rename_i q k pid hpoint
        cases hentering
        rw [hpoint] at hrun
        dsimp only at hrun
        split_ifs at hrun
        cases hrun
        change (Function.update s.job r (recorded (s.job r) pid) r).status = _ at hforeground
        rwa [Function.update_self] at hforeground
      · rename_i q k hpoint
        cases hentering
        rw [hpoint] at hrun
        dsimp only at hrun
        split_ifs at hrun
        cases hrun
        change (Function.update s.job r (counted (s.job r)) r).status = _ at hforeground
        rwa [Function.update_self] at hforeground
      · rename_i q hpoint
        cases hentering
        rw [hpoint] at hrun
        dsimp only at hrun
        split_ifs at hrun
        cases hrun
        exact hforeground
      · cases hentering
    · rwa [← hsame]

theorem entered_foreground {seen : List WaitStatus} (h : Entered r s seen)
    (hforeground : (s.job r).status = .FOREGROUND) : ¬ HasStop seen := by
  induction h with
  | start => exact hasStop_nil
  | step _ hentering _ hnext ih =>
    obtain ⟨hbefore, hheard⟩ := entering_next hentering hnext hforeground
    rintro ⟨signal, hmem⟩
    rcases List.mem_append.mp hmem with hmem | hmem
    · exact ih hbefore ⟨signal, hmem⟩
    · exact hheard ⟨signal, hmem⟩

/-- `wait_for_job` returns with a process of the job stopped, since it was put in the foreground, or the
last one reaped, in just these cases. If the job is in the foreground when it begins to wait: no process
is killed while another one is left, and the count does not run out before the processes unless one
stops. If not: one has stopped already, or none is left. -/
theorem returned_iff {seen : List WaitStatus} (hentered : Entered r s seen)
    (hpoint : s.point = .wait r) (hfinds : Finds s r)
    (hrun : system.exec s (waitpids reports) = some t) (hreturn : next t .step = some t')
    (hline : t'.point = .line) :
    HasStop seen ∨ Stopped s r reports ∨ unreaped t r = 0 ↔
      ((s.job r).status = .FOREGROUND ∧ KilledLast s r reports ∧
          (unreaped s r ≤ (s.job r).numProcessesAlive.toNat ∨ Stopped s r reports)) ∨
        (s.job r).status ≠ .FOREGROUND ∧ (HasStop seen ∨ unreaped s r = 0) := by
  by_cases hforeground : (s.job r).status = .FOREGROUND
  · have hnot := entered_foreground hentered hforeground
    have hloop := loop_returned hpoint hfinds hforeground hrun hreturn hline
    simp only [hnot, false_or, hforeground, true_and, ne_eq, not_true_eq_false, false_and, or_false]
    exact hloop
  · -- The loop is not entered.
    obtain ⟨rfl, rfl⟩ := last_report hpoint (fun hloop => hforeground hloop.1) hrun
    have hnone : ¬ Stopped t r [] := fun ⟨_, _, hmem, _⟩ => absurd hmem List.not_mem_nil
    simp only [hforeground, false_and, false_or, ne_eq, not_false_eq_true, true_and, hnone]

end Steps

section Calls

variable {s t : State} {e : Event} {r : Nat}

/-- The shell launches the job, which is to run in the foreground, or has just resumed it. -/
def Underway (s : State) (r : Nat) : Prop :=
  s.point = .block r ∨ entering s.point = some r ∧ (s.job r).pipe.bgJob = false

theorem Underway.entering (h : Underway s r) : Waiting.entering s.point = some r := by
  rcases h with hpoint | ⟨hentering, -⟩
  · rw [hpoint]
    rfl
  · exact hentering

theorem handleBuiltin_entering {command : Command} (h : handleBuiltin s command e = some t) :
    entering t.point = none := by
  unfold handleBuiltin at h
  split_ifs at h
  · unfold doFg at h
    split at h <;> cases h <;> rfl
  · unfold doBg at h
    split at h <;> cases h <;> rfl
  · cases h
    rfl
  · unfold doStop at h
    split at h
    · cases h
      rfl
    · rename_i success _
      cases h
      cases success <;> rfl
    · cases h
  · unfold doKill at h
    split at h
    · cases h
      rfl
    · rename_i success _
      cases h
      cases success <;> rfl
    · cases h
  · cases h
    rfl
  · cases h
    rfl

/-- The job has just been put in the foreground, at the start of the way to the wait. -/
def Starts (s : State) (r : Nat) : Prop :=
  (s.point = .spawn r 0 ∨ s.point = .block r) ∧ (s.job r).status = .FOREGROUND

theorem setStatus_status {status : Status} {p : Point} :
    (((s.setStatus r status).goto p).job r).status = status := by
  change (Function.update s.job r { s.job r with status := status } r).status = _
  rw [Function.update_self]

theorem underway_keep (hunder : Underway t r) (hpoint : t.point = s.point)
    (hpipe : ∀ q, (t.job q).pipe = (s.job q).pipe) : Underway s r := by
  rwa [Underway, hpoint, hpipe] at hunder

theorem underway_reap {pid : Int} {status : WaitStatus} (h : reap s pid status = some t)
    (hunder : Underway t r) : Underway s r := by
  rw [reap] at h
  split at h
  · cases h
  · cases h
    have hentering := hunder.entering
    unfold handleChildStatus at hunder hentering
    split at hunder
    · exact underway_keep hunder rfl fun _ => rfl
    · rename_i hwild
      rw [hwild] at hentering
      cases hentering
    · exact underway_keep hunder rfl (update_pipe (handle_pipe ..))

theorem underway_write {job : Job} {p : Point} {q : Nat}
    (hunder : Underway ((s.setJob q job).goto p) r) (hentering : entering s.point = some q)
    (hp : entering p = some q) (hjob : job.pipe = (s.job q).pipe) (hblock : p ≠ .block r) :
    Underway s r := by
  rcases hunder with hpoint | ⟨hentering', hpipe⟩
  · exact absurd hpoint hblock
  · obtain rfl : q = r := Option.some.inj (hp.symm.trans hentering')
    refine Or.inr ⟨hentering, ?_⟩
    rw [← hpipe]
    exact congrArg Pipeline.bgJob (update_pipe hjob q).symm

theorem underway_launch {q k : Nat} (hpoint : s.point = .spawn q k)
    (h : launchTurn s q k e = some t) (hunder : Underway t r) : Underway s r := by
  have hentering : entering s.point = some q := by
    rw [hpoint]
    rfl
  unfold launchTurn at h
  split at h
  · split at h
    · unfold spawnCommand at h
      dsimp only at h
      split at h
      · split at h
        · cases h
        · cases h
          have hsame : Underway ((s.setJob q (spawned (s.job q) k _)).goto (.record q k _)) r :=
            underway_keep hunder rfl fun _ => rfl
          exact underway_write hsame hentering rfl (spawned_pipe ..) (by intro heq; cases heq)
      · cases h
        have hsame : Underway ((s.setJob q (spawned (s.job q) k _)).goto (.record q k _)) r :=
          underway_keep hunder rfl fun _ => rfl
        exact underway_write hsame hentering rfl (spawned_pipe ..) (by intro heq; cases heq)
    · cases h
  · split at h
    · cases h
      cases hbg : (s.job q).pipe.bgJob with
      | true =>
        have hnone := hunder.entering
        rw [hbg] at hnone
        cases hnone
      | false =>
        have hsome := hunder.entering
        rw [hbg] at hsome
        obtain rfl : q = r := Option.some.inj hsome
        exact Or.inr ⟨hentering, hbg⟩
    · cases h

theorem underway_run (h : run s e = some t) (hunder : Underway t r) :
    Underway s r ∨ Starts t r := by
  have hentering := hunder.entering
  have hnone : entering t.point = none → Underway s r ∨ Starts t r := fun hn => by
    rw [hn] at hentering
    cases hentering
  unfold run at h
  split at h
  · unfold readEval at h
    split at h
    · cases h
      split_ifs at hentering hnone hunder ⊢
      · exact Or.inl hunder
      · cases hentering
    · cases h
      cases hentering
    · cases h
  · unfold handleCommandLine at h
    split at h
    · split_ifs at h
      cases h
      cases hentering
    · split_ifs at h
      · exact hnone (handleBuiltin_entering h)
      · split at h
        · cases h
          cases hentering
        · cases h
  · split_ifs at h
    cases h
    unfold numberJob at hentering
    split at hentering <;> cases hentering
  · split_ifs at h
    cases h
    cases hentering
  · rename_i q hpoint
    split_ifs at h
    cases h
    have hjob : entering (startJob s q).point = some q := by
      unfold startJob
      split_ifs <;> rfl
    obtain rfl : q = r := Option.some.inj (hjob.symm.trans hentering)
    unfold startJob at hunder ⊢
    split_ifs at hunder ⊢ with hbg
    · rcases hunder with hblock | ⟨-, hpipe⟩
      · cases hblock
      · change (Function.update s.job q { s.job q with status := .BACKGROUND, savedTtyState := s.tty } q).pipe.bgJob = _ at hpipe
        rw [Function.update_self] at hpipe
        exact absurd hbg (by rw [hpipe]; exact Bool.false_ne_true)
    · exact Or.inr ⟨Or.inl rfl, setStatus_status⟩
  · rename_i q k hpoint
    exact Or.inl (underway_launch hpoint h hunder)
  · rename_i q k pid hpoint
    split_ifs at h
    cases h
    exact Or.inl (underway_write hunder (by rw [hpoint]; rfl) rfl rfl nofun)
  · rename_i q k hpoint
    split_ifs at h
    cases h
    exact Or.inl (underway_write hunder (by rw [hpoint]; rfl) rfl rfl nofun)
  · rename_i q hpoint
    split at h
    · rename_i success
      cases h
      cases success <;> cases hentering
    · cases h
  · rename_i q hpoint
    split_ifs at h
    cases h
    obtain rfl : q = r := Option.some.inj hentering
    exact Or.inr ⟨Or.inr rfl, setStatus_status⟩
  · split at h
    · cases h
      cases hentering
    · cases h
  · split_ifs at h
    cases h
    cases hentering
  · split_ifs at h
    cases h
    cases hentering
  · split_ifs at h
    cases h
    cases hentering
  · rename_i q hpoint
    unfold waitForJob at h
    split at h
    · split at h
      · exact Or.inl (underway_reap h hunder)
      · split_ifs at h
        cases h
        cases hentering
      · cases h
    · split_ifs at h
      cases h
      cases hentering
  · split_ifs at h
    cases h
    cases hentering
  · rename_i q rest hpoint
    split_ifs at h
    cases h
    unfold visitJob at hentering
    split at hentering
    · unfold deleteJob at hentering
      dsimp only at hentering
      split_ifs at hentering
      · cases hentering
      · split at hentering <;> cases hentering
    · cases hentering
  · cases h

theorem underway_next (h : next s e = some t) (hunder : Underway t r) :
    Underway s r ∨ Starts t r := by
  unfold next at h
  split at h
  · split_ifs at h
    exact Or.inl (underway_reap h hunder)
  · split_ifs at h
    cases h
    exact Or.inl (underway_keep hunder rfl fun _ => rfl)
  · exact underway_run h hunder

theorem found_of_known (h : ReachableBy system Known s) (hknown : Known s e) {pid : Int}
    {status : WaitStatus} {c : Child} (hlive : s.point.isHalted = false)
    (hreport : Event.report e = some (pid, status)) (hc : s.child.lookup pid = some c) :
    Of s r pid ↔ c.job = r := by
  obtain ⟨hbase, hinv⟩ := known_invariant h
  obtain ⟨pids, hpids, hin⟩ := hknown.recorded _ hreport c hc
  have hfound := lookup_recorded hbase hc ((hinv hlive).1 pid c hc) hpids hin hlive
  rw [Of, hfound]
  exact ⟨Lookup.found.inj, congrArg Lookup.found⟩

theorem entered_of_known (h : ReachableBy system Known s) (hunder : Underway s r) :
    ∃ seen, Entered r s seen := by
  induction h with
  | start hinit =>
    obtain ⟨-, -, -, hpoint, -⟩ := hinit
    have hentering := hunder.entering
    rw [hpoint] at hentering
    cases hentering
  | step hreach hknown hnext ih =>
    rcases underway_next hnext hunder with hbefore | ⟨hpoint, hforeground⟩
    · obtain ⟨seen, hentered⟩ := ih hbefore
      refine ⟨_, hentered.step hbefore.entering ?_ hnext⟩
      rintro ⟨pid, status⟩ hreport c hc
      exact found_of_known hreach hknown (live_of_next hnext) hreport hc
    · exact ⟨[], .start hpoint hforeground⟩

theorem finds_of_known (h : ReachableBy system Known s) (hpoint : s.point = .wait r) :
    Finds s r := by
  obtain ⟨hbase, hinv⟩ := known_invariant h
  have hlive : s.point.isHalted = false := by
    rw [hpoint]
    rfl
  refine ⟨fun pid c hc => ?_, fun pid hwild => ?_⟩
  · have hfound := lookup_child hbase hc ((hinv hlive).1 pid c hc)
      (fun k hk => by rw [hpoint] at hk; cases hk) hlive
    rw [Of, hfound]
    exact ⟨Lookup.found.inj, congrArg Lookup.found⟩
  · obtain ⟨q, hq, hnone⟩ := lookup_wild hwild
    rcases hbase.initialised q hq hnone with hp | hp | hp <;> rw [hpoint] at hp <;> cases hp

theorem counted_of_known (h : ReachableBy system Known s) (hpoint : s.point = .wait r)
    (hforeground : (s.job r).status = .FOREGROUND) :
    (s.job r).numProcessesAlive = unreaped s r := by
  obtain ⟨hbase, hinv⟩ := known_invariant h
  have hlive : s.point.isHalted = false := by
    rw [hpoint]
    rfl
  have hlisted : r ∈ s.jobList := by
    have hused := hbase.used
    rw [hpoint] at hused
    exact hused.subset (List.mem_singleton_self r)
  have hexact := (hinv hlive).2 r hlisted
  have hcount := hexact.count (hexact.foreground hforeground)
  have hpending : (view s r).pending = 0 := by
    rw [view, hpoint]
    rfl
  rw [hpending] at hcount
  exact (Int.add_zero _).symm.trans hcount

theorem called_of_known (h : ReachableBy system Known s) (hknown : Known s .step)
    (hpoint : s.point = .block r) (hnext : next s .step = some t) :
    ∃ seen, Entered r t seen ∧ t.point = .wait r ∧ Finds t r := by
  have hunder : Underway s r := Or.inl hpoint
  obtain ⟨seen, hentered⟩ := entered_of_known h hunder
  have hwait : t.point = .wait r := by
    have hrun : run s .step = some t := hnext
    unfold run at hrun
    rw [hpoint] at hrun
    cases hrun
    rfl
  exact ⟨_, hentered.step hunder.entering (fun report hreport => by cases hreport) hnext, hwait,
    finds_of_known (.step h hknown hnext) hwait⟩

end Calls

section Samples

/-- `a | b` up to the call of `wait_for_job`. -/
def pairLine : List Event :=
  adding (words "a" ["b"] false) ++ starting 0 ++ starting 1 ++ [.step]

theorem pair_called : ∃ s t seen, system.exec start pairLine = some s ∧ next s .step = some t ∧
    Reachable system t ∧ Entered 0 t seen ∧ t.point = .wait 0 ∧ Finds t 0 ∧
      (t.job 0).status = .FOREGROUND := by
  have hrun : ((system.restrict Known).exec start pairLine).map
      (fun s => (s.point, decide (Known s .step), (next s .step).map fun t => (t.job 0).status)) =
      some (.block 0, true, some .FOREGROUND) := by
    decide
  obtain ⟨s, hs, hobs⟩ := Option.map_eq_some_iff.mp hrun
  simp only [Prod.mk.injEq] at hobs
  obtain ⟨hpoint, hknown, hnext⟩ := hobs
  obtain ⟨t, ht, hstatus⟩ := Option.map_eq_some_iff.mp hnext
  have hinit : (system.restrict Known).init start := start_init
  have hreach := ReachableBy.of_restrict (Reachable.exec (.start hinit) hs)
  obtain ⟨seen, hentered, hwait, hfinds⟩ :=
    called_of_known hreach (of_decide_eq_true hknown) hpoint ht
  have hfree : Reachable system s := hreach.mono fun _ _ _ => trivial
  have hafter : system.next s .step = some t := ht
  exact ⟨s, t, seen, System.exec_of_restrict hs, ht, hfree.step trivial hafter, hentered, hwait,
    hfinds, hstatus⟩

/-- `a` exits, and then `b` is terminated. -/
theorem returned_iff_sample : ∃ s t t' seen, Entered 0 s seen ∧
    system.exec s (waitpids [(10, .exited 0), (11, .signaled SIGTERM)]) = some t ∧
    next t .step = some t' ∧ t'.point = .line ∧
      (HasStop seen ∨ Stopped s 0 [(10, .exited 0), (11, .signaled SIGTERM)] ∨ unreaped t 0 = 0 ↔
        ((s.job 0).status = .FOREGROUND ∧
          KilledLast s 0 [(10, .exited 0), (11, .signaled SIGTERM)] ∧
          (unreaped s 0 ≤ (s.job 0).numProcessesAlive.toNat ∨
            Stopped s 0 [(10, .exited 0), (11, .signaled SIGTERM)])) ∨
        (s.job 0).status ≠ .FOREGROUND ∧ (HasStop seen ∨ unreaped s 0 = 0)) := by
  obtain ⟨s₀, s, seen, hs₀, hs, -, hentered, hwait, hfinds, -⟩ := pair_called
  have hrun : ((system.exec start pairLine).bind fun s₀ => (next s₀ .step).bind fun s =>
      (system.exec s (waitpids [(10, .exited 0), (11, .signaled SIGTERM)])).bind fun t =>
        (next t .step).map State.point) = some .line := by
    decide
  rw [hs₀, Option.bind_some, hs, Option.bind_some] at hrun
  obtain ⟨t, ht, hrest⟩ := Option.bind_eq_some_iff.mp hrun
  obtain ⟨t', ht', hline⟩ := Option.map_eq_some_iff.mp hrest
  exact ⟨s, t, t', seen, hentered, ht, ht', hline,
    returned_iff hentered hwait hfinds ht ht' hline⟩

/-- `a` is terminated, and `b` runs on. -/
theorem terminated_returns : ¬ ∀ s r seen reports t t', Reachable system s → Entered r s seen →
    s.point = .wait r → system.exec s (waitpids reports) = some t → next t .step = some t' →
    t'.point = .line → HasStop seen ∨ Stopped s r reports ∨ unreaped t r = 0 := by
  intro hall
  obtain ⟨s₀, s, seen, hs₀, hs, hreach, hentered, hwait, -, hforeground⟩ := pair_called
  have hrun : ((system.exec start pairLine).bind fun s₀ => (next s₀ .step).bind fun s =>
      (system.exec s (waitpids [(10, .signaled SIGTERM)])).bind fun t =>
        (next t .step).map fun t' => (t'.point, unreaped t 0)) = some (.line, 1) := by
    decide
  rw [hs₀, Option.bind_some, hs, Option.bind_some] at hrun
  obtain ⟨t, ht, hrest⟩ := Option.bind_eq_some_iff.mp hrun
  obtain ⟨t', ht', hobs⟩ := Option.map_eq_some_iff.mp hrest
  obtain ⟨hline, hone⟩ := Prod.mk.inj hobs
  rcases hall s 0 seen _ t t' hreach hentered hwait ht ht' hline with hstop | hstopped | hzero
  · exact entered_foreground hentered hforeground hstop
  · obtain ⟨pid, signal, hmem, -⟩ := hstopped
    cases (Prod.mk.inj (List.mem_singleton.mp hmem)).2
  · rw [hzero] at hone
    cases hone

end Samples

end ComputerSystems.Cush.Waiting
