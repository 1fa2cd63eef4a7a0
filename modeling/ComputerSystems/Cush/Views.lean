/- One job along a run: its status, its counter and its processes. -/

import ComputerSystems.Cush.Bookkeeping

set_option autoImplicit false
set_option relaxedAutoImplicit false

namespace ComputerSystems.Cush.Views

open ComputerSystems.Pserv.Strings (ascii)
open ComputerSystems.Systems.Runs
open ComputerSystems.Systems.Tables
open ComputerSystems.Cush.Ast
open ComputerSystems.Cush.Jobs
open ComputerSystems.Cush.Launching
open ComputerSystems.Cush.Shell
open ComputerSystems.Cush.Steps
open ComputerSystems.Cush.Bookkeeping

def unreaped (s : State) (r : Nat) : Nat :=
  s.child.count fun c => c.job = r

/-- What matters of a job for its deletion. `pending` is `1` from a call of `posix_spawnp` to the
`num_processes_alive++` that belongs to it. -/
structure View where
  status : Status
  alive : Int
  unreaped : Nat
  failures : Nat
  pending : Nat
  started : Bool

def view (s : State) (r : Nat) : View where
  status := (s.job r).status
  alive := (s.job r).numProcessesAlive
  unreaped := unreaped s r
  failures := s.failures r
  pending := if uncounted s.point = some r then 1 else 0
  started := unstarted s.point ≠ some r

/-- `handle_child_status` on the status and the counter. -/
def View.handle (v : View) : WaitStatus → View
  | .stopped signal => { v with status := stoppedStatus signal }
  | .exited _ => { v with alive := v.alive - 1, status := if v.alive - 1 = 0 then .EXITED else v.status }
  | .signaled signal => { v with alive := v.alive - 1, status := signaledStatus signal }

def View.reap (v : View) (status : WaitStatus) : View :=
  { v with unreaped := v.unreaped - if status.final then 1 else 0 }

inductive Change (s : State) (e : Event) (r : Nat) : View → View → Prop where
  | same {v : View} : Change s e r v v
  | prepared {v : View} {status : Status} : status = .BACKGROUND ∨ status = .FOREGROUND →
      v.started = false → v.failures = 0 → Change s e r v { v with status := status }
  | spawned {v : View} {k : Nat} {result : SpawnResult} : e = .spawn result →
      s.point = .spawn r k → result.success = true → v.pending = 0 →
      Change s e r v { v with unreaped := v.unreaped + 1, pending := 1, started := true }
  | failed {v : View} {k : Nat} {result : SpawnResult} : e = .spawn result →
      s.point = .spawn r k → result.success = false →
      Change s e r v
        { v with failures := v.failures + 1, status := .DNE, pending := 1, started := true }
  | counted {v : View} : v.pending = 1 →
      Change s e r v { v with alive := v.alive + 1, pending := 0 }
  | written {v : View} {status : Status} : e = .step → Writes s r status →
      Change s e r v { v with status := status }
  | reported {v : View} {pid : Int} {c : Child} {status : WaitStatus} :
      Event.report e = some (pid, status) → s.child.lookup pid = some c → c.job = r →
      getJobFromPid s.job pid s.jobList = .found r → 0 < v.unreaped →
      Change s e r v ((v.handle status).reap status)
  | missed {v : View} {pid : Int} {c : Child} {status : WaitStatus} :
      Event.report e = some (pid, status) → s.child.lookup pid = some c → c.job = r →
      getJobFromPid s.job pid s.jobList ≠ .found r → status.final = true →
      Change s e r v (v.reap status)
  | foreign {v : View} {pid : Int} {c : Child} {status : WaitStatus} :
      Event.report e = some (pid, status) → s.child.lookup pid = some c → c.job ≠ r →
      getJobFromPid s.job pid s.jobList = .found r → Change s e r v (v.handle status)

/-- The result of the call of `posix_spawnp` in a step, with the job. -/
def spawning (s : State) : Event → Option (SpawnResult × Nat)
  | .spawn result =>
    match s.point with
    | .spawn r _ => some (result, r)
    | _ => none
  | _ => none

/-- The status that a built-in command writes in a step, with the job. -/
def writing (s : State) : Event → Option (Status × Nat)
  | .step =>
    match s.point with
    | .foreground r => some (.FOREGROUND, r)
    | .stop r => some (.STOPPED, r)
    | .kill r => some (.KILLED, r)
    | .line =>
      match s.pipes with
      | [] => none
      | pipe :: _ =>
        if pipe.front.name = ascii "bg" then
          (jobArgument s pipe.front.argv).map fun r => (.BACKGROUND, r)
        else none
    | _ => none
  | _ => none

/-- The status that `handle_child_status` handles in a step, with the job that it finds. -/
def handled (s : State) (e : Event) : Option (WaitStatus × Nat) :=
  match Event.report e with
  | none => none
  | some (pid, status) =>
    match getJobFromPid s.job pid s.jobList with
    | .found r => some (status, r)
    | _ => none

/-- Every process belongs to a job that is in the list. -/
def Kept (s : State) : Prop :=
  ∀ pid c, s.child.lookup pid = some c → c.job ∈ s.jobList

structure New (v : View) : Prop where
  alive : v.alive = 0
  unreaped : v.unreaped = 0
  failures : v.failures = 0
  pending : v.pending = 0
  started : v.started = false

section Events

variable {s : State} {e : Event} {r k : Nat}

theorem spawning_eq {result : SpawnResult} (hpoint : s.point = .spawn r k) :
    spawning s (.spawn result) = some (result, r) := by
  rw [spawning, hpoint]

theorem writing_eq {status : Status} (h : Writes s r status) :
    writing s .step = some (status, r) := by
  rw [writing]
  cases h with
  | foreground hpoint => rw [hpoint]
  | bg hpoint hpipes hname hjob =>
    rw [hpoint, hpipes]
    dsimp only
    rw [if_pos hname, hjob]
    rfl
  | stop hpoint => rw [hpoint]
  | kill hpoint => rw [hpoint]

theorem handled_eq {pid : Int} {status : WaitStatus} (hreport : Event.report e = some (pid, status))
    (hfound : getJobFromPid s.job pid s.jobList = .found r) : handled s e = some (status, r) := by
  rw [handled, hreport]
  dsimp only
  rw [hfound]

instance : Decidable (Distinct s e) :=
  decidable_of_iff (∀ call ∈ spawning s e, call.1.success = true →
      ∀ r' ∈ s.jobList, r' ≠ call.2 → ∀ pids ∈ (s.job r').pids, call.1.pid ∉ pids) <| by
    constructor
    · intro h result r k he hpoint
      exact h (result, r) (he ▸ spawning_eq hpoint)
    · intro h call hcall
      unfold spawning at hcall
      split at hcall
      · split at hcall
        · obtain rfl := Option.some.inj hcall
          exact h _ _ _ rfl ‹_›
        · cases hcall
      · cases hcall

end Events

section Reports

variable {s s' : State} {e : Event} {r : Nat} {pid : Int} {status : WaitStatus} {c : Child}

theorem unreaped_pos (hc : s.child.lookup pid = some c) : 0 < unreaped s c.job :=
  count_pos hc rfl

theorem count_afterReport (hc : s.child.lookup pid = some c) :
    (afterReport s pid status).count (fun c => c.job = r) +
      (if c.job = r ∧ status.final = true then 1 else 0) = unreaped s r := by
  rw [afterReport]
  by_cases hfinal : status.final = true
  · rw [if_pos hfinal]
    simp only [hfinal, and_true]
    exact count_erase hc
  · rw [if_neg hfinal, if_neg (fun h => hfinal h.2)]
    rfl

theorem view_handle {tty : Termios} (hpoint : s'.point = s.point)
    (hjob : s'.job r = (s.job r).handle tty status) (hfailures : s'.failures = s.failures) :
    view s' r = { (view s r).handle status with unreaped := unreaped s' r } := by
  rw [view, view, hjob, hpoint, hfailures]
  cases status <;> rfl

theorem view_keep (hpoint : s'.point = s.point) (hjob : s'.job r = s.job r)
    (hfailures : s'.failures = s.failures) :
    view s' r = { view s r with unreaped := unreaped s' r } := by
  rw [view, view, hjob, hpoint, hfailures]

end Reports

section Changes

variable {s s' : State} {e : Event} {r k : Nat}

theorem unstarted_none {p : Point} (h : launching p = none) : unstarted p = none := by
  cases hp : unstarted p with
  | none => rfl
  | some r =>
    rw [launching_of_unstarted hp] at h
    cases h

theorem launching_of_uncounted {p : Point} (h : uncounted p = some r) : launching p = some r := by
  unfold uncounted at h
  split at h <;> first | exact h | cases h

theorem uncounted_none {p : Point} (h : launching p = none) : uncounted p = none := by
  cases hp : uncounted p with
  | none => rfl
  | some r =>
    rw [launching_of_uncounted hp] at h
    cases h

theorem leaves_points (h : Leaves s s') (hlive : s'.point.isHalted = false) :
    uncounted s.point = none ∧ unstarted s.point = none ∧ uncounted s'.point = none ∧
      unstarted s'.point = none := by
  refine ⟨?_, ?_, uncounted_none h.launching, unstarted_none h.launching⟩
  · rcases h.origin with hnone | ⟨r, k, hpoint⟩ | ⟨-, hhalted⟩
    · exact uncounted_none hnone
    · rw [hpoint]
      rfl
    · rw [hlive] at hhalted
      cases hhalted
  · rcases h.origin with hnone | ⟨r, k, hpoint⟩ | ⟨-, hhalted⟩
    · exact unstarted_none hnone
    · rw [hpoint]
      rfl
    · rw [hlive] at hhalted
      cases hhalted

theorem change_of_same (hsame : Same s s') (hu : uncounted s'.point = uncounted s.point)
    (hn : unstarted s'.point = unstarted s.point) : Change s e r (view s r) (view s' r) := by
  have hview : view s' r = view s r := by
    rw [view, view, unreaped, unreaped, hsame.job, hsame.child, hsame.failures, hu, hn]
  rw [hview]
  exact .same

/-- A step that launches the job `r` does not change the other ones. -/
theorem view_other {q : Nat} (hq : q ≠ r) (hl : launching s.point = some r)
    (hl' : launching s'.point = some r) (hjob : s'.job q = s.job q)
    (hunreaped : unreaped s' q = unreaped s q) (hfailures : s'.failures q = s.failures q) :
    view s' q = view s q := by
  have hnot : ∀ {p}, launching p = some r → uncounted p ≠ some q ∧ unstarted p ≠ some q := by
    intro p hp
    constructor
    · intro h
      rw [launching_of_uncounted h, Option.some_inj] at hp
      exact hq hp
    · intro h
      rw [launching_of_unstarted h, Option.some_inj] at hp
      exact hq hp
  obtain ⟨hu, hn⟩ := hnot hl
  obtain ⟨hu', hn'⟩ := hnot hl'
  rw [view, view, hjob, hunreaped, hfailures, if_neg hu, if_neg hu', decide_eq_true hn,
    decide_eq_true hn']

theorem change_other {q : Nat} (hq : q ≠ r) (hl : launching s.point = some r)
    (hl' : launching s'.point = some r) (hjob : s'.job q = s.job q)
    (hunreaped : unreaped s' q = unreaped s q) (hfailures : s'.failures q = s.failures q) :
    Change s e q (view s q) (view s' q) := by
  rw [view_other hq hl hl' hjob hunreaped hfailures]
  exact .same

theorem unreaped_insert {pid : Int} {c : Child} (h : s.child.lookup pid = none)
    (hchild : s'.child = s.child.insert pid c) :
    unreaped s' r = unreaped s r + if c.job = r then 1 else 0 := by
  rw [unreaped, hchild]
  exact count_insert h

theorem view_eq {v : View} (hstatus : (s.job r).status = v.status)
    (halive : (s.job r).numProcessesAlive = v.alive) (hunreaped : unreaped s r = v.unreaped)
    (hfailures : s.failures r = v.failures)
    (hpending : (if uncounted s.point = some r then 1 else 0) = v.pending)
    (hstarted : decide (unstarted s.point ≠ some r) = v.started) : view s r = v := by
  rw [view, hstatus, halive, hunreaped, hfailures, hpending, hstarted]

theorem status_update {job : Nat → Job} {new : Job} :
    (Function.update job r new r).status = new.status := by
  rw [Function.update_self]

theorem alive_update {job : Nat → Job} {new : Job} :
    (Function.update job r new r).numProcessesAlive = new.numProcessesAlive := by
  rw [Function.update_self]

theorem new_pushed (hbase : Base s) {pipe : Pipeline} {pipes : CommandLine} {fresh : Job} :
    New (view (pushJob { s with pipes := pipes } pipe fresh) s.allocated) := by
  have hjob : (pushJob { s with pipes := pipes } pipe fresh).job s.allocated =
      { fresh with pipe := pipe, numProcessesAlive := 0, pids := none } :=
    Function.update_self ..
  have hnone : unreaped s s.allocated = 0 := by
    refine count_eq_zero_iff.mpr fun pid c hc hjob => ?_
    have hlt := hbase.owner pid c hc
    omega
  exact ⟨congrArg Job.numProcessesAlive hjob, hnone, hbase.fresh _ (Nat.le_refl _), rfl,
    decide_eq_false fun h => h rfl⟩

theorem change_pushed {pipe : Pipeline} {pipes : CommandLine} {fresh : Job}
    (hpoint : s.point = .line) (hr : r ≠ s.allocated) :
    Change s e r (view s r) (view (pushJob { s with pipes := pipes } pipe fresh) r) := by
  have hjob : (pushJob { s with pipes := pipes } pipe fresh).job r = s.job r :=
    Function.update_of_ne hr _ _
  have hnot : some s.allocated ≠ some r := fun h => hr (Option.some.inj h).symm
  have hstarted : unstarted s.point ≠ some r := by
    rw [hpoint]
    exact nofun
  have hview : view (pushJob { s with pipes := pipes } pipe fresh) r = view s r := by
    refine view_eq (congrArg Job.status hjob) (congrArg Job.numProcessesAlive hjob) rfl rfl ?_ ?_
    · rw [view, hpoint]
      rfl
    · exact (decide_eq_true hnot).trans (decide_eq_true hstarted).symm
  rw [hview]
  exact .same

theorem change_spawned (hpoint : s.point = .spawn r k) {result : SpawnResult}
    (hsuccess : result.success = true) (hfresh : s.child.lookup result.pid = none) {q : Nat} :
    Change s (.spawn result) q (view s q)
      (view (((spawnProcess s r (spawnAttr (s.job r) k) result).setJob r
        (Launching.spawned (s.job r) k result)).goto (.record r k result.pid)) q) := by
  by_cases hq : q = r
  · subst hq
    have hjob : Function.update s.job q (Launching.spawned (s.job q) k result) q =
        Launching.spawned (s.job q) k result := Function.update_self ..
    have hkeep : (Launching.spawned (s.job q) k result).status = (s.job q).status ∧
        (Launching.spawned (s.job q) k result).numProcessesAlive = (s.job q).numProcessesAlive := by
      rw [Launching.spawned, if_pos hsuccess]
      split_ifs <;> exact ⟨rfl, rfl⟩
    have hview : view (((spawnProcess s q (spawnAttr (s.job q) k) result).setJob q
        (Launching.spawned (s.job q) k result)).goto (.record q k result.pid)) q =
        { view s q with unreaped := (view s q).unreaped + 1, pending := 1, started := true } :=
      view_eq ((congrArg Job.status hjob).trans hkeep.1)
        ((congrArg Job.numProcessesAlive hjob).trans hkeep.2)
        ((unreaped_insert hfresh rfl).trans (congrArg _ (if_pos rfl))) rfl (if_pos rfl) rfl
    rw [hview]
    refine .spawned rfl hpoint hsuccess ?_
    rw [view, hpoint]
    rfl
  · refine change_other hq (by rw [hpoint]; rfl) rfl (Function.update_of_ne hq _ _) ?_ rfl
    exact (unreaped_insert hfresh rfl).trans (congrArg _ (if_neg (Ne.symm hq)))

theorem change_failed (hpoint : s.point = .spawn r k) {result : SpawnResult}
    (hfailure : result.success = false) {q : Nat} :
    Change s (.spawn result) q (view s q)
      (view { s.setJob r { s.job r with status := .DNE } with
        failures := Function.update s.failures r (s.failures r + 1)
        point := .record r k result.pid } q) := by
  by_cases hq : q = r
  · subst hq
    have hview : view { s.setJob q { s.job q with status := .DNE } with
        failures := Function.update s.failures q (s.failures q + 1)
        point := .record q k result.pid } q =
        { view s q with
          failures := (view s q).failures + 1, status := .DNE, pending := 1, started := true } :=
      view_eq status_update alive_update rfl (Function.update_self ..) (if_pos rfl) rfl
    rw [hview]
    exact .failed rfl hpoint hfailure
  · exact change_other hq (by rw [hpoint]; rfl) rfl (Function.update_of_ne hq _ _) rfl
      (Function.update_of_ne hq _ _)

theorem change_counted (hpoint : s.point = .count r k) {q : Nat} :
    Change s e q (view s q)
      (view ((s.setJob r (Launching.counted (s.job r))).goto (.spawn r (k + 1))) q) := by
  by_cases hq : q = r
  · subst hq
    have hstarted : true = (view s q).started := by
      rw [view, hpoint]
      rfl
    have hview : view ((s.setJob q (Launching.counted (s.job q))).goto (.spawn q (k + 1))) q =
        { view s q with alive := (view s q).alive + 1, pending := 0 } :=
      view_eq status_update alive_update rfl rfl rfl hstarted
    rw [hview]
    refine .counted ?_
    rw [view, hpoint]
    exact if_pos rfl
  · exact change_other hq (by rw [hpoint]; rfl) rfl (Function.update_of_ne hq _ _) rfl rfl

theorem change_launching {q : Nat} {new : Job} (hl : launching s.point = some r)
    (hl' : launching s'.point = some r) (hjob : s'.job = Function.update s.job r new)
    (hstatus : new.status = (s.job r).status)
    (halive : new.numProcessesAlive = (s.job r).numProcessesAlive) (hchild : s'.child = s.child)
    (hfailures : s'.failures = s.failures) (hu : uncounted s'.point = uncounted s.point)
    (hn : unstarted s'.point = unstarted s.point) : Change s e q (view s q) (view s' q) := by
  have hunreaped : unreaped s' q = unreaped s q := congrArg (Table.count · _) hchild
  by_cases hq : q = r
  · subst hq
    have hself : s'.job q = new := by
      rw [hjob, Function.update_self]
    rw [view_eq (v := view s q) ((congrArg Job.status hself).trans hstatus)
      ((congrArg Job.numProcessesAlive hself).trans halive) hunreaped (congrFun hfailures q)
      (by rw [view, hu]) (by rw [view, hn])]
    exact .same
  · exact change_other hq hl hl' (by rw [hjob, Function.update_of_ne hq]) hunreaped
      (congrFun hfailures q)

theorem change_started (hbase : Base s) (hpoint : s.point = .initialised r) {q : Nat} :
    Change s e q (view s q) (view (startJob s r) q) := by
  have hzero := (hbase.unstarted r (by rw [hpoint]; rfl)).1
  have hpoint' : (startJob s r).point = .spawn r 0 := by
    rw [startJob]
    split_ifs <;> rfl
  have hchild : (startJob s r).child = s.child := by
    rw [startJob]
    split_ifs <;> rfl
  have hfailures : (startJob s r).failures = s.failures := by
    rw [startJob]
    split_ifs <;> rfl
  have hunreaped : unreaped (startJob s r) q = unreaped s q := congrArg (Table.count · _) hchild
  by_cases hq : q = r
  · subst hq
    obtain ⟨status, hstatus, hnew⟩ : ∃ status, (status = .BACKGROUND ∨ status = .FOREGROUND) ∧
        ((startJob s q).job q).status = status ∧
          ((startJob s q).job q).numProcessesAlive = (s.job q).numProcessesAlive := by
      rw [startJob]
      split_ifs
      · exact ⟨.BACKGROUND, Or.inl rfl, status_update, alive_update⟩
      · exact ⟨.FOREGROUND, Or.inr rfl, status_update, alive_update⟩
    rw [view_eq (v := { view s q with status := status }) hnew.1 hnew.2 hunreaped
      (congrFun hfailures q) (by rw [view, hpoint, hpoint']; rfl) (by rw [view, hpoint, hpoint']; rfl)]
    refine .prepared hstatus ?_ hzero
    rw [view, hpoint]
    exact decide_eq_false fun h => h rfl
  · refine change_other hq (by rw [hpoint]; rfl) (by rw [hpoint']; rfl) ?_ hunreaped
      (congrFun hfailures q)
    rw [startJob]
    split_ifs <;> exact Function.update_of_ne hq _ _

theorem change_written {status : Status} (hwrites : Writes s r status) (he : e = .step)
    (hsame : Same (s.setStatus r status) s') (hleaves : Leaves s s')
    (hlive : s'.point.isHalted = false) {q : Nat} : Change s e q (view s q) (view s' q) := by
  obtain ⟨hu, hn, hu', hn'⟩ := leaves_points hleaves hlive
  have hunreaped : unreaped s' q = unreaped s q := congrArg (Table.count · _) hsame.child
  by_cases hq : q = r
  · subst hq
    have hjob : s'.job q = { s.job q with status := status } := by
      rw [hsame.job]
      exact Function.update_self ..
    have hview : view s' q = { view s q with status := status } := by
      rw [view, view, hjob, hunreaped, congrFun hsame.failures q, hu, hu', hn, hn']
      rfl
    rw [hview]
    exact .written he hwrites
  · have hjob : s'.job q = s.job q := by
      rw [hsame.job]
      exact Function.update_of_ne hq _ _
    rw [view_eq (v := view s q) (congrArg Job.status hjob) (congrArg Job.numProcessesAlive hjob)
      hunreaped (congrFun hsame.failures q) (by rw [view, hu, hu']) (by rw [view, hn, hn'])]
    exact .same

theorem change_missed {pid : Int} {status : WaitStatus} {c : Child} {n : Nat}
    (hreport : Event.report e = some (pid, status)) (hc : s.child.lookup pid = some c)
    (hnot : getJobFromPid s.job pid s.jobList ≠ .found r)
    (hcount : n + (if c.job = r ∧ status.final = true then 1 else 0) = unreaped s r) :
    Change s e r (view s r) { view s r with unreaped := n } := by
  by_cases hmissed : c.job = r ∧ status.final = true
  · have hreap : { view s r with unreaped := n } = (view s r).reap status := by
      have hsame : n = (view s r).unreaped - if status.final = true then 1 else 0 := by
        rw [if_pos hmissed] at hcount
        rw [if_pos hmissed.2, show (view s r).unreaped = unreaped s r from rfl]
        omega
      rw [hsame, View.reap]
    rw [hreap]
    exact .missed hreport hc hmissed.1 hnot hmissed.2
  · rw [if_neg hmissed, Nat.add_zero] at hcount
    rw [hcount]
    exact .same

theorem change_reported {pid : Int} {status : WaitStatus} {c : Child}
    (hreport : Event.report e = some (pid, status)) (hc : s.child.lookup pid = some c)
    (hfound : getJobFromPid s.job pid s.jobList = .found r)
    {due : Nat → Option Termios} (hsame : Same { s.setJob r ((s.job r).handle s.tty status) with
      child := afterReport s pid status
      due := due } s')
    (hpoint : s'.point = s.point) {q : Nat} : Change s e q (view s q) (view s' q) := by
  have hcount : (afterReport s pid status).count (fun c => c.job = q) + _ = unreaped s q :=
    count_afterReport hc
  rw [← show s'.child = afterReport s pid status from hsame.child] at hcount
  change unreaped s' q + _ = _ at hcount
  have hfailures : s'.failures q = s.failures q := congrFun hsame.failures q
  by_cases hq : q = r
  · subst hq
    have hjob : s'.job q = (s.job q).handle s.tty status := by
      rw [hsame.job]
      exact Function.update_self ..
    have hview := view_handle hpoint hjob hsame.failures
    by_cases hcq : c.job = q
    · have hpos : 0 < unreaped s q := hcq ▸ unreaped_pos hc
      have hreap : view s' q = ((view s q).handle status).reap status := by
        rw [hview, View.reap]
        have hsame : unreaped s' q =
            ((view s q).handle status).unreaped - if status.final = true then 1 else 0 := by
          rw [show ((view s q).handle status).unreaped = unreaped s q by cases status <;> rfl]
          simp only [hcq, true_and] at hcount
          omega
        rw [hsame]
      rw [hreap]
      exact .reported hreport hc hcq hfound hpos
    · have hkeep : view s' q = (view s q).handle status := by
        rw [if_neg (fun h => hcq h.1), Nat.add_zero] at hcount
        rw [hview, hcount]
        cases status <;> rfl
      rw [hkeep]
      exact .foreign hreport hc hcq hfound
  · have hjob : s'.job q = s.job q := by
      rw [hsame.job]
      exact Function.update_of_ne hq _ _
    rw [view_keep hpoint hjob hsame.failures]
    have hnot : getJobFromPid s.job pid s.jobList ≠ .found q := by
      rw [hfound]
      exact fun h => hq (Lookup.found.inj h).symm
    exact change_missed hreport hc hnot hcount

theorem change_of_move (hbase : Base s) (hmove : Move s e s') (hlive : s'.point.isHalted = false)
    (hr : r ∈ s'.jobList) :
    r ∈ s.jobList ∧ Change s e r (view s r) (view s' r) ∨ r ∉ s.jobList ∧ New (view s' r) := by
  cases hmove with
  | quiet hsame hpoint =>
    rw [hsame.jobList] at hr
    rcases hpoint with hpoint | hleaves
    · exact Or.inl ⟨hr, change_of_same hsame (by rw [hpoint]) (by rw [hpoint])⟩
    · obtain ⟨hu, hn, hu', hn'⟩ := leaves_points hleaves hlive
      exact Or.inl ⟨hr, change_of_same hsame (by rw [hu, hu']) (by rw [hn, hn'])⟩
  | pushed hpoint =>
    rcases List.mem_append.mp hr with hr | hr
    · exact Or.inl ⟨hr, change_pushed hpoint (hbase.allocated r hr).ne⟩
    · obtain rfl := List.mem_singleton.mp hr
      exact Or.inr ⟨fun h => (hbase.allocated _ h).ne rfl, new_pushed hbase⟩
  | numbered hpoint =>
    exact Or.inl ⟨hr, change_launching (by rw [hpoint]; rfl) rfl rfl rfl rfl rfl rfl
      (by rw [hpoint]; rfl) (by rw [hpoint]; rfl)⟩
  | initialised hpoint =>
    exact Or.inl ⟨hr, change_launching (by rw [hpoint]; rfl) rfl rfl rfl rfl rfl rfl
      (by rw [hpoint]; rfl) (by rw [hpoint]; rfl)⟩
  | @started r' hpoint =>
    have hlist : (startJob s r').jobList = s.jobList := by
      rw [startJob]
      split_ifs <;> rfl
    exact Or.inl ⟨hlist ▸ hr, change_started hbase hpoint⟩
  | spawned hpoint hsuccess hfresh => exact Or.inl ⟨hr, change_spawned hpoint hsuccess hfresh⟩
  | failed hpoint hfailure => exact Or.inl ⟨hr, change_failed hpoint hfailure⟩
  | recorded hpoint =>
    exact Or.inl ⟨hr, change_launching (by rw [hpoint]; rfl) rfl rfl rfl rfl rfl rfl
      (by rw [hpoint]; rfl) (by rw [hpoint]; rfl)⟩
  | counted hpoint => exact Or.inl ⟨hr, change_counted hpoint⟩
  | written hwrites _ _ hsame hleaves =>
    rw [hsame.jobList] at hr
    exact Or.inl ⟨hr, change_written hwrites rfl hsame hleaves hlive⟩
  | reported hreport hc hfound hsame hpoint =>
    rw [hsame.jobList] at hr
    exact Or.inl ⟨hr, change_reported hreport hc hfound hsame hpoint⟩
  | lost hreport hc habsent hsame hpoint =>
    rw [hsame.jobList] at hr
    refine Or.inl ⟨hr, ?_⟩
    rw [view_keep hpoint (congrFun hsame.job r) hsame.failures]
    refine change_missed hreport hc (by simp [habsent]) ?_
    rw [unreaped, hsame.child]
    exact count_afterReport hc
  | wild _ _ _ _ _ hwild =>
    rw [hwild] at hlive
    cases hlive
  | @removed r' i rest hpoint =>
    have hr' : r ∈ s.jobList := List.mem_of_mem_erase hr
    have hne : r ≠ r' := by
      rintro rfl
      exact List.Nodup.not_mem_erase (hbase.sorted.imp Nat.ne_of_lt) hr
    refine Or.inl ⟨hr', ?_⟩
    have hjob : Function.update s.job r' { s.job r' with jid := -1 } r = s.job r :=
      Function.update_of_ne hne _ _
    have hview : view { s.setJob r' { s.job r' with jid := -1 } with
        jobList := s.jobList.erase r'
        jid2job := Function.update s.jid2job i none
        point := .deleting rest } r = view s r := by
      refine view_eq (congrArg Job.status hjob) (congrArg Job.numProcessesAlive hjob) rfl rfl ?_ ?_
      · rw [view, hpoint]
        rfl
      · rw [view, hpoint]
        rfl
    rw [hview]
    exact .same

end Changes

section Processes

variable {s s' : State} {e : Event}

theorem kept_sub (hkept : Kept s) (hlist : s'.jobList = s.jobList)
    (hsub : ∀ pid c, s'.child.lookup pid = some c → s.child.lookup pid = some c) : Kept s' := by
  intro pid c hc
  rw [hlist]
  exact hkept pid c (hsub pid c hc)

theorem kept_same (hkept : Kept s) (hsame : Same s s') : Kept s' :=
  kept_sub hkept hsame.jobList fun _ _ hc => hsame.child ▸ hc

theorem kept_move (hbase : Base s) (hkept : Kept s)
    (hdead : ∀ r rest, e = .step → s.point = .deleting (r :: rest) →
      toDeleteJob (s.job r).status = true → unreaped s r = 0)
    (hmove : Move s e s') : Kept s' := by
  cases hmove with
  | quiet hsame => exact kept_same hkept hsame
  | pushed =>
    intro pid c hc
    exact List.mem_append_left _ (hkept pid c hc)
  | numbered => exact kept_sub hkept rfl fun _ _ hc => hc
  | initialised => exact kept_sub hkept rfl fun _ _ hc => hc
  | started =>
    unfold startJob
    split_ifs <;> exact kept_sub hkept rfl fun _ _ hc => hc
  | @spawned r k result hpoint =>
    have hlisted : r ∈ s.jobList := launching_mem hbase (by rw [hpoint]; rfl)
    intro pid c hc
    rcases lookup_insert_eq_some.mp hc with ⟨-, rfl⟩ | ⟨-, hc⟩
    · exact hlisted
    · exact hkept pid c hc
  | failed => exact kept_sub hkept rfl fun _ _ hc => hc
  | recorded => exact kept_sub hkept rfl fun _ _ hc => hc
  | counted => exact kept_sub hkept rfl fun _ _ hc => hc
  | written _ _ _ hsame => exact kept_sub hkept hsame.jobList fun _ _ hc => hsame.child ▸ hc
  | reported _ _ _ hsame =>
    exact kept_sub hkept hsame.jobList fun _ _ hc => afterReport_sub (hsame.child ▸ hc)
  | lost _ _ _ hsame =>
    exact kept_sub hkept hsame.jobList fun _ _ hc => afterReport_sub (hsame.child ▸ hc)
  | wild _ _ _ _ hsame =>
    exact kept_sub hkept hsame.jobList fun _ _ hc => afterReport_sub (hsame.child ▸ hc)
  | removed hpoint hdelete =>
    intro pid c hc
    have hnone := count_eq_zero_iff.mp (hdead _ _ rfl hpoint hdelete) pid c hc
    exact (List.mem_erase_of_ne hnone).mpr (hkept pid c hc)

/-- Only a turn of the loop of `delete_all_finished_jobs` removes a job. -/
theorem removed_of_move {r : Nat} (hmove : Move s e s') (hr : r ∈ s.jobList)
    (hgone : r ∉ s'.jobList) : e = .step ∧ toDeleteJob (s.job r).status = true ∧
      ∃ rest, s.point = .deleting (r :: rest) := by
  cases hmove with
  | quiet hsame => exact absurd (hsame.jobList ▸ hr) hgone
  | pushed => exact absurd (List.mem_append_left _ hr) hgone
  | numbered => exact absurd hr hgone
  | initialised => exact absurd hr hgone
  | started =>
    refine absurd ?_ hgone
    unfold startJob
    split_ifs <;> exact hr
  | spawned => exact absurd hr hgone
  | failed => exact absurd hr hgone
  | recorded => exact absurd hr hgone
  | counted => exact absurd hr hgone
  | written _ _ _ hsame => exact absurd (hsame.jobList ▸ hr) hgone
  | reported _ _ _ hsame => exact absurd (hsame.jobList ▸ hr) hgone
  | lost _ _ _ hsame => exact absurd (hsame.jobList ▸ hr) hgone
  | wild _ _ _ _ hsame => exact absurd (hsame.jobList ▸ hr) hgone
  | @removed r' i rest hpoint hdelete =>
    by_cases hne : r = r'
    · subst hne
      exact ⟨rfl, hdelete, rest, hpoint⟩
    · exact absurd ((List.mem_erase_of_ne hne).mpr hr) hgone

theorem kept_init (h : system.init s) : Kept s := by
  intro pid c hc
  rw [h.2.2.2.2.1] at hc
  cases hc

end Processes

section Invariants

variable {ok : State → Event → Prop} {P : View → Prop} {s : State}

theorem view_invariant (hok : ∀ s e, ok s e → Distinct s e) (hnew : ∀ v, New v → P v)
    (hchange : ∀ s e r v', Base s → s.point.isHalted = false → (∀ q ∈ s.jobList, P (view s q)) →
      ok s e → r ∈ s.jobList → Change s e r (view s r) v' → P v')
    (h : ReachableBy system ok s) :
    Base s ∧ (s.point.isHalted = false → ∀ r ∈ s.jobList, P (view s r)) := by
  refine h.invariant (P := fun s => Base s ∧ (s.point.isHalted = false →
    ∀ r ∈ s.jobList, P (view s r))) ?_ ?_
  · intro s hinit
    refine ⟨base_init hinit, fun _ r hr => ?_⟩
    rw [hinit.1] at hr
    cases hr
  · rintro s e s' ⟨hbase, hall⟩ hstep hnext
    refine ⟨base_next hbase (hok s e hstep) hnext, fun hlive r hr => ?_⟩
    rcases change_of_move hbase (next_move hbase hnext) hlive hr with ⟨hlisted, hchanged⟩ | ⟨-, hv⟩
    · exact hchange s e r _ hbase (live_of_next hnext) (hall (live_of_next hnext)) hstep hlisted
        hchanged
    · exact hnew _ hv

theorem kept_invariant (hok : ∀ s e, ok s e → Distinct s e) (hnew : ∀ v, New v → P v)
    (hdead : ∀ s r rest, Base s → (∀ q ∈ s.jobList, P (view s q)) → ok s .step →
      s.point = .deleting (r :: rest) → toDeleteJob (s.job r).status = true → unreaped s r = 0)
    (hchange : ∀ s e r v', Base s → Kept s → s.point.isHalted = false →
      (∀ q ∈ s.jobList, P (view s q)) → ok s e → r ∈ s.jobList →
      Change s e r (view s r) v' → P v')
    (h : ReachableBy system ok s) :
    Base s ∧ (s.point.isHalted = false → Kept s ∧ ∀ r ∈ s.jobList, P (view s r)) := by
  refine h.invariant (P := fun s => Base s ∧ (s.point.isHalted = false →
    Kept s ∧ ∀ r ∈ s.jobList, P (view s r))) ?_ ?_
  · intro s hinit
    refine ⟨base_init hinit, fun _ => ⟨kept_init hinit, fun r hr => ?_⟩⟩
    rw [hinit.1] at hr
    cases hr
  · rintro s e s' ⟨hbase, hall⟩ hstep hnext
    obtain ⟨hkept, hviews⟩ := hall (live_of_next hnext)
    have hmove := next_move hbase hnext
    refine ⟨base_next hbase (hok s e hstep) hnext, fun hlive => ⟨?_, fun r hr => ?_⟩⟩
    · refine kept_move hbase hkept (fun r rest he hpoint hdelete => ?_) hmove
      subst he
      exact hdead s r rest hbase hviews hstep hpoint hdelete
    · rcases change_of_move hbase hmove hlive hr with ⟨hlisted, hchanged⟩ | ⟨-, hv⟩
      · exact hchange s e r _ hbase hkept (live_of_next hnext) hviews hstep hlisted hchanged
      · exact hnew _ hv

end Invariants

end ComputerSystems.Cush.Views
