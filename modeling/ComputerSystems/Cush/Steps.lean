/- What a step of the shell does to the jobs and the children, and what holds of both in every run. -/

import ComputerSystems.Cush.Shell

set_option autoImplicit false
set_option relaxedAutoImplicit false

namespace ComputerSystems.Cush.Steps

open ComputerSystems.Pserv.Strings (ascii)
open ComputerSystems.Systems.Runs
open ComputerSystems.Systems.Tables
open ComputerSystems.Cush.Ast
open ComputerSystems.Cush.Jobs
open ComputerSystems.Cush.Launching
open ComputerSystems.Cush.Shell

/-- The job that `add_job` or `handle_job` is busy with. -/
def launching : Point → Option Nat
  | .added r => some r
  | .numbered r => some r
  | .initialised r => some r
  | .spawn r _ => some r
  | .record r _ _ => some r
  | .count r _ => some r
  | _ => none

def unstarted : Point → Option Nat
  | .added r => some r
  | .numbered r => some r
  | .initialised r => some r
  | .spawn r 0 => some r
  | _ => none

def uncounted : Point → Option Nat
  | .record r _ _ => some r
  | .count r _ => some r
  | _ => none

def used : Point → List Nat
  | .fg r => [r]
  | .foreground r => [r]
  | .bg r => [r]
  | .stop r => [r]
  | .kill r => [r]
  | .block r => [r]
  | .wait r => [r]
  | .deleting e => e
  | p => (launching p).toList

/-- The status that `waitpid` reports. -/
def Event.report : Event → Option (Int × WaitStatus)
  | .handler pid status => some (pid, status)
  | .waitpid pid status => some (pid, status)
  | _ => none

structure Same (s s' : State) : Prop where
  jobList : s'.jobList = s.jobList
  jid2job : s'.jid2job = s.jid2job
  job : s'.job = s.job
  child : s'.child = s.child
  allocated : s'.allocated = s.allocated
  failures : s'.failures = s.failures
  due : s'.due = s.due

inductive Writes (s : State) : Nat → Status → Prop where
  | foreground {r : Nat} : s.point = .foreground r → Writes s r .FOREGROUND
  | bg {r : Nat} {pipe : Pipeline} {pipes : CommandLine} : s.point = .line → s.pipes = pipe :: pipes →
      pipe.front.name = ascii "bg" → jobArgument s pipe.front.argv = some r →
      Writes s r .BACKGROUND
  | stop {r : Nat} : s.point = .stop r → Writes s r .STOPPED
  | kill {r : Nat} : s.point = .kill r → Writes s r .KILLED

structure Leaves (s s' : State) : Prop where
  origin : launching s.point = none ∨ (∃ r k, s.point = .spawn r (k + 1)) ∨
    (∃ r, s.point = .added r) ∧ s'.point.isHalted = true
  launching : launching s'.point = none
  used : (used s'.point).Sublist s.jobList
  tame : s'.point ≠ .halted .wild

def afterReport (s : State) (pid : Int) (status : WaitStatus) : Table Int Child :=
  if status.final then s.child.erase pid else s.child

inductive Move (s : State) : Event → State → Prop where
  | quiet {e : Event} {s' : State} : Same s s' → (s'.point = s.point ∨ Leaves s s') → Move s e s'
  | pushed {pipe : Pipeline} {pipes : CommandLine} {fresh : Job} : s.point = .line →
      Move s (.malloc fresh) (pushJob { s with pipes := pipes } pipe fresh)
  | numbered {r i : Nat} : s.point = .added r → freeJid s.jid2job = some i →
      Move s .step
        { s.setJob r { s.job r with jid := i } with
          jid2job := Function.update s.jid2job i (some r)
          point := .numbered r }
  | initialised {r : Nat} : s.point = .numbered r →
      Move s .step ((s.setJob r { s.job r with pids := some [] }).goto (.initialised r))
  | started {r : Nat} : s.point = .initialised r → Move s .step (startJob s r)
  | spawned {r k : Nat} {result : SpawnResult} : s.point = .spawn r k → result.success = true →
      s.child.lookup result.pid = none →
      Move s (.spawn result) (((spawnProcess s r (spawnAttr (s.job r) k) result).setJob r
        (Launching.spawned (s.job r) k result)).goto (.record r k result.pid))
  | failed {r k : Nat} {result : SpawnResult} : s.point = .spawn r k → result.success = false →
      Move s (.spawn result)
        { s.setJob r { s.job r with status := .DNE } with
          failures := Function.update s.failures r (s.failures r + 1)
          point := .record r k result.pid }
  | recorded {r k : Nat} {pid : Int} : s.point = .record r k pid →
      Move s .step ((s.setJob r (Launching.recorded (s.job r) pid)).goto (.count r k))
  | counted {r k : Nat} : s.point = .count r k →
      Move s .step ((s.setJob r (Launching.counted (s.job r))).goto (.spawn r (k + 1)))
  | written {r : Nat} {status : Status} {s' : State} : Writes s r status → r ∈ s.jobList →
      launching s.point = none → Same (s.setStatus r status) s' → Leaves s s' → Move s .step s'
  | reported {e : Event} {pid : Int} {status : WaitStatus} {c : Child} {r : Nat} {s' : State} :
      Event.report e = some (pid, status) → s.child.lookup pid = some c →
      getJobFromPid s.job pid s.jobList = .found r →
      Same { s.setJob r ((s.job r).handle s.tty status) with
        child := afterReport s pid status
        due := stoppedDue s c status } s' →
      s'.point = s.point → Move s e s'
  | lost {e : Event} {pid : Int} {status : WaitStatus} {c : Child} {s' : State} :
      Event.report e = some (pid, status) → s.child.lookup pid = some c →
      getJobFromPid s.job pid s.jobList = .absent →
      Same { s with child := afterReport s pid status, due := stoppedDue s c status } s' →
      s'.point = s.point → Move s e s'
  | wild {e : Event} {pid : Int} {status : WaitStatus} {c : Child} {r : Nat} {s' : State} :
      Event.report e = some (pid, status) → s.child.lookup pid = some c →
      getJobFromPid s.job pid s.jobList = .wild → s.point = .added r ∨ s.point = .numbered r →
      Same { s with child := afterReport s pid status, due := stoppedDue s c status } s' →
      s'.point = .halted .wild → Move s e s'
  | removed {r i : Nat} {rest : List Nat} : s.point = .deleting (r :: rest) →
      toDeleteJob (s.job r).status = true → (s.job r).jid = i → s.jid2job i = some r →
      Move s .step
        { s.setJob r { s.job r with jid := -1 } with
          jobList := s.jobList.erase r
          jid2job := Function.update s.jid2job i none
          point := .deleting rest }

/-- What holds of the jobs and the children in every run in which no process gets the number of a
process that another listed job has recorded. -/
structure Base (s : State) : Prop where
  sorted : s.jobList.Pairwise (· < ·)
  allocated : ∀ r ∈ s.jobList, r < s.allocated
  table : ∀ i r, s.jid2job i = some r → r ∈ s.jobList ∧ (s.job r).jid = i
  agree : ∀ r ∈ s.jobList, s.point = .added r ∨ s.point.isHalted = true ∨
    ∃ i, s.jid2job i = some r
  owner : ∀ pid c, s.child.lookup pid = some c → c.job < s.allocated
  used : (used s.point).Sublist s.jobList
  unnumbered : ∀ r, s.point = .added r → ∀ i, s.jid2job i ≠ some r
  last : ∀ r, launching s.point = some r → r + 1 = s.allocated
  unstarted : ∀ r, unstarted s.point = some r →
    s.failures r = 0 ∧ ∀ pid c, s.child.lookup pid = some c → c.job ≠ r
  fresh : ∀ r, s.allocated ≤ r → s.failures r = 0
  initialised : ∀ r ∈ s.jobList, (s.job r).pids = none →
    s.point = .added r ∨ s.point = .numbered r ∨ s.point.isHalted = true
  attributed : ∀ pid c, s.child.lookup pid = some c → ∀ r ∈ s.jobList, ∀ pids,
    (s.job r).pids = some pids → pid ∈ pids → r = c.job ∨ c.job < r ∧ 0 < s.failures r
  recorded : ∀ pid c, s.child.lookup pid = some c → c.job ∈ s.jobList →
    (∃ pids, (s.job c.job).pids = some pids ∧ pid ∈ pids) ∨ ∃ k, s.point = .record c.job k pid
  recording : ∀ r k pid, s.point = .record r k pid → ∀ c, s.child.lookup pid = some c →
    c.job = r ∨ 0 < s.failures r

/-- A process that is spawned does not have a number that another listed job has recorded. -/
def Distinct (s : State) (e : Event) : Prop :=
  ∀ result r k, e = .spawn result → s.point = .spawn r k → result.success = true →
    ∀ r' ∈ s.jobList, r' ≠ r → ∀ pids, (s.job r').pids = some pids → result.pid ∉ pids

section Lookups

variable {job : Nat → Job} {pid : Int} {l : List Nat} {r : Nat}

theorem lookup_found (h : getJobFromPid job pid l = .found r) :
    r ∈ l ∧ ∃ pids, (job r).pids = some pids ∧ pid ∈ pids := by
  induction l with
  | nil => cases h
  | cons r' l ih =>
    rw [getJobFromPid] at h
    cases hpids : (job r').pids with
    | none =>
      rw [hpids] at h
      cases h
    | some pids =>
      rw [hpids] at h
      dsimp only at h
      split_ifs at h with hmem
      · cases h
        exact ⟨List.mem_cons_self, pids, hpids, hmem⟩
      · exact ⟨List.mem_cons_of_mem r' (ih h).1, (ih h).2⟩

theorem lookup_wild (h : getJobFromPid job pid l = .wild) : ∃ r ∈ l, (job r).pids = none := by
  induction l with
  | nil => cases h
  | cons r' l ih =>
    rw [getJobFromPid] at h
    cases hpids : (job r').pids with
    | none => exact ⟨r', List.mem_cons_self, hpids⟩
    | some pids =>
      rw [hpids] at h
      dsimp only at h
      split_ifs at h with hmem
      obtain ⟨r, hr, hnone⟩ := ih h
      exact ⟨r, List.mem_cons_of_mem r' hr, hnone⟩

theorem lookup_of_mem (hsorted : l.Pairwise (· < ·)) (hr : r ∈ l) {pids : List Int}
    (hpids : (job r).pids = some pids) (hmem : pid ∈ pids)
    (hbefore : ∀ r' ∈ l, r' < r → ∃ pids, (job r').pids = some pids ∧ pid ∉ pids) :
    getJobFromPid job pid l = .found r := by
  induction l with
  | nil => cases hr
  | cons r' l ih =>
    rw [getJobFromPid]
    rcases List.mem_cons.mp hr with rfl | hr
    · rw [hpids]
      exact if_pos hmem
    · have hlt : r' < r := (List.pairwise_cons.mp hsorted).1 r hr
      obtain ⟨pids', hpids', hnot⟩ := hbefore r' List.mem_cons_self hlt
      rw [hpids']
      dsimp only
      rw [if_neg hnot]
      exact ih (List.pairwise_cons.mp hsorted).2 hr fun q hq => hbefore q (List.mem_cons_of_mem r' hq)

end Lookups

section Moves

variable {s s' : State} {e : Event} {pid : Int} {status : WaitStatus} {r k : Nat}

@[simp] theorem goto_point {p : Point} : (s.goto p).point = p := rfl

@[simp] theorem halt_point {how : Halt} : (s.halt how).point = .halted how := rfl

theorem same_goto (p : Point) : Same s (s.goto p) := ⟨rfl, rfl, rfl, rfl, rfl, rfl, rfl⟩

theorem move_same (hsame : Same s s') (htame : s'.point ≠ .halted .wild) (hnone : launching s.point = none)
    (hlaunching : launching s'.point = none) (hused : (used s'.point).Sublist s.jobList) :
    Move s e s' :=
  .quiet hsame (Or.inr ⟨Or.inl hnone, hlaunching, hused, htame⟩)

theorem move_halt (how : Halt) (htame : how ≠ .wild) (hnone : launching s.point = none) :
    Move s e (s.halt how) :=
  move_same (same_goto _) (fun h => htame (Point.halted.inj h)) hnone rfl (List.nil_sublist _)

theorem move_line (hnone : launching s.point = none) : Move s e (s.goto .line) :=
  move_same (same_goto _) nofun hnone rfl (List.nil_sublist _)

theorem reap_move (hbase : Base s) (hreport : Event.report e = some (pid, status))
    (hlive : s.point.isHalted = false) (h : reap s pid status = some s') : Move s e s' := by
  rw [reap] at h
  cases hchild : s.child.lookup pid with
  | none =>
    rw [hchild] at h
    cases h
  | some c =>
    rw [hchild] at h
    dsimp only at h
    rw [Option.some_inj] at h
    subst h
    rw [handleChildStatus]
    dsimp only
    cases hlookup : getJobFromPid s.job pid s.jobList with
    | absent => exact .lost hreport hchild hlookup ⟨rfl, rfl, rfl, rfl, rfl, rfl, rfl⟩ rfl
    | found r => exact .reported hreport hchild hlookup ⟨rfl, rfl, rfl, rfl, rfl, rfl, rfl⟩ rfl
    | wild =>
      obtain ⟨r, hr, hnone⟩ := lookup_wild hlookup
      rcases hbase.initialised r hr hnone with hpoint | hpoint | hpoint
      · exact .wild hreport hchild hlookup (Or.inl hpoint) ⟨rfl, rfl, rfl, rfl, rfl, rfl, rfl⟩ rfl
      · exact .wild hreport hchild hlookup (Or.inr hpoint) ⟨rfl, rfl, rfl, rfl, rfl, rfl, rfl⟩ rfl
      · rw [hlive] at hpoint
        cases hpoint

theorem jobArgument_mem (hbase : Base s) {argv : List Word} (h : jobArgument s argv = some r) :
    r ∈ s.jobList := by
  obtain ⟨arg, -, hjob⟩ := Option.bind_eq_some_iff.mp h
  rw [getJobFromJid] at hjob
  split_ifs at hjob
  exact (hbase.table _ r hjob).1

theorem doFg_move {argv : List Word} {pipes : CommandLine} (hbase : Base s)
    (hnone : launching s.point = none) (h : doFg { s with pipes := pipes } argv e = some s') : Move s e s' := by
  unfold doFg at h
  split at h
  · cases h
    exact move_same ⟨rfl, rfl, rfl, rfl, rfl, rfl, rfl⟩ nofun hnone rfl (List.nil_sublist _)
  · cases h
    exact move_same ⟨rfl, rfl, rfl, rfl, rfl, rfl, rfl⟩ nofun hnone rfl (List.nil_sublist _)
  · rename_i r hjob
    cases h
    exact move_same ⟨rfl, rfl, rfl, rfl, rfl, rfl, rfl⟩ nofun hnone rfl
      (List.singleton_sublist.mpr (jobArgument_mem hbase hjob))
  · cases h

theorem doBg_move {pipe : Pipeline} {pipes : CommandLine} (hbase : Base s)
    (hpoint : s.point = .line) (hpipes : s.pipes = pipe :: pipes)
    (hname : pipe.front.name = ascii "bg")
    (h : doBg { s with pipes := pipes } pipe.front.argv e = some s') : Move s e s' := by
  have hnone : launching s.point = none := by
    rw [hpoint]
    rfl
  unfold doBg at h
  split at h
  · cases h
    exact move_same ⟨rfl, rfl, rfl, rfl, rfl, rfl, rfl⟩ nofun hnone rfl (List.nil_sublist _)
  · rename_i r hjob
    cases h
    exact .written (.bg hpoint hpipes hname hjob) (jobArgument_mem hbase hjob) hnone
      ⟨rfl, rfl, rfl, rfl, rfl, rfl, rfl⟩
      ⟨Or.inl hnone, rfl, List.singleton_sublist.mpr (jobArgument_mem hbase hjob), nofun⟩
  · cases h

/-- After `killpg`, either the status of the job is written or the next command follows. -/
theorem move_killpg {argv : List Word} {pipes : CommandLine} {success : Bool} {p : Point}
    (hbase : Base s) (hnone : launching s.point = none) (hjob : jobArgument s argv = some r)
    (hlaunching : launching p = none) (hused : used p = [r]) (htame : p ≠ .halted .wild) :
    Move s e (State.goto { s with pipes := pipes } (if success then p else .line)) := by
  cases success with
  | false => exact move_same ⟨rfl, rfl, rfl, rfl, rfl, rfl, rfl⟩ nofun hnone rfl (List.nil_sublist _)
  | true =>
    refine move_same ⟨rfl, rfl, rfl, rfl, rfl, rfl, rfl⟩ htame hnone hlaunching ?_
    rw [if_pos rfl, goto_point, hused]
    exact List.singleton_sublist.mpr (jobArgument_mem hbase hjob)

theorem doStop_move {argv : List Word} {pipes : CommandLine} (hbase : Base s)
    (hnone : launching s.point = none) (h : doStop { s with pipes := pipes } argv e = some s') : Move s e s' := by
  unfold doStop at h
  split at h
  · cases h
    exact move_same ⟨rfl, rfl, rfl, rfl, rfl, rfl, rfl⟩ nofun hnone rfl (List.nil_sublist _)
  · rename_i r success hjob
    cases h
    exact move_killpg hbase hnone hjob rfl rfl nofun
  · cases h

theorem doKill_move {argv : List Word} {pipes : CommandLine} (hbase : Base s)
    (hnone : launching s.point = none) (h : doKill { s with pipes := pipes } argv e = some s') : Move s e s' := by
  unfold doKill at h
  split at h
  · cases h
    exact move_same ⟨rfl, rfl, rfl, rfl, rfl, rfl, rfl⟩ nofun hnone rfl (List.nil_sublist _)
  · rename_i r success hjob
    cases h
    exact move_killpg hbase hnone hjob rfl rfl nofun
  · cases h

theorem handleBuiltin_move {pipe : Pipeline} {pipes : CommandLine} (hbase : Base s)
    (hpoint : s.point = .line) (hpipes : s.pipes = pipe :: pipes)
    (h : handleBuiltin { s with pipes := pipes } pipe.front e = some s') : Move s e s' := by
  have hnone : launching s.point = none := by
    rw [hpoint]
    rfl
  have hline : ∀ p, launching p = none → used p = [] → p ≠ .halted .wild →
      (if e = .step then some (State.goto { s with pipes := pipes } p) else none) = some s' →
        Move s e s' := by
    intro p hlaunching hused htame hsome
    split_ifs at hsome
    cases hsome
    refine move_same ⟨rfl, rfl, rfl, rfl, rfl, rfl, rfl⟩ htame hnone hlaunching ?_
    rw [goto_point, hused]
    exact List.nil_sublist _
  unfold handleBuiltin at h
  split at h
  · exact doFg_move hbase hnone h
  · split at h
    · exact doBg_move hbase hpoint hpipes ‹_› h
    · split at h
      · exact hline .line rfl rfl nofun h
      · split at h
        · exact doStop_move hbase hnone h
        · split at h
          · exact doKill_move hbase hnone h
          · split at h
            · exact hline (.halted .exit) rfl rfl nofun h
            · exact hline .line rfl rfl nofun h

theorem handleCommandLine_move (hbase : Base s) (hpoint : s.point = .line)
    (h : handleCommandLine s e = some s') : Move s e s' := by
  have hnone : launching s.point = none := by
    rw [hpoint]
    rfl
  rw [handleCommandLine] at h
  cases hpipes : s.pipes with
  | nil =>
    rw [hpipes] at h
    dsimp only at h
    split_ifs at h
    cases h
    exact move_same (same_goto _) nofun hnone rfl (List.Sublist.refl _)
  | cons pipe pipes =>
    rw [hpipes] at h
    dsimp only at h
    split_ifs at h
    · exact handleBuiltin_move hbase hpoint hpipes h
    · split at h
      · cases h
        exact .pushed hpoint
      · cases h

theorem freeJid_some {jid2job : Nat → Option Nat} {i : Nat} (h : freeJid jid2job = some i) :
    0 < i ∧ i < MAXJOBS ∧ jid2job i = none := by
  have hmem := List.mem_of_find?_eq_some h
  rw [List.mem_range'_1] at hmem
  have hfree := List.find?_some h
  exact ⟨hmem.1, by omega, Option.isNone_iff_eq_none.mp hfree⟩

theorem numberJob_move (hpoint : s.point = .added r) : Move s .step (numberJob s r) := by
  rw [numberJob]
  cases hfree : freeJid s.jid2job with
  | none => exact .quiet (same_goto _) (Or.inr ⟨Or.inr (Or.inr ⟨⟨r, hpoint⟩, rfl⟩), rfl, List.nil_sublist _, nofun⟩)
  | some i => exact .numbered hpoint hfree

theorem launchTurn_move (hbase : Base s) (hpoint : s.point = .spawn r k)
    (h : launchTurn s r k e = some s') : Move s e s' := by
  have hused : (used s.point).Sublist s.jobList := hbase.used
  rw [hpoint] at hused
  unfold launchTurn at h
  by_cases hmore : k < (s.job r).pipe.commands.length
  · rw [if_pos hmore] at h
    split at h
    · rename_i result
      rw [spawnCommand] at h
      dsimp only at h
      cases hsuccess : result.success with
      | true =>
        rw [if_pos hsuccess] at h
        split_ifs at h with hused
        cases h
        exact .spawned hpoint hsuccess (Option.not_isSome_iff_eq_none.mp hused)
      | false =>
        rw [if_neg (by rw [hsuccess]; exact Bool.false_ne_true)] at h
        cases h
        rw [show Launching.spawned (s.job r) k result = { s.job r with status := .DNE } by
          rw [Launching.spawned, if_neg (by rw [hsuccess]; exact Bool.false_ne_true)]]
        exact .failed hpoint hsuccess
    · cases h
  · obtain ⟨j, rfl⟩ : ∃ j, k = j + 1 :=
      Nat.exists_eq_succ_of_ne_zero (by have := (s.job r).pipe.length_pos; omega)
    rw [if_neg hmore] at h
    by_cases hstep : e = .step
    · rw [if_pos hstep, Option.some_inj] at h
      subst h
      cases (s.job r).pipe.bgJob with
      | true =>
        exact .quiet (same_goto _) (Or.inr ⟨Or.inr (Or.inl ⟨r, j, hpoint⟩), rfl, List.nil_sublist _, nofun⟩)
      | false =>
        exact .quiet (same_goto _) (Or.inr ⟨Or.inr (Or.inl ⟨r, j, hpoint⟩), rfl, hused, nofun⟩)
    · rw [if_neg hstep] at h
      cases h

theorem waitForJob_move (hbase : Base s) (hpoint : s.point = .wait r)
    (h : waitForJob s r e = some s') : Move s e s' := by
  have hnone : launching s.point = none := by
    rw [hpoint]
    rfl
  unfold waitForJob at h
  split at h
  · split at h
    · exact reap_move hbase rfl (by rw [hpoint]; rfl) h
    · split_ifs at h
      cases h
      exact move_halt _ nofun hnone
    · cases h
  · split_ifs at h
    cases h
    exact move_same ⟨rfl, rfl, rfl, rfl, rfl, rfl, rfl⟩ nofun hnone rfl (List.nil_sublist _)

theorem visitJob_move {rest : List Nat} (hbase : Base s) (hpoint : s.point = .deleting (r :: rest)) :
    Move s .step (visitJob s r rest) := by
  have hused : (used s.point).Sublist s.jobList := hbase.used
  rw [hpoint] at hused
  have hmem : r ∈ s.jobList := hused.subset List.mem_cons_self
  rw [visitJob]
  split_ifs with hdelete
  · rcases hbase.agree r hmem with hadded | hhalted | ⟨i, hi⟩
    · rw [hpoint] at hadded
      cases hadded
    · rw [hpoint] at hhalted
      cases hhalted
    · have hjid := (hbase.table i r hi).2
      have hdeleted : deleteJob { s with jobList := s.jobList.erase r, point := .deleting rest } r =
          { s.setJob r { s.job r with jid := -1 } with
            jobList := s.jobList.erase r
            jid2job := Function.update s.jid2job i none
            point := .deleting rest } := by
        rw [deleteJob]
        dsimp only
        rw [hjid, if_neg (by omega), Int.toNat_natCast, hi]
        rfl
      rw [hdeleted]
      exact .removed hpoint hdelete hjid hi
  · exact move_same (same_goto _) nofun (by rw [hpoint]; rfl) rfl ((List.sublist_cons_self r rest).trans hused)

theorem readEval_move (hnone : launching s.point = none) (h : readEval s e = some s') :
    Move s e s' := by
  unfold readEval at h
  split at h
  · split_ifs at h
    · cases h
      exact .quiet ⟨rfl, rfl, rfl, rfl, rfl, rfl, rfl⟩ (Or.inl rfl)
    · cases h
      exact move_same ⟨rfl, rfl, rfl, rfl, rfl, rfl, rfl⟩ nofun hnone rfl (List.nil_sublist _)
  · cases h
    exact move_halt _ nofun hnone
  · cases h

theorem move_written {st : Status} {p : Point} (hbase : Base s) (hwrites : Writes s r st)
    (hused : used s.point = [r]) (hnone : launching s.point = none) (hlaunching : launching p = none)
    (hsub : (used p).Sublist [r]) (htame : p ≠ .halted .wild) : Move s .step ((s.setStatus r st).goto p) := by
  have hlist : (used s.point).Sublist s.jobList := hbase.used
  rw [hused] at hlist
  have hmem : r ∈ s.jobList := List.singleton_sublist.mp hlist
  exact .written hwrites hmem hnone ⟨rfl, rfl, rfl, rfl, rfl, rfl, rfl⟩
    ⟨Or.inl hnone, hlaunching, hsub.trans hlist, htame⟩

theorem run_move (hbase : Base s) (h : run s e = some s') : Move s e s' := by
  have hused : ∀ {p r}, s.point = p → used p = [r] → List.Sublist [r] s.jobList := by
    intro p r hp hlist
    have hsub := hbase.used
    rwa [hp, hlist] at hsub
  unfold run at h
  split at h
  · exact readEval_move (by rw [‹s.point = _›]; rfl) h
  · exact handleCommandLine_move hbase ‹_› h
  · split_ifs at h with hstep
    cases h
    exact hstep ▸ numberJob_move ‹_›
  · split_ifs at h with hstep
    cases h
    exact hstep ▸ .initialised ‹_›
  · split_ifs at h with hstep
    cases h
    exact hstep ▸ .started ‹_›
  · exact launchTurn_move hbase ‹_› h
  · split_ifs at h with hstep
    cases h
    exact hstep ▸ .recorded ‹_›
  · split_ifs at h with hstep
    cases h
    exact hstep ▸ .counted ‹_›
  · rename_i r hpoint
    split at h
    · rename_i success
      cases h
      cases success with
      | false => exact move_line (by rw [hpoint]; rfl)
      | true =>
        exact move_same (same_goto _) nofun (by rw [hpoint]; rfl) rfl (hused hpoint rfl)
    · cases h
  · rename_i r hpoint
    split_ifs at h with hstep
    cases h
    subst hstep
    exact move_written hbase (.foreground hpoint) (by rw [hpoint]; rfl) (by rw [hpoint]; rfl) rfl
      (List.Sublist.refl _) nofun
  · rename_i hpoint
    split at h
    · cases h
      exact move_line (by rw [hpoint]; rfl)
    · cases h
  · rename_i r hpoint
    split_ifs at h with hstep
    cases h
    subst hstep
    exact move_written hbase (.stop hpoint) (by rw [hpoint]; rfl) (by rw [hpoint]; rfl) rfl
      (List.nil_sublist _) nofun
  · rename_i r hpoint
    split_ifs at h with hstep
    cases h
    subst hstep
    exact move_written hbase (.kill hpoint) (by rw [hpoint]; rfl) (by rw [hpoint]; rfl) rfl
      (List.nil_sublist _) nofun
  · rename_i r hpoint
    split_ifs at h with hstep
    cases h
    exact move_same ⟨rfl, rfl, rfl, rfl, rfl, rfl, rfl⟩ nofun (by rw [hpoint]; rfl) rfl (hused hpoint rfl)
  · exact waitForJob_move hbase ‹_› h
  · rename_i hpoint
    split_ifs at h with hstep
    cases h
    exact move_same ⟨rfl, rfl, rfl, rfl, rfl, rfl, rfl⟩ nofun (by rw [hpoint]; rfl) rfl (List.nil_sublist _)
  · split_ifs at h with hstep
    cases h
    exact hstep ▸ visitJob_move hbase ‹_›
  · cases h

theorem next_move (hbase : Base s) (h : next s e = some s') : Move s e s' := by
  unfold next at h
  split at h
  · split_ifs at h with hlive
    rw [Bool.or_eq_true, not_or] at hlive
    exact reap_move hbase rfl (Bool.eq_false_iff.mpr hlive.2) h
  · split_ifs at h
    cases h
    exact .quiet ⟨rfl, rfl, rfl, rfl, rfl, rfl, rfl⟩ (Or.inl rfl)
  · exact run_move hbase h

end Moves

end ComputerSystems.Cush.Steps
