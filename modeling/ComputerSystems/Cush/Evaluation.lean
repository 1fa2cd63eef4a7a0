/- Every pipeline that the shell reads is run in its turn: a built-in command, or one new job. -/

import ComputerSystems.Cush.Deletion

set_option autoImplicit false
set_option relaxedAutoImplicit false

namespace ComputerSystems.Cush.Evaluation

open ComputerSystems.Systems.Runs
open ComputerSystems.Cush.Ast
open ComputerSystems.Cush.Jobs
open ComputerSystems.Cush.Launching
open ComputerSystems.Cush.Shell
open ComputerSystems.Cush.Deletion

def jobsOf (pipes : CommandLine) : List Pipeline :=
  pipes.filter fun pipe => !isBuiltin pipe.front

/-- What `readline` and the parser hand to `handle_command_line`. -/
def Event.line : Event → CommandLine
  | .readline pipes => pipes
  | _ => []

def read (is : List Event) : CommandLine :=
  is.flatMap Event.line

/-- The pipelines of the jobs that have been allocated, the oldest first. -/
def launched (s : State) : List Pipeline :=
  (List.range s.allocated).map fun r => (s.job r).pipe

/-- The jobs that the command line at hand still asks for; at the prompt there is none. -/
def pending (s : State) : List Pipeline :=
  match s.point with
  | .prompt => []
  | _ => jobsOf s.pipes

/-- Before the finished jobs are deleted, the command line has been used up. -/
def Drained (s : State) : Prop :=
  ∀ e, s.point = .deleting e → s.pipes = []

structure Frame (s s' : State) : Prop where
  jobList : s'.jobList.Sublist s.jobList
  allocated : s'.allocated = s.allocated
  pipe : ∀ r, (s'.job r).pipe = (s.job r).pipe

inductive Turn (s : State) (e : Event) (s' : State) : Prop where
  | ended : Frame s s' → s'.point.isHalted = true → Event.line e = [] → Turn s e s'
  | kept : Frame s s' → pending s' = pending s ++ jobsOf (Event.line e) → Drained s' → Turn s e s'
  | pushed (pipe : Pipeline) (pipes : CommandLine) (fresh : Job) : s.point = .line →
      s.pipes = pipe :: pipes → isBuiltin pipe.front = false → Event.line e = [] →
      s' = pushJob { s with pipes := pipes } pipe fresh → Turn s e s'

/-- A step within the evaluation of a command line, which leaves the rest of it alone. -/
structure Runs (s : State) (e : Event) (s' : State) : Prop where
  frame : Frame s s'
  pipes : s'.pipes = s.pipes
  line : Event.line e = []
  prompt : s'.point ≠ .prompt
  deleting : ∀ l, s'.point ≠ .deleting l

section Frames

variable {s s' : State} {e : Event} {r : Nat} {job : Job}

theorem Frame.of_eq (hlist : s'.jobList = s.jobList) (hallocated : s'.allocated = s.allocated)
    (hjob : s'.job = s.job) : Frame s s' :=
  ⟨hlist ▸ List.Sublist.refl _, hallocated, fun r => by rw [hjob]⟩

theorem update_pipe {jobs : Nat → Job} (hjob : job.pipe = (jobs r).pipe) (q : Nat) :
    (Function.update jobs r job q).pipe = (jobs q).pipe := by
  by_cases heq : q = r
  · rw [heq, Function.update_self, hjob]
  · rw [Function.update_of_ne heq]

theorem Frame.of_update (hlist : s'.jobList = s.jobList) (hallocated : s'.allocated = s.allocated)
    (hupdate : s'.job = Function.update s.job r job) (hjob : job.pipe = (s.job r).pipe) :
    Frame s s' :=
  ⟨hlist ▸ List.Sublist.refl _, hallocated, fun q => by rw [hupdate, update_pipe hjob]⟩

theorem spawned_pipe (job : Job) (k : Nat) (result : SpawnResult) :
    (spawned job k result).pipe = job.pipe := by
  unfold spawned
  split_ifs <;> rfl

theorem pending_of_ne (h : s.point ≠ .prompt) : pending s = jobsOf s.pipes := by
  unfold pending
  split
  · rename_i hprompt
    exact absurd hprompt h
  · rfl

theorem Runs.turn (h : Runs s e s') (hs : s.point ≠ .prompt) : Turn s e s' := by
  refine .kept h.frame ?_ fun l hl => absurd hl (h.deleting l)
  rw [pending_of_ne hs, pending_of_ne h.prompt, h.pipes, h.line]
  exact (List.append_nil _).symm

theorem runs_goto {p : Point} (hline : Event.line e = []) (hprompt : p ≠ .prompt)
    (hdeleting : ∀ l, p ≠ .deleting l) : Runs s e (s.goto p) :=
  ⟨.of_eq rfl rfl rfl, rfl, hline, hprompt, hdeleting⟩

theorem runs_write {p : Point} (hjob : job.pipe = (s.job r).pipe) (hline : Event.line e = [])
    (hprompt : p ≠ .prompt) (hdeleting : ∀ l, p ≠ .deleting l) :
    Runs s e ((s.setJob r job).goto p) :=
  ⟨.of_update rfl rfl rfl hjob, rfl, hline, hprompt, hdeleting⟩

theorem turn_of_step {t : State} (hs : s.point ≠ .prompt)
    (h : (if e = .step then some t else none) = some s') (hruns : Runs s .step t) :
    Turn s e s' := by
  split_ifs at h with hstep
  cases h
  rw [hstep]
  exact hruns.turn hs

theorem reap_turn {pid : Int} {status : WaitStatus} (hdrained : Drained s)
    (hline : Event.line e = []) (h : reap s pid status = some s') : Turn s e s' := by
  rw [reap] at h
  split at h
  · cases h
  · cases h
    have hsame : ∀ t : State, Frame s t → t.pipes = s.pipes → t.point = s.point →
        Turn s e t := by
      intro t hframe hpipes hpoint
      refine .kept hframe ?_ fun l hl => by rw [hpipes, hdrained l (hpoint ▸ hl)]
      rw [pending, hpoint, hpipes, hline]
      exact (List.append_nil _).symm
    unfold handleChildStatus
    split
    · exact hsame _ (.of_eq rfl rfl rfl) rfl rfl
    · exact .ended (.of_eq rfl rfl rfl) rfl hline
    · exact hsame _ (.of_update rfl rfl rfl (handle_pipe ..)) rfl rfl

end Frames

section Commands

variable {s s' : State} {e : Event} {r k : Nat} {argv : List Word}

theorem doFg_runs (h : doFg s argv e = some s') : Runs s e s' := by
  unfold doFg at h
  split at h <;> cases h <;> exact ⟨.of_eq rfl rfl rfl, rfl, rfl, nofun, nofun⟩

theorem doBg_runs (h : doBg s argv e = some s') : Runs s e s' := by
  unfold doBg at h
  split at h
  · cases h
    exact runs_goto rfl nofun nofun
  · cases h
    exact runs_write rfl rfl nofun nofun
  · cases h

/-- `stop` and `kill` call `killpg`, and write the status of the job afterwards. -/
theorem killpg_runs {success : Bool} {p : Point} (hprompt : p ≠ .prompt)
    (hdeleting : ∀ l, p ≠ .deleting l) :
    Runs s (.killpg success) (s.goto (if success then p else .line)) := by
  cases success with
  | false => exact runs_goto rfl nofun nofun
  | true => exact runs_goto rfl hprompt hdeleting

theorem doStop_runs (h : doStop s argv e = some s') : Runs s e s' := by
  unfold doStop at h
  split at h
  · cases h
    exact runs_goto rfl nofun nofun
  · cases h
    exact killpg_runs nofun nofun
  · cases h

theorem doKill_runs (h : doKill s argv e = some s') : Runs s e s' := by
  unfold doKill at h
  split at h
  · cases h
    exact runs_goto rfl nofun nofun
  · cases h
    exact killpg_runs nofun nofun
  · cases h

theorem handleBuiltin_runs {command : Command} (h : handleBuiltin s command e = some s') :
    Runs s e s' := by
  unfold handleBuiltin at h
  split_ifs at h with hfg hbg hjobs hstep hstop hkill hexit hstep hstep
  · exact doFg_runs h
  · exact doBg_runs h
  · cases h
    exact runs_goto (by rw [hstep]; rfl) nofun nofun
  · exact doStop_runs h
  · exact doKill_runs h
  · cases h
    exact runs_goto (by rw [hstep]; rfl) nofun nofun
  · cases h
    exact runs_goto (by rw [hstep]; rfl) nofun nofun

theorem handleCommandLine_turn (hpoint : s.point = .line) (h : handleCommandLine s e = some s') :
    Turn s e s' := by
  have hs : s.point ≠ .prompt := by
    rw [hpoint]
    nofun
  unfold handleCommandLine at h
  split at h
  · rename_i hpipes
    split_ifs at h with hstep
    cases h
    refine .kept (.of_eq rfl rfl rfl) ?_ fun _ _ => hpipes
    rw [pending_of_ne hs, hstep]
    exact (List.append_nil _).symm
  · rename_i pipe pipes hpipes
    split_ifs at h with hbuiltin
    · have hruns := handleBuiltin_runs h
      obtain ⟨hlist, hallocated, hpipe⟩ := hruns.frame
      refine .kept ⟨hlist, hallocated, hpipe⟩ ?_ fun l hl => absurd hl (hruns.deleting l)
      have hsame : jobsOf (pipe :: pipes) = jobsOf pipes := by simp [jobsOf, hbuiltin]
      rw [pending_of_ne hs, pending_of_ne hruns.prompt, hruns.pipes, hruns.line, hpipes, hsame]
      exact (List.append_nil _).symm
    · split at h
      · cases h
        exact .pushed pipe pipes _ hpoint hpipes (Bool.eq_false_iff.mpr hbuiltin) rfl rfl
      · cases h

theorem numberJob_runs : Runs s .step (numberJob s r) := by
  unfold numberJob
  split
  · exact ⟨.of_eq rfl rfl rfl, rfl, rfl, nofun, nofun⟩
  · exact ⟨.of_update rfl rfl rfl rfl, rfl, rfl, nofun, nofun⟩

theorem startJob_runs : Runs s .step (startJob s r) := by
  unfold startJob
  split <;> exact ⟨.of_update rfl rfl rfl rfl, rfl, rfl, nofun, nofun⟩

theorem launchTurn_runs (h : launchTurn s r k e = some s') : Runs s e s' := by
  unfold launchTurn at h
  split at h
  · split at h
    · unfold spawnCommand at h
      dsimp only at h
      split at h
      · split at h
        · cases h
        · cases h
          exact ⟨.of_update rfl rfl rfl (spawned_pipe ..), rfl, rfl, by simp, by simp⟩
      · cases h
        exact ⟨.of_update rfl rfl rfl (spawned_pipe ..), rfl, rfl, by simp, by simp⟩
    · cases h
  · by_cases hstep : e = .step
    · rw [if_pos hstep] at h
      cases h
      refine runs_goto (by rw [hstep]; rfl) ?_ ?_
      · split <;> simp
      · split <;> simp
    · rw [if_neg hstep] at h
      cases h

theorem waitForJob_turn (hpoint : s.point = .wait r) (h : waitForJob s r e = some s') :
    Turn s e s' := by
  have hs : s.point ≠ .prompt := by
    rw [hpoint]
    nofun
  have hdrained : Drained s := fun l hl => by
    rw [hpoint] at hl
    cases hl
  unfold waitForJob at h
  split at h
  · split at h
    · exact reap_turn hdrained rfl h
    · split_ifs at h
      cases h
      exact .ended (.of_eq rfl rfl rfl) rfl rfl
    · cases h
  · exact turn_of_step hs h ⟨.of_eq rfl rfl rfl, rfl, rfl, nofun, nofun⟩

theorem visitJob_turn {rest : List Nat} (hpoint : s.point = .deleting (r :: rest))
    (hdrained : Drained s) : Turn s .step (visitJob s r rest) := by
  have hpipes := hdrained _ hpoint
  have hs : s.point ≠ .prompt := by
    rw [hpoint]
    nofun
  have hnext : ∀ t : State, Frame s t → t.pipes = s.pipes → t.point = .deleting rest →
      Turn s .step t := by
    intro t hframe hrest ht
    have hnot : t.point ≠ .prompt := by
      rw [ht]
      nofun
    refine .kept hframe ?_ fun _ _ => hrest.trans hpipes
    rw [pending_of_ne hs, pending_of_ne hnot, hrest]
    exact (List.append_nil _).symm
  unfold visitJob
  split
  · unfold deleteJob
    dsimp only
    split_ifs
    · exact .ended ⟨List.erase_sublist, rfl, fun _ => rfl⟩ rfl rfl
    · split
      · exact .ended ⟨List.erase_sublist, rfl, fun _ => rfl⟩ rfl rfl
      · exact hnext _ ⟨List.erase_sublist, rfl, update_pipe rfl⟩ rfl rfl
  · exact hnext _ (.of_eq rfl rfl rfl) rfl rfl

end Commands

section Steps

variable {s s' : State} {e : Event} {read : CommandLine}

theorem run_turn (hdrained : Drained s) (h : run s e = some s') : Turn s e s' := by
  unfold run at h
  split at h
  · rename_i hpoint
    unfold readEval at h
    split at h
    · rename_i pipes
      cases h
      have hnone : pending s = [] := by rw [pending, hpoint]
      split_ifs with hempty
      · refine .kept (.of_eq rfl rfl rfl) ?_ hdrained
        rw [hnone, Event.line, hempty]
        rfl
      · refine .kept (.of_eq rfl rfl rfl) ?_ nofun
        rw [hnone]
        rfl
    · cases h
      exact .ended (.of_eq rfl rfl rfl) rfl rfl
    · cases h
  · rename_i hpoint
    exact handleCommandLine_turn hpoint h
  · rename_i r hpoint
    exact turn_of_step (by rw [hpoint]; nofun) h numberJob_runs
  · rename_i r hpoint
    exact turn_of_step (by rw [hpoint]; nofun) h (runs_write rfl rfl nofun nofun)
  · rename_i r hpoint
    exact turn_of_step (by rw [hpoint]; nofun) h startJob_runs
  · rename_i r k hpoint
    exact (launchTurn_runs h).turn (by rw [hpoint]; nofun)
  · rename_i r k pid hpoint
    exact turn_of_step (by rw [hpoint]; nofun) h (runs_write rfl rfl nofun nofun)
  · rename_i r k hpoint
    exact turn_of_step (by rw [hpoint]; nofun) h (runs_write rfl rfl nofun nofun)
  · rename_i r hpoint
    split at h
    · cases h
      exact (killpg_runs (p := .foreground r) nofun nofun).turn (by rw [hpoint]; nofun)
    · cases h
  · rename_i r hpoint
    exact turn_of_step (by rw [hpoint]; nofun) h (runs_write rfl rfl nofun nofun)
  · rename_i hpoint
    split at h
    · cases h
      exact (runs_goto (p := .line) rfl nofun nofun).turn (by rw [hpoint]; nofun)
    · cases h
  · rename_i r hpoint
    exact turn_of_step (by rw [hpoint]; nofun) h (runs_write rfl rfl nofun nofun)
  · rename_i r hpoint
    exact turn_of_step (by rw [hpoint]; nofun) h (runs_write rfl rfl nofun nofun)
  · rename_i r hpoint
    exact turn_of_step (by rw [hpoint]; nofun) h ⟨.of_eq rfl rfl rfl, rfl, rfl, nofun, nofun⟩
  · rename_i r hpoint
    exact waitForJob_turn hpoint h
  · rename_i hpoint
    split_ifs at h with hstep
    cases h
    refine .kept (.of_eq rfl rfl rfl) ?_ nofun
    have hempty : pending s = [] := by
      rw [pending, hpoint, hdrained _ hpoint]
      rfl
    rw [hempty, hstep]
    rfl
  · rename_i r rest hpoint
    split_ifs at h with hstep
    cases h
    subst hstep
    exact visitJob_turn hpoint hdrained
  · cases h

theorem next_turn (hdrained : Drained s) (h : next s e = some s') : Turn s e s' := by
  unfold next at h
  split at h
  · split_ifs at h
    exact reap_turn hdrained rfl h
  · split_ifs at h
    cases h
    exact .kept (.of_eq rfl rfl rfl) (List.append_nil _).symm hdrained
  · exact run_turn hdrained h

/-- The jobs come in the order of what is read, and what has not become a job is still pending. -/
structure Inv (read : CommandLine) (s : State) : Prop where
  listed : s.jobList.Sublist (List.range s.allocated)
  begins : launched s <+: jobsOf read
  whole : s.point.isHalted = false → launched s ++ pending s = jobsOf read
  drained : s.point.isHalted = false → Drained s

theorem Frame.launched (h : Frame s s') : launched s' = launched s := by
  unfold Evaluation.launched
  rw [h.allocated]
  exact List.map_congr_left fun r _ => h.pipe r

theorem launched_pushJob (pipe : Pipeline) (fresh : Job) :
    launched (pushJob s pipe fresh) = launched s ++ [pipe] := by
  have hold : ∀ r ∈ List.range s.allocated,
      ((pushJob s pipe fresh).job r).pipe = (s.job r).pipe := by
    intro r hr
    have hne : r ≠ s.allocated := Nat.ne_of_lt (List.mem_range.mp hr)
    simp [pushJob, State.setJob, hne]
  have hnew : ((pushJob s pipe fresh).job s.allocated).pipe = pipe := by
    simp [pushJob, State.setJob]
  show (List.range (s.allocated + 1)).map (fun r => ((pushJob s pipe fresh).job r).pipe) = _
  rw [List.range_succ, List.map_append, List.map_congr_left hold, List.map_singleton, hnew]
  rfl

theorem jobsOf_append (pipes pipes' : CommandLine) :
    jobsOf (pipes ++ pipes') = jobsOf pipes ++ jobsOf pipes' := List.filter_append ..

theorem Inv.next (h : Inv read s) (hnext : next s e = some s') (hlive : s.point.isHalted = false) :
    Inv (read ++ Event.line e) s' := by
  have hwhole := h.whole hlive
  cases next_turn (h.drained hlive) hnext with
  | ended hframe hhalted hline =>
    refine ⟨?_, ?_, fun hnot => ?_, fun hnot => ?_⟩
    · rw [hframe.allocated]
      exact hframe.jobList.trans h.listed
    · rw [hframe.launched, hline, List.append_nil]
      exact h.begins
    · rw [hhalted] at hnot
      cases hnot
    · rw [hhalted] at hnot
      cases hnot
  | kept hframe hpending hdrained =>
    have hall : launched s' ++ pending s' = jobsOf (read ++ Event.line e) := by
      rw [hframe.launched, hpending, ← List.append_assoc, hwhole, jobsOf_append]
    refine ⟨?_, hall ▸ List.prefix_append .., fun _ => hall, fun _ => hdrained⟩
    rw [hframe.allocated]
    exact hframe.jobList.trans h.listed
  | pushed pipe pipes fresh hpoint hpipes hbuiltin hline hs' =>
    subst hs'
    have hpending : pending s = pipe :: jobsOf pipes := by
      rw [pending, hpoint, hpipes]
      simp [jobsOf, hbuiltin]
    have hrest : pending (pushJob { s with pipes := pipes } pipe fresh) = jobsOf pipes := rfl
    have hall : launched (pushJob { s with pipes := pipes } pipe fresh) ++
        pending (pushJob { s with pipes := pipes } pipe fresh) = jobsOf (read ++ Event.line e) := by
      rw [launched_pushJob, hrest, hline, List.append_nil, ← hwhole, hpending, List.append_assoc]
      rfl
    refine ⟨?_, hall ▸ List.prefix_append .., fun _ => hall, fun _ => nofun⟩
    show (s.jobList ++ [s.allocated]).Sublist (List.range (s.allocated + 1))
    rw [List.range_succ]
    exact h.listed.append (List.Sublist.refl _)

theorem inv_of_init (h : system.init s) : Inv [] s := by
  obtain ⟨hlist, -, -, hpoint, -, hallocated, -, -⟩ := h
  have hnone : launched s = [] := by
    rw [launched, hallocated]
    rfl
  refine ⟨?_, ?_, fun _ => ?_, fun _ l hl => ?_⟩
  · rw [hlist]
    exact List.nil_sublist _
  · rw [hnone]
    exact List.nil_prefix
  · rw [hnone, pending, hpoint]
    rfl
  · rw [hpoint] at hl
    cases hl

theorem next_of_halted (h : s.point.isHalted = true) : next s e = none := by
  unfold next
  split
  · rw [h, Bool.or_true]
    rfl
  · rw [if_pos h]
  · unfold run
    unfold Point.isHalted at h
    split at h
    · rename_i hpoint
      rw [hpoint]
    · cases h

theorem Inv.exec {is : List Event} (h : Inv read s) (hrun : system.exec s is = some s') :
    Inv (read ++ Evaluation.read is) s' := by
  induction is generalizing s read with
  | nil =>
    cases hrun
    rw [Evaluation.read, List.flatMap_nil, List.append_nil]
    exact h
  | cons e is ih =>
    obtain ⟨t, ht, hrest⟩ := Option.bind_eq_some_iff.mp hrun
    have hlive : s.point.isHalted = false := by
      cases hhalted : s.point.isHalted with
      | false => rfl
      | true =>
        have hnone : Shell.next s e = some t := ht
        rw [next_of_halted hhalted] at hnone
        cases hnone
    have hinv := ih (h.next ht hlive) hrest
    rw [List.append_assoc] at hinv
    rwa [Evaluation.read, List.flatMap_cons]

/-- In every run of the shell the jobs that have been allocated are the first pipelines read that are
no built-in commands, in the order in which they were read, and at the next prompt they are all of
them; what is listed is some of them, in the same order. -/
theorem jobs_in_order {is : List Event} (hs : system.init s) (hrun : system.exec s is = some s') :
    launched s' <+: jobsOf (Evaluation.read is) ∧
      (s'.point = .prompt → launched s' = jobsOf (Evaluation.read is)) ∧
      (s'.jobList.map fun r => (s'.job r).pipe).Sublist (jobsOf (Evaluation.read is)) := by
  have hinv : Inv (Evaluation.read is) s' := (inv_of_init hs).exec hrun
  refine ⟨hinv.begins, fun hprompt => ?_, ?_⟩
  · have hwhole := hinv.whole (by rw [hprompt]; rfl)
    rwa [pending, hprompt, List.append_nil] at hwhole
  · exact (hinv.listed.map _).trans hinv.begins.sublist

end Steps

section Samples

/-- `jobs; a` at the prompt, up to the next prompt: `a` runs in the foreground and exits. -/
def mixedLine : List Event :=
  [.readline [words "jobs" [] false, words "a" [] false], .step, .malloc blank, .step, .step,
    .step] ++ starting 0 ++ [.step, .step, .waitpid 10 (.exited 0), .step, .step, .step, .step]

theorem jobs_in_order_sample : ∃ s, system.exec start mixedLine = some s ∧ s.jobList = [] ∧
    launched s = [words "a" [] false] := by
  have hrun : (system.exec start mixedLine).map (fun s => (s.jobList, s.point)) =
      some ([], .prompt) := by
    decide
  obtain ⟨s, hs, hobs⟩ := Option.map_eq_some_iff.mp hrun
  obtain ⟨hlist, hpoint⟩ := Prod.mk.inj hobs
  refine ⟨s, hs, hlist, ((jobs_in_order start_init hs).2.1 hpoint).trans ?_⟩
  decide

end Samples

end ComputerSystems.Cush.Evaluation
