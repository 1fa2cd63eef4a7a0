/- What the runs of the pool promise: no future is lost or run twice, and when a join is right. -/

import ComputerSystems.Threadpool.Turns

set_option autoImplicit false
set_option relaxedAutoImplicit false

namespace ComputerSystems.Threadpool.Joins

open ComputerSystems.Systems.Runs
open ComputerSystems.Systems.Tokens
open ComputerSystems.Threadpool.Programs
open ComputerSystems.Threadpool.Pool
open ComputerSystems.Threadpool.Ledger
open ComputerSystems.Threadpool.Turns

section Runs

variable {Task Val Code : Type} {P : Program Task Val Code} {n : Nat}
variable {s s' : State Task Val Code}

/-- The calls of `future_get` of a thread keep the future they were asked for, and leave when it
is `FINISHED`. -/
structure Joining (s : State Task Val Code) (th : Thread Val Code) : Prop where
  call : ∀ asked f k pc, th.control = .get asked f k pc →
    f = asked ∧ asked < s.submitted ∧ (pc = .result → (s.future asked).state = .FINISHED)
  callers : ∀ asked f k, Caller.get asked f k ∈ th.callers → f = asked ∧ asked < s.submitted

/-- The step is no section of `future_get` that finds a stolen future still running. -/
def Patient (s : State Task Val Code) (i : Label Val) : Prop :=
  ∀ t ∈ i.thread, ¬ findsRunning s t

instance (s : State Task Val Code) (i : Label Val) : Decidable (Patient s i) :=
  inferInstanceAs (Decidable (∀ t ∈ i.thread, ¬ findsRunning s t))

/-- `FINISHED` futures stay `FINISHED` and submitted futures submitted. -/
def Grows (s s' : State Task Val Code) : Prop :=
  s.submitted ≤ s'.submitted ∧
    ∀ f, f < s.submitted → (s.future f).state = .FINISHED → (s'.future f).state = .FINISHED

theorem Joining.mono {th : Thread Val Code} (h : Joining s th) (hgrows : Grows s s') :
    Joining s' th := by
  refine ⟨fun asked f k pc ht => ?_, fun asked f k ht => ?_⟩
  · obtain ⟨hsame, hlt, hstate⟩ := h.call asked f k pc ht
    exact ⟨hsame, Nat.lt_of_lt_of_le hlt hgrows.1, fun hpc => hgrows.2 asked hlt (hstate hpc)⟩
  · obtain ⟨hsame, hlt⟩ := h.callers asked f k ht
    exact ⟨hsame, Nat.lt_of_lt_of_le hlt hgrows.1⟩

theorem Joining.turn {t : Nat} {th : Thread Val Code} (h : Joining s (s.thread t))
    (hgrows : Grows s s') (hpatient : ¬ findsRunning s t) (hturn : Turn s s' t th) :
    Joining s' th := by
  have hcallers := (h.mono hgrows).callers
  cases hturn with
  | loop pc => exact ⟨nofun, hcallers⟩
  | code c => exact ⟨nofun, hcallers⟩
  | done => exact ⟨nofun, hcallers⟩
  | loopCall f stolen c =>
    refine ⟨nofun, fun asked g k hg => hcallers asked g k ?_⟩
    simpa using hg
  | getCall asked f g k c hentered hown =>
    refine ⟨nofun, fun asked' g' k' hg => ?_⟩
    rcases List.mem_cons.mp hg with hg | hg
    · cases hg
      obtain ⟨hsame, hlt, -⟩ := (h.mono hgrows).call asked f k .enter hentered
      exact ⟨(hown.resolve_right hpatient).trans hsame, hlt⟩
    · exact hcallers asked' g' k' hg
  | ret caller callers hcalled =>
    rw [hcalled] at hcallers
    refine ⟨fun asked f k pc hpc => ?_, fun asked f k hf =>
      hcallers asked f k (List.mem_cons_of_mem _ hf)⟩
    cases caller with
    | loop => cases hpc
    | get =>
      cases hpc
      obtain ⟨hsame, hlt⟩ := hcallers asked f k List.mem_cons_self
      exact ⟨hsame, hlt, nofun⟩
  | enter f k hlt =>
    refine ⟨fun asked g k' pc hpc => ?_, hcallers⟩
    cases hpc
    exact ⟨rfl, Nat.lt_of_lt_of_le hlt hgrows.1, nofun⟩
  | again asked f k hentered =>
    refine ⟨fun asked' g k' pc hpc => ?_, hcallers⟩
    cases hpc
    exact (h.mono hgrows).call asked f k .enter hentered
  | result asked f k pc hentered hfinished =>
    refine ⟨fun asked' g k' pc' hpc => ?_, hcallers⟩
    cases hpc
    obtain ⟨hsame, hlt, -⟩ := (h.mono hgrows).call asked f k pc hentered
    exact ⟨hsame, hlt, fun _ => hsame ▸ hfinished.resolve_right hpatient⟩

theorem joins_next {i : Label Val} (hs : Sound s) (h : ∀ t, Joining s (s.thread t))
    (hpatient : Patient s i) (hnext : next P n s i = some s') (t : Nat) :
    Joining s' (s'.thread t) := by
  have hchanges := next_changes hs.inv hs.known hnext
  have hgrows : Grows s s' :=
    ⟨hchanges.submitted_le, fun f hlt hf => Changes.finished hs.inv hchanges hlt hf⟩
  rcases next_advances hnext with ⟨u, hu, th, hturn, hthread⟩ | hsame
  · rw [hthread]
    by_cases heq : t = u
    · subst heq
      rw [Function.update_self]
      exact (h t).turn hgrows (hpatient t hu) hturn
    · rw [Function.update_of_ne heq]
      exact (h t).mono hgrows
  · rw [hsame]
    exact (h t).mono hgrows

theorem joins_of_reachable (h : ReachableBy (system P n) Patient s) (t : Nat) :
    Joining s (s.thread t) := by
  have hall : Sound s ∧ ∀ t, Joining s (s.thread t) := by
    apply h.invariant (P := fun s => Sound s ∧ ∀ t, Joining s (s.thread t)) _
      fun s i s' hs hpatient hnext => ⟨hs.1.next hnext, joins_next hs.1 hs.2 hpatient hnext⟩
    refine fun s hinit => ⟨sound_of_init hinit, fun t => ?_⟩
    obtain ⟨-, -, -, -, -, hthread, -⟩ := hinit
    rw [hthread]
    refine ⟨fun asked f k pc hpc => ?_, nofun⟩
    split at hpc <;> cases hpc
  exact hall.2 t

/-- The call of `future_get` that thread `t` is about to leave, with the value it returns. -/
def returns (s : State Task Val Code) (t : Nat) : Option (Nat × Val) :=
  match (s.thread t).control with
  | .get asked f _ .result => some (asked, (s.future f).result)
  | _ => none

/-- Every submitted future is in one queue, with one thread, or done, and its task function has
been called accordingly. -/
theorem future_situation (h : Reachable (system P n) s) {f : Nat} (hf : f < s.submitted) :
    Situation s f :=
  (sound_of_reachable h).inv.situation f hf

/-- Where no stolen future was found running, `future_get` returns what the task returned. -/
theorem future_get_returns (h : ReachableBy (system P n) Patient s) {t f : Nat} {value : Val}
    (hreturns : returns s t = some (f, value)) :
    (s.future f).state = .FINISHED ∧ s.returned f = some value := by
  have hsound := sound_of_reachable h
  have hjoins := joins_of_reachable h t
  unfold returns at hreturns
  split at hreturns
  · rename_i asked g k hcontrol
    cases hreturns
    obtain ⟨hsame, hlt, hstate⟩ := hjoins.call _ _ _ _ hcontrol
    have hfinished := hstate rfl
    have hsit := hsound.inv.situation f hlt
    simp only [Situation, hfinished] at hsit
    exact ⟨hfinished, by rw [hsit.2.2, hsame]⟩
  · cases hreturns

end Runs

section Sample

/-- A thread outside the pool waits for a task that waits for a second task. -/
inductive SampleCode where
  | main
  | test (a : Nat)
  | add (a : Nat)
  | join (f : Nat)
  | value (v : Nat)

inductive SampleTask where
  | testTask
  | adderTask

def sampleProgram : Program SampleTask Nat SampleCode where
  instr
    | .main => .submit .testTask 2 .join
    | .test a => .submit .adderTask a .join
    | .add a => .ret (a + 4)
    | .join f => .get f .value
    | .value v => .ret v
  body
    | .testTask, a => .test a
    | .adderTask, a => .add a
  main _ := .main

def sampleStart (n : Nat) : State SampleTask Nat SampleCode where
  isShutdown := false
  tasks _ := []
  workers := []
  arrived := 0
  submitted := 0
  future _ := ⟨.testTask, 0, none, 0, .WAITING⟩
  thread t := ⟨if t < n then .loop .start else .code .main, []⟩
  invoked _ := 0
  returned _ := none

theorem sampleStart_init (n : Nat) : (system sampleProgram n).init (sampleStart n) :=
  ⟨rfl, fun _ => rfl, rfl, rfl, rfl, fun _ => rfl, fun _ => rfl, fun _ => rfl⟩

/-- Worker 0 takes the first task from the global list and submits the second one. -/
def firstSteps : List Nat := [2, 0, 1, 0, 1, 0, 1, 0, 0]

def stealSteps : List Nat := firstSteps ++ [1, 1, 1, 0, 0]

def joinSteps : List Nat := firstSteps ++ [0, 0, 0, 0]

def sampleLabels (steps : List Nat) : List (Label Nat) :=
  steps.map fun t => .run t false

/-- The second task is running when it is stolen. -/
theorem future_situation_sample : ∃ s, Reachable (system sampleProgram 2) s ∧
    (s.future 1).state = .RUNNING ∧ Situation s 1 := by
  have hrun : ((system sampleProgram 2).exec (sampleStart 2) (sampleLabels stealSteps)).map
      (fun s => ((s.future 1).state, decide (1 < s.submitted))) = some (.RUNNING, true) := by
    decide
  obtain ⟨s, hs, hobs⟩ := Option.map_eq_some_iff.mp hrun
  have hreach := Reachable.exec (.start (sampleStart_init 2)) hs
  simp only [Prod.mk.injEq, decide_eq_true_eq] at hobs
  exact ⟨s, hreach, hobs.1, future_situation hreach hobs.2⟩

theorem future_get_returns_sample : ∃ s, ReachableBy (system sampleProgram 2) Patient s ∧
    returns s 0 = some (1, 6) ∧ (s.future 1).state = .FINISHED ∧ s.returned 1 = some 6 := by
  have hrun : (((system sampleProgram 2).restrict Patient).exec (sampleStart 2)
      (sampleLabels joinSteps)).map (fun s => returns s 0) = some (some (1, 6)) := by
    decide
  obtain ⟨s, hs, hobs⟩ := Option.map_eq_some_iff.mp hrun
  have hinit : ((system sampleProgram 2).restrict Patient).init (sampleStart 2) :=
    sampleStart_init 2
  have hreach := ReachableBy.of_restrict (Reachable.exec (.start hinit) hs)
  exact ⟨s, hreach, hobs, future_get_returns hreach hobs⟩

/-- The owner of a stolen task leaves `future_get` while the thief still runs the task. -/
theorem future_get_early : ¬ ∀ s, Reachable (system sampleProgram 2) s →
    ∀ t f value, returns s t = some (f, value) →
      (s.future f).state = .FINISHED ∧ s.returned f = some value := by
  intro hall
  have hrun : ((system sampleProgram 2).exec (sampleStart 2) (sampleLabels stealSteps)).map
      (fun s => ((s.future 1).state, returns s 0)) = some (.RUNNING, some (1, 0)) := by
    decide
  obtain ⟨s, hs, hobs⟩ := Option.map_eq_some_iff.mp hrun
  simp only [Prod.mk.injEq] at hobs
  have hfinished := (hall s (Reachable.exec (.start (sampleStart_init 2)) hs) 0 1 0 hobs.2).1
  rw [hobs.1] at hfinished
  cases hfinished

end Sample

end ComputerSystems.Threadpool.Joins
