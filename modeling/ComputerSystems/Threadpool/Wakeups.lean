/- The pool with its condition variable: who sleeps in a wait, and which signals are still due. -/

import ComputerSystems.Threadpool.Turns

set_option autoImplicit false
set_option relaxedAutoImplicit false

namespace ComputerSystems.Threadpool.Wakeups

open ComputerSystems.Systems.Runs
open ComputerSystems.Threadpool.Programs
open ComputerSystems.Threadpool.Pool
open ComputerSystems.Threadpool.Ledger
open ComputerSystems.Threadpool.Turns

/-- The pool, the threads that sleep in `pthread_cond_wait`, and the threads that have put a future
in a list and are still to call `pthread_cond_signal`. -/
structure Sleepers (Task Val Code : Type) where
  pool : State Task Val Code
  asleep : List Nat
  signals : List (Nat × Nat)

/-- A section of the pool; the signal at the end of `thread_pool_submit`, with the thread it wakes;
or a wakeup that nobody has asked for. -/
inductive Event (Val : Type) where
  | act (i : Label Val)
  | signal (t f : Nat) (woken : Option Nat)
  | wakeup (t : Nat)

/-- The thread that takes the step; a thread that wakes up by itself does not count. -/
def Event.thread {Val : Type} : Event Val → Option Nat
  | .act i => i.thread
  | .signal t _ _ => some t
  | .wakeup _ => none

section Steps

variable {Task Val Code : Type}

/-- A section of thread `t` ends in `pthread_cond_wait`. -/
def waits (s s' : State Task Val Code) (t : Nat) : Bool :=
  match (s.thread t).control, (s'.thread t).control with
  | _, .loop .wait => true
  | .get _ _ _ .enter, .get _ _ _ .enter => true
  | _, _ => false

/-- A section sets `FINISHED` and calls `pthread_cond_broadcast`. -/
def broadcasts (s : State Task Val Code) (t : Nat) : Bool :=
  (finishing (s.thread t).control).isSome

/-- The signal that a section of `thread_pool_submit` leaves to be sent. -/
def signalsDue (P : Program Task Val Code) (s : State Task Val Code) (t : Nat) :
    List (Nat × Nat) :=
  match (s.thread t).control with
  | .code c =>
    match P.instr c with
    | .submit _ _ _ => [(t, s.submitted)]
    | _ => []
  | _ => []

/-- The threads that sleep after a section of thread `t`, which broadcasts before it waits. -/
def sleeping (s : Sleepers Task Val Code) (t : Nat) (pool : State Task Val Code) : List Nat :=
  (if waits s.pool pool t then [t] else []) ++ if broadcasts s.pool t then [] else s.asleep

def act (P : Program Task Val Code) (s : Sleepers Task Val Code) (t : Nat)
    (pool : State Task Val Code) : Sleepers Task Val Code where
  pool := pool
  asleep := sleeping s t pool
  signals := signalsDue P s.pool t ++ s.signals

/-- A thread that sleeps or is about to send a signal starts no section. -/
def Busy (s : Sleepers Task Val Code) (t : Nat) : Prop :=
  t ∈ s.asleep ∨ t ∈ s.signals.map Prod.fst

instance (s : Sleepers Task Val Code) (t : Nat) : Decidable (Busy s t) :=
  inferInstanceAs (Decidable (_ ∨ _))

def Wakes (asleep : List Nat) : Option Nat → Prop
  | none => asleep = []
  | some u => u ∈ asleep

instance (asleep : List Nat) (woken : Option Nat) : Decidable (Wakes asleep woken) :=
  match woken with
  | none => inferInstanceAs (Decidable (asleep = []))
  | some u => inferInstanceAs (Decidable (u ∈ asleep))

def next (P : Program Task Val Code) (n : Nat) (s : Sleepers Task Val Code) :
    Event Val → Option (Sleepers Task Val Code)
  | .act i =>
    match i.thread with
    | none => (Pool.next P n s.pool i).map fun pool => { s with pool := pool, asleep := [] }
    | some t => if Busy s t then none else (Pool.next P n s.pool i).map (act P s t)
  | .signal t f woken =>
    if (t, f) ∈ s.signals ∧ Wakes s.asleep woken then
      some { s with
        asleep := s.asleep.filter fun u => woken ≠ some u
        signals := s.signals.erase (t, f) }
    else none
  | .wakeup t =>
    if t ∈ s.asleep then some { s with asleep := s.asleep.filter fun u => u ≠ t } else none

/-- `thread_pool_new` with `n` workers. -/
def system (P : Program Task Val Code) (n : Nat) :
    System (Sleepers Task Val Code) (Event Val) where
  init s := (Pool.system P n).init s.pool ∧ s.asleep = [] ∧ s.signals = []
  next := next P n

end Steps

section Refinement

variable {Task Val Code : Type} {P : Program Task Val Code} {n : Nat}
variable {s s' : Sleepers Task Val Code}

theorem next_pool {e : Event Val} (hnext : next P n s e = some s') :
    (∃ i, e = .act i ∧ Pool.next P n s.pool i = some s'.pool) ∨ s'.pool = s.pool := by
  cases e with
  | act i =>
    refine Or.inl ⟨i, rfl, ?_⟩
    rw [next] at hnext
    split at hnext
    · obtain ⟨pool, hpool, rfl⟩ := Option.map_eq_some_iff.mp hnext
      exact hpool
    · split at hnext
      · cases hnext
      · obtain ⟨pool, hpool, rfl⟩ := Option.map_eq_some_iff.mp hnext
        exact hpool
  | signal t f woken =>
    rw [next] at hnext
    split at hnext
    · cases hnext
      exact Or.inr rfl
    · cases hnext
  | wakeup t =>
    rw [next] at hnext
    split at hnext
    · cases hnext
      exact Or.inr rfl
    · cases hnext

theorem reachable_pool {ok : Sleepers Task Val Code → Event Val → Prop}
    (h : ReachableBy (system P n) ok s) : Reachable (Pool.system P n) s.pool := by
  induction h with
  | start hinit => exact .start hinit.1
  | step _ _ hnext ih =>
    rcases next_pool hnext with ⟨i, -, hpool⟩ | hpool
    · exact .step ih trivial hpool
    · rw [hpool]
      exact ih

end Refinement

section Sections

variable {Task Val Code : Type} {P : Program Task Val Code} {n t : Nat}
variable {s s' : State Task Val Code}

/-- The pool after the assignment of `FINISHED` that a section starts with, when it comes after a
task function. -/
def settled (s : State Task Val Code) (t : Nat) : State Task Val Code :=
  match finishing (s.thread t).control with
  | none => s
  | some f => finishTask s f

def LoopPc.early : LoopPc → Bool
  | .start | .arrive => true
  | _ => false

/-- What a section of thread `t` does, one constructor for each way it can end. -/
inductive Section (P : Program Task Val Code) (n : Nat) (s : State Task Val Code) (t : Nat) :
    State Task Val Code → Prop where
  | register : (s.thread t).control = .loop .start →
      Section P n s t (State.setControl { s with workers := t :: s.workers } t (.loop .arrive))
  | arrive : (s.thread t).control = .loop .arrive →
      Section P n s t (State.setControl { s with arrived := s.arrived + 1 } t (.loop .barrier))
  | exit (pc : LoopPc) : (s.thread t).control = .loop pc → LoopPc.early pc = false →
      s.isShutdown = true → Section P n s t ((settled s t).setControl t (.loop .exit))
  | wait (pc : LoopPc) : (s.thread t).control = .loop pc → LoopPc.early pc = false →
      s.tasks none = [] → Section P n s t ((settled s t).setControl t (.loop .wait))
  | walk (pc pc' : LoopPc) : (s.thread t).control = .loop pc → LoopPc.early pc = false →
      (pc' = .head ∨ ∃ e, pc' = .scan e) → Section P n s t ((settled s t).setControl t (.loop pc'))
  | take (pc : LoopPc) (f : Nat) (q : Option Nat) (l : List Nat) :
      (s.thread t).control = .loop pc → LoopPc.early pc = false → (s.tasks q).Perm (f :: l) →
      Section P n s t (callTask P ((settled s t).setTasks q l) t (.loop f q))
  | read (c : Code) (k : Val → Code) (value : Val) : (s.thread t).control = .code c →
      P.instr c = .read k → Section P n s t (s.setControl t (.code (k value)))
  | submit (c : Code) (task : Task) (data : Val) (k : Nat → Code) :
      (s.thread t).control = .code c → P.instr c = .submit task data k →
      Section P n s t (threadPoolSubmit n s t task data k)
  | ret (c : Code) (value : Val) : (s.thread t).control = .code c → P.instr c = .ret value →
      Section P n s t (returnTask s t value)
  | ask (c : Code) (f : Nat) (k : Val → Code) : (s.thread t).control = .code c →
      P.instr c = .get f k → f < s.submitted →
      Section P n s t (s.setControl t (.get f f k .enter))
  | again (asked f : Nat) (k : Val → Code) : (s.thread t).control = .get asked f k .enter →
      (s.future f).worker = none → (s.future f).state ≠ .FINISHED →
      Section P n s t (s.setControl t (.get asked f k .enter))
  | help (asked f g w : Nat) (k : Val → Code) (l : List Nat) :
      (s.thread t).control = .get asked f k .enter → (s.tasks (some w)).Perm (g :: l) →
      Section P n s t (callTask P (s.setTasks (some w) l) t (.get asked g k))
  | result (asked f : Nat) (k : Val → Code) (pc : GetPc) :
      (s.thread t).control = .get asked f k pc →
      Section P n s t ((settled s t).setControl t (.get asked f k .result))
  | got (asked f : Nat) (k : Val → Code) (c : Code) :
      (s.thread t).control = .get asked f k .result → Section P n s t (s.setControl t (.code c))

theorem settled_of_none (h : finishing (s.thread t).control = none) : settled s t = s := by
  rw [settled, h]

theorem settled_of_some {f : Nat} (h : finishing (s.thread t).control = some f) :
    settled s t = finishTask s f := by
  rw [settled, h]

@[simp] theorem settled_thread : (settled s t).thread = s.thread := by
  unfold settled
  split <;> rfl

@[simp] theorem settled_tasks : (settled s t).tasks = s.tasks := by
  unfold settled
  split <;> rfl

@[simp] theorem settled_isShutdown : (settled s t).isShutdown = s.isShutdown := by
  unfold settled
  split <;> rfl

@[simp] theorem settled_arrived : (settled s t).arrived = s.arrived := by
  unfold settled
  split <;> rfl

@[simp] theorem settled_workers : (settled s t).workers = s.workers := by
  unfold settled
  split <;> rfl

@[simp] theorem settled_submitted : (settled s t).submitted = s.submitted := by
  unfold settled
  split <;> rfl

@[simp] theorem settled_worker (f : Nat) :
    ((settled s t).future f).worker = (s.future f).worker := by
  unfold settled
  split
  · rfl
  · rename_i g hg
    by_cases heq : f = g
    · simp [finishTask, heq]
    · simp [finishTask, heq]

/-- The inner loop of a worker, behind the assignment of `FINISHED`. -/
theorem search_section (listsEmpty : Bool) {pc : LoopPc}
    (hpc : (s.thread t).control = .loop pc) (hearly : LoopPc.early pc = false) :
    Section P n s t (search P listsEmpty (settled s t) t) := by
  unfold search
  split
  · rename_i hwait
    simp only [settled_tasks, Bool.and_eq_true, List.isEmpty_iff] at hwait
    exact .wait pc hpc hearly hwait.1.2
  · split
    · rename_i hne
      refine .take pc _ none _ hpc hearly ?_
      have hperm := dropLast_perm hne.1
      simpa using hperm
    · exact .walk pc _ hpc hearly (Or.inr ⟨_, rfl⟩)

theorem loopHead_section (listsEmpty : Bool) {pc : LoopPc}
    (hpc : (s.thread t).control = .loop pc) (hearly : LoopPc.early pc = false) :
    Section P n s t (loopHead P listsEmpty (settled s t) t) := by
  unfold loopHead
  split
  · rename_i hshutdown
    rw [settled_isShutdown] at hshutdown
    exact .exit pc hpc hearly hshutdown
  · exact search_section listsEmpty hpc hearly

theorem threadFunction_section {listsEmpty : Bool} {pc : LoopPc}
    (hpc : (s.thread t).control = .loop pc)
    (hnext : threadFunction P n listsEmpty s t pc = some s') : Section P n s t s' := by
  have hfinishing : finishing (s.thread t).control = finishing (.loop pc : Control Val Code) := by
    rw [hpc]
  cases pc with
  | start =>
    cases hnext
    exact .register hpc
  | arrive =>
    cases hnext
    exact .arrive hpc
  | barrier =>
    rw [threadFunction] at hnext
    split at hnext
    · cases hnext
      have hmove := Section.walk (P := P) (n := n) .barrier .head hpc rfl (Or.inl rfl)
      rwa [settled_of_none hfinishing] at hmove
    · cases hnext
  | head =>
    cases hnext
    have hhead := loopHead_section (P := P) (n := n) listsEmpty hpc rfl
    rwa [settled_of_none hfinishing] at hhead
  | wait =>
    cases hnext
    have hsearch := search_section (P := P) (n := n) listsEmpty hpc rfl
    rwa [settled_of_none hfinishing] at hsearch
  | scan e =>
    cases e with
    | none =>
      cases hnext
      have hhead := loopHead_section (P := P) (n := n) listsEmpty hpc rfl
      rwa [settled_of_none hfinishing] at hhead
    | some w =>
      cases hnext
      unfold visit
      split
      · rename_i hne
        have htake := Section.take (P := P) (n := n) (.scan (some w)) _ (some w) _ hpc rfl
          (dropLast_perm hne)
        rwa [settled_of_none hfinishing] at htake
      · have hwalk := Section.walk (P := P) (n := n) (.scan (some w))
          (.scan (listNext s.workers w)) hpc rfl (Or.inr ⟨_, rfl⟩)
        rwa [settled_of_none hfinishing] at hwalk
  | finish f stolen =>
    have hsome : finishing (s.thread t).control = some f := hfinishing
    cases stolen with
    | none =>
      cases hnext
      have hhead := loopHead_section (P := P) (n := n) listsEmpty hpc rfl
      rwa [settled_of_some hsome] at hhead
    | some w =>
      cases hnext
      have hwalk := Section.walk (P := P) (n := n) (.finish f (some w)) .head hpc rfl (Or.inl rfl)
      rwa [settled_of_some hsome] at hwalk
  | exit => cases hnext

theorem getLocal_section {asked f w : Nat} {k : Val → Code} (hs : Sound s)
    (hpc : (s.thread t).control = .get asked f k .enter) (hworker : (s.future f).worker = some w) :
    Section P n s t (getLocal P s t asked f w k) := by
  have hfinishing : finishing (s.thread t).control = none := by
    rw [hpc]
    rfl
  have hresult := Section.result (P := P) (n := n) asked f k .enter hpc
  rw [settled_of_none hfinishing] at hresult
  unfold getLocal
  cases hstate : (s.future f).state with
  | WAITING =>
    have hsituation := hs.inv.situation f (hs.known t asked f k hpc).2
    simp only [Situation, hstate, hworker] at hsituation
    exact .help asked f f w k _ hpc (List.perm_cons_erase hsituation.1.mem)
  | RUNNING =>
    cases htasks : s.tasks (some w) with
    | nil => exact hresult
    | cons g rest =>
      refine .help asked f g w k rest hpc ?_
      rw [htasks]
  | FINISHED => exact hresult

theorem futureGet_section {asked f : Nat} {k : Val → Code} {pc : GetPc} (hs : Sound s)
    (hpc : (s.thread t).control = .get asked f k pc) :
    Section P n s t (futureGet P s t asked f k pc) := by
  have hfinishing : finishing (s.thread t).control =
      finishing (.get asked f k pc : Control Val Code) := by
    rw [hpc]
  cases pc with
  | enter =>
    rw [futureGet]
    cases hworker : (s.future f).worker with
    | none =>
      show Section P n s t (getGlobal s t asked f k)
      unfold getGlobal
      split
      · have hresult := Section.result (P := P) (n := n) asked f k .enter hpc
        rwa [settled_of_none hfinishing] at hresult
      · rename_i hstate
        exact .again asked f k hpc hworker hstate
    | some w => exact getLocal_section hs hpc hworker
  | finish =>
    have hresult := Section.result (P := P) (n := n) asked f k .finish hpc
    rwa [settled_of_some hfinishing] at hresult
  | result => exact .got asked f k _ hpc

theorem execInstr_section {c : Code} (hpc : (s.thread t).control = .code c)
    (hnext : execInstr n s t (P.instr c) = some s') : Section P n s t s' := by
  cases hinstr : P.instr c with
  | ret value =>
    rw [hinstr] at hnext
    cases hnext
    exact .ret c value hpc hinstr
  | read k =>
    rw [hinstr] at hnext
    cases hnext
  | submit task data k =>
    rw [hinstr] at hnext
    cases hnext
    exact .submit c task data k hpc hinstr
  | get f k =>
    rw [hinstr, execInstr] at hnext
    split at hnext
    · rename_i hf
      cases hnext
      exact .ask c f k hpc hinstr hf
    · cases hnext

theorem section_of_next {i : Label Val} (hs : Sound s) (ht : i.thread = some t)
    (hnext : Pool.next P n s i = some s') : Section P n s t s' := by
  cases i with
  | run u listsEmpty =>
    cases ht
    rw [Pool.next] at hnext
    cases hcontrol : (s.thread t).control with
    | loop pc =>
      rw [hcontrol] at hnext
      exact threadFunction_section hcontrol hnext
    | code c =>
      rw [hcontrol] at hnext
      exact execInstr_section hcontrol hnext
    | get asked f k pc =>
      rw [hcontrol] at hnext
      cases hnext
      exact futureGet_section hs hcontrol
    | done =>
      rw [hcontrol] at hnext
      cases hnext
  | read u value =>
    cases ht
    rw [Pool.next] at hnext
    split at hnext
    · rename_i c hcontrol
      split at hnext
      · rename_i k hinstr
        cases hnext
        exact .read c k value hcontrol hinstr
      · cases hnext
    · cases hnext
  | shutdown => cases ht

end Sections

end ComputerSystems.Threadpool.Wakeups
