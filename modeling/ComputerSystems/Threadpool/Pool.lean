/- The work-stealing thread pool, one mutex-protected section at a time. -/

import Mathlib.Logic.Function.Basic
import ComputerSystems.Systems.Runs
import ComputerSystems.Threadpool.Programs

set_option autoImplicit false
set_option relaxedAutoImplicit false

namespace ComputerSystems.Threadpool.Pool

open ComputerSystems.Systems.Runs
open ComputerSystems.Threadpool.Programs

/-- Where a worker is in `thread_function`. `finish` comes after a task, with the worker it was
stolen from, and `scan` walks over the workers up to `list_end`. -/
inductive LoopPc where
  | start
  | arrive
  | barrier
  | head
  | wait
  | scan (e : Option Nat)
  | finish (future : Nat) (stolen : Option Nat)
  | exit
  deriving DecidableEq, Repr

inductive GetPc where
  | enter
  | finish
  | result
  deriving DecidableEq, Repr

/-- What a thread executes. A call of `future_get` has the future that was asked for, the variable
`future`, and the code that waits for the value. -/
inductive Control (Val Code : Type) where
  | loop (pc : LoopPc)
  | code (c : Code)
  | get (asked future : Nat) (k : Val → Code) (pc : GetPc)
  | done

/-- A call `future->task(future->pool, future->args)`, from `thread_function` or `future_get`. -/
inductive Caller (Val Code : Type) where
  | loop (future : Nat) (stolen : Option Nat)
  | get (asked future : Nat) (k : Val → Code)

structure Thread (Val Code : Type) where
  control : Control Val Code
  callers : List (Caller Val Code)

/-- The pool, its futures and all threads; threads below `n` are workers. `tasks none` is
`global_tasks_list` and `tasks (some w)` the `local_tasks_list` of worker `w`, front first.
`invoked` and `returned` record the calls of each future's task function. -/
structure State (Task Val Code : Type) where
  isShutdown : Bool
  tasks : Option Nat → List Nat
  workers : List Nat
  arrived : Nat
  submitted : Nat
  future : Nat → Future Task Val
  thread : Nat → Thread Val Code
  invoked : Nat → Nat
  returned : Nat → Option Val

section Sections

variable {Task Val Code : Type}

def Caller.future : Caller Val Code → Nat
  | .loop f _ => f
  | .get _ f _ => f

def Caller.resume : Caller Val Code → Control Val Code
  | .loop f stolen => .loop (.finish f stolen)
  | .get asked f k => .get asked f k .finish

def State.setControl (s : State Task Val Code) (t : Nat) (c : Control Val Code) :
    State Task Val Code :=
  { s with thread := Function.update s.thread t { s.thread t with control := c } }

def State.setTasks (s : State Task Val Code) (q : Option Nat) (l : List Nat) :
    State Task Val Code :=
  { s with tasks := Function.update s.tasks q l }

/-- `future->state = FINISHED`. -/
def finishTask (s : State Task Val Code) (f : Nat) : State Task Val Code :=
  { s with future := Function.update s.future f { s.future f with state := .FINISHED } }

/-- `future->state = RUNNING` and the call of the task function. -/
def callTask (P : Program Task Val Code) (s : State Task Val Code) (t : Nat)
    (caller : Caller Val Code) : State Task Val Code :=
  let f := caller.future
  { s with
    future := Function.update s.future f { s.future f with state := .RUNNING }
    thread := Function.update s.thread t
      ⟨.code (P.body (s.future f).task (s.future f).args), caller :: (s.thread t).callers⟩
    invoked := Function.update s.invoked f (s.invoked f + 1) }

/-- The task function returns, and its value is stored in `future->result`. -/
def returnTask (s : State Task Val Code) (t : Nat) (value : Val) : State Task Val Code :=
  match (s.thread t).callers with
  | [] => s.setControl t .done
  | caller :: callers =>
    let f := caller.future
    { s with
      future := Function.update s.future f { s.future f with result := value }
      thread := Function.update s.thread t ⟨caller.resume, callers⟩
      returned := Function.update s.returned f (some value) }

/-- From the inner `while` of `thread_function` to its wait, or to the end of the section.
`listsEmpty` is the value of `workers_lists_empty`. -/
def search (P : Program Task Val Code) (listsEmpty : Bool) (s : State Task Val Code) (t : Nat) :
    State Task Val Code :=
  if !s.isShutdown && (s.tasks none).isEmpty && listsEmpty then
    s.setControl t (.loop .wait)
  else if h : s.tasks none ≠ [] ∧ s.isShutdown = false then
    callTask P (s.setTasks none (s.tasks none).dropLast) t (.loop ((s.tasks none).getLast h.1) none)
  else
    s.setControl t (.loop (.scan s.workers.head?))

/-- The head of the outer `while` of `thread_function`. -/
def loopHead (P : Program Task Val Code) (listsEmpty : Bool) (s : State Task Val Code) (t : Nat) :
    State Task Val Code :=
  if s.isShutdown then s.setControl t (.loop .exit) else search P listsEmpty s t

/-- One round of the `for` loop of `thread_function`, at worker `w`. -/
def visit (P : Program Task Val Code) (s : State Task Val Code) (t w : Nat) :
    State Task Val Code :=
  if h : s.tasks (some w) ≠ [] then
    callTask P (s.setTasks (some w) (s.tasks (some w)).dropLast) t
      (.loop ((s.tasks (some w)).getLast h) (some w))
  else
    s.setControl t (.loop (.scan (listNext s.workers w)))

/-- The next section of a worker in `thread_function`. -/
def threadFunction (P : Program Task Val Code) (n : Nat) (listsEmpty : Bool)
    (s : State Task Val Code) (t : Nat) : LoopPc → Option (State Task Val Code)
  | .start => some (State.setControl { s with workers := t :: s.workers } t (.loop .arrive))
  | .arrive => some (State.setControl { s with arrived := s.arrived + 1 } t (.loop .barrier))
  | .barrier => if s.arrived = n then some (s.setControl t (.loop .head)) else none
  | .head => some (loopHead P listsEmpty s t)
  | .wait => some (search P listsEmpty s t)
  | .scan none => some (loopHead P listsEmpty s t)
  | .scan (some w) => some (visit P s t w)
  | .finish f none => some (loopHead P listsEmpty (finishTask s f) t)
  | .finish f (some _) => some ((finishTask s f).setControl t (.loop .head))
  | .exit => none

def threadPoolSubmit (n : Nat) (s : State Task Val Code) (t : Nat) (task : Task) (data : Val)
    (k : Nat → Code) : State Task Val Code :=
  let f := s.submitted
  let worker := currWorker n t
  { (s.setTasks worker (f :: s.tasks worker)).setControl t (.code (k f)) with
    submitted := f + 1
    future := Function.update s.future f
      { s.future f with task := task, args := data, worker := worker, state := .WAITING } }

/-- The section of `future_get` for a future of worker `w`, up to the call of a task function or
to the unlock. -/
def getLocal (P : Program Task Val Code) (s : State Task Val Code) (t asked f w : Nat)
    (k : Val → Code) : State Task Val Code :=
  match (s.future f).state with
  | .WAITING =>
    callTask P (s.setTasks (some w) ((s.tasks (some w)).erase f)) t (.get asked f k)
  | .RUNNING =>
    match s.tasks (some w) with
    | [] => s.setControl t (.get asked f k .result)
    | g :: rest => callTask P (s.setTasks (some w) rest) t (.get asked g k)
  | .FINISHED => s.setControl t (.get asked f k .result)

/-- The section of `future_get` for a future of the global list. A wait at the condition variable
leads back to its start. -/
def getGlobal (s : State Task Val Code) (t asked f : Nat) (k : Val → Code) : State Task Val Code :=
  if (s.future f).state = .FINISHED then s.setControl t (.get asked f k .result)
  else s.setControl t (.get asked f k .enter)

/-- The next section of `future_get`. -/
def futureGet (P : Program Task Val Code) (s : State Task Val Code) (t asked f : Nat)
    (k : Val → Code) : GetPc → State Task Val Code
  | .enter =>
    match (s.future f).worker with
    | none => getGlobal s t asked f k
    | some w => getLocal P s t asked f w k
  | .finish => (finishTask s f).setControl t (.get asked f k .result)
  | .result => s.setControl t (.code (k (s.future f).result))

def execInstr (n : Nat) (s : State Task Val Code) (t : Nat) :
    Instr Task Val Code → Option (State Task Val Code)
  | .ret value => some (returnTask s t value)
  | .read _ => none
  | .submit task data k => some (threadPoolSubmit n s t task data k)
  | .get f k => if f < s.submitted then some (s.setControl t (.get f f k .enter)) else none

def next (P : Program Task Val Code) (n : Nat) (s : State Task Val Code) :
    Label Val → Option (State Task Val Code)
  | .run t listsEmpty =>
    match (s.thread t).control with
    | .loop pc => threadFunction P n listsEmpty s t pc
    | .code c => execInstr n s t (P.instr c)
    | .get asked f k pc => some (futureGet P s t asked f k pc)
    | .done => none
  | .read t value =>
    match (s.thread t).control with
    | .code c =>
      match P.instr c with
      | .read k => some (s.setControl t (.code (k value)))
      | _ => none
    | _ => none
  | .shutdown => some { s with isShutdown := true }

/-- `thread_pool_new` with `n` workers. The futures are memory that `malloc` has not given out. -/
def system (P : Program Task Val Code) (n : Nat) : System (State Task Val Code) (Label Val) where
  init s :=
    s.isShutdown = false ∧ (∀ q, s.tasks q = []) ∧ s.workers = [] ∧ s.arrived = 0 ∧
    s.submitted = 0 ∧
    (∀ t, s.thread t = ⟨if t < n then .loop .start else .code (P.main t), []⟩) ∧
    (∀ f, s.invoked f = 0) ∧ ∀ f, s.returned f = none
  next := next P n

end Sections

end ComputerSystems.Threadpool.Pool
