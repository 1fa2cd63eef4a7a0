/- The thread pool, one lock, unlock, wait or list operation at a time. -/

import ComputerSystems.Systems.Mutexes
import ComputerSystems.Systems.Runs
import ComputerSystems.Threadpool.Programs

set_option autoImplicit false
set_option relaxedAutoImplicit false

namespace ComputerSystems.Threadpool.Locks

open ComputerSystems.Systems.Runs
open ComputerSystems.Systems.Mutexes
open ComputerSystems.Threadpool.Programs

/-- `pool->global_lock`, and `worker->local_lock` of each worker. -/
inductive Mutex where
  | globalLock
  | localLock (w : Nat)
  deriving DecidableEq, Repr

def listLock : Option Nat → Mutex
  | none => .globalLock
  | some w => .localLock w

/-- What a thread is about to do. `access` is an operation on a list of tasks, and `remove` is
`list_remove` of a future. -/
inductive Op where
  | step
  | lock (m : Mutex)
  | unlock (m : Mutex)
  | wait (m : Mutex)
  | access (q : Option Nat)
  | remove (f : Nat)
  deriving DecidableEq, Repr

def Op.action : Op → Action Mutex
  | .lock m => .lock m
  | .unlock m => .unlock m
  | .wait m => .wait m
  | _ => .none

/-- The points of `thread_function`. `pop`, `popped`, `finish` and `finished` carry the list the
task comes from. -/
inductive LoopPc where
  | start
  | register
  | registered
  | arrive
  | barrier
  | enter
  | outer
  | inner
  | tested (listsEmpty : Bool)
  | wait
  | waiting
  | check
  | pop (q : Option Nat)
  | popped (f : Nat) (q : Option Nat)
  | finish (f : Nat) (q : Option Nat)
  | finished (f : Nat) (q : Option Nat)
  | search
  | scan (e : Option Nat)
  | visit (w : Nat)
  | visited (w : Nat)
  | leave (w : Nat)
  | skip (w : Nat)
  | closing
  | exit
  deriving DecidableEq, Repr

/-- The points of `workers_lists_empty`; `early` is the unlock inside the branch. -/
inductive EmptyPc where
  | scan (e : Option Nat)
  | lock (w : Nat)
  | check (w : Nat)
  | early (w : Nat)
  | unlock (w : Nat)
  deriving DecidableEq, Repr

/-- The points of `thread_pool_submit`. -/
inductive SubmitPc where
  | lock
  | push
  | unlock (f : Nat)
  | done (f : Nat)
  deriving DecidableEq, Repr

/-- The points of `future_get`. -/
inductive GetPc where
  | lock
  | branch
  | await
  | wait
  | waiting
  | remove
  | check
  | pop
  | running
  | finish
  | finished
  | unlock
  | done
  deriving DecidableEq, Repr

inductive Control (Task Val Code : Type) where
  | loop (pc : LoopPc)
  | empty (pc : EmptyPc)
  | code (c : Code)
  | submit (task : Task) (data : Val) (k : Nat → Code) (pc : SubmitPc)
  | get (asked future : Nat) (k : Val → Code) (pc : GetPc)
  | done

/-- A call of a task function, from `thread_function` or from `future_get`. -/
inductive Caller (Val Code : Type) where
  | loop (future : Nat) (q : Option Nat)
  | get (asked future : Nat) (k : Val → Code)

structure Thread (Task Val Code : Type) where
  control : Control Task Val Code
  callers : List (Caller Val Code)

/-- `entries` records, for each call of a function of the pool that a thread is in, the mutexes it
owned when the call began. -/
structure State (Task Val Code : Type) where
  owner : Mutex → Option Nat
  isShutdown : Bool
  tasks : Option Nat → List Nat
  workers : List Nat
  arrived : Nat
  submitted : Nat
  future : Nat → Future Task Val
  thread : Nat → Thread Task Val Code
  entries : Nat → List (Mutex → Bool)

section Steps

variable {Task Val Code : Type}

def owned (s : State Task Val Code) (t : Nat) (m : Mutex) : Bool :=
  s.owner m = some t

def State.setThread (s : State Task Val Code) (t : Nat) (th : Thread Task Val Code) :
    State Task Val Code :=
  { s with thread := Function.update s.thread t th }

def State.go (s : State Task Val Code) (t : Nat) (c : Control Task Val Code) :
    State Task Val Code :=
  s.setThread t { s.thread t with control := c }

def State.setStatus (s : State Task Val Code) (f : Nat) (x : Status) : State Task Val Code :=
  { s with future := Function.update s.future f { s.future f with state := x } }

def State.setTasks (s : State Task Val Code) (q : Option Nat) (l : List Nat) :
    State Task Val Code :=
  { s with tasks := Function.update s.tasks q l }

def State.call (s : State Task Val Code) (t : Nat) (c : Control Task Val Code) :
    State Task Val Code :=
  { s.go t c with entries := Function.update s.entries t (owned s t :: s.entries t) }

def State.leave (s : State Task Val Code) (t : Nat) (c : Control Task Val Code) :
    State Task Val Code :=
  { s.go t c with entries := Function.update s.entries t (s.entries t).tail }

def Caller.future : Caller Val Code → Nat
  | .loop f _ => f
  | .get _ f _ => f

def Caller.resume : Caller Val Code → Control Task Val Code
  | .loop f q => .loop (.finish f q)
  | .get asked f k => .get asked f k .finish

/-- `future->task(future->pool, future->args)`. -/
def callTask (P : Program Task Val Code) (s : State Task Val Code) (t : Nat)
    (caller : Caller Val Code) : State Task Val Code :=
  let x := s.future caller.future
  s.setThread t ⟨.code (P.body x.task x.args), caller :: (s.thread t).callers⟩

/-- The task function returns, and its value is stored in `future->result`. -/
def returnTask (s : State Task Val Code) (t : Nat) (value : Val) : State Task Val Code :=
  match (s.thread t).callers with
  | [] => s.go t .done
  | caller :: callers =>
    let f := caller.future
    State.setThread
      { s with future := Function.update s.future f { s.future f with result := value } }
      t ⟨caller.resume, callers⟩

def loopOp (s : State Task Val Code) : LoopPc → Op
  | .start => .lock .globalLock
  | .registered => .unlock .globalLock
  | .enter => .lock .globalLock
  | .inner => if s.isShutdown then .step else .access none
  | .wait => .wait .globalLock
  | .waiting => .lock .globalLock
  | .check => .access none
  | .pop q => .access q
  | .popped _ q => .unlock (listLock q)
  | .finish _ q => .lock (listLock q)
  | .search => .unlock .globalLock
  | .visit w => .lock (.localLock w)
  | .visited w => .access (some w)
  | .leave w => .unlock (.localLock w)
  | .skip w => .unlock (.localLock w)
  | .closing => .unlock .globalLock
  | _ => .step

/-- `list_pop_back` and `future->state = RUNNING`. -/
def popBack (s : State Task Val Code) (t : Nat) (q : Option Nat) : Option (State Task Val Code) :=
  if h : s.tasks q ≠ [] then
    let f := (s.tasks q).getLast h
    some (((s.setTasks q (s.tasks q).dropLast).setStatus f .RUNNING).go t (.loop (.popped f q)))
  else none

/-- `thread_function`; `workers_lists_empty` starts at `curr_worker`. -/
def loopStep (P : Program Task Val Code) (n : Nat) (s : State Task Val Code) (t : Nat) :
    LoopPc → Option (State Task Val Code)
  | .start => some (s.go t (.loop .register))
  | .register => some (State.go { s with workers := t :: s.workers } t (.loop .registered))
  | .registered => some (s.go t (.loop .arrive))
  | .arrive => some (State.go { s with arrived := s.arrived + 1 } t (.loop .barrier))
  | .barrier => if s.arrived = n then some (s.go t (.loop .enter)) else none
  | .enter => some (s.go t (.loop .outer))
  | .outer => some (s.go t (.loop (if s.isShutdown then .closing else .inner)))
  | .inner =>
    if !s.isShutdown && (s.tasks none).isEmpty then some (s.call t (.empty (.scan (some t))))
    else some (s.go t (.loop .check))
  | .tested listsEmpty => some (s.go t (.loop (if listsEmpty then .wait else .check)))
  | .wait => some (s.go t (.loop .waiting))
  | .waiting => some (s.go t (.loop .inner))
  | .check =>
    some (s.go t (.loop (if !(s.tasks none).isEmpty && !s.isShutdown then .pop none else .search)))
  | .pop q => popBack s t q
  | .popped f q => some (callTask P s t (.loop f q))
  | .finish f q => some (s.go t (.loop (.finished f q)))
  | .finished f none => some ((s.setStatus f .FINISHED).go t (.loop .outer))
  | .finished f (some w) => some ((s.setStatus f .FINISHED).go t (.loop (.leave w)))
  | .search => some (s.go t (.loop (.scan s.workers.head?)))
  | .scan none => some (s.go t (.loop .enter))
  | .scan (some w) => some (s.go t (.loop (.visit w)))
  | .visit w => some (s.go t (.loop (.visited w)))
  | .visited w =>
    some (s.go t (.loop (if (s.tasks (some w)).isEmpty then .skip w else .pop (some w))))
  | .leave _ => some (s.go t (.loop .enter))
  | .skip w => some (s.go t (.loop (.scan (listNext s.workers w))))
  | .closing => some (s.go t (.loop .exit))
  | .exit => none

def emptyOp : EmptyPc → Op
  | .scan _ => .step
  | .lock w => .lock (.localLock w)
  | .check w => .access (some w)
  | .early w => .unlock (.localLock w)
  | .unlock w => .unlock (.localLock w)

/-- `workers_lists_empty`. It returns variables that are not declared: `listsEmpty` is any value. -/
def emptyStep (s : State Task Val Code) (t : Nat) (listsEmpty : Bool) :
    EmptyPc → State Task Val Code
  | .scan none => s.leave t (.loop (.tested listsEmpty))
  | .scan (some w) => s.go t (.empty (.lock w))
  | .lock w => s.go t (.empty (.check w))
  | .check w => s.go t (.empty (if (s.tasks (some w)).isEmpty then .unlock w else .early w))
  | .early w => s.go t (.empty (.unlock w))
  | .unlock w => s.go t (.empty (.scan (listNext s.workers w)))

/-- The mutex that `thread_pool_submit` takes. -/
def submitLock (n t : Nat) : Mutex :=
  listLock (currWorker n t)

/-- The mutex that `future_get` takes and gives back, read through `future`. -/
def getLock (s : State Task Val Code) (f : Nat) : Mutex :=
  listLock (s.future f).worker

def submitOp (n : Nat) (s : State Task Val Code) (t : Nat) : SubmitPc → Op
  | .lock => .lock (submitLock n t)
  | .push => .access (currWorker n t)
  | .unlock f => .unlock (if t < n then getLock s f else .globalLock)
  | .done _ => .step

/-- `thread_pool_submit`. The fields of the future are set before anyone else can know it. -/
def submitStep (n : Nat) (s : State Task Val Code) (t : Nat) (task : Task) (data : Val)
    (k : Nat → Code) : SubmitPc → State Task Val Code
  | .lock => s.go t (.submit task data k .push)
  | .push =>
    let f := s.submitted
    let worker := currWorker n t
    State.go
      { s.setTasks worker (f :: s.tasks worker) with
        submitted := f + 1
        future := Function.update s.future f
          { s.future f with task := task, args := data, worker := worker, state := .WAITING } }
      t (.submit task data k (.unlock f))
  | .unlock f => s.go t (.submit task data k (.done f))
  | .done f => s.leave t (.code (k f))

def getOp (s : State Task Val Code) (f : Nat) : GetPc → Op
  | .lock => .lock (getLock s f)
  | .wait => .wait (getLock s f)
  | .waiting => .lock (getLock s f)
  | .remove => .remove f
  | .check => .access (s.future f).worker
  | .pop => .access (s.future f).worker
  | .running => .unlock (getLock s f)
  | .finish => .lock (getLock s f)
  | .unlock => .unlock (getLock s f)
  | _ => .step

/-- The branches of `future_get` on `future->worker` and `future->state`. -/
def getBranch (s : State Task Val Code) (f : Nat) : GetPc :=
  match (s.future f).worker, (s.future f).state with
  | some _, .WAITING => .remove
  | some _, .RUNNING => .check
  | _, _ => .await

def getStep (P : Program Task Val Code) (s : State Task Val Code) (t asked f : Nat)
    (k : Val → Code) : GetPc → Option (State Task Val Code)
  | .lock => some (s.go t (.get asked f k .branch))
  | .branch => some (s.go t (.get asked f k (getBranch s f)))
  | .await => some (s.go t (.get asked f k
      (if (s.future f).state = .FINISHED then .unlock else .wait)))
  | .wait => some (s.go t (.get asked f k .waiting))
  | .waiting => some (s.go t (.get asked f k .await))
  | .remove =>
    some ((State.setStatus { s with tasks := fun q => (s.tasks q).erase f } f .RUNNING).go t
      (.get asked f k .running))
  | .check =>
    some (s.go t (.get asked f k
      (if (s.tasks (s.future f).worker).isEmpty then .unlock else .pop)))
  | .pop =>
    match s.tasks (s.future f).worker with
    | [] => none
    | g :: rest =>
      some (((s.setTasks (s.future f).worker rest).setStatus g .RUNNING).go t
        (.get asked g k .running))
  | .running => some (callTask P s t (.get asked f k))
  | .finish => some (s.go t (.get asked f k .finished))
  | .finished => some ((s.setStatus f .FINISHED).go t (.get asked f k .unlock))
  | .unlock => some (s.go t (.get asked f k .done))
  | .done => some (s.leave t (.code (k (s.future f).result)))

def op (n : Nat) (s : State Task Val Code) (t : Nat) : Op :=
  match (s.thread t).control with
  | .loop pc => loopOp s pc
  | .empty pc => emptyOp pc
  | .code _ => .step
  | .submit _ _ _ pc => submitOp n s t pc
  | .get _ f _ pc => getOp s f pc
  | .done => .step

def execInstr (s : State Task Val Code) (t : Nat) :
    Instr Task Val Code → Option (State Task Val Code)
  | .ret value => some (returnTask s t value)
  | .read _ => none
  | .submit task data k => some (s.call t (.submit task data k .lock))
  | .get f k => if f < s.submitted then some (s.call t (.get f f k .lock)) else none

def transfer (P : Program Task Val Code) (n : Nat) (s : State Task Val Code) (t : Nat)
    (listsEmpty : Bool) : Option (State Task Val Code) :=
  match (s.thread t).control with
  | .loop pc => loopStep P n s t pc
  | .empty pc => some (emptyStep s t listsEmpty pc)
  | .code c => execInstr s t (P.instr c)
  | .submit task data k pc => some (submitStep n s t task data k pc)
  | .get asked f k pc => getStep P s t asked f k pc
  | .done => none

def next (P : Program Task Val Code) (n : Nat) (s : State Task Val Code) :
    Label Val → Option (State Task Val Code)
  | .run t listsEmpty => do
    let owner ← perform s.owner t (op n s t).action
    let s' ← transfer P n s t listsEmpty
    return { s' with owner := owner }
  | .read t value =>
    match (s.thread t).control with
    | .code c =>
      match P.instr c with
      | .read k => some (s.go t (.code (k value)))
      | _ => none
    | _ => none
  | .shutdown => if (s.owner .globalLock).isNone then some { s with isShutdown := true } else none

/-- `thread_pool_new` with `n` workers, which enter `thread_function` without any mutex. -/
def system (P : Program Task Val Code) (n : Nat) : System (State Task Val Code) (Label Val) where
  init s :=
    (∀ m, s.owner m = none) ∧ s.isShutdown = false ∧ (∀ q, s.tasks q = []) ∧ s.workers = [] ∧
    s.arrived = 0 ∧ s.submitted = 0 ∧
    (∀ t, s.thread t = ⟨if t < n then .loop .start else .code (P.main t), []⟩) ∧
    ∀ t, s.entries t = if t < n then [fun _ => false] else []
  next := next P n

end Steps

end ComputerSystems.Threadpool.Locks
