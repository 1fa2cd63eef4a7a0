/- Fork-join programs, their futures, and the steps that threads take. -/

set_option autoImplicit false
set_option relaxedAutoImplicit false

namespace ComputerSystems.Threadpool.Programs

/-- `enum status`. -/
inductive Status where
  | WAITING
  | RUNNING
  | FINISHED
  deriving DecidableEq, Repr

/-- What running code does next. `read` is a look at memory that is not the pool's. -/
inductive Instr (Task Val Code : Type) where
  | ret (value : Val)
  | read (k : Val → Code)
  | submit (task : Task) (data : Val) (k : Nat → Code)
  | get (future : Nat) (k : Val → Code)

/-- A fork-join program: the bodies of its task functions, and the code of the threads outside
the pool. -/
structure Program (Task Val Code : Type) where
  instr : Code → Instr Task Val Code
  body : Task → Val → Code
  main : Nat → Code

/-- `struct future`; `worker` is `NULL` for the futures of the global list. -/
structure Future (Task Val : Type) where
  task : Task
  args : Val
  worker : Option Nat
  result : Val
  state : Status

/-- `list_next` on the list of workers, where `none` is the end of the list. -/
def listNext : List Nat → Nat → Option Nat
  | [], _ => none
  | x :: xs, w => if x = w then xs.head? else listNext xs w

/-- `curr_worker` of a thread. -/
def currWorker (n t : Nat) : Option Nat :=
  if t < n then some t else none

/-- A thread takes its next step, where `workers_lists_empty` gives `listsEmpty`; a thread reads a
value; or the shutdown of the pool begins. -/
inductive Label (Val : Type) where
  | run (t : Nat) (listsEmpty : Bool)
  | read (t : Nat) (value : Val)
  | shutdown

def Label.thread {Val : Type} : Label Val → Option Nat
  | .run t _ => some t
  | .read t _ => some t
  | .shutdown => none

end ComputerSystems.Threadpool.Programs
