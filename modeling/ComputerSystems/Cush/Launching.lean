/- `handle_job`: the pipes, file actions and attributes with which the commands of a job are spawned. -/

import ComputerSystems.Cush.Jobs

set_option autoImplicit false
set_option relaxedAutoImplicit false

namespace ComputerSystems.Cush.Launching

open ComputerSystems.Cush.Ast
open ComputerSystems.Cush.Jobs

def STDIN_FILENO : Int := 0
def STDOUT_FILENO : Int := 1
def STDERR_FILENO : Int := 2

def O_RDONLY : Nat := 0
def O_WRONLY : Nat := 1
def O_CREAT : Nat := 64
def O_TRUNC : Nat := 512
def O_APPEND : Nat := 1024

def S_IRWXU : Nat := 448

/-- What `posix_spawn_file_actions_adddup2` and `posix_spawn_file_actions_addopen` add. -/
inductive FileAction where
  | dup2 (fd newfd : Int)
  | addopen (fd : Int) (path : Word) (oflag mode : Nat)
  deriving DecidableEq, Repr

/-- The attributes of a spawned process: its process group, and whether this is given the terminal. -/
structure SpawnAttr where
  pgroup : Int
  tcsetpgroup : Bool
  deriving DecidableEq, Repr

/-- The result of `posix_spawnp`, and what the variable `pid` holds then. -/
structure SpawnResult where
  success : Bool
  pid : Int
  positive : success = true → 0 < pid
  deriving DecidableEq, Repr

/-- The system calls of `handle_job` behind `open_pipelines`. -/
inductive Call where
  | spawn (argv : List Word) (attr : SpawnAttr) (actions : List FileAction) (result : SpawnResult)
  | close (fd : Int)
  deriving DecidableEq, Repr

/-- `pipelines[i]`; `none` outside of the array. -/
def load (pipelines : List Int) (i : Int) : Option Int :=
  if 0 ≤ i then pipelines[i.toNat]? else none

/-- `pipelines[i] = fd`. -/
def store (pipelines : List Int) (i : Nat) (fd : Int) : Option (List Int) :=
  if i < pipelines.length then some (pipelines.set i fd) else none

/-- One turn of the loop of `open_pipelines`, with the result of its call of `pipe2`. -/
def openPipeline (pipe2 : Nat → Option (Int × Int)) (pipelines : List Int) (k : Nat) :
    Option (List Int) :=
  match pipe2 k with
  | none => some pipelines
  | some (readEnd, writeEnd) => do
    let pipelines ← store pipelines (2 * k) readEnd
    store pipelines (2 * k + 1) writeEnd

def openPipelines (pipe2 : Nat → Option (Int × Int)) (numPipelines : Nat) (pipelines : List Int) :
    Option (List Int) :=
  (List.range numPipelines).foldlM (openPipeline pipe2) pipelines

/-- The descriptors that `close_pipelines` closes, in order. -/
def closePipelines (numPipelines : Nat) (pipelines : List Int) : Option (List Int) :=
  (List.range (numPipelines * 2)).mapM fun i : Nat => load pipelines i

/-- `connect_pipeline`; the element `e` is the command `k` of `n`. -/
def connectPipeline (i : Int) (pipelines : List Int) (k n : Nat) : Option (List FileAction) := do
  if k = 0 then
    return [.dup2 (← load pipelines (i + 1)) STDOUT_FILENO]
  else if k ≠ 0 ∧ k ≠ n - 1 then
    return [.dup2 (← load pipelines (i - 2)) STDIN_FILENO,
      .dup2 (← load pipelines (i + 1)) STDOUT_FILENO]
  else if k = n - 1 then
    return [.dup2 (← load pipelines (i - 2)) STDIN_FILENO]
  else return []

/-- The redirection of the standard input, for the command `k`. -/
def inputActions (pipe : Pipeline) (k : Nat) : List FileAction :=
  match pipe.ioredInput with
  | some path => if k = 0 then [.addopen STDIN_FILENO path O_RDONLY S_IRWXU] else []
  | none => []

def outputActions (pipe : Pipeline) (k : Nat) : List FileAction :=
  match pipe.ioredOutput with
  | some path =>
    if k = pipe.commands.length - 1 then
      if pipe.appendToOutput then
        [.addopen STDOUT_FILENO path (O_CREAT ||| O_WRONLY ||| O_APPEND) 0o600]
      else [.addopen STDOUT_FILENO path (O_CREAT ||| O_WRONLY ||| O_TRUNC) 0o600]
    else []
  | none => []

def stderrActions (command : Command) : List FileAction :=
  if command.dupStderrToStdout then [.dup2 STDOUT_FILENO STDERR_FILENO] else []

/-- All file actions of the command `k`, in the order in which they are added. -/
def fileActions (pipe : Pipeline) (pipelines : List Int) (k : Nat) (i : Int) (command : Command) :
    Option (List FileAction) := do
  let pipes ← if pipe.commands.length - 1 ≥ 1 then
      connectPipeline i pipelines k pipe.commands.length
    else pure []
  return pipes ++ inputActions pipe k ++ outputActions pipe k ++ stderrActions command

/-- The attributes of the command `k`. -/
def spawnAttr (job : Job) (k : Nat) : SpawnAttr where
  pgroup := if k = 0 then 0 else job.pgrp
  tcsetpgroup := job.status = .FOREGROUND

/-- `job` after the call of `posix_spawnp` for the command `k`. -/
def spawned (job : Job) (k : Nat) (result : SpawnResult) : Job :=
  if result.success then
    if k = 0 then { job with pgrp := result.pid } else job
  else { job with status := .DNE }

/-- `list_push_back(&job->pids, &child->elem)`. -/
def recorded (job : Job) (pid : Int) : Job :=
  { job with pids := job.pids.map (· ++ [pid]) }

/-- `job->num_processes_alive++`. -/
def counted (job : Job) : Job :=
  { job with numProcessesAlive := job.numProcessesAlive + 1 }

/-- The loop of `handle_job`, from the command `k` on; `results` are those of `posix_spawnp`. -/
def launchLoop (pipelines : List Int) (results : Nat → SpawnResult) :
    Nat → Int → List Command → Job → Option (Job × List Call)
  | _, _, [], job => some (job, [])
  | k, i, command :: commands, job => do
    let attr := spawnAttr job k
    let actions ← fileActions job.pipe pipelines k i command
    let job := counted (recorded (spawned job k (results k)) (results k).pid)
    let (job, calls) ← launchLoop pipelines results (k + 1) (i + 2) commands job
    return (job, .spawn command.argv attr actions (results k) :: calls)

/-- What `handle_job` depends on: the memory of its array, and the results of its calls. -/
structure Outcomes where
  fresh : Nat → Int
  pipe2 : Nat → Option (Int × Int)
  spawn : Nat → SpawnResult

/-- `handle_job`, while no handler runs. -/
def handleJob (out : Outcomes) (job : Job) : Option (Job × List Call) := do
  let numPipelines := job.pipe.commands.length - 1
  let pipelines := (List.range (numPipelines * 2)).map out.fresh
  let pipelines ← openPipelines out.pipe2 numPipelines pipelines
  let (job, calls) ← launchLoop pipelines out.spawn 0 0 job.pipe.commands job
  let closed ← closePipelines numPipelines pipelines
  return (job, calls ++ closed.map .close)

structure Process where
  pid : Int
  group : Int
  deriving DecidableEq, Repr

/-- The process that a successful call creates; `setpgid(0, 0)` makes a group of its own. -/
def process (attr : SpawnAttr) (result : SpawnResult) : Process :=
  ⟨result.pid, if attr.pgroup = 0 then result.pid else attr.pgroup⟩

def Call.child : Call → Option Process
  | .spawn _ attr _ result => if result.success then some (process attr result) else none
  | .close _ => none

def processes (calls : List Call) : List Process :=
  calls.filterMap Call.child

end ComputerSystems.Cush.Launching
