/- The shell, its signal handler and its children, one statement or system call at a time. -/

import ComputerSystems.Cush.Launching
import ComputerSystems.Memory.CStrings
import ComputerSystems.Pserv.Strings
import ComputerSystems.Systems.Runs
import ComputerSystems.Systems.Tables
import Mathlib.Logic.Function.Basic

set_option autoImplicit false
set_option relaxedAutoImplicit false

namespace ComputerSystems.Cush.Shell

open ComputerSystems.Memory.CStrings (textToInt)
open ComputerSystems.Pserv.Strings (ascii)
open ComputerSystems.Systems.Runs
open ComputerSystems.Systems.Tables
open ComputerSystems.Cush.Ast
open ComputerSystems.Cush.Jobs
open ComputerSystems.Cush.Launching

/-- How the shell ends; `wild` is a walk along a list that has not been initialised. -/
inductive Halt where
  | exit
  | fatal
  | abort
  | crash
  | wild
  deriving DecidableEq, Repr

/-- Where the shell is between two statements, with the job at hand. A point named after a built-in
command is behind its call of `killpg`, or for `fg` and `bg` in front of it. -/
inductive Point where
  | prompt
  | line
  | added (job : Nat)
  | numbered (job : Nat)
  | initialised (job : Nat)
  | spawn (job k : Nat)
  | record (job k : Nat) (pid : Int)
  | count (job k : Nat)
  | fg (job : Nat)
  | foreground (job : Nat)
  | bg (job : Nat)
  | stop (job : Nat)
  | kill (job : Nat)
  | block (job : Nat)
  | wait (job : Nat)
  | deleting (e : List Nat)
  | halted (how : Halt)
  deriving DecidableEq, Repr

structure Child where
  job : Nat
  group : Int
  deriving DecidableEq, Repr

/-- The shell and what the kernel knows of it. `tty` and `owner` are the settings and the foreground
group of the terminal. Jobs are numbered as they are allocated. `failures` counts the calls of
`posix_spawnp` that have failed for a job, and `due` has the settings of the terminal when the job
was last stopped in the foreground, or else launched in the background. -/
structure State where
  jobList : List Nat
  jid2job : Nat → Option Nat
  job : Nat → Job
  pipes : CommandLine
  blocked : Bool
  point : Point
  shellTty : Termios
  shellPgrp : Int
  tty : Termios
  owner : Int
  child : Table Int Child
  allocated : Nat
  failures : Nat → Nat
  due : Nat → Option Termios

/-- What can happen next: a round of the loop in `sigchld_handler`, a change of the terminal by
another process, or a statement of the shell with the result of its system call. -/
inductive Event where
  | handler (pid : Int) (status : WaitStatus)
  | terminal (tty : Termios) (owner : Int)
  | readline (pipes : CommandLine)
  | eof
  | malloc (fresh : Job)
  | spawn (result : SpawnResult)
  | tcsetpgrp (success : Bool)
  | killpg (success : Bool)
  | waitpid (pid : Int) (status : WaitStatus)
  | step
  deriving DecidableEq, Repr

def MAXJOBS : Nat := 1 <<< 16

def State.setJob (s : State) (r : Nat) (job : Job) : State :=
  { s with job := Function.update s.job r job }

def State.setStatus (s : State) (r : Nat) (status : Status) : State :=
  s.setJob r { s.job r with status := status }

def State.goto (s : State) (point : Point) : State :=
  { s with point := point }

def State.halt (s : State) (how : Halt) : State :=
  s.goto (.halted how)

def getJobFromJid (s : State) (jid : Int) : Option Nat :=
  if 0 < jid ∧ jid < MAXJOBS then s.jid2job jid.toNat else none

/-- What `get_job_from_pid` comes to. -/
inductive Lookup where
  | absent
  | found (job : Nat)
  | wild
  deriving DecidableEq, Repr

/-- `get_job_from_pid`, from an element of the job list on. -/
def getJobFromPid (job : Nat → Job) (pid : Int) : List Nat → Lookup
  | [] => .absent
  | r :: rest =>
    match (job r).pids with
    | none => .wild
    | some pids => if pid ∈ pids then .found r else getJobFromPid job pid rest

/-- `termstate_sample`, when a process of a foreground job has exited. -/
def sampled (s : State) (job : Job) : WaitStatus → Termios
  | .exited _ => if job.status = .FOREGROUND then s.tty else s.shellTty
  | _ => s.shellTty

def handleChildStatus (s : State) (pid : Int) (status : WaitStatus) : State :=
  match getJobFromPid s.job pid s.jobList with
  | .absent => s
  | .wild => s.halt .wild
  | .found r =>
    { s.setJob r ((s.job r).handle s.tty status) with shellTty := sampled s (s.job r) status }

def stoppedDue (s : State) (c : Child) : WaitStatus → Nat → Option Termios
  | .stopped _ => if s.owner = c.group then Function.update s.due c.job (some s.tty) else s.due
  | _ => s.due

/-- `waitpid` reports a status of a child, which is reaped if it has ended. -/
def reap (s : State) (pid : Int) (status : WaitStatus) : Option State :=
  match s.child.lookup pid with
  | none => none
  | some c =>
    some (handleChildStatus
      { s with
        child := if status.final then s.child.erase pid else s.child
        due := stoppedDue s c status } pid status)

/-- The loop of `main` up to `handle_command_line`. -/
def readEval (s : State) : Event → Option State
  | .readline pipes => some (if pipes = [] then s else { s with pipes := pipes, point := .line })
  | .eof => some (s.halt .exit)
  | _ => none

/-- The job that a built-in command names; both missing results are used as pointers. -/
def jobArgument (s : State) (argv : List Word) : Option Nat :=
  argv[1]?.bind fun arg => getJobFromJid s (textToInt arg)

/-- `termstate_give_terminal_to`. -/
def giveTerminalTo (s : State) (tty : Termios) (pgrp : Int) : State :=
  { s with tty := tty, owner := pgrp }

def doFg (s : State) (argv : List Word) (e : Event) : Option State :=
  match jobArgument s argv, e with
  | none, .step => some (s.halt .crash)
  | some _, .tcsetpgrp false => some (s.halt .fatal)
  | some r, .tcsetpgrp true =>
    some ((giveTerminalTo s (s.job r).savedTtyState (s.job r).pgrp).goto (.fg r))
  | _, _ => none

def doBg (s : State) (argv : List Word) (e : Event) : Option State :=
  match jobArgument s argv, e with
  | none, .step => some (s.halt .crash)
  | some r, .step => some ((s.setStatus r .BACKGROUND).goto (.bg r))
  | _, _ => none

def doStop (s : State) (argv : List Word) (e : Event) : Option State :=
  match jobArgument s argv, e with
  | none, .step => some (s.halt .crash)
  | some r, .killpg success => some (s.goto (if success then .stop r else .line))
  | _, _ => none

def doKill (s : State) (argv : List Word) (e : Event) : Option State :=
  match jobArgument s argv, e with
  | none, .step => some (s.halt .crash)
  | some r, .killpg success => some (s.goto (if success then .kill r else .line))
  | _, _ => none

def builtins : List Word :=
  [ascii "jobs", ascii "fg", ascii "bg", ascii "kill", ascii "exit", ascii "stop", ascii "history"]

def isBuiltin (command : Command) : Bool :=
  command.name ∈ builtins

/-- `handle_builtin`; `do_jobs` and `do_history` only print. -/
def handleBuiltin (s : State) (command : Command) (e : Event) : Option State :=
  if command.name = ascii "fg" then doFg s command.argv e
  else if command.name = ascii "bg" then doBg s command.argv e
  else if command.name = ascii "jobs" then if e = .step then some (s.goto .line) else none
  else if command.name = ascii "stop" then doStop s command.argv e
  else if command.name = ascii "kill" then doKill s command.argv e
  else if command.name = ascii "exit" then if e = .step then some (s.halt .exit) else none
  else if e = .step then some (s.goto .line)
  else none

/-- `add_job` up to `list_push_back`; only the fields that it sets are not those of `fresh`. -/
def pushJob (s : State) (pipe : Pipeline) (fresh : Job) : State :=
  { s.setJob s.allocated { fresh with pipe := pipe, numProcessesAlive := 0, pids := none } with
    jobList := s.jobList ++ [s.allocated]
    allocated := s.allocated + 1
    point := .added s.allocated }

/-- The search of `add_job` for a free id. -/
def freeJid (jid2job : Nat → Option Nat) : Option Nat :=
  (List.range' 1 (MAXJOBS - 1)).find? fun i => (jid2job i).isNone

/-- `add_job` from the search on. -/
def numberJob (s : State) (r : Nat) : State :=
  match freeJid s.jid2job with
  | none => s.halt .abort
  | some i =>
    { s.setJob r { s.job r with jid := i } with
      jid2job := Function.update s.jid2job i (some r)
      point := .numbered r }

/-- `handle_command_line` up to `handle_job`. -/
def startJob (s : State) (r : Nat) : State :=
  if (s.job r).pipe.bgJob then
    { s.setJob r { s.job r with status := .BACKGROUND, savedTtyState := s.tty } with
      due := Function.update s.due r (some s.tty)
      point := .spawn r 0 }
  else (s.setStatus r .FOREGROUND).goto (.spawn r 0)

/-- The loop of `handle_command_line`. -/
def handleCommandLine (s : State) (e : Event) : Option State :=
  match s.pipes with
  | [] => if e = .step then some (s.goto (.deleting s.jobList)) else none
  | pipe :: pipes =>
    if isBuiltin pipe.front then handleBuiltin { s with pipes := pipes } pipe.front e
    else
      match e with
      | .malloc fresh => some (pushJob { s with pipes := pipes } pipe fresh)
      | _ => none

/-- `posix_spawnp` succeeds: the kernel has a new process, with an unused number. -/
def spawnProcess (s : State) (r : Nat) (attr : SpawnAttr) (result : SpawnResult) : State :=
  { s with
    child := s.child.insert result.pid ⟨r, (process attr result).group⟩
    owner := if attr.tcsetpgroup then (process attr result).group else s.owner }

/-- The call of `posix_spawnp` for the command `k`, up to the branches on its result. -/
def spawnCommand (s : State) (r k : Nat) (result : SpawnResult) : Option State :=
  let job := s.job r
  if result.success then
    if (s.child.lookup result.pid).isSome then none
    else
      some (((spawnProcess s r (spawnAttr job k) result).setJob r (spawned job k result)).goto
        (.record r k result.pid))
  else
    some { s.setJob r (spawned job k result) with
      failures := Function.update s.failures r (s.failures r + 1)
      point := .record r k result.pid }

/-- The head of the loop of `handle_job`, at the command `k`. -/
def launchTurn (s : State) (r k : Nat) (e : Event) : Option State :=
  if k < (s.job r).pipe.commands.length then
    match e with
    | .spawn result => spawnCommand s r k result
    | _ => none
  else if e = .step then some (s.goto (if (s.job r).pipe.bgJob then .line else .block r))
  else none

/-- The head of the loop of `wait_for_job`, and the `signal_unblock` behind it. -/
def waitForJob (s : State) (r : Nat) (e : Event) : Option State :=
  if (s.job r).status = .FOREGROUND ∧ 0 < (s.job r).numProcessesAlive then
    match e with
    | .waitpid pid status => reap s pid status
    | .step => if s.child.entries.isEmpty then some (s.halt .fatal) else none
    | _ => none
  else if e = .step then some { s with blocked := false, point := .line }
  else none

def deleteJob (s : State) (r : Nat) : State :=
  let jid := (s.job r).jid
  if jid = -1 then s.halt .abort
  else
    match s.jid2job jid.toNat with
    | none => s.halt .crash
    | some q =>
      { s.setJob q { s.job q with jid := -1 } with
        jid2job := Function.update s.jid2job jid.toNat none }

/-- A turn of the loop of `delete_all_finished_jobs`. -/
def visitJob (s : State) (r : Nat) (rest : List Nat) : State :=
  if toDeleteJob (s.job r).status then
    deleteJob { s with jobList := s.jobList.erase r, point := .deleting rest } r
  else s.goto (.deleting rest)

def run (s : State) (e : Event) : Option State :=
  match s.point with
  | .prompt => readEval s e
  | .line => handleCommandLine s e
  | .added r => if e = .step then some (numberJob s r) else none
  | .numbered r =>
    if e = .step then some ((s.setJob r { s.job r with pids := some [] }).goto (.initialised r))
    else none
  | .initialised r => if e = .step then some (startJob s r) else none
  | .spawn r k => launchTurn s r k e
  | .record r k pid =>
    if e = .step then some ((s.setJob r (recorded (s.job r) pid)).goto (.count r k)) else none
  | .count r k =>
    if e = .step then some ((s.setJob r (counted (s.job r))).goto (.spawn r (k + 1))) else none
  | .fg r =>
    match e with
    | .killpg success => some (s.goto (if success then .foreground r else .line))
    | _ => none
  | .foreground r =>
    if e = .step then some ((s.setStatus r .FOREGROUND).goto (.block r)) else none
  | .bg _ =>
    match e with
    | .killpg _ => some (s.goto .line)
    | _ => none
  | .stop r => if e = .step then some ((s.setStatus r .STOPPED).goto .line) else none
  | .kill r => if e = .step then some ((s.setStatus r .KILLED).goto .line) else none
  | .block r => if e = .step then some { s with blocked := true, point := .wait r } else none
  | .wait r => waitForJob s r e
  | .deleting [] =>
    if e = .step then some ((giveTerminalTo s s.shellTty s.shellPgrp).goto .prompt) else none
  | .deleting (r :: rest) => if e = .step then some (visitJob s r rest) else none
  | .halted _ => none

def Point.isHalted : Point → Bool
  | .halted _ => true
  | _ => false

def next (s : State) : Event → Option State
  | .handler pid status => if s.blocked || s.point.isHalted then none else reap s pid status
  | .terminal tty owner =>
    if s.point.isHalted then none else some { s with tty := tty, owner := owner }
  | e => run s e

def system : System State Event where
  init s :=
    s.jobList = [] ∧ (∀ i, s.jid2job i = none) ∧ s.blocked = false ∧ s.point = .prompt ∧
    s.child = ∅ ∧ s.allocated = 0 ∧ (∀ r, s.failures r = 0) ∧ ∀ r, s.due r = none
  next := next

end ComputerSystems.Cush.Shell
