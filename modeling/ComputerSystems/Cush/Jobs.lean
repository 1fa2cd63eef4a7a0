/- Jobs, and what a status that `waitpid` reports makes of one. -/

import ComputerSystems.Cush.Ast

set_option autoImplicit false
set_option relaxedAutoImplicit false

namespace ComputerSystems.Cush.Jobs

open ComputerSystems.Cush.Ast

/-- `enum job_status`. -/
inductive Status where
  | FOREGROUND
  | BACKGROUND
  | STOPPED
  | NEEDSTERMINAL
  | EXITED
  | TERMINATED
  | KILLED
  | DNE
  | FPE
  | SEGV
  | ABRT
  deriving DecidableEq, Repr

/-- `struct termios`, which is only copied. -/
abbrev Termios := Nat

/-- `struct job`; `pids` is `none` up to `list_init`. -/
structure Job where
  pipe : Pipeline
  jid : Int
  status : Status
  numProcessesAlive : Int
  savedTtyState : Termios
  pids : Option (List Int)
  pgrp : Int
  deriving DecidableEq, Repr

def toDeleteJob : Status → Bool
  | .EXITED => true
  | .TERMINATED => true
  | .KILLED => true
  | .FPE => true
  | .SEGV => true
  | .ABRT => true
  | .DNE => true
  | _ => false

def SIGABRT : Nat := 6
def SIGFPE : Nat := 8
def SIGKILL : Nat := 9
def SIGSEGV : Nat := 11
def SIGTERM : Nat := 15
def SIGSTOP : Nat := 19
def SIGTTIN : Nat := 21
def SIGTTOU : Nat := 22

/-- A status from `waitpid`, as the macros `WIFSTOPPED`, `WIFEXITED` and `WIFSIGNALED` see it. -/
inductive WaitStatus where
  | stopped (signal : Nat)
  | exited (code : Nat)
  | signaled (signal : Nat)
  deriving DecidableEq, Repr

def WaitStatus.final : WaitStatus → Bool
  | .stopped _ => false
  | _ => true

def stoppedStatus (signal : Nat) : Status :=
  if signal = SIGTTOU ∨ signal = SIGTTIN then .NEEDSTERMINAL else .STOPPED

def signaledStatus (signal : Nat) : Status :=
  if signal = SIGKILL then .KILLED
  else if signal = SIGFPE then .FPE
  else if signal = SIGSEGV then .SEGV
  else if signal = SIGABRT then .ABRT
  else .TERMINATED

/-- The body of `handle_child_status` on the job that was found; `tty` are the present settings of
the terminal. -/
def Job.handle (tty : Termios) (job : Job) : WaitStatus → Job
  | .stopped signal => { job with status := stoppedStatus signal, savedTtyState := tty }
  | .exited _ =>
    { job with
      numProcessesAlive := job.numProcessesAlive - 1
      status := if job.numProcessesAlive - 1 = 0 then .EXITED else job.status }
  | .signaled signal =>
    { job with
      numProcessesAlive := job.numProcessesAlive - 1
      status := signaledStatus signal }

@[simp] theorem toDeleteJob_signaledStatus (signal : Nat) :
    toDeleteJob (signaledStatus signal) = true := by
  rw [signaledStatus]
  split_ifs <;> rfl

@[simp] theorem toDeleteJob_stoppedStatus (signal : Nat) :
    toDeleteJob (stoppedStatus signal) = false := by
  rw [stoppedStatus]
  split_ifs <;> rfl

section Handle

variable (tty : Termios) (job : Job) (status : WaitStatus)

@[simp] theorem handle_pids : (job.handle tty status).pids = job.pids := by
  cases status <;> rfl

@[simp] theorem handle_jid : (job.handle tty status).jid = job.jid := by
  cases status <;> rfl

@[simp] theorem handle_pipe : (job.handle tty status).pipe = job.pipe := by
  cases status <;> rfl

@[simp] theorem handle_pgrp : (job.handle tty status).pgrp = job.pgrp := by
  cases status <;> rfl

theorem handle_alive : (job.handle tty status).numProcessesAlive =
    job.numProcessesAlive - if status.final then 1 else 0 := by
  cases status with
  | stopped signal => exact (Int.sub_zero _).symm
  | exited code => rfl
  | signaled signal => rfl

end Handle

end ComputerSystems.Cush.Jobs
