/- What `handle_job` leaves in the job when commands cannot be spawned. -/

import ComputerSystems.Cush.Launching
import ComputerSystems.Pserv.Strings

set_option autoImplicit false
set_option relaxedAutoImplicit false

namespace ComputerSystems.Cush.SpawnFailures

open ComputerSystems.Cush.Ast
open ComputerSystems.Cush.Jobs
open ComputerSystems.Cush.Launching
open ComputerSystems.Pserv.Strings

/-- The job that `handle_command_line` calls `handle_job` with. -/
def prepared (pipe : Pipeline) (jid : Int) (saved : Termios) (pgrp : Int) : Job where
  pipe := pipe
  jid := jid
  status := if pipe.bgJob then .BACKGROUND else .FOREGROUND
  numProcessesAlive := 0
  savedTtyState := saved
  pids := some []
  pgrp := pgrp

/-- The job tells of the processes that were spawned, and of no others. -/
structure Consistent (job : Job) (spawned : List Process) : Prop where
  alive : job.numProcessesAlive = spawned.length
  pids : job.pids = some (spawned.map Process.pid)
  group : ∀ p ∈ spawned, p.group = job.pgrp
  leader : ∀ p, spawned.head? = some p → job.pgrp = p.pid
  listed : spawned ≠ [] → job.status ≠ .DNE

theorem mapM_some {α β : Type} {l : List α} {f : α → Option β} {g : α → β}
    (h : ∀ a ∈ l, f a = some (g a)) : l.mapM f = some (l.map g) := by
  have hpure : (f ∘ Subtype.val : {a // a ∈ l} → Option β) = fun a => pure (g a.1) :=
    funext fun a => h a.1 a.2
  calc l.mapM f = (l.attach.map Subtype.val).mapM f := by rw [List.attach_map_subtype_val]
    _ = l.attach.mapM (f ∘ Subtype.val) := List.mapM_map
    _ = some (l.attach.map fun a : {a // a ∈ l} => g a.1) := by rw [hpure, List.mapM_pure]; rfl
    _ = some (l.map g) := by rw [List.attach_map_val]

section Arrays

variable {pipelines : List Int} {i : Int} {k n : Nat}

theorem load_some (h : 0 ≤ i) (hi : i < pipelines.length) : ∃ fd, load pipelines i = some fd := by
  have hlt : i.toNat < pipelines.length := by omega
  exact ⟨pipelines[i.toNat], by rw [load, if_pos h, List.getElem?_eq_getElem hlt]⟩

theorem store_some {j : Nat} {fd : Int} (h : j < pipelines.length) :
    store pipelines j fd = some (pipelines.set j fd) := if_pos h

theorem connectPipeline_some (hlength : pipelines.length = 2 * (n - 1)) (hk : k < n)
    (hn : 1 ≤ n - 1) (hi : i = 2 * k) : ∃ actions, connectPipeline i pipelines k n = some actions := by
  have hnext (h : k < n - 1) : ∃ fd, load pipelines (i + 1) = some fd :=
    load_some (by omega) (by omega)
  have hlast (h : k ≠ 0) : ∃ fd, load pipelines (i - 2) = some fd :=
    load_some (by omega) (by omega)
  rw [connectPipeline]
  split_ifs with hfirst hmiddle hend
  · obtain ⟨fd, hfd⟩ := hnext (by omega)
    exact ⟨_, by rw [hfd]; rfl⟩
  · obtain ⟨fd, hfd⟩ := hlast hfirst
    obtain ⟨fd', hfd'⟩ := hnext (by omega)
    exact ⟨_, by rw [hfd, hfd']; rfl⟩
  · obtain ⟨fd, hfd⟩ := hlast hfirst
    exact ⟨_, by rw [hfd]; rfl⟩
  · exact ⟨[], rfl⟩

theorem fileActions_some {pipe : Pipeline} (command : Command)
    (hlength : pipelines.length = 2 * (pipe.commands.length - 1)) (hk : k < pipe.commands.length)
    (hi : i = 2 * k) : ∃ actions, fileActions pipe pipelines k i command = some actions := by
  rw [fileActions]
  split_ifs with hn
  · obtain ⟨actions, hactions⟩ := connectPipeline_some hlength hk hn hi
    exact ⟨_, by rw [hactions]; rfl⟩
  · exact ⟨_, rfl⟩

theorem openPipelines_some (pipe2 : Nat → Option (Int × Int)) (h : 2 * n ≤ pipelines.length) :
    ∃ pipelines', openPipelines pipe2 n pipelines = some pipelines' ∧
      pipelines'.length = pipelines.length := by
  induction n with
  | zero => exact ⟨pipelines, rfl, rfl⟩
  | succ n ih =>
    obtain ⟨before, hbefore, hlength⟩ := ih (by omega)
    have hstep : openPipelines pipe2 (n + 1) pipelines = openPipeline pipe2 before n := by
      rw [openPipelines] at hbefore ⊢
      rw [List.range_succ, List.foldlM_append, hbefore]
      simp only [Option.bind_eq_bind, Option.bind_some, List.foldlM_cons, List.foldlM_nil,
        Option.pure_def, Option.bind_fun_some]
    rw [hstep, openPipeline]
    cases pipe2 n with
    | none => exact ⟨before, rfl, hlength⟩
    | some ends =>
      refine ⟨(before.set (2 * n) ends.1).set (2 * n + 1) ends.2, ?_, ?_⟩
      · dsimp only
        rw [store_some (by omega), Option.bind_eq_bind, Option.bind_some,
          store_some (by rw [List.length_set]; omega)]
      · rw [List.length_set, List.length_set, hlength]

theorem closePipelines_some (h : pipelines.length = n * 2) :
    closePipelines n pipelines = some pipelines := by
  have hload : ∀ i ∈ List.range (n * 2), load pipelines i = some (pipelines.getD i 0) := by
    intro i hi
    have hlt : i < pipelines.length := h ▸ List.mem_range.mp hi
    rw [load, if_pos (Int.natCast_nonneg i), Int.toNat_natCast, List.getD_eq_getElem?_getD,
      List.getElem?_eq_getElem hlt, Option.getD_some]
  rw [closePipelines, mapM_some hload, ← h]
  refine congrArg some (List.ext_getElem (by simp) ?_)
  intro i hi hi'
  rw [List.getElem_map, List.getElem_range, List.getD_eq_getElem?_getD,
    List.getElem?_eq_getElem hi', Option.getD_some]

end Arrays

section Loop

variable {out : Outcomes} {pipelines : List Int} {results : Nat → SpawnResult}
variable {commands : List Command} {job job' : Job} {calls : List Call} {k : Nat} {i : Int}

def turn (job : Job) (k : Nat) (result : SpawnResult) : Job :=
  counted (recorded (spawned job k result) result.pid)

@[simp] theorem turn_pipe {result : SpawnResult} : (turn job k result).pipe = job.pipe := by
  rw [turn, spawned]
  split_ifs <;> rfl

theorem turn_alive {result : SpawnResult} :
    (turn job k result).numProcessesAlive = job.numProcessesAlive + 1 := by
  rw [turn, spawned]
  split_ifs <;> rfl

theorem turn_pids {result : SpawnResult} :
    (turn job k result).pids = job.pids.map (· ++ [result.pid]) := by
  rw [turn, spawned]
  split_ifs <;> rfl

theorem turn_later (job : Job) {result : SpawnResult} (hk : k ≠ 0) (h : result.success = true) :
    (turn job k result).pgrp = job.pgrp ∧ (turn job k result).status = job.status := by
  rw [turn, spawned, if_pos h, if_neg hk]
  exact ⟨rfl, rfl⟩

theorem turn_first (job : Job) {result : SpawnResult} (h : result.success = true) :
    (turn job 0 result).pgrp = result.pid ∧ (turn job 0 result).status = job.status := by
  rw [turn, spawned, if_pos h, if_pos rfl]
  exact ⟨rfl, rfl⟩

theorem launchLoop_cons {command : Command}
    (h : launchLoop pipelines results k i (command :: commands) job = some (job', calls)) :
    ∃ actions calls', launchLoop pipelines results (k + 1) (i + 2) commands
        (turn job k (results k)) = some (job', calls') ∧
      calls = .spawn command.argv (spawnAttr job k) actions (results k) :: calls' := by
  simp only [launchLoop, Option.bind_eq_bind, Option.bind_eq_some_iff] at h
  obtain ⟨actions, -, ⟨job'', calls'⟩, hloop, hsome⟩ := h
  cases hsome
  exact ⟨actions, calls', hloop, rfl⟩

theorem launchLoop_some (results : Nat → SpawnResult)
    (hlength : pipelines.length = 2 * (job.pipe.commands.length - 1))
    (hk : k + commands.length = job.pipe.commands.length) (hi : i = 2 * k) :
    ∃ job' calls, launchLoop pipelines results k i commands job = some (job', calls) := by
  induction commands generalizing job k i with
  | nil => exact ⟨job, [], rfl⟩
  | cons command commands ih =>
    rw [List.length_cons] at hk
    obtain ⟨actions, hactions⟩ := fileActions_some command hlength (show k < _ by omega) hi
    have hpipe : (turn job k (results k)).pipe = job.pipe := turn_pipe
    have hlength' : pipelines.length = 2 * ((turn job k (results k)).pipe.commands.length - 1) := by
      rw [hpipe, hlength]
    obtain ⟨job', calls, hloop⟩ := ih (k := k + 1) (i := i + 2) hlength' (by rw [hpipe]; omega)
      (by omega)
    rw [turn] at hloop
    refine ⟨job', .spawn command.argv (spawnAttr job k) actions (results k) :: calls, ?_⟩
    rw [launchLoop, hactions]
    simp only [Option.bind_eq_bind, Option.bind_some, hloop]
    rfl

theorem launchLoop_alive (h : launchLoop pipelines results k i commands job = some (job', calls)) :
    job'.numProcessesAlive = job.numProcessesAlive + commands.length := by
  induction commands generalizing job calls k i with
  | nil =>
    cases h
    exact (Int.add_zero _).symm
  | cons command commands ih =>
    obtain ⟨actions, calls', hloop, rfl⟩ := launchLoop_cons h
    rw [ih hloop, turn_alive, List.length_cons]
    push_cast
    omega

theorem processes_spawn {argv : List Word} {attr : SpawnAttr} {actions : List FileAction}
    {result : SpawnResult} : processes (.spawn argv attr actions result :: calls) =
      (if result.success then [process attr result] else []) ++ processes calls := by
  rw [processes, List.filterMap_cons, Call.child]
  split_ifs <;> rfl

theorem length_processes
    (h : launchLoop pipelines results k i commands job = some (job', calls)) :
    (processes calls).length = (List.range' k commands.length).countP fun j => (results j).success := by
  induction commands generalizing job calls k i with
  | nil =>
    cases h
    rfl
  | cons command commands ih =>
    obtain ⟨actions, calls', hloop, rfl⟩ := launchLoop_cons h
    have hrest := ih hloop
    rw [List.length_cons, List.range'_succ, List.countP_cons, ← hrest, processes_spawn]
    split_ifs with hsuccess
    · rw [List.length_append, List.length_singleton, Nat.add_comm]
    · rfl

theorem launchLoop_later (hk : k ≠ 0) (hpgrp : job.pgrp ≠ 0)
    (h : launchLoop pipelines results k i commands job = some (job', calls))
    (hall : ∀ j, k ≤ j → j < k + commands.length → (results j).success = true) :
    job'.status = job.status ∧ job'.pgrp = job.pgrp ∧
      job'.pids = job.pids.map (· ++ (processes calls).map Process.pid) ∧
      ∀ p ∈ processes calls, p.group = job.pgrp := by
  induction commands generalizing job calls k i with
  | nil =>
    cases h
    refine ⟨rfl, rfl, ?_, fun p hp => absurd hp List.not_mem_nil⟩
    simp [processes]
  | cons command commands ih =>
    obtain ⟨actions, calls', hloop, rfl⟩ := launchLoop_cons h
    have hsuccess : (results k).success = true := hall k (Nat.le_refl _) (by simp)
    obtain ⟨hturn, hturn'⟩ := turn_later job hk hsuccess
    obtain ⟨hstatus, hgroup, hpids, hmembers⟩ := ih (Nat.succ_ne_zero k) (by rwa [hturn]) hloop
      fun j hj hj' => hall j (by omega) (by rw [List.length_cons]; omega)
    have hprocess : process (spawnAttr job k) (results k) = ⟨(results k).pid, job.pgrp⟩ := by
      simp only [process, spawnAttr, if_neg hk, if_neg hpgrp]
    rw [processes_spawn, if_pos hsuccess, hprocess, List.singleton_append]
    refine ⟨hstatus.trans hturn', hgroup.trans hturn, ?_, ?_⟩
    · rw [hpids, turn_pids]
      cases job.pids with
      | none => rfl
      | some pids => simp
    · intro p hp
      rcases List.mem_cons.mp hp with rfl | hp
      · rfl
      · exact (hmembers p hp).trans hturn

end Loop

section Commands

variable {out : Outcomes} {pipe : Pipeline} {jid : Int} {saved : Termios} {pgrp : Int}

theorem handleJob_loop (out : Outcomes) (job : Job) :
    ∃ (pipelines : List Int) (job' : Job) (calls : List Call) (closed : List Int),
    launchLoop pipelines out.spawn 0 0 job.pipe.commands job = some (job', calls) ∧
      handleJob out job = some (job', calls ++ closed.map .close) := by
  have hfits : 2 * (job.pipe.commands.length - 1) ≤
      ((List.range ((job.pipe.commands.length - 1) * 2)).map out.fresh).length := by
    rw [List.length_map, List.length_range]
    omega
  obtain ⟨pipelines, hopen, hlength⟩ := openPipelines_some out.pipe2 hfits
  rw [List.length_map, List.length_range] at hlength
  have hall : 0 + job.pipe.commands.length = job.pipe.commands.length := Nat.zero_add _
  have hstart : (0 : Int) = 2 * (0 : Nat) := rfl
  obtain ⟨job', calls, hloop⟩ :=
    launchLoop_some out.spawn (show pipelines.length = _ by omega) hall hstart
  refine ⟨pipelines, job', calls, pipelines, hloop, ?_⟩
  rw [handleJob]
  dsimp only
  rw [hopen, Option.bind_eq_bind, Option.bind_some, hloop, Option.bind_eq_bind, Option.bind_some,
    closePipelines_some hlength]
  rfl

theorem processes_append_close (calls : List Call) (closed : List Int) :
    processes (calls ++ closed.map .close) = processes calls := by
  have hnone : closed.filterMap (Call.child ∘ Call.close) = [] :=
    List.filterMap_eq_nil_iff.mpr fun _ _ => rfl
  rw [processes, List.filterMap_append, List.filterMap_map, hnone, List.append_nil, processes]

/-- The job is consistent with what was spawned when every command is spawned, and only then. -/
theorem consistent_iff (out : Outcomes) (pipe : Pipeline) (jid : Int) (saved : Termios)
    (pgrp : Int) : ∃ job calls, handleJob out (prepared pipe jid saved pgrp) = some (job, calls) ∧
      (Consistent job (processes calls) ↔
        ∀ k < pipe.commands.length, (out.spawn k).success = true) := by
  obtain ⟨pipelines, job, calls, closed, hloop, hrun⟩ :=
    handleJob_loop out (prepared pipe jid saved pgrp)
  refine ⟨job, _, hrun, ?_⟩
  rw [processes_append_close]
  have halive : job.numProcessesAlive = 0 + pipe.commands.length := launchLoop_alive hloop
  have hcount : (processes calls).length =
    (List.range' 0 pipe.commands.length).countP fun j => (out.spawn j).success :=
    length_processes hloop
  constructor
  · intro hconsistent k hk
    have hall : (List.range' 0 pipe.commands.length).countP (fun j => (out.spawn j).success) =
        (List.range' 0 pipe.commands.length).length := by
      have hsame := hconsistent.alive
      rw [List.length_range', ← hcount]
      omega
    exact List.countP_eq_length.mp hall k (by simp [List.mem_range'_1, hk])
  · intro hall
    have hcommands : ∃ command commands, pipe.commands = command :: commands := by
      cases hlist : pipe.commands with
      | nil => exact absurd hlist pipe.nonempty
      | cons command commands => exact ⟨command, commands, rfl⟩
    obtain ⟨command, commands, hlist⟩ := hcommands
    have hfirst : (out.spawn 0).success = true := hall 0 pipe.length_pos
    have hpositive := (out.spawn 0).positive hfirst
    have hspawned : job.numProcessesAlive = (processes calls).length := by
      rw [halive, hcount, List.countP_eq_length.mpr, List.length_range', Int.zero_add]
      intro k hk
      exact hall k (by simpa [List.mem_range'_1] using hk)
    rw [show (prepared pipe jid saved pgrp).pipe.commands = command :: commands from hlist] at hloop
    obtain ⟨actions, calls', hrest, rfl⟩ := launchLoop_cons hloop
    obtain ⟨hturn, hturn'⟩ := turn_first (prepared pipe jid saved pgrp) hfirst
    obtain ⟨hstatus, hgroup, hpids, hmembers⟩ := launchLoop_later (Nat.succ_ne_zero 0)
      (by rw [hturn]; omega) hrest fun j _ hj =>
        hall j (by rw [hlist, List.length_cons]; omega)
    have hleader : process (spawnAttr (prepared pipe jid saved pgrp) 0) (out.spawn 0) =
        ⟨(out.spawn 0).pid, (out.spawn 0).pid⟩ := rfl
    rw [processes_spawn, if_pos hfirst, List.singleton_append, hleader] at hspawned ⊢
    refine ⟨hspawned, ?_, ?_, ?_, fun _ => ?_⟩
    · rw [hpids, turn_pids]
      rfl
    · intro p hp
      rcases List.mem_cons.mp hp with rfl | hp
      · exact (hgroup.trans hturn).symm
      · rw [hmembers p hp, hgroup]
    · intro p hp
      obtain rfl : _ = p := Option.some.inj hp
      exact hgroup.trans hturn
    · rw [hstatus, hturn', prepared]
      dsimp only
      split_ifs <;> exact nofun

def word (name : String) : Command :=
  ⟨[ascii name], List.cons_ne_nil _ _, false⟩

/-- `nosuch | cat`, where the first command is not found. -/
def notFound : Outcomes where
  fresh _ := 0
  pipe2 _ := some (3, 4)
  spawn k := if k = 0 then ⟨false, 0, nofun⟩ else ⟨true, 7, fun _ => by decide⟩

/-- The job has status `DNE`, and `cat` is in another group. -/
theorem notFound_inconsistent : ¬ ∀ out pipe jid saved pgrp job calls,
    handleJob out (prepared pipe jid saved pgrp) = some (job, calls) →
      Consistent job (processes calls) := by
  intro hconsistent
  have hrun : (handleJob notFound (prepared
      ⟨[word "nosuch", word "cat"], List.cons_ne_nil _ _, none, none, false, false⟩ 1 0 0)).map
        (fun r => (r.1.numProcessesAlive, processes r.2)) = some (2, [⟨7, 7⟩]) := by
    decide
  obtain ⟨⟨job, calls⟩, hsome, hsame⟩ := Option.map_eq_some_iff.mp hrun
  obtain ⟨halive, hprocesses⟩ := Prod.mk.inj hsame
  have hcount := (hconsistent _ _ _ _ _ job calls hsome).alive
  rw [hprocesses, halive] at hcount
  cases hcount

end Commands

end ComputerSystems.Cush.SpawnFailures
