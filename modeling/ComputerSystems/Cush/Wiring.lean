/- The descriptors of the commands of a pipeline. -/

import ComputerSystems.Cush.SpawnFailures
import Mathlib.Logic.Function.Basic

set_option autoImplicit false
set_option relaxedAutoImplicit false

namespace ComputerSystems.Cush.Wiring

open ComputerSystems.Cush.Ast
open ComputerSystems.Cush.Jobs
open ComputerSystems.Cush.Launching
open ComputerSystems.Cush.SpawnFailures
open ComputerSystems.Pserv.Strings

inductive File where
  | inherited (id : Nat)
  | readEnd (k : Nat)
  | writeEnd (k : Nat)
  | opened (path : Word) (oflag mode : Nat)
  deriving DecidableEq, Repr

structure Descriptor where
  file : File
  cloexec : Bool
  deriving DecidableEq, Repr

abbrev Fds := Int → Option Descriptor

/-- `pipe2` with `O_CLOEXEC`, for the pipe `k`. -/
def openEnds (fds : Fds) (k : Nat) (ends : Int × Int) : Fds :=
  Function.update (Function.update fds ends.1 (some ⟨.readEnd k, true⟩)) ends.2
    (some ⟨.writeEnd k, true⟩)

/-- The shell's descriptors after `n` calls of `pipe2`. -/
def shellFds (fds : Fds) (ends : Nat → Int × Int) : Nat → Fds
  | 0 => fds
  | n + 1 => openEnds (shellFds fds ends n) n (ends n)

/-- Each call of `pipe2` has returned two descriptors that were not open. -/
def Unused (fds : Fds) (ends : Nat → Int × Int) (n : Nat) : Prop :=
  ∀ k < n, shellFds fds ends k (ends k).1 = none ∧ shellFds fds ends k (ends k).2 = none ∧
    (ends k).1 ≠ (ends k).2

/-- A file action of the child; `dup2` fails on a descriptor that is not open. -/
def act (fds : Fds) : FileAction → Option Fds
  | .dup2 fd newfd => (fds fd).map fun d => Function.update fds newfd (some ⟨d.file, false⟩)
  | .addopen fd path oflag mode =>
    some (Function.update fds fd (some ⟨.opened path oflag mode, false⟩))

def perform (actions : List FileAction) (fds : Fds) : Option Fds :=
  actions.foldlM act fds

/-- What is left open by `exec`. -/
def exec (fds : Fds) (fd : Int) : Option File :=
  (fds fd).bind fun d => if d.cloexec then none else some d.file

/-- The descriptors of all pipes, in the order of `pipelines`. -/
def pipeFds (ends : Nat → Int × Int) (n : Nat) : List Int :=
  (List.range n).flatMap fun k => [(ends k).1, (ends k).2]

/-- The command `k` of the pipeline reads and writes what the tree says; all other descriptors are
those of the shell before the pipes. -/
structure Wired (pipe : Pipeline) (fds : Fds) (k : Nat) (command : Command)
    (child : Int → Option File) : Prop where
  stdin : child STDIN_FILENO =
    if 0 < k then some (.readEnd (k - 1))
    else
      match pipe.ioredInput with
      | some path => some (.opened path O_RDONLY S_IRWXU)
      | none => exec fds STDIN_FILENO
  stdout : child STDOUT_FILENO =
    if k + 1 < pipe.commands.length then some (.writeEnd k)
    else
      match pipe.ioredOutput with
      | some path =>
        some (.opened path
          (O_CREAT ||| O_WRONLY ||| if pipe.appendToOutput then O_APPEND else O_TRUNC) 0o600)
      | none => exec fds STDOUT_FILENO
  stderr : child STDERR_FILENO =
    if command.dupStderrToStdout then child STDOUT_FILENO else exec fds STDERR_FILENO
  others : ∀ fd, fd ≠ STDIN_FILENO → fd ≠ STDOUT_FILENO → fd ≠ STDERR_FILENO →
    child fd = exec fds fd

section Pipes

variable {fds : Fds} {ends : Nat → Int × Int} {n : Nat}

theorem shellFds_succ {fd : Int} (h1 : fd ≠ (ends n).1) (h2 : fd ≠ (ends n).2) :
    shellFds fds ends (n + 1) fd = shellFds fds ends n fd := by
  rw [shellFds, openEnds, Function.update_of_ne h2, Function.update_of_ne h1]

theorem shellFds_ends (h : Unused fds ends n) {k : Nat} (hk : k < n) :
    shellFds fds ends n (ends k).1 = some ⟨.readEnd k, true⟩ ∧
      shellFds fds ends n (ends k).2 = some ⟨.writeEnd k, true⟩ := by
  induction n with
  | zero => omega
  | succ n ih =>
    obtain ⟨hread, hwrite, hne⟩ := h n (Nat.lt_succ_self n)
    rcases Nat.lt_succ_iff_lt_or_eq.mp hk with hlt | rfl
    · obtain ⟨hr, hw⟩ := ih (fun j hj => h j (Nat.lt_succ_of_lt hj)) hlt
      constructor
      · rw [shellFds_succ (fun he => ?_) (fun he => ?_), hr]
        · rw [he, hread] at hr
          cases hr
        · rw [he, hwrite] at hr
          cases hr
      · rw [shellFds_succ (fun he => ?_) (fun he => ?_), hw]
        · rw [he, hread] at hw
          cases hw
        · rw [he, hwrite] at hw
          cases hw
    · rw [shellFds, openEnds, Function.update_of_ne hne, Function.update_self, Function.update_self]
      exact ⟨rfl, rfl⟩

theorem shellFds_open (h : Unused fds ends n) {fd : Int} {d : Descriptor} (hfd : fds fd = some d) :
    shellFds fds ends n fd = some d := by
  induction n with
  | zero => exact hfd
  | succ n ih =>
    have hbefore := ih fun j hj => h j (Nat.lt_succ_of_lt hj)
    obtain ⟨hread, hwrite, -⟩ := h n (Nat.lt_succ_self n)
    rw [shellFds_succ (fun he => ?_) (fun he => ?_), hbefore]
    · rw [he, hread] at hbefore
      cases hbefore
    · rw [he, hwrite] at hbefore
      cases hbefore

theorem exec_shellFds (h : Unused fds ends n) (fd : Int) :
    exec (shellFds fds ends n) fd = exec fds fd := by
  induction n with
  | zero => rfl
  | succ n ih =>
    have hbefore := ih fun j hj => h j (Nat.lt_succ_of_lt hj)
    obtain ⟨hread, hwrite, hne⟩ := h n (Nat.lt_succ_self n)
    rw [← hbefore, exec, exec]
    by_cases h2 : fd = (ends n).2
    · rw [h2, hwrite, shellFds, openEnds, Function.update_self]
      rfl
    · by_cases h1 : fd = (ends n).1
      · rw [h1, hread, shellFds, openEnds, Function.update_of_ne hne, Function.update_self]
        rfl
      · rw [shellFds_succ h1 h2]

theorem mem_pipeFds {fd : Int} : fd ∈ pipeFds ends n ↔ ∃ k < n, fd = (ends k).1 ∨ fd = (ends k).2 := by
  simp only [pipeFds, List.mem_flatMap, List.mem_range, List.mem_cons, List.not_mem_nil, or_false]

theorem pipeFds_succ : pipeFds ends (n + 1) = pipeFds ends n ++ [(ends n).1, (ends n).2] := by
  rw [pipeFds, List.range_succ, List.flatMap_append]
  rfl

theorem length_pipeFds : (pipeFds ends n).length = 2 * n := by
  induction n with
  | zero => rfl
  | succ n ih =>
    rw [pipeFds_succ, List.length_append, ih]
    rfl

theorem nodup_pipeFds (h : Unused fds ends n) : (pipeFds ends n).Nodup := by
  induction n with
  | zero => exact List.nodup_nil
  | succ n ih =>
    have hbefore : Unused fds ends n := fun j hj => h j (Nat.lt_succ_of_lt hj)
    obtain ⟨hread, hwrite, hne⟩ := h n (Nat.lt_succ_self n)
    have hopen : ∀ fd ∈ pipeFds ends n, shellFds fds ends n fd ≠ none := by
      intro fd hfd
      obtain ⟨k, hk, rfl | rfl⟩ := mem_pipeFds.mp hfd
      · rw [(shellFds_ends hbefore hk).1]
        exact nofun
      · rw [(shellFds_ends hbefore hk).2]
        exact nofun
    rw [pipeFds_succ, List.nodup_append]
    refine ⟨ih hbefore, by simpa using hne, ?_⟩
    rintro fd hfd fd' hfd' rfl
    rcases List.mem_cons.mp hfd' with rfl | hfd'
    · exact hopen _ hfd hread
    · rw [List.mem_singleton] at hfd'
      exact hopen _ hfd (hfd' ▸ hwrite)

theorem getElem_pipeFds {k : Nat} (hk : k < n) :
    (pipeFds ends n)[2 * k]? = some (ends k).1 ∧ (pipeFds ends n)[2 * k + 1]? = some (ends k).2 := by
  induction n with
  | zero => omega
  | succ n ih =>
    rw [pipeFds_succ]
    rcases Nat.lt_succ_iff_lt_or_eq.mp hk with hlt | rfl
    · rw [List.getElem?_append_left (by rw [length_pipeFds]; omega),
        List.getElem?_append_left (by rw [length_pipeFds]; omega)]
      exact ih hlt
    · rw [List.getElem?_append_right (Nat.le_of_eq length_pipeFds),
        List.getElem?_append_right (by rw [length_pipeFds]; omega), length_pipeFds]
      simp

theorem openPipelines_eq {pipe2 : Nat → Option (Int × Int)} {pipelines : List Int}
    (hpipe2 : ∀ k < n, pipe2 k = some (ends k)) (hlength : 2 * n ≤ pipelines.length) :
    openPipelines pipe2 n pipelines = some (pipeFds ends n ++ pipelines.drop (2 * n)) := by
  induction n with
  | zero => rfl
  | succ n ih =>
    have hbefore := ih (fun j hj => hpipe2 j (Nat.lt_succ_of_lt hj)) (by omega)
    obtain ⟨a, b, rest, hdrop⟩ : ∃ a b rest, pipelines.drop (2 * n) = a :: b :: rest := by
      have hlong : 2 ≤ (pipelines.drop (2 * n)).length := by
        rw [List.length_drop]
        omega
      match hcase : pipelines.drop (2 * n), hlong with
      | a :: b :: rest, _ => exact ⟨a, b, rest, rfl⟩
    have hrest : pipelines.drop (2 * (n + 1)) = rest := by
      rw [Nat.mul_succ, ← List.drop_drop, hdrop]
      rfl
    rw [openPipelines] at hbefore ⊢
    rw [List.range_succ, List.foldlM_append, hbefore, hdrop, hrest, Option.bind_eq_bind,
      Option.bind_some, List.foldlM_cons, openPipeline, hpipe2 n (Nat.lt_succ_self n)]
    dsimp only
    rw [store_some (by simp [length_pipeFds]), Option.bind_eq_bind, Option.bind_some,
      store_some (by simp [length_pipeFds]), Option.bind_some, List.foldlM_nil, pipeFds_succ]
    rw [List.set_append_right _ _ (Nat.le_of_eq length_pipeFds),
      List.set_append_right _ _ (by rw [length_pipeFds]; omega), length_pipeFds]
    simp

end Pipes

section Actions

variable {fds base : Fds} {ends : Nat → Int × Int} {input output error file : File} {fd : Int}

/-- The three standard descriptors, with the others as in `base`. -/
structure Standard (base : Fds) (input output error : File) (fds : Fds) : Prop where
  stdin : fds STDIN_FILENO = some ⟨input, false⟩
  stdout : fds STDOUT_FILENO = some ⟨output, false⟩
  stderr : fds STDERR_FILENO = some ⟨error, false⟩
  others : ∀ fd, fd ≠ STDIN_FILENO → fd ≠ STDOUT_FILENO → fd ≠ STDERR_FILENO → fds fd = base fd

theorem Standard.setInput (h : Standard base input output error fds) :
    Standard base file output error (Function.update fds STDIN_FILENO (some ⟨file, false⟩)) where
  stdin := Function.update_self ..
  stdout := by
    rw [Function.update_of_ne (by decide)]
    exact h.stdout
  stderr := by
    rw [Function.update_of_ne (by decide)]
    exact h.stderr
  others fd h0 h1 h2 := by
    rw [Function.update_of_ne h0]
    exact h.others fd h0 h1 h2

theorem Standard.setOutput (h : Standard base input output error fds) :
    Standard base input file error (Function.update fds STDOUT_FILENO (some ⟨file, false⟩)) where
  stdin := by
    rw [Function.update_of_ne (by decide)]
    exact h.stdin
  stdout := Function.update_self ..
  stderr := by
    rw [Function.update_of_ne (by decide)]
    exact h.stderr
  others fd h0 h1 h2 := by
    rw [Function.update_of_ne h1]
    exact h.others fd h0 h1 h2

theorem Standard.setError (h : Standard base input output error fds) :
    Standard base input output file (Function.update fds STDERR_FILENO (some ⟨file, false⟩)) where
  stdin := by
    rw [Function.update_of_ne (by decide)]
    exact h.stdin
  stdout := by
    rw [Function.update_of_ne (by decide)]
    exact h.stdout
  stderr := Function.update_self ..
  others fd h0 h1 h2 := by
    rw [Function.update_of_ne h2]
    exact h.others fd h0 h1 h2

theorem perform_append {before after : List FileAction} :
    perform (before ++ after) fds = (perform before fds).bind (perform after) :=
  List.foldlM_append ..

theorem perform_singleton {action : FileAction} : perform [action] fds = act fds action := by
  rw [perform, List.foldlM_cons]
  exact Option.bind_fun_some _

theorem Standard.pipeInput (h : Standard base input output error fds)
    (hend : base fd = some ⟨file, true⟩) (h0 : fd ≠ STDIN_FILENO) (h1 : fd ≠ STDOUT_FILENO)
    (h2 : fd ≠ STDERR_FILENO) : ∃ fds', perform [.dup2 fd STDIN_FILENO] fds = some fds' ∧
      Standard base file output error fds' := by
  refine ⟨_, ?_, h.setInput⟩
  rw [perform_singleton, act, h.others fd h0 h1 h2, hend]
  rfl

theorem Standard.pipeOutput (h : Standard base input output error fds)
    (hend : base fd = some ⟨file, true⟩) (h0 : fd ≠ STDIN_FILENO) (h1 : fd ≠ STDOUT_FILENO)
    (h2 : fd ≠ STDERR_FILENO) : ∃ fds', perform [.dup2 fd STDOUT_FILENO] fds = some fds' ∧
      Standard base input file error fds' := by
  refine ⟨_, ?_, h.setOutput⟩
  rw [perform_singleton, act, h.others fd h0 h1 h2, hend]
  rfl

theorem Standard.inputActions (h : Standard base input output error fds) (pipe : Pipeline) (k : Nat) :
    ∃ fds', perform (inputActions pipe k) fds = some fds' ∧
      Standard base
        (match pipe.ioredInput with
          | some path => if k = 0 then .opened path O_RDONLY S_IRWXU else input
          | none => input) output error fds' := by
  rw [Launching.inputActions]
  cases pipe.ioredInput with
  | none => exact ⟨fds, rfl, h⟩
  | some path =>
    dsimp only
    split_ifs
    · exact ⟨_, perform_singleton, h.setInput⟩
    · exact ⟨fds, rfl, h⟩

theorem Standard.outputActions (h : Standard base input output error fds) (pipe : Pipeline)
    (k : Nat) : ∃ fds', perform (outputActions pipe k) fds = some fds' ∧
      Standard base input
        (match pipe.ioredOutput with
          | some path =>
            if k = pipe.commands.length - 1 then
              .opened path
                (O_CREAT ||| O_WRONLY ||| if pipe.appendToOutput then O_APPEND else O_TRUNC) 0o600
            else output
          | none => output) error fds' := by
  rw [Launching.outputActions]
  cases pipe.ioredOutput with
  | none => exact ⟨fds, rfl, h⟩
  | some path =>
    dsimp only
    split_ifs
    · exact ⟨_, perform_singleton, h.setOutput⟩
    · exact ⟨_, perform_singleton, h.setOutput⟩
    · exact ⟨fds, rfl, h⟩

theorem Standard.stderrActions (h : Standard base input output error fds) (command : Command) :
    ∃ fds', perform (stderrActions command) fds = some fds' ∧
      Standard base input output (if command.dupStderrToStdout then output else error) fds' := by
  rw [Launching.stderrActions]
  split_ifs
  · refine ⟨_, ?_, h.setError⟩
    rw [perform_singleton, act, h.stdout]
    rfl
  · exact ⟨fds, rfl, h⟩

end Actions

section Commands

variable {fds : Fds} {ends : Nat → Int × Int} {pipe : Pipeline} {k : Nat} {command : Command}

/-- The ends of the pipes that the command `k` reads and writes, before the redirections. -/
def pipeActions (ends : Nat → Int × Int) (n k : Nat) : List FileAction :=
  (if 0 < k then [.dup2 (ends (k - 1)).1 STDIN_FILENO] else []) ++
    if k + 1 < n then [.dup2 (ends k).2 STDOUT_FILENO] else []

theorem connectPipeline_eq {n : Nat} (hk : k < n) (hn : 1 ≤ n - 1) :
    connectPipeline (2 * k : Nat) (pipeFds ends (n - 1)) k n = some (pipeActions ends n k) := by
  have hnext (h : k < n - 1) :
      load (pipeFds ends (n - 1)) ((2 * k : Nat) + 1) = some (ends k).2 := by
    rw [load, if_pos (by omega), show ((2 * k : Nat) + 1 : Int).toNat = 2 * k + 1 by omega]
    exact (getElem_pipeFds h).2
  have hlast (h : 0 < k) :
      load (pipeFds ends (n - 1)) ((2 * k : Nat) - 2) = some (ends (k - 1)).1 := by
    rw [load, if_pos (by omega), show ((2 * k : Nat) - 2 : Int).toNat = 2 * (k - 1) by omega]
    exact (getElem_pipeFds (by omega)).1
  rw [connectPipeline, pipeActions]
  rcases Nat.eq_zero_or_pos k with rfl | hpos
  · rw [if_pos rfl, if_neg (Nat.lt_irrefl 0), if_pos (by omega), hnext (by omega)]
    rfl
  · rw [if_neg (by omega), if_pos hpos, hlast hpos]
    by_cases hend : k = n - 1
    · rw [if_neg (by omega), if_pos hend, if_neg (by omega)]
      rfl
    · rw [if_pos ⟨by omega, hend⟩, hnext (by omega), if_pos (by omega)]
      rfl

theorem fileActions_eq (hk : k < pipe.commands.length) :
    fileActions pipe (pipeFds ends (pipe.commands.length - 1)) k (2 * k : Nat) command =
      some (pipeActions ends pipe.commands.length k ++ inputActions pipe k ++ outputActions pipe k ++
        stderrActions command) := by
  rw [fileActions]
  split_ifs with hn
  · rw [connectPipeline_eq hk hn]
    rfl
  · have hnone : pipeActions ends pipe.commands.length k = [] := by
      rw [pipeActions, if_neg (by omega), if_neg (by omega)]
      rfl
    rw [hnone]
    rfl

/-- The shell's own descriptors `0` to `2`. -/
structure Open (fds : Fds) (input output error : File) : Prop where
  stdin : fds STDIN_FILENO = some ⟨input, false⟩
  stdout : fds STDOUT_FILENO = some ⟨output, false⟩
  stderr : fds STDERR_FILENO = some ⟨error, false⟩

variable {input output error : File} {n : Nat}

theorem Open.standard (h : Open fds input output error) (hunused : Unused fds ends n) :
    Standard (shellFds fds ends n) input output error (shellFds fds ends n) where
  stdin := shellFds_open hunused h.stdin
  stdout := shellFds_open hunused h.stdout
  stderr := shellFds_open hunused h.stderr
  others _ _ _ _ := rfl

theorem Open.ends_ne (h : Open fds input output error) (hunused : Unused fds ends n) {fd : Int}
    {file : File} (hfd : shellFds fds ends n fd = some ⟨file, true⟩) :
    fd ≠ STDIN_FILENO ∧ fd ≠ STDOUT_FILENO ∧ fd ≠ STDERR_FILENO := by
  have hstandard := h.standard hunused
  refine ⟨?_, ?_, ?_⟩
  · rintro rfl
    rw [hstandard.stdin] at hfd
    cases hfd
  · rintro rfl
    rw [hstandard.stdout] at hfd
    cases hfd
  · rintro rfl
    rw [hstandard.stderr] at hfd
    cases hfd

theorem Standard.pipeActions (hopen : Open fds input output error) (hunused : Unused fds ends (n - 1))
    (hk : k < n) : ∃ fds', perform (pipeActions ends n k) (shellFds fds ends (n - 1)) = some fds' ∧
      Standard (shellFds fds ends (n - 1)) (if 0 < k then .readEnd (k - 1) else input)
        (if k + 1 < n then .writeEnd k else output) error fds' := by
  have hstart := hopen.standard hunused
  have hinput : ∃ fds', perform (if 0 < k then [.dup2 (ends (k - 1)).1 STDIN_FILENO] else [])
      (shellFds fds ends (n - 1)) = some fds' ∧
        Standard (shellFds fds ends (n - 1)) (if 0 < k then .readEnd (k - 1) else input) output error
          fds' := by
    split_ifs with hpos
    · have hend := (shellFds_ends hunused (k := k - 1) (by omega)).1
      obtain ⟨h0, h1, h2⟩ := hopen.ends_ne hunused hend
      exact hstart.pipeInput hend h0 h1 h2
    · exact ⟨_, rfl, hstart⟩
  obtain ⟨fds', hperform, hstandard⟩ := hinput
  rw [Wiring.pipeActions, perform_append, hperform, Option.bind_some]
  by_cases hnext : k + 1 < n
  · have hend := (shellFds_ends hunused (k := k) (by omega)).2
    obtain ⟨h0, h1, h2⟩ := hopen.ends_ne hunused hend
    rw [if_pos hnext, if_pos hnext]
    exact hstandard.pipeOutput hend h0 h1 h2
  · rw [if_neg hnext, if_neg hnext]
    exact ⟨fds', rfl, hstandard⟩

theorem command_wired (hopen : Open fds input output error)
    (hunused : Unused fds ends (pipe.commands.length - 1)) (hk : k < pipe.commands.length) :
    ∃ child, perform (pipeActions ends pipe.commands.length k ++ inputActions pipe k ++
        outputActions pipe k ++ stderrActions command)
        (shellFds fds ends (pipe.commands.length - 1)) = some child ∧
      Wired pipe fds k command (exec child) := by
  obtain ⟨fds₁, hperform₁, hstandard₁⟩ := Standard.pipeActions hopen hunused hk
  obtain ⟨fds₂, hperform₂, hstandard₂⟩ := hstandard₁.inputActions pipe k
  obtain ⟨fds₃, hperform₃, hstandard₃⟩ := hstandard₂.outputActions pipe k
  obtain ⟨child, hperform, hstandard⟩ := hstandard₃.stderrActions command
  refine ⟨child, ?_, ?_, ?_, ?_, ?_⟩
  · rw [perform_append, perform_append, perform_append, hperform₁, Option.bind_some, hperform₂,
      Option.bind_some, hperform₃, Option.bind_some, hperform]
  · rw [exec, hstandard.stdin, exec, hopen.stdin]
    rcases Nat.eq_zero_or_pos k with rfl | hpos
    · cases pipe.ioredInput <;> rfl
    · cases pipe.ioredInput with
      | none =>
        dsimp only
        rw [if_pos hpos, if_pos hpos]
        rfl
      | some path =>
        dsimp only
        rw [if_neg (by omega), if_pos hpos, if_pos hpos]
        rfl
  · rw [exec, hstandard.stdout, exec, hopen.stdout]
    by_cases hnext : k + 1 < pipe.commands.length
    · cases pipe.ioredOutput with
      | none =>
        dsimp only
        rw [if_pos hnext, if_pos hnext]
        rfl
      | some path =>
        dsimp only
        rw [if_neg (by omega), if_pos hnext, if_pos hnext]
        rfl
    · cases pipe.ioredOutput with
      | none =>
        dsimp only
        rw [if_neg hnext, if_neg hnext]
      | some path =>
        dsimp only
        rw [if_pos (by omega), if_neg hnext]
        rfl
  · rw [exec, hstandard.stderr, exec, hstandard.stdout, exec, hopen.stderr]
    split_ifs <;> rfl
  · intro fd h0 h1 h2
    rw [exec, hstandard.others fd h0 h1 h2]
    exact exec_shellFds hunused fd

theorem launchLoop_calls {results : Nat → SpawnResult} {commands : List Command} {job job' : Job}
    {calls : List Call} {pipelines : List Int} {i : Int}
    (h : launchLoop pipelines results k i commands job = some (job', calls)) (hi : i = (2 * k : Nat)) :
    calls.length = commands.length ∧ ∀ j (hj : j < commands.length), ∃ attr actions,
      calls[j]? = some (.spawn commands[j].argv attr actions (results (k + j))) ∧
        fileActions job.pipe pipelines (k + j) (2 * (k + j) : Nat) commands[j] = some actions := by
  induction commands generalizing job calls k i with
  | nil =>
    cases h
    exact ⟨rfl, fun j hj => absurd hj (Nat.not_lt_zero j)⟩
  | cons command commands ih =>
    simp only [launchLoop, Option.bind_eq_bind, Option.bind_eq_some_iff] at h
    obtain ⟨actions, hactions, ⟨job'', calls'⟩, hloop, hsome⟩ := h
    cases hsome
    obtain ⟨hlength, hcalls⟩ := ih (k := k + 1) hloop (by omega)
    refine ⟨congrArg Nat.succ hlength, ?_⟩
    rintro (_ | j) hj
    · exact ⟨_, actions, rfl, hi ▸ hactions⟩
    · obtain ⟨attr, actions', hcall, hactions'⟩ := hcalls j (Nat.lt_of_succ_lt_succ hj)
      rw [show k + 1 + j = k + (j + 1) by omega] at hcall hactions'
      refine ⟨attr, actions', hcall, ?_⟩
      rw [← hactions']
      have hpipe : (turn job k (results k)).pipe = job.pipe := turn_pipe
      exact congrArg (fun pipe => fileActions pipe pipelines _ _ _) hpipe.symm

/-- Every command of a pipeline is spawned with the descriptors that the tree says, and after the
last one the shell closes the ends of all pipes, each once. -/
theorem pipeline_wired {job : Job} {out : Outcomes} (hopen : Open fds input output error)
    (hunused : Unused fds ends (job.pipe.commands.length - 1))
    (hpipe2 : ∀ k < job.pipe.commands.length - 1, out.pipe2 k = some (ends k)) :
    ∃ job' spawns, handleJob out job = some (job', spawns ++
        (pipeFds ends (job.pipe.commands.length - 1)).map .close) ∧
      (pipeFds ends (job.pipe.commands.length - 1)).Nodup ∧
      spawns.length = job.pipe.commands.length ∧
      ∀ k (hk : k < job.pipe.commands.length), ∃ attr actions child,
        spawns[k]? = some (.spawn job.pipe.commands[k].argv attr actions (out.spawn k)) ∧
        perform actions (shellFds fds ends (job.pipe.commands.length - 1)) = some child ∧
        Wired job.pipe fds k job.pipe.commands[k] (exec child) := by
  have hlength : (pipeFds ends (job.pipe.commands.length - 1)).length =
      2 * (job.pipe.commands.length - 1) := length_pipeFds
  have hopened : openPipelines out.pipe2 (job.pipe.commands.length - 1)
      ((List.range ((job.pipe.commands.length - 1) * 2)).map out.fresh) =
        some (pipeFds ends (job.pipe.commands.length - 1)) := by
    rw [openPipelines_eq hpipe2 (by simp; omega), List.drop_eq_nil_of_le (by simp; omega),
      List.append_nil]
  have hall : 0 + job.pipe.commands.length = job.pipe.commands.length := Nat.zero_add _
  have hstart : (0 : Int) = 2 * (0 : Nat) := rfl
  obtain ⟨job', spawns, hloop⟩ := launchLoop_some out.spawn hlength hall hstart
  obtain ⟨hspawns, hcalls⟩ := launchLoop_calls hloop rfl
  refine ⟨job', spawns, ?_, nodup_pipeFds hunused, hspawns, ?_⟩
  · rw [handleJob]
    dsimp only
    rw [hopened, Option.bind_eq_bind, Option.bind_some, hloop, Option.bind_eq_bind, Option.bind_some,
      closePipelines_some (by rw [hlength]; omega)]
    rfl
  · intro k hk
    obtain ⟨attr, actions, hcall, hactions⟩ := hcalls k hk
    rw [Nat.zero_add, fileActions_eq hk, Option.some_inj] at hactions
    rw [Nat.zero_add] at hcall
    subst hactions
    obtain ⟨child, hperform, hwired⟩ := command_wired hopen hunused hk
    exact ⟨attr, _, child, hcall, hperform, hwired⟩

/-- `cat < in | cat |& cat >> out`, from a shell with three descriptors. -/
theorem pipeline_wired_sample : ∃ job' spawns,
    handleJob ⟨fun _ => 0, fun k => some (3 + 2 * k, 4 + 2 * k), fun k =>
        ⟨true, k + 7, fun _ => by omega⟩⟩
      (prepared ⟨[word "cat", { word "cat" with dupStderrToStdout := true }, word "cat"],
        List.cons_ne_nil _ _, some (ascii "in"), some (ascii "out"), true, false⟩ 1 0 0) =
      some (job', spawns ++ [3, 4, 5, 6].map .close) ∧ spawns.length = 3 := by
  obtain ⟨job', spawns, hrun, -, hspawns, -⟩ := @pipeline_wired
    (fun fd => if fd = 0 ∨ fd = 1 ∨ fd = 2 then some ⟨.inherited 0, false⟩ else none)
    (fun k => (3 + 2 * k, 4 + 2 * k)) (.inherited 0) (.inherited 0) (.inherited 0)
    (prepared ⟨[word "cat", { word "cat" with dupStderrToStdout := true }, word "cat"],
      List.cons_ne_nil _ _, some (ascii "in"), some (ascii "out"), true, false⟩ 1 0 0)
    ⟨fun _ => 0, fun k => some (3 + 2 * k, 4 + 2 * k), fun k => ⟨true, k + 7, fun _ => by omega⟩⟩
    ⟨rfl, rfl, rfl⟩
    (show Unused _ _ 2 by
      intro k hk
      rcases Nat.lt_succ_iff_lt_or_eq.mp hk with hlt | rfl
      · obtain rfl : k = 0 := by omega
        decide
      · decide)
    (fun _ _ => rfl)
  exact ⟨job', spawns, hrun, hspawns⟩

end Commands

end ComputerSystems.Cush.Wiring
