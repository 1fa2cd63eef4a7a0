/- The grammar of command lines with its actions, and the parser that shifts and reduces by it. -/

import ComputerSystems.Cush.Ast
import Mathlib.Data.List.Induction

set_option autoImplicit false
set_option relaxedAutoImplicit false

namespace ComputerSystems.Cush.Grammar

open ComputerSystems.Cush.Ast

/-- `>`, `>>` and `>&`. -/
inductive OutputOp where
  | greater
  | greaterGreater
  | greaterAmpersand
  deriving DecidableEq, Repr

/-- `;` and `&`. -/
inductive Separator where
  | semicolon
  | ampersand
  deriving DecidableEq, Repr

/-- The tokens of the scanner; a pipe may be `|&`, and no rule has a newline. -/
inductive Token where
  | WORD (word : Word)
  | less
  | output (op : OutputOp)
  | pipe (ampersand : Bool)
  | separator (sep : Separator)
  | newline
  deriving DecidableEq, Repr

/-- `struct cmd_helper`. -/
structure CmdHelper where
  words : List Word
  ioredInput : Option Word
  ioredOutput : Option Word
  appendToOutput : Bool
  redirectStderr : Bool
  deriving DecidableEq, Repr

/-- `struct pipe_helper`. -/
abbrev PipeHelper := List CmdHelper

def initCmd (firstcmd ioredInput ioredOutput : Option Word) (appendToOutput includeStderr : Bool) :
    CmdHelper :=
  ⟨firstcmd.toList, ioredInput, ioredOutput, appendToOutput, includeStderr⟩

def makeAstCommand (cmd : CmdHelper) : Option Command :=
  if h : cmd.words ≠ [] then some ⟨cmd.words, h, cmd.redirectStderr⟩ else none

def addToPipeline (pipe : PipeHelper) (cmd : CmdHelper) (redirectStderr : Bool) :
    Option PipeHelper :=
  match pipe.getLast? with
  | none => if cmd.words = [] then none else some [cmd]
  | some last =>
    if last.ioredOutput.isSome then none
    else if cmd.ioredInput.isSome then none
    else if cmd.words = [] then none
    else some (pipe.dropLast ++ [{ last with redirectStderr := redirectStderr }, cmd])

/-- The action of `input: '<' WORD`. -/
def inputAction (word : Word) : CmdHelper :=
  initCmd none (some word) none false false

/-- The actions of `output`. -/
def outputAction (op : OutputOp) (word : Word) : CmdHelper :=
  match op with
  | .greater => initCmd none none (some word) false false
  | .greaterAmpersand => initCmd none none (some word) false true
  | .greaterGreater => initCmd none none (some word) true false

/-- The action of `command: command WORD`. -/
def growAction (cmd : CmdHelper) (word : Word) : CmdHelper :=
  { cmd with words := cmd.words ++ [word] }

/-- The action of `command: command input`. -/
def mergeInput (cmd input : CmdHelper) : Option CmdHelper :=
  if cmd.ioredInput.isSome then none else some { cmd with ioredInput := input.ioredInput }

/-- The action of `command: command output`. -/
def mergeOutput (cmd output : CmdHelper) : Option CmdHelper :=
  if cmd.ioredOutput.isSome then none
  else
    some { cmd with
      ioredOutput := output.ioredOutput
      appendToOutput := output.appendToOutput
      redirectStderr := output.redirectStderr }

/-- The action of `ast_pipeline: pipeline`. -/
def astPipelineAction (pipe : PipeHelper) : Option Pipeline :=
  match pipe.head?, pipe.getLast?, pipe.mapM makeAstCommand with
  | some first, some last, some commands =>
    if h : commands ≠ [] then
      some ⟨commands, h, first.ioredInput, last.ioredOutput, last.appendToOutput, false⟩
    else none
  | _, _, _ => none

def separatorAction (line : CommandLine) : Separator → CommandLine
  | .semicolon => line
  | .ampersand =>
    match line.getLast? with
    | none => line
    | some last => line.dropLast ++ [{ last with bgJob := true }]

/-- `command: WORD | input | output | command WORD | command input | command output`. -/
inductive DerivesCommand : List Token → CmdHelper → Prop where
  | word (w : Word) : DerivesCommand [.WORD w] (initCmd (some w) none none false false)
  | input (w : Word) : DerivesCommand [.less, .WORD w] (inputAction w)
  | output (op : OutputOp) (w : Word) : DerivesCommand [.output op, .WORD w] (outputAction op w)
  | commandWord {ts : List Token} {cmd : CmdHelper} (w : Word) : DerivesCommand ts cmd →
      DerivesCommand (ts ++ [.WORD w]) (growAction cmd w)
  | commandInput {ts : List Token} {cmd cmd' : CmdHelper} (w : Word) : DerivesCommand ts cmd →
      mergeInput cmd (inputAction w) = some cmd' → DerivesCommand (ts ++ [.less, .WORD w]) cmd'
  | commandOutput {ts : List Token} {cmd cmd' : CmdHelper} (op : OutputOp) (w : Word) :
      DerivesCommand ts cmd → mergeOutput cmd (outputAction op w) = some cmd' →
      DerivesCommand (ts ++ [.output op, .WORD w]) cmd'

/-- `pipeline: command | pipeline '|' command | pipeline PIPE_AMPERSAND command`. -/
inductive DerivesPipeline : List Token → PipeHelper → Prop where
  | command {ts : List Token} {cmd : CmdHelper} {pipe : PipeHelper} : DerivesCommand ts cmd →
      addToPipeline [] cmd false = some pipe → DerivesPipeline ts pipe
  | pipe {ts us : List Token} {pipe pipe' : PipeHelper} {cmd : CmdHelper} (ampersand : Bool) :
      DerivesPipeline ts pipe → DerivesCommand us cmd →
      addToPipeline pipe cmd ampersand = some pipe' →
      DerivesPipeline (ts ++ .pipe ampersand :: us) pipe'

/-- `ast_pipeline: pipeline`. -/
inductive DerivesAstPipeline : List Token → Pipeline → Prop where
  | pipeline {ts : List Token} {pipe : PipeHelper} {tree : Pipeline} : DerivesPipeline ts pipe →
      astPipelineAction pipe = some tree → DerivesAstPipeline ts tree

/-- `cmd_list`, and `cmd_line`, whose action stores the result. -/
inductive DerivesLine : List Token → CommandLine → Prop where
  | empty : DerivesLine [] []
  | pipeline {ts : List Token} {tree : Pipeline} : DerivesAstPipeline ts tree →
      DerivesLine ts [tree]
  | separator {ts : List Token} {line : CommandLine} (sep : Separator) : DerivesLine ts line →
      DerivesLine (ts ++ [.separator sep]) (separatorAction line sep)
  | next {ts us : List Token} {line : CommandLine} {tree : Pipeline} (sep : Separator) :
      DerivesLine ts line → DerivesAstPipeline us tree →
      DerivesLine (ts ++ .separator sep :: us) (separatorAction line sep ++ [tree])

inductive Pending where
  | less
  | output (op : OutputOp)
  deriving DecidableEq, Repr

/-- The stack of the parser: a `cmd_list` with a separator, a `pipeline` with a pipe, a `command` and
the operator of a redirection, each of them only if it is there. -/
structure Stack where
  line : Option (CommandLine × Separator)
  pipe : Option (PipeHelper × Bool)
  command : Option CmdHelper
  pending : Option Pending
  deriving DecidableEq, Repr

def Stack.empty : Stack := ⟨none, none, none, none⟩

def Stack.word (s : Stack) (w : Word) : Option Stack :=
  match s.pending, s.command with
  | none, none => some { s with command := some (initCmd (some w) none none false false) }
  | none, some cmd => some { s with command := some (growAction cmd w) }
  | some .less, none => some { s with pending := none, command := some (inputAction w) }
  | some .less, some cmd =>
    (mergeInput cmd (inputAction w)).map fun cmd => { s with pending := none, command := some cmd }
  | some (.output op), none => some { s with pending := none, command := some (outputAction op w) }
  | some (.output op), some cmd =>
    (mergeOutput cmd (outputAction op w)).map fun cmd =>
      { s with pending := none, command := some cmd }

def Stack.redirect (s : Stack) (op : Pending) : Option Stack :=
  match s.pending with
  | none => some { s with pending := some op }
  | some _ => none

/-- The command on the stack is reduced to a pipeline, with the one before it. -/
def Stack.reducePipeline (s : Stack) : Option PipeHelper :=
  match s.pending, s.command, s.pipe with
  | none, some cmd, none => addToPipeline [] cmd false
  | none, some cmd, some (pipe, ampersand) => addToPipeline pipe cmd ampersand
  | _, _, _ => none

def Stack.before (s : Stack) : CommandLine :=
  match s.line with
  | none => []
  | some (line, sep) => separatorAction line sep

/-- All that is on the stack is reduced to a `cmd_list`. -/
def Stack.reduceLine (s : Stack) : Option CommandLine :=
  match s.pending, s.command, s.pipe with
  | none, none, none => some s.before
  | _, _, _ => (s.reducePipeline.bind astPipelineAction).map fun tree => s.before ++ [tree]

def Stack.shift (s : Stack) : Token → Option Stack
  | .WORD w => s.word w
  | .less => s.redirect .less
  | .output op => s.redirect (.output op)
  | .pipe ampersand =>
    s.reducePipeline.map fun pipe => { s with pipe := some (pipe, ampersand), command := none }
  | .separator sep => s.reduceLine.map fun line => ⟨some (line, sep), none, none, none⟩
  | .newline => none

/-- `ast_parse_command_line`, on the tokens of the line. -/
def astParseCommandLine (ts : List Token) : Option CommandLine :=
  (ts.foldlM Stack.shift Stack.empty).bind Stack.reduceLine

section Completeness

variable {ts us : List Token} {s : Stack}

theorem shift_append {s' : Stack} (h : ts.foldlM Stack.shift s = some s') :
    (ts ++ us).foldlM Stack.shift s = us.foldlM Stack.shift s' := by
  rw [List.foldlM_append, h]
  rfl

theorem shift_command {cmd : CmdHelper} (h : DerivesCommand ts cmd) (hcommand : s.command = none)
    (hpending : s.pending = none) :
    ts.foldlM Stack.shift s = some { s with command := some cmd } := by
  obtain ⟨line, pipe, command, pending⟩ := s
  obtain rfl : command = none := hcommand
  obtain rfl : pending = none := hpending
  induction h with
  | word w => rfl
  | input w => rfl
  | output op w => rfl
  | commandWord w _ ih =>
    rw [shift_append ih]
    rfl
  | @commandInput ts cmd cmd' w _ hmerge ih =>
    rw [shift_append ih]
    change (mergeInput cmd (inputAction w)).map _ >>= pure = _
    rw [hmerge]
    rfl
  | @commandOutput ts cmd cmd' op w _ hmerge ih =>
    rw [shift_append ih]
    change (mergeOutput cmd (outputAction op w)).map _ >>= pure = _
    rw [hmerge]
    rfl

theorem shift_pipeline {pipe : PipeHelper} (h : DerivesPipeline ts pipe) (hpipe : s.pipe = none)
    (hcommand : s.command = none) (hpending : s.pending = none) :
    ∃ t cmd, ts.foldlM Stack.shift s = some t ∧ t.line = s.line ∧ t.command = some cmd ∧
      t.pending = none ∧ t.reducePipeline = some pipe := by
  induction h with
  | @command ts cmd pipe hcmd hadd =>
    refine ⟨_, cmd, shift_command hcmd hcommand hpending, rfl, rfl, hpending, ?_⟩
    rw [Stack.reducePipeline, hpending, hpipe]
    exact hadd
  | @pipe ts us pipe pipe' cmd ampersand _ hcmd hadd ih =>
    obtain ⟨t, cmd', hshift, hline, -, hnone, hreduce⟩ := ih
    have hbar : t.shift (.pipe ampersand) =
        some { t with pipe := some (pipe, ampersand), command := none } := by
      rw [Stack.shift, hreduce]
      rfl
    refine ⟨{ t with pipe := some (pipe, ampersand), command := some cmd }, cmd, ?_, hline, rfl, hnone,
      ?_⟩
    · rw [shift_append hshift, List.foldlM_cons, hbar]
      exact shift_command (s := { t with pipe := some (pipe, ampersand), command := none }) hcmd rfl
        hnone
    · rw [Stack.reducePipeline, hnone]
      exact hadd

theorem reduceLine_pipeline {cmd : CmdHelper} {pipe : PipeHelper} {tree : Pipeline}
    (hcommand : s.command = some cmd) (hpipe : s.reducePipeline = some pipe)
    (htree : astPipelineAction pipe = some tree) : s.reduceLine = some (s.before ++ [tree]) := by
  unfold Stack.reduceLine
  split
  · rw [hcommand] at *
    contradiction
  · rw [hpipe, Option.bind_some, htree]
    rfl

theorem shift_line {line : CommandLine} (h : DerivesLine ts line) :
    ∃ t, ts.foldlM Stack.shift Stack.empty = some t ∧ t.reduceLine = some line := by
  induction h with
  | empty => exact ⟨Stack.empty, rfl, rfl⟩
  | pipeline hpipeline =>
    obtain ⟨hpipe, htree⟩ := hpipeline
    obtain ⟨t, cmd, hshift, hline, hcommand, -, hreduce⟩ :=
      shift_pipeline (s := Stack.empty) hpipe rfl rfl rfl
    refine ⟨t, hshift, ?_⟩
    rw [reduceLine_pipeline hcommand hreduce htree, Stack.before, hline]
    rfl
  | @separator ts line sep _ ih =>
    obtain ⟨t, hshift, hreduce⟩ := ih
    refine ⟨⟨some (line, sep), none, none, none⟩, ?_, rfl⟩
    rw [shift_append hshift, List.foldlM_cons, Stack.shift, hreduce]
    rfl
  | @next ts us line tree sep _ hpipeline ih =>
    obtain ⟨t, hshift, hreduce⟩ := ih
    obtain ⟨hpipe, htree⟩ := hpipeline
    obtain ⟨u, cmd, hshift', hline, hcommand, -, hreduce'⟩ :=
      shift_pipeline (s := ⟨some (line, sep), none, none, none⟩) hpipe rfl rfl rfl
    refine ⟨u, ?_, ?_⟩
    · rw [shift_append hshift, List.foldlM_cons, Stack.shift, hreduce]
      exact hshift'
    · rw [reduceLine_pipeline hcommand hreduce' htree, Stack.before, hline]

theorem parse_of_derives {line : CommandLine} (h : DerivesLine ts line) :
    astParseCommandLine ts = some line := by
  obtain ⟨t, hshift, hreduce⟩ := shift_line h
  rw [astParseCommandLine, hshift, Option.bind_some, hreduce]

end Completeness

section Soundness

def OfLine (ts : List Token) : Option (CommandLine × Separator) → Prop
  | none => ts = []
  | some (line, sep) => ∃ us, DerivesLine us line ∧ ts = us ++ [.separator sep]

def OfPipe (ts : List Token) : Option (PipeHelper × Bool) → Prop
  | none => ts = []
  | some (pipe, ampersand) => ∃ us, DerivesPipeline us pipe ∧ ts = us ++ [.pipe ampersand]

def OfCommand (ts : List Token) : Option CmdHelper → Prop
  | none => ts = []
  | some cmd => DerivesCommand ts cmd

def OfPending (ts : List Token) : Option Pending → Prop
  | none => ts = []
  | some .less => ts = [.less]
  | some (.output op) => ts = [.output op]

/-- The stack stands for the tokens that have been shifted. -/
structure Holds (ts as bs cs ds : List Token) (s : Stack) : Prop where
  tokens : ts = as ++ (bs ++ (cs ++ ds))
  line : OfLine as s.line
  pipe : OfPipe bs s.pipe
  command : OfCommand cs s.command
  pending : OfPending ds s.pending

variable {ts as bs cs ds : List Token} {s s' : Stack} {t : Token}

theorem derives_word {cmd : Option CmdHelper} {w : Word} {s' : Stack}
    (hcommand : OfCommand cs cmd) (h : Stack.word ⟨s.line, s.pipe, cmd, none⟩ w = some s') :
    s'.line = s.line ∧ s'.pipe = s.pipe ∧ s'.pending = none ∧
      OfCommand (cs ++ [.WORD w]) s'.command := by
  cases cmd with
  | none =>
    obtain rfl : cs = [] := hcommand
    cases h
    exact ⟨rfl, rfl, rfl, .word w⟩
  | some cmd =>
    cases h
    exact ⟨rfl, rfl, rfl, .commandWord w hcommand⟩

theorem derives_redirect {cmd : Option CmdHelper} {op : Pending} {w : Word} {s' : Stack}
    (hcommand : OfCommand cs cmd) (hpending : OfPending ds (some op))
    (h : Stack.word ⟨s.line, s.pipe, cmd, some op⟩ w = some s') :
    s'.line = s.line ∧ s'.pipe = s.pipe ∧ s'.pending = none ∧
      OfCommand (cs ++ ds ++ [.WORD w]) s'.command := by
  cases op with
  | less =>
    obtain rfl : ds = [.less] := hpending
    cases cmd with
    | none =>
      obtain rfl : cs = [] := hcommand
      cases h
      exact ⟨rfl, rfl, rfl, .input w⟩
    | some cmd =>
      obtain ⟨cmd', hmerge, rfl⟩ := Option.map_eq_some_iff.mp h
      rw [List.append_assoc]
      exact ⟨rfl, rfl, rfl, .commandInput w hcommand hmerge⟩
  | output op =>
    obtain rfl : ds = [.output op] := hpending
    cases cmd with
    | none =>
      obtain rfl : cs = [] := hcommand
      cases h
      exact ⟨rfl, rfl, rfl, .output op w⟩
    | some cmd =>
      obtain ⟨cmd', hmerge, rfl⟩ := Option.map_eq_some_iff.mp h
      rw [List.append_assoc]
      exact ⟨rfl, rfl, rfl, .commandOutput op w hcommand hmerge⟩

theorem derives_pipeline (h : Holds ts as bs cs ds s) {pipe : PipeHelper}
    (hreduce : s.reducePipeline = some pipe) : ts = as ++ (bs ++ cs) ∧
      s.pending = none ∧ DerivesPipeline (bs ++ cs) pipe := by
  obtain ⟨htokens, -, hpipe, hcommand, hpending⟩ := h
  unfold Stack.reducePipeline at hreduce
  split at hreduce
  · rename_i cmd hnone hcmd hp
    rw [hnone] at hpending
    rw [hcmd] at hcommand
    rw [hp] at hpipe
    obtain rfl : ds = [] := hpending
    obtain rfl : bs = [] := hpipe
    rw [List.append_nil] at htokens
    exact ⟨htokens, hnone, .command hcommand hreduce⟩
  · rename_i cmd p ampersand hnone hcmd hp
    rw [hnone] at hpending
    rw [hcmd] at hcommand
    rw [hp] at hpipe
    obtain rfl : ds = [] := hpending
    obtain ⟨us, hus, rfl⟩ := hpipe
    rw [List.append_nil] at htokens
    refine ⟨htokens, hnone, ?_⟩
    rw [List.append_assoc]
    exact .pipe ampersand hus hcommand hreduce
  · cases hreduce

theorem derives_line (h : Holds ts as bs cs ds s) {line : CommandLine}
    (hreduce : s.reduceLine = some line) : DerivesLine ts line := by
  have hline := h.line
  unfold Stack.reduceLine at hreduce
  split at hreduce
  · rename_i hpend hcmd hp
    obtain ⟨htokens, -, hpipe, hcommand, hpending⟩ := h
    rw [hpend] at hpending
    rw [hcmd] at hcommand
    rw [hp] at hpipe
    obtain rfl : bs = [] := hpipe
    obtain rfl : cs = [] := hcommand
    obtain rfl : ds = [] := hpending
    rw [Option.some_inj, Stack.before] at hreduce
    subst htokens hreduce
    simp only [List.append_nil]
    cases hs : s.line with
    | none =>
      rw [hs] at hline
      obtain rfl : as = [] := hline
      exact .empty
    | some top =>
      rw [hs] at hline
      obtain ⟨us, hus, rfl⟩ := hline
      exact .separator _ hus
  · obtain ⟨tree, htree, rfl⟩ := Option.map_eq_some_iff.mp hreduce
    obtain ⟨pipe, hpipe, haction⟩ := Option.bind_eq_some_iff.mp htree
    obtain ⟨htokens, -, hderives⟩ := derives_pipeline h hpipe
    rw [htokens, Stack.before]
    cases hs : s.line with
    | none =>
      rw [hs] at hline
      obtain rfl : as = [] := hline
      exact .pipeline (.pipeline hderives haction)
    | some top =>
      rw [hs] at hline
      obtain ⟨us, hus, rfl⟩ := hline
      rw [List.append_assoc]
      exact .next _ hus (.pipeline hderives haction)

theorem holds_shift (h : Holds ts as bs cs ds s) (hshift : s.shift t = some s') :
    ∃ as' bs' cs' ds', Holds (ts ++ [t]) as' bs' cs' ds' s' := by
  have hredirect : ∀ op, OfPending [t] (some op) → s.redirect op = some s' →
      ∃ as' bs' cs' ds', Holds (ts ++ [t]) as' bs' cs' ds' s' := by
    intro op hop hr
    obtain ⟨htokens, hline, hpipe, hcommand, hpending⟩ := h
    unfold Stack.redirect at hr
    split at hr
    · rename_i hnone
      rw [hnone] at hpending
      obtain rfl : ds = [] := hpending
      cases hr
      refine ⟨as, bs, cs, [t], ?_, hline, hpipe, hcommand, hop⟩
      rw [htokens]
      simp only [List.append_nil, List.append_assoc]
    · cases hr
  cases t with
  | WORD w =>
    change s.word w = some s' at hshift
    obtain ⟨htokens, hline, hpipe, hcommand, hpending⟩ := h
    cases hp : s.pending with
    | none =>
      rw [hp] at hpending
      obtain rfl : ds = [] := hpending
      have hs : s = ⟨s.line, s.pipe, s.command, none⟩ := by
        rw [← hp]
      rw [hs] at hshift
      obtain ⟨hl, hp', hnone, hc⟩ := derives_word hcommand hshift
      refine ⟨as, bs, cs ++ [.WORD w], [], ?_, hl ▸ hline, hp' ▸ hpipe, hc, ?_⟩
      · rw [htokens]
        simp only [List.append_nil, List.append_assoc]
      · rw [hnone]
        rfl
    | some op =>
      rw [hp] at hpending
      have hs : s = ⟨s.line, s.pipe, s.command, some op⟩ := by
        rw [← hp]
      rw [hs] at hshift
      obtain ⟨hl, hp', hnone, hc⟩ := derives_redirect hcommand hpending hshift
      refine ⟨as, bs, cs ++ ds ++ [.WORD w], [], ?_, hl ▸ hline, hp' ▸ hpipe, hc, ?_⟩
      · rw [htokens]
        simp only [List.append_nil, List.append_assoc]
      · rw [hnone]
        rfl
  | less => exact hredirect .less rfl hshift
  | output op => exact hredirect (.output op) rfl hshift
  | pipe ampersand =>
    obtain ⟨pipe, hreduce, rfl⟩ := Option.map_eq_some_iff.mp hshift
    obtain ⟨htokens, hnone, hderives⟩ := derives_pipeline h hreduce
    refine ⟨as, bs ++ cs ++ [.pipe ampersand], [], [], ?_, h.line, ⟨_, hderives, rfl⟩, rfl, ?_⟩
    · rw [htokens]
      simp only [List.append_nil, List.append_assoc]
    · change OfPending [] s.pending
      rw [hnone]
      rfl
  | separator sep =>
    obtain ⟨line, hreduce, rfl⟩ := Option.map_eq_some_iff.mp hshift
    exact ⟨ts ++ [.separator sep], [], [], [], (List.append_nil _).symm,
      ⟨ts, derives_line h hreduce, rfl⟩, rfl, rfl, rfl⟩
  | newline => cases hshift

theorem holds_shifts (h : ts.foldlM Stack.shift Stack.empty = some s) :
    ∃ as bs cs ds, Holds ts as bs cs ds s := by
  induction ts using List.reverseRecOn generalizing s with
  | nil =>
    cases h
    exact ⟨[], [], [], [], rfl, rfl, rfl, rfl, rfl⟩
  | append_singleton ts t ih =>
    rw [List.foldlM_append] at h
    obtain ⟨u, hu, ht⟩ := Option.bind_eq_some_iff.mp h
    obtain ⟨as, bs, cs, ds, hholds⟩ := ih hu
    obtain ⟨v, hv, hpure⟩ := Option.bind_eq_some_iff.mp ht
    cases hpure
    exact holds_shift hholds hv

theorem parse_eq_some_iff {line : CommandLine} :
    astParseCommandLine ts = some line ↔ DerivesLine ts line := by
  refine ⟨fun h => ?_, parse_of_derives⟩
  obtain ⟨s, hs, hreduce⟩ := Option.bind_eq_some_iff.mp h
  obtain ⟨as, bs, cs, ds, hholds⟩ := holds_shifts hs
  exact derives_line hholds hreduce

end Soundness

end ComputerSystems.Cush.Grammar
