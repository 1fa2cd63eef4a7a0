/- Which command lines the parser accepts, and the tree that it builds for them. -/

import ComputerSystems.Cush.Grammar
import Mathlib.Algebra.Ring.Nat
import Mathlib.Data.List.Forall2

set_option autoImplicit false
set_option relaxedAutoImplicit false

namespace ComputerSystems.Cush.CommandLines

open ComputerSystems.Cush.Ast
open ComputerSystems.Cush.Grammar

inductive Item where
  | word (w : Word)
  | input (w : Word)
  | output (op : OutputOp) (w : Word)
  deriving DecidableEq, Repr

def Item.tokens : Item → List Token
  | .word w => [.WORD w]
  | .input w => [.less, .WORD w]
  | .output op w => [.output op, .WORD w]

abbrev CommandText := List Item

def words (c : CommandText) : List Word :=
  c.filterMap fun
    | .word w => some w
    | _ => none

def inputs (c : CommandText) : List Word :=
  c.filterMap fun
    | .input w => some w
    | _ => none

def outputs (c : CommandText) : List (OutputOp × Word) :=
  c.filterMap fun
    | .output op w => some (op, w)
    | _ => none

def redirects (c : CommandText) (op : OutputOp) : Bool :=
  (outputs c).any fun output => output.1 = op

def commandTokens (c : CommandText) : List Token :=
  c.flatMap Item.tokens

/-- Commands joined by `|`, or by `|&` where the flag is set. -/
structure PipelineText where
  first : CommandText
  rest : List (Bool × CommandText)

namespace PipelineText

variable (p : PipelineText)

def commands : List CommandText :=
  p.first :: p.rest.map Prod.snd

def last : CommandText :=
  p.commands.getLast (List.cons_ne_nil _ _)

def tokens : List Token :=
  commandTokens p.first ++ p.rest.flatMap fun link => .pipe link.1 :: commandTokens link.2

/-- Every command has a word. Input is redirected at most once, and only for the first command;
output is redirected at most once, and only for the last one. -/
structure WellFormed : Prop where
  words : ∀ c ∈ p.commands, words c ≠ []
  input : (inputs p.first).length ≤ 1
  inputs : ∀ link ∈ p.rest, inputs link.2 = []
  output : (outputs p.last).length ≤ 1
  outputs : ∀ c ∈ p.commands.dropLast, outputs c = []

structure Describes (tree : Pipeline) : Prop where
  argv : tree.commands.map Command.argv = p.commands.map CommandLines.words
  stderr : tree.commands.map Command.dupStderrToStdout =
    p.rest.map Prod.fst ++ [redirects p.last .greaterAmpersand]
  ioredInput : tree.ioredInput = (CommandLines.inputs p.first).head?
  ioredOutput : tree.ioredOutput = (CommandLines.outputs p.last).head?.map Prod.snd
  appendToOutput : tree.appendToOutput = redirects p.last .greaterGreater

end PipelineText

/-- Pipelines, each with the run of separators behind it, and the run in front of them. -/
structure LineText where
  lead : List Separator
  parts : List (PipelineText × List Separator)

namespace LineText

variable (text : LineText)

def tokens : List Token :=
  text.lead.map .separator ++
    text.parts.flatMap fun part => part.1.tokens ++ part.2.map .separator

structure WellFormed : Prop where
  pipelines : ∀ part ∈ text.parts, part.1.WellFormed
  separated : ∀ part ∈ text.parts.dropLast, part.2 ≠ []

/-- The tree has the pipelines of the text, in the background where an `&` follows. -/
def Describes (line : CommandLine) : Prop :=
  List.Forall₂ (fun part tree => part.1.Describes tree ∧
    tree.bgJob = decide (Separator.ampersand ∈ part.2)) text.parts line

end LineText

section Commands

variable {c : CommandText} {w : Word} {op : OutputOp} {ts : List Token} {cmd : CmdHelper}

def helper (c : CommandText) : CmdHelper where
  words := words c
  ioredInput := (inputs c).head?
  ioredOutput := (outputs c).head?.map Prod.snd
  appendToOutput := redirects c .greaterGreater
  redirectStderr := redirects c .greaterAmpersand

theorem helper_word : helper (c ++ [.word w]) = growAction (helper c) w := by
  simp [helper, growAction, words, inputs, outputs, redirects]

theorem helper_input (h : inputs c = []) :
    mergeInput (helper c) (inputAction w) = some (helper (c ++ [.input w])) := by
  have hnone : (helper c).ioredInput = none := by
    rw [helper, h]
    rfl
  rw [mergeInput, hnone, Option.isSome_none, if_neg Bool.false_ne_true]
  simp only [inputs] at h
  simp [helper, inputAction, initCmd, words, inputs, outputs, redirects, h]

theorem helper_output (h : outputs c = []) :
    mergeOutput (helper c) (outputAction op w) = some (helper (c ++ [.output op w])) := by
  have hnone : (helper c).ioredOutput = none := by
    rw [helper, h]
    rfl
  rw [mergeOutput, hnone, Option.isSome_none, if_neg Bool.false_ne_true]
  simp only [outputs] at h
  cases op <;> simp [helper, outputAction, initCmd, words, inputs, outputs, redirects, h]

theorem commandTokens_snoc (c : CommandText) (item : Item) :
    commandTokens (c ++ [item]) = commandTokens c ++ item.tokens := by
  rw [commandTokens, List.flatMap_append, List.flatMap_singleton]
  rfl

theorem inputs_eq_nil (h : (helper c).ioredInput = none) : inputs c = [] :=
  List.head?_eq_none_iff.mp h

theorem outputs_eq_nil (h : (helper c).ioredOutput = none) : outputs c = [] :=
  List.head?_eq_none_iff.mp (Option.map_eq_none_iff.mp h)

theorem inputs_snoc (c : CommandText) (w : Word) : inputs (c ++ [.input w]) = inputs c ++ [w] := by
  simp [inputs]

theorem outputs_snoc (c : CommandText) (op : OutputOp) (w : Word) :
    outputs (c ++ [.output op w]) = outputs c ++ [(op, w)] := by
  simp [outputs]

theorem derives_text (hne : c ≠ []) (hin : (inputs c).length ≤ 1) (hout : (outputs c).length ≤ 1) :
    DerivesCommand (commandTokens c) (helper c) := by
  induction c using List.reverseRecOn with
  | nil => exact absurd rfl hne
  | append_singleton c item ih =>
    rw [commandTokens_snoc]
    by_cases hc : c = []
    · subst hc
      cases item with
      | word w => exact .word w
      | input w => exact .input w
      | output op w =>
        have houtput : helper [.output op w] = outputAction op w := by
          cases op <;> rfl
        rw [List.nil_append, houtput]
        exact .output op w
    · cases item with
      | word w =>
        rw [helper_word]
        refine .commandWord w (ih hc ?_ ?_)
        · simpa [inputs] using hin
        · simpa [outputs] using hout
      | input w =>
        rw [inputs_snoc, List.length_append, List.length_singleton] at hin
        have hnil : inputs c = [] := List.length_eq_zero_iff.mp (by omega)
        refine .commandInput w (ih hc ?_ ?_) (helper_input hnil)
        · rw [hnil]
          exact Nat.zero_le 1
        · simpa [outputs] using hout
      | output op w =>
        rw [outputs_snoc, List.length_append, List.length_singleton] at hout
        have hnil : outputs c = [] := List.length_eq_zero_iff.mp (by omega)
        refine .commandOutput op w (ih hc ?_ ?_) (helper_output hnil)
        · simpa [inputs] using hin
        · rw [hnil]
          exact Nat.zero_le 1

theorem text_of_derives (h : DerivesCommand ts cmd) : ∃ c : CommandText, commandTokens c = ts ∧
    helper c = cmd ∧ (inputs c).length ≤ 1 ∧ (outputs c).length ≤ 1 := by
  induction h with
  | word w => exact ⟨[.word w], rfl, rfl, Nat.zero_le 1, Nat.zero_le 1⟩
  | input w => exact ⟨[.input w], rfl, rfl, Nat.le_refl 1, Nat.zero_le 1⟩
  | output op w =>
    refine ⟨[.output op w], rfl, ?_, Nat.zero_le 1, Nat.le_refl 1⟩
    cases op <;> rfl
  | commandWord w _ ih =>
    obtain ⟨c, rfl, rfl, hin, hout⟩ := ih
    refine ⟨c ++ [.word w], commandTokens_snoc c _, helper_word, ?_, ?_⟩
    · simpa [inputs] using hin
    · simpa [outputs] using hout
  | commandInput w _ hmerge ih =>
    obtain ⟨c, rfl, rfl, hin, hout⟩ := ih
    have hnil : inputs c = [] := by
      refine inputs_eq_nil (Option.not_isSome_iff_eq_none.mp fun hsome => ?_)
      rw [mergeInput, if_pos hsome] at hmerge
      cases hmerge
    rw [helper_input hnil, Option.some_inj] at hmerge
    refine ⟨c ++ [.input w], commandTokens_snoc c _, hmerge, ?_, ?_⟩
    · rw [inputs_snoc, hnil]
      exact Nat.le_refl 1
    · simpa [outputs] using hout
  | commandOutput op w _ hmerge ih =>
    obtain ⟨c, rfl, rfl, hin, hout⟩ := ih
    have hnil : outputs c = [] := by
      refine outputs_eq_nil (Option.not_isSome_iff_eq_none.mp fun hsome => ?_)
      rw [mergeOutput, if_pos hsome] at hmerge
      cases hmerge
    rw [helper_output hnil, Option.some_inj] at hmerge
    refine ⟨c ++ [.output op w], commandTokens_snoc c _, hmerge, ?_, ?_⟩
    · simpa [inputs] using hin
    · rw [outputs_snoc, hnil]
      exact Nat.le_refl 1

end Commands

section Pipelines

variable {first : CommandText} {rest : List (Bool × CommandText)} {ts : List Token}

def helpers (first : CommandText) : List (Bool × CommandText) → PipeHelper
  | [] => [helper first]
  | (ampersand, c) :: rest => { helper first with redirectStderr := ampersand } :: helpers c rest

theorem helpers_ne_nil : helpers first rest ≠ [] := by
  cases rest <;> exact List.cons_ne_nil _ _

theorem last_cons (ampersand : Bool) (c : CommandText) :
    PipelineText.last ⟨first, (ampersand, c) :: rest⟩ = PipelineText.last ⟨c, rest⟩ :=
  List.getLast_cons _

theorem helpers_getLast : (helpers first rest).getLast? =
    some (helper (PipelineText.last ⟨first, rest⟩)) := by
  induction rest generalizing first with
  | nil => rfl
  | cons link rest ih =>
    obtain ⟨ampersand, c⟩ := link
    rw [helpers, List.getLast?_cons, ih, last_cons]
    rfl

theorem helpers_snoc (ampersand : Bool) (c : CommandText) :
    helpers first (rest ++ [(ampersand, c)]) = (helpers first rest).dropLast ++
      [{ helper (PipelineText.last ⟨first, rest⟩) with redirectStderr := ampersand }, helper c] := by
  induction rest generalizing first with
  | nil => rfl
  | cons link rest ih =>
    obtain ⟨ampersand', c'⟩ := link
    rw [List.cons_append, helpers, helpers, ih, last_cons,
      List.dropLast_cons_of_ne_nil helpers_ne_nil]
    rfl

theorem addToPipeline_helpers {ampersand : Bool} {c : CommandText} {pipe : PipeHelper} :
    addToPipeline (helpers first rest) (helper c) ampersand = some pipe ↔
      outputs (PipelineText.last ⟨first, rest⟩) = [] ∧ inputs c = [] ∧ words c ≠ [] ∧
        helpers first (rest ++ [(ampersand, c)]) = pipe := by
  rw [addToPipeline, helpers_getLast, helpers_snoc]
  dsimp only
  constructor
  · intro h
    split_ifs at h with hout hin hwords
    exact ⟨outputs_eq_nil (Option.not_isSome_iff_eq_none.mp hout),
      inputs_eq_nil (Option.not_isSome_iff_eq_none.mp hin), hwords, Option.some.inj h⟩
  · rintro ⟨hout, hin, hwords, rfl⟩
    have hout' : (helper (PipelineText.last ⟨first, rest⟩)).ioredOutput = none := by
      rw [helper, hout]
      rfl
    have hin' : (helper c).ioredInput = none := by
      rw [helper, hin]
      rfl
    rw [hout', hin', Option.isSome_none, if_neg Bool.false_ne_true, if_neg Bool.false_ne_true]
    exact if_neg hwords

theorem commands_snoc (link : Bool × CommandText) :
    PipelineText.commands ⟨first, rest ++ [link]⟩ = PipelineText.commands ⟨first, rest⟩ ++ [link.2] := by
  simp [PipelineText.commands]

theorem last_snoc (link : Bool × CommandText) :
    PipelineText.last ⟨first, rest ++ [link]⟩ = link.2 := by
  simp [PipelineText.last, PipelineText.commands]

theorem tokens_snoc (ampersand : Bool) (c : CommandText) :
    PipelineText.tokens ⟨first, rest ++ [(ampersand, c)]⟩ =
      PipelineText.tokens ⟨first, rest⟩ ++ .pipe ampersand :: commandTokens c := by
  simp [PipelineText.tokens]

theorem commands_eq : PipelineText.commands ⟨first, rest⟩ =
    (PipelineText.commands ⟨first, rest⟩).dropLast ++ [PipelineText.last ⟨first, rest⟩] :=
  (List.dropLast_append_getLast _).symm

theorem wellFormed_snoc (ampersand : Bool) (c : CommandText) :
    PipelineText.WellFormed ⟨first, rest ++ [(ampersand, c)]⟩ ↔
      PipelineText.WellFormed ⟨first, rest⟩ ∧ outputs (PipelineText.last ⟨first, rest⟩) = [] ∧
        inputs c = [] ∧ words c ≠ [] ∧ (outputs c).length ≤ 1 := by
  constructor
  · rintro ⟨hwords, hin, hins, hout, houts⟩
    rw [commands_snoc] at hwords houts
    rw [List.dropLast_concat] at houts
    rw [last_snoc] at hout
    have hlast : PipelineText.last ⟨first, rest⟩ ∈ PipelineText.commands ⟨first, rest⟩ :=
      List.getLast_mem _
    have hnone := houts _ hlast
    refine ⟨⟨fun d hd => hwords d (List.mem_append_left _ hd), hin,
      fun link hlink => hins link (List.mem_append_left _ hlink), ?_,
      fun d hd => houts d (List.dropLast_subset _ hd)⟩, hnone, ?_, ?_, hout⟩
    · rw [hnone]
      exact Nat.zero_le 1
    · exact hins (ampersand, c) (List.mem_append_right _ (List.mem_singleton_self _))
    · exact hwords c (List.mem_append_right _ (List.mem_singleton_self _))
  · rintro ⟨⟨hwords, hin, hins, -, houts⟩, hnone, hinput, hword, hout⟩
    refine ⟨fun d hd => ?_, hin, fun link hlink => ?_, ?_, fun d hd => ?_⟩
    · rw [commands_snoc] at hd
      rcases List.mem_append.mp hd with hd | hd
      · exact hwords d hd
      · rw [List.mem_singleton.mp hd]
        exact hword
    · rcases List.mem_append.mp hlink with hlink | hlink
      · exact hins link hlink
      · rw [List.mem_singleton.mp hlink]
        exact hinput
    · rw [last_snoc]
      exact hout
    · rw [commands_snoc, List.dropLast_concat, commands_eq] at hd
      rcases List.mem_append.mp hd with hd | hd
      · exact houts d hd
      · rw [List.mem_singleton.mp hd]
        exact hnone

theorem wellFormed_single {c : CommandText} (hwords : words c ≠ []) (hin : (inputs c).length ≤ 1)
    (hout : (outputs c).length ≤ 1) : PipelineText.WellFormed ⟨c, []⟩ where
  words d hd := by
    rw [List.mem_singleton.mp hd]
    exact hwords
  input := hin
  inputs := nofun
  output := hout
  outputs := nofun

theorem ne_nil_of_words {c : CommandText} (h : words c ≠ []) : c ≠ [] := by
  rintro rfl
  exact h rfl

theorem pipeline_iff {pipe : PipeHelper} : DerivesPipeline ts pipe ↔
    ∃ p : PipelineText, p.WellFormed ∧ p.tokens = ts ∧ helpers p.first p.rest = pipe := by
  constructor
  · intro h
    induction h with
    | command hcmd hadd =>
      obtain ⟨c, rfl, rfl, hin, hout⟩ := text_of_derives hcmd
      rw [addToPipeline] at hadd
      dsimp only [List.getLast?_nil] at hadd
      split_ifs at hadd with hwords
      refine ⟨⟨c, []⟩, wellFormed_single hwords hin hout, ?_, Option.some.inj hadd⟩
      exact List.append_nil _
    | pipe ampersand _ hcmd hadd ih =>
      obtain ⟨⟨first, rest⟩, hformed, rfl, rfl⟩ := ih
      obtain ⟨c, rfl, rfl, hin, hout⟩ := text_of_derives hcmd
      obtain ⟨hnone, hinput, hwords, hpipe⟩ := addToPipeline_helpers.mp hadd
      exact ⟨⟨first, rest ++ [(ampersand, c)]⟩,
        (wellFormed_snoc ampersand c).mpr ⟨hformed, hnone, hinput, hwords, hout⟩,
        tokens_snoc ampersand c, hpipe⟩
  · rintro ⟨⟨first, rest⟩, hformed, rfl, rfl⟩
    induction rest using List.reverseRecOn with
    | nil =>
      have hwords : words first ≠ [] := hformed.words first List.mem_cons_self
      have hcmd := derives_text (ne_nil_of_words hwords) hformed.input hformed.output
      have htokens : PipelineText.tokens ⟨first, []⟩ = commandTokens first := List.append_nil _
      rw [htokens]
      exact .command hcmd (if_neg hwords)
    | append_singleton rest link ih =>
      obtain ⟨ampersand, c⟩ := link
      obtain ⟨hformed, hnone, hinput, hwords, hout⟩ := (wellFormed_snoc ampersand c).mp hformed
      have hin : (inputs c).length ≤ 1 := by
        rw [hinput]
        exact Nat.zero_le 1
      rw [tokens_snoc]
      exact .pipe ampersand (ih hformed) (derives_text (ne_nil_of_words hwords) hin hout)
        (addToPipeline_helpers.mpr ⟨hnone, hinput, hwords, rfl⟩)

theorem makeAstCommand_iff {cmd : CmdHelper} {command : Command} (hwords : cmd.words ≠ []) :
    makeAstCommand cmd = some command ↔
      command.argv = cmd.words ∧ command.dupStderrToStdout = cmd.redirectStderr := by
  rw [makeAstCommand, dif_pos hwords]
  constructor
  · intro h
    cases h
    exact ⟨rfl, rfl⟩
  · rintro ⟨hargv, hdup⟩
    obtain ⟨argv, hne, dup⟩ := command
    obtain rfl : argv = _ := hargv
    obtain rfl : dup = _ := hdup
    rfl

theorem mapM_iff {pipe : PipeHelper} {commands : List Command}
    (hwords : ∀ cmd ∈ pipe, cmd.words ≠ []) : pipe.mapM makeAstCommand = some commands ↔
      commands.map Command.argv = pipe.map CmdHelper.words ∧
        commands.map Command.dupStderrToStdout = pipe.map CmdHelper.redirectStderr := by
  induction pipe generalizing commands with
  | nil =>
    rw [List.mapM_nil]
    constructor
    · intro h
      cases h
      exact ⟨rfl, rfl⟩
    · rintro ⟨hargv, -⟩
      rw [List.map_eq_nil_iff.mp hargv]
      rfl
  | cons cmd pipe ih =>
    have ih := fun {commands : List Command} =>
      @ih commands fun cmd' h => hwords cmd' (List.mem_cons_of_mem _ h)
    have hcmd : cmd.words ≠ [] := hwords cmd List.mem_cons_self
    rw [List.mapM_cons]
    constructor
    · intro h
      obtain ⟨command, hcommand, hrest⟩ := Option.bind_eq_some_iff.mp h
      obtain ⟨commands', hcommands, hpure⟩ := Option.bind_eq_some_iff.mp hrest
      cases hpure
      obtain ⟨hargv, hdup⟩ := (makeAstCommand_iff hcmd).mp hcommand
      obtain ⟨hargvs, hdups⟩ := ih.mp hcommands
      rw [List.map_cons, List.map_cons, List.map_cons, List.map_cons, hargv, hdup, hargvs, hdups]
      exact ⟨rfl, rfl⟩
    · rintro ⟨hargv, hdup⟩
      cases commands with
      | nil => cases hargv
      | cons command commands =>
        obtain ⟨hargv, hargvs⟩ := List.cons.inj hargv
        obtain ⟨hdup, hdups⟩ := List.cons.inj hdup
        refine Option.bind_eq_some_iff.mpr ⟨command, (makeAstCommand_iff hcmd).mpr ⟨hargv, hdup⟩, ?_⟩
        exact Option.bind_eq_some_iff.mpr ⟨commands, ih.mpr ⟨hargvs, hdups⟩, rfl⟩

theorem mapM_exists {pipe : PipeHelper} (hwords : ∀ cmd ∈ pipe, cmd.words ≠ []) :
    ∃ commands, pipe.mapM makeAstCommand = some commands := by
  induction pipe with
  | nil => exact ⟨[], rfl⟩
  | cons cmd pipe ih =>
    obtain ⟨commands, hcommands⟩ := ih fun cmd' h => hwords cmd' (List.mem_cons_of_mem _ h)
    have hcmd : cmd.words ≠ [] := hwords cmd List.mem_cons_self
    refine ⟨⟨cmd.words, hcmd, cmd.redirectStderr⟩ :: commands, ?_⟩
    rw [List.mapM_cons, hcommands, makeAstCommand, dif_pos hcmd]
    rfl

theorem helpers_words : (helpers first rest).map CmdHelper.words =
    (PipelineText.commands ⟨first, rest⟩).map words := by
  induction rest generalizing first with
  | nil => rfl
  | cons link rest ih => exact congrArg (List.cons _) ih

theorem helpers_stderr : (helpers first rest).map CmdHelper.redirectStderr =
    rest.map Prod.fst ++ [redirects (PipelineText.last ⟨first, rest⟩) .greaterAmpersand] := by
  induction rest generalizing first with
  | nil => rfl
  | cons link rest ih =>
    obtain ⟨ampersand, c⟩ := link
    rw [last_cons]
    exact congrArg (List.cons _) ih

theorem helpers_head (first : CommandText) (rest : List (Bool × CommandText)) :
    ∃ cmd, (helpers first rest).head? = some cmd ∧ cmd.ioredInput = (inputs first).head? := by
  cases rest with
  | nil => exact ⟨_, rfl, rfl⟩
  | cons link rest => exact ⟨_, rfl, rfl⟩

theorem helpers_have_words (hformed : PipelineText.WellFormed ⟨first, rest⟩) :
    ∀ cmd ∈ helpers first rest, cmd.words ≠ [] := by
  intro cmd hcmd
  have hmem : cmd.words ∈ (helpers first rest).map CmdHelper.words := List.mem_map_of_mem hcmd
  rw [helpers_words] at hmem
  obtain ⟨c, hc, hsame⟩ := List.mem_map.mp hmem
  rw [← hsame]
  exact hformed.words c hc

theorem astPipelineAction_iff {p : PipelineText} (hformed : p.WellFormed) {tree : Pipeline} :
    astPipelineAction (helpers p.first p.rest) = some tree ↔ p.Describes tree ∧ tree.bgJob = false := by
  obtain ⟨first, rest⟩ := p
  have hwords := helpers_have_words hformed
  obtain ⟨cmd, hhead, hinput⟩ := helpers_head first rest
  have hmap := fun {commands : List Command} => @mapM_iff _ commands hwords
  rw [helpers_words, helpers_stderr] at hmap
  rw [astPipelineAction, hhead, helpers_getLast]
  dsimp only
  constructor
  · intro h
    split at h
    · rename_i f l commands hf hl hcommands
      obtain rfl := Option.some.inj hf
      obtain rfl := Option.some.inj hl
      split_ifs at h
      cases h
      obtain ⟨hargv, hdup⟩ := hmap.mp hcommands
      exact ⟨⟨hargv, hdup, hinput, rfl, rfl⟩, rfl⟩
    · cases h
  · rintro ⟨⟨hargv, hdup, hin, hout, happend⟩, hbg⟩
    obtain ⟨commands, hne, input, output, append, background⟩ := tree
    rw [hmap.mpr ⟨hargv, hdup⟩]
    dsimp only at hin hout happend hbg ⊢
    rw [dif_pos hne, hinput, ← hin, hbg, hout, happend]
    rfl

theorem pipeline_described {p : PipelineText} (hformed : p.WellFormed) (background : Bool) :
    ∃ tree, p.Describes tree ∧ tree.bgJob = background := by
  obtain ⟨first, rest⟩ := p
  have hwords := helpers_have_words hformed
  obtain ⟨commands, hcommands⟩ := mapM_exists hwords
  obtain ⟨hargv, hdup⟩ := (mapM_iff hwords).mp hcommands
  rw [helpers_words] at hargv
  rw [helpers_stderr] at hdup
  have hne : commands ≠ [] := by
    rintro rfl
    cases hargv
  exact ⟨⟨commands, hne, (inputs first).head?,
    (outputs (PipelineText.last ⟨first, rest⟩)).head?.map Prod.snd,
    redirects (PipelineText.last ⟨first, rest⟩) .greaterGreater, background⟩,
    ⟨hargv, hdup, rfl, rfl, rfl⟩, rfl⟩

theorem astPipeline_iff {tree : Pipeline} : DerivesAstPipeline ts tree ↔
    ∃ p : PipelineText, p.WellFormed ∧ p.tokens = ts ∧ p.Describes tree ∧ tree.bgJob = false := by
  constructor
  · rintro ⟨hpipe, htree⟩
    obtain ⟨p, hformed, htokens, rfl⟩ := pipeline_iff.mp hpipe
    exact ⟨p, hformed, htokens, (astPipelineAction_iff hformed).mp htree⟩
  · rintro ⟨p, hformed, htokens, hdescribes⟩
    exact .pipeline (pipeline_iff.mpr ⟨p, hformed, htokens, rfl⟩)
      ((astPipelineAction_iff hformed).mpr hdescribes)

end Pipelines

section Lines

variable {lead : List Separator} {parts : List (PipelineText × List Separator)}
variable {p : PipelineText} {run : List Separator} {line : CommandLine} {tree : Pipeline}
variable {text : LineText} {ts : List Token}

/-- The pipeline of a part, in the background where an `&` follows. -/
def PartDescribes (part : PipelineText × List Separator) (tree : Pipeline) : Prop :=
  part.1.Describes tree ∧ tree.bgJob = decide (Separator.ampersand ∈ part.2)

theorem forall₂_concat {α β : Type} {R : α → β → Prop} {l : List α} {a : α} {m : List β} :
    List.Forall₂ R (l ++ [a]) m ↔ ∃ m' b, List.Forall₂ R l m' ∧ R a b ∧ m = m' ++ [b] := by
  rw [← List.forall₂_reverse_iff, List.reverse_concat, List.forall₂_cons_left_iff]
  constructor
  · rintro ⟨b, m', hab, hrest, hm⟩
    refine ⟨m'.reverse, b, List.forall₂_reverse_iff.mp (by rwa [List.reverse_reverse]), hab, ?_⟩
    rw [← List.reverse_reverse m, hm, List.reverse_cons]
  · rintro ⟨m', b, hrest, hab, rfl⟩
    exact ⟨b, m'.reverse, hab, List.forall₂_reverse_iff.mpr hrest, List.reverse_concat ..⟩

theorem describes_concat : LineText.Describes ⟨lead, parts ++ [(p, run)]⟩ line ↔
    ∃ line' tree, LineText.Describes ⟨lead, parts⟩ line' ∧ PartDescribes (p, run) tree ∧
      line = line' ++ [tree] :=
  forall₂_concat

theorem lineTokens_concat : LineText.tokens ⟨lead, parts ++ [(p, run)]⟩ =
    LineText.tokens ⟨lead, parts⟩ ++ (p.tokens ++ run.map .separator) := by
  simp [LineText.tokens]

def Closed (text : LineText) : Prop :=
  ∀ part ∈ text.parts, part.2 ≠ []

theorem line_wellFormed_concat : LineText.WellFormed ⟨lead, parts ++ [(p, run)]⟩ ↔
    LineText.WellFormed ⟨lead, parts⟩ ∧ Closed ⟨lead, parts⟩ ∧ p.WellFormed := by
  constructor
  · rintro ⟨hpipes, hruns⟩
    rw [List.dropLast_concat] at hruns
    exact ⟨⟨fun part hpart => hpipes part (List.mem_append_left _ hpart),
      fun part hpart => hruns part (List.dropLast_subset _ hpart)⟩, hruns,
      hpipes (p, run) (List.mem_append_right _ (List.mem_singleton_self _))⟩
  · rintro ⟨⟨hpipes, -⟩, hclosed, hformed⟩
    refine ⟨fun part hpart => ?_, fun part hpart => ?_⟩
    · rcases List.mem_append.mp hpart with hpart | hpart
      · exact hpipes part hpart
      · rw [List.mem_singleton.mp hpart]
        exact hformed
    · rw [List.dropLast_concat] at hpart
      exact hclosed part hpart

theorem closed_concat : Closed ⟨lead, parts ++ [(p, run)]⟩ ↔ Closed ⟨lead, parts⟩ ∧ run ≠ [] := by
  constructor
  · intro h
    exact ⟨fun part hpart => h part (List.mem_append_left _ hpart),
      h (p, run) (List.mem_append_right _ (List.mem_singleton_self _))⟩
  · rintro ⟨h, hrun⟩ part hpart
    rcases List.mem_append.mp hpart with hpart | hpart
    · exact h part hpart
    · rw [List.mem_singleton.mp hpart]
      exact hrun

@[simp] theorem separatorAction_nil (sep : Separator) : separatorAction [] sep = [] := by
  cases sep with
  | semicolon => rfl
  | ampersand => rfl

theorem separatorAction_ampersand (line : CommandLine) (tree : Pipeline) :
    separatorAction (line ++ [tree]) .ampersand = line ++ [{ tree with bgJob := true }] := by
  rw [separatorAction, List.getLast?_concat]
  dsimp only
  rw [List.dropLast_concat]

theorem separatorAction_concat (line : CommandLine) (tree : Pipeline) (sep : Separator) :
    ∃ tree', separatorAction (line ++ [tree]) sep = line ++ [tree'] := by
  cases sep with
  | semicolon => exact ⟨tree, rfl⟩
  | ampersand => exact ⟨_, separatorAction_ampersand line tree⟩

theorem partDescribes_concat {sep : Separator} : PartDescribes (p, run ++ [sep]) tree ↔
    ∃ tree', PartDescribes (p, run) tree' ∧
      separatorAction (line ++ [tree']) sep = line ++ [tree] := by
  have hdecide : ∀ b : Bool, decide (Separator.ampersand ∈ run ++ [sep]) = b ↔
      (decide (Separator.ampersand ∈ run) || decide (Separator.ampersand = sep)) = b := by
    intro b
    simp only [List.mem_append, List.mem_singleton, Bool.decide_or]
  cases sep with
  | semicolon =>
    have hsame : decide (Separator.ampersand ∈ run ++ [.semicolon]) =
        decide (Separator.ampersand ∈ run) := (hdecide _).mpr (Bool.or_false _)
    constructor
    · rintro ⟨hdescribes, hbg⟩
      exact ⟨tree, ⟨hdescribes, hbg.trans hsame⟩, rfl⟩
    · rintro ⟨tree', ⟨hdescribes, hbg⟩, heq⟩
      obtain rfl : tree' = tree := List.singleton_inj.mp (List.append_cancel_left heq)
      exact ⟨hdescribes, hbg.trans hsame.symm⟩
  | ampersand =>
    have htrue : decide (Separator.ampersand ∈ run ++ [.ampersand]) = true :=
      (hdecide _).mpr (Bool.or_true _)
    constructor
    · rintro ⟨hdescribes, hbg⟩
      refine ⟨{ tree with bgJob := decide (Separator.ampersand ∈ run) },
        ⟨⟨hdescribes.argv, hdescribes.stderr, hdescribes.ioredInput, hdescribes.ioredOutput,
          hdescribes.appendToOutput⟩, rfl⟩, ?_⟩
      rw [separatorAction_ampersand, ← hbg.trans htrue]
    · rintro ⟨tree', ⟨hdescribes, -⟩, heq⟩
      rw [separatorAction_ampersand] at heq
      obtain rfl : { tree' with bgJob := true } = tree :=
        List.singleton_inj.mp (List.append_cancel_left heq)
      exact ⟨⟨hdescribes.argv, hdescribes.stderr, hdescribes.ioredInput, hdescribes.ioredOutput,
        hdescribes.appendToOutput⟩, htrue.symm⟩

theorem separator_text (sep : Separator) (hformed : text.WellFormed) (hline : text.Describes line) :
    ∃ text' : LineText, text'.WellFormed ∧ Closed text' ∧
      text'.tokens = text.tokens ++ [.separator sep] ∧
        text'.Describes (separatorAction line sep) := by
  obtain ⟨lead, parts⟩ := text
  rcases List.eq_nil_or_concat' parts with rfl | ⟨parts, ⟨p, run⟩, rfl⟩
  · obtain rfl : line = [] := List.forall₂_nil_left_iff.mp hline
    refine ⟨⟨lead ++ [sep], []⟩, ⟨nofun, nofun⟩, nofun, ?_, ?_⟩
    · simp [LineText.tokens]
    · rw [separatorAction_nil]
      exact .nil
  · obtain ⟨line, tree, hparts, htree, rfl⟩ := describes_concat.mp hline
    obtain ⟨hparts', hclosed, hpipe⟩ := line_wellFormed_concat.mp hformed
    obtain ⟨tree', htree'⟩ := separatorAction_concat line tree sep
    refine ⟨⟨lead, parts ++ [(p, run ++ [sep])]⟩,
      line_wellFormed_concat.mpr ⟨hparts', hclosed, hpipe⟩,
      closed_concat.mpr ⟨hclosed, List.concat_ne_nil _ _⟩, ?_, ?_⟩
    · rw [lineTokens_concat, lineTokens_concat]
      simp
    · rw [htree']
      exact describes_concat.mpr ⟨line, tree', hparts,
        partDescribes_concat.mpr ⟨tree, htree, htree'⟩, rfl⟩

theorem text_of_line (h : DerivesLine ts line) :
    ∃ text : LineText, text.WellFormed ∧ text.tokens = ts ∧ text.Describes line := by
  induction h with
  | empty => exact ⟨⟨[], []⟩, ⟨nofun, nofun⟩, rfl, .nil⟩
  | pipeline hpipe =>
    obtain ⟨p, hformed, rfl, hdescribes, hbg⟩ := astPipeline_iff.mp hpipe
    refine ⟨⟨[], [(p, [])]⟩, ⟨fun part hpart => ?_, nofun⟩, ?_, .cons ⟨hdescribes, hbg⟩ .nil⟩
    · rw [List.mem_singleton.mp hpart]
      exact hformed
    · simp [LineText.tokens]
  | separator sep _ ih =>
    obtain ⟨text, hformed, rfl, hline⟩ := ih
    obtain ⟨text', hformed', -, htokens, hdescribes⟩ := separator_text sep hformed hline
    exact ⟨text', hformed', htokens, hdescribes⟩
  | next sep _ hpipe ih =>
    obtain ⟨text, hformed, rfl, hline⟩ := ih
    obtain ⟨⟨lead, parts⟩, hformed', hclosed, htokens, hdescribes⟩ :=
      separator_text sep hformed hline
    obtain ⟨p, hpipeline, rfl, htree, hbg⟩ := astPipeline_iff.mp hpipe
    refine ⟨⟨lead, parts ++ [(p, [])]⟩, line_wellFormed_concat.mpr ⟨hformed', hclosed, hpipeline⟩, ?_,
      describes_concat.mpr ⟨_, _, hdescribes, ⟨htree, hbg⟩, rfl⟩⟩
    rw [lineTokens_concat, htokens]
    simp

def size (text : LineText) : Nat :=
  text.lead.length + (text.parts.map fun part => part.2.length + 1).sum

theorem size_concat : size ⟨lead, parts ++ [(p, run)]⟩ = size ⟨lead, parts⟩ + (run.length + 1) := by
  simp [size, Nat.add_assoc]

theorem text_separator (hformed : text.WellFormed) (hclosed : Closed text) (hsize : size text ≠ 0)
    (hline : text.Describes line) : ∃ (text' : LineText) (sep : Separator) (line' : CommandLine),
      text'.WellFormed ∧ text'.Describes line' ∧ size text = size text' + 1 ∧
        text.tokens = text'.tokens ++ [.separator sep] ∧ separatorAction line' sep = line := by
  obtain ⟨lead, parts⟩ := text
  rcases List.eq_nil_or_concat' parts with rfl | ⟨parts, ⟨p, run⟩, rfl⟩
  · obtain rfl : line = [] := List.forall₂_nil_left_iff.mp hline
    rcases List.eq_nil_or_concat' lead with rfl | ⟨lead, sep, rfl⟩
    · exact absurd rfl hsize
    · refine ⟨⟨lead, []⟩, sep, [], ⟨nofun, nofun⟩, .nil, ?_, ?_, ?_⟩
      · simp [size]
      · simp [LineText.tokens]
      · exact separatorAction_nil sep
  · obtain ⟨line, tree, hparts, htree, rfl⟩ := describes_concat.mp hline
    obtain ⟨hparts', hclosed', hpipe⟩ := line_wellFormed_concat.mp hformed
    obtain ⟨-, hrun⟩ := closed_concat.mp hclosed
    rcases List.eq_nil_or_concat' run with rfl | ⟨run, sep, rfl⟩
    · exact absurd rfl hrun
    · obtain ⟨tree', htree', haction⟩ := partDescribes_concat.mp htree
      refine ⟨⟨lead, parts ++ [(p, run)]⟩, sep, line ++ [tree'],
        line_wellFormed_concat.mpr ⟨hparts', hclosed', hpipe⟩,
        describes_concat.mpr ⟨line, tree', hparts, htree', rfl⟩, ?_, ?_, haction⟩
      · rw [size_concat, size_concat, List.length_append, List.length_singleton]
        omega
      · rw [lineTokens_concat, lineTokens_concat]
        simp

theorem line_of_text (hformed : text.WellFormed) (hline : text.Describes line) :
    DerivesLine text.tokens line := by
  -- from smaller texts, where a last pipeline or a last separator is taken off
  induction hsize : size text using Nat.strongRecOn generalizing text line with
  | _ n ih =>
    have hless : ∀ {text' : LineText} {line'}, size text' < n → text'.WellFormed →
        text'.Describes line' → DerivesLine text'.tokens line' := by
      intro text' line' hlt hformed' hline'
      exact ih _ hlt hformed' hline' rfl
    obtain ⟨lead, parts⟩ := text
    by_cases hopen : ∃ parts' p, parts = parts' ++ [(p, [])]
    · obtain ⟨parts, p, rfl⟩ := hopen
      obtain ⟨line, tree, hparts, ⟨htree, hbg⟩, rfl⟩ := describes_concat.mp hline
      obtain ⟨hparts', hclosed, hpipe⟩ := line_wellFormed_concat.mp hformed
      have hpipeline : DerivesAstPipeline p.tokens tree :=
        astPipeline_iff.mpr ⟨p, hpipe, rfl, htree, hbg⟩
      rw [lineTokens_concat, List.map_nil, List.append_nil]
      rw [size_concat, List.length_nil] at hsize
      by_cases hzero : size ⟨lead, parts⟩ = 0
      · obtain ⟨hlead, hsum⟩ := Nat.add_eq_zero_iff.mp hzero
        obtain rfl : lead = [] := List.length_eq_zero_iff.mp hlead
        obtain rfl : parts = [] := by
          cases parts with
          | nil => rfl
          | cons part parts => simp at hsum
        obtain rfl : line = [] := List.forall₂_nil_left_iff.mp hparts
        exact .pipeline hpipeline
      · obtain ⟨text', sep, line', hformed', hline', hsmaller, htokens, rfl⟩ :=
          text_separator hparts' hclosed hzero hparts
        rw [htokens, List.append_assoc, List.singleton_append]
        exact .next sep (hless (by omega) hformed' hline') hpipeline
    · have hclosed : Closed ⟨lead, parts⟩ := by
        rcases List.eq_nil_or_concat' parts with rfl | ⟨parts, ⟨p, run⟩, rfl⟩
        · exact nofun
        · refine closed_concat.mpr ⟨(line_wellFormed_concat.mp hformed).2.1, ?_⟩
          rintro rfl
          exact hopen ⟨parts, p, rfl⟩
      by_cases hzero : size ⟨lead, parts⟩ = 0
      · obtain ⟨hlead, hsum⟩ := Nat.add_eq_zero_iff.mp hzero
        obtain rfl : lead = [] := List.length_eq_zero_iff.mp hlead
        obtain rfl : parts = [] := by
          cases parts with
          | nil => rfl
          | cons part parts => simp at hsum
        obtain rfl : line = [] := List.forall₂_nil_left_iff.mp hline
        exact .empty
      · obtain ⟨text', sep, line', hformed', hline', hsmaller, htokens, rfl⟩ :=
          text_separator hformed hclosed hzero hline
        rw [htokens]
        exact .separator sep (hless (by omega) hformed' hline')

theorem line_described (hformed : text.WellFormed) : ∃ line, text.Describes line := by
  obtain ⟨lead, parts⟩ := text
  induction parts using List.reverseRecOn with
  | nil => exact ⟨[], .nil⟩
  | append_singleton parts part ih =>
    obtain ⟨p, run⟩ := part
    obtain ⟨hparts, -, hpipe⟩ := line_wellFormed_concat.mp hformed
    obtain ⟨line, hline⟩ := ih hparts
    obtain ⟨tree, htree⟩ := pipeline_described hpipe (decide (Separator.ampersand ∈ run))
    exact ⟨line ++ [tree], describes_concat.mpr ⟨line, tree, hline, htree, rfl⟩⟩

/-- The parser accepts the tokens of the well-formed texts, and the tree that it builds is the one
that the text describes. -/
theorem parse_iff (ts : List Token) :
    ((astParseCommandLine ts).isSome ↔ ∃ text : LineText, text.WellFormed ∧ text.tokens = ts) ∧
      ∀ text : LineText, text.WellFormed → text.tokens = ts →
        ∀ line, astParseCommandLine ts = some line ↔ text.Describes line := by
  constructor
  · constructor
    · intro h
      obtain ⟨line, hline⟩ := Option.isSome_iff_exists.mp h
      obtain ⟨text, hformed, htokens, -⟩ := text_of_line (parse_eq_some_iff.mp hline)
      exact ⟨text, hformed, htokens⟩
    · rintro ⟨text, hformed, rfl⟩
      obtain ⟨line, hline⟩ := line_described hformed
      exact Option.isSome_iff_exists.mpr
        ⟨line, parse_eq_some_iff.mpr (line_of_text hformed hline)⟩
  · rintro text hformed rfl line
    constructor
    · intro h
      obtain ⟨line', hline'⟩ := line_described hformed
      have hparse := parse_eq_some_iff.mpr (line_of_text hformed hline')
      obtain rfl := Option.some.inj (h.symm.trans hparse)
      exact hline'
    · exact fun h => parse_eq_some_iff.mpr (line_of_text hformed h)

/-- The words `i`, `a`, `b` and `o` in `<i a|b>o&`. -/
theorem parse_iff_sample : ∃ line, astParseCommandLine
    [.less, .WORD [105], .WORD [97], .pipe false, .WORD [98], .output .greater, .WORD [111],
      .separator .ampersand] = some line ∧ line.map Pipeline.bgJob = [true] := by
  have hformed : LineText.WellFormed ⟨[],
      [(⟨[.input [105], .word [97]], [(false, [.word [98], .output .greater [111]])]⟩, [.ampersand])]⟩ := by
    refine ⟨fun part hpart => ?_, nofun⟩
    rw [List.mem_singleton.mp hpart]
    exact ⟨by decide, by decide, by decide, by decide, by decide⟩
  obtain ⟨haccepts, htree⟩ := parse_iff
    [.less, .WORD [105], .WORD [97], .pipe false, .WORD [98], .output .greater, .WORD [111],
      .separator .ampersand]
  obtain ⟨line, hline⟩ := Option.isSome_iff_exists.mp (haccepts.mpr ⟨_, hformed, rfl⟩)
  refine ⟨line, hline, ?_⟩
  cases (htree _ hformed rfl line).mp hline with
  | cons htree hrest =>
    cases hrest
    rw [List.map_singleton, htree.2]
    rfl

end Lines

end ComputerSystems.Cush.CommandLines
