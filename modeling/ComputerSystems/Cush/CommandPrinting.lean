/- What the shell prints for a job, and that it reads back as the same commands. -/

import ComputerSystems.Cush.CommandLines
import ComputerSystems.Cush.Quoting

set_option autoImplicit false
set_option relaxedAutoImplicit false

namespace ComputerSystems.Cush.CommandPrinting

open RegularExpression
open ComputerSystems.Systems.Scanners
open ComputerSystems.Cush.Ast
open ComputerSystems.Cush.Grammar
open ComputerSystems.Cush.CommandLines
open ComputerSystems.Cush.Quoting

/-- The words of `argv`, with a blank before each but the first. -/
def printArgv : List Word → Word
  | [] => []
  | w :: ws => w ++ ws.flatMap fun w => SP :: w

def printCmdline (pipe : Pipeline) : Word :=
  match pipe.commands with
  | [] => []
  | cmd :: cmds => printArgv cmd.argv ++ cmds.flatMap fun cmd => PIPE :: SP :: printArgv cmd.argv

/-- The word needs no quotes. -/
structure Plain (w : Word) : Prop where
  nonempty : w ≠ []
  chars : ∀ c ∈ w, c ∉ special ++ blank
  first : w.head? ≠ some QUOTE

def shown (pipe : Pipeline) : Pipeline where
  commands := pipe.commands.map fun cmd => { cmd with dupStderrToStdout := false }
  nonempty := List.map_eq_nil_iff.not.mpr pipe.nonempty
  ioredInput := none
  ioredOutput := none
  appendToOutput := false
  bgJob := false

/-- The pipeline has neither a redirection nor an `&`. -/
structure Bare (pipe : Pipeline) : Prop where
  commands : ∀ cmd ∈ pipe.commands, cmd.dupStderrToStdout = false
  ioredInput : pipe.ioredInput = none
  ioredOutput : pipe.ioredOutput = none
  appendToOutput : pipe.appendToOutput = false
  bgJob : pipe.bgJob = false

section Scanning

variable {c : UInt8} {w s rest : Word}

theorem quoted_atMost_other (hc : c ≠ QUOTE) : AtMost quotedRule.pattern (c :: s) 0 := by
  refine atMost_other fun d x hx => ?_
  obtain ⟨body, -, heq⟩ := mem_quoted.mp hx
  rw [(List.cons.inj heq).1]
  exact Ne.symm hc

theorem word_atMost_other (hc : c ∈ special ++ blank) : AtMost wordRule.pattern (c :: s) 0 := by
  refine atMost_other fun d x hx => ?_
  rintro rfl
  exact plain_of_word hx d List.mem_cons_self hc

theorem operators_atMost (hgreater : c ≠ GREATER) (hpipe : c ≠ PIPE) :
    AtMost appendRule.pattern (c :: s) 0 ∧ AtMost outputRule.pattern (c :: s) 0 ∧
      AtMost pipeRule.pattern (c :: s) 0 :=
  ⟨literal_other (Ne.symm hgreater), literal_other (Ne.symm hgreater), literal_other (Ne.symm hpipe)⟩

theorem mem_word (hw : Plain w) : w ∈ wordRule.pattern.matches' := by
  obtain ⟨c, w, rfl⟩ := List.exists_cons_of_ne_nil hw.nonempty
  rw [wordRule, RegularExpression.matches'_mul, Language.mem_mul]
  refine ⟨[c], mem_except.mpr ⟨c, hw.chars c List.mem_cons_self, rfl⟩, w, ?_, rfl⟩
  refine mem_star_oneOf.mpr fun d hd => ?_
  have hsingle : [d] ∈ (except (special ++ blank)).matches' :=
    mem_except.mpr ⟨d, hw.chars d (List.mem_cons_of_mem c hd), rfl⟩
  obtain ⟨e, he, heq⟩ := mem_oneOf.mp hsingle
  rw [List.singleton_inj.mp heq]
  exact he

theorem word_token (hw : Plain w) (hrest : Delimited rest) :
    token rules (w ++ rest) = some (.WORD w, rest) := by
  have hchoose : choose ([blankRule, appendRule, outputRule, pipeRule, charRule, quotedRule] ++
      wordRule :: []) (w ++ rest) = some (w.length, wordRule) := by
    have hmost : AtMost wordRule.pattern (w ++ rest) w.length := word_atMost hrest
    refine choose_eq (mem_word hw) (List.prefix_append ..) hmost (fun r hr => ?_) fun r hr => ?_
    · refine ⟨0, List.length_pos_iff.mpr hw.nonempty, ?_⟩
      obtain ⟨c, w, rfl⟩ := List.exists_cons_of_ne_nil hw.nonempty
      have hc := hw.chars c List.mem_cons_self
      have hspecial : c ∉ special := fun hmem => hc (List.mem_append_left _ hmem)
      have hblank : c ∉ blank := fun hmem => hc (List.mem_append_right _ hmem)
      have hquote : c ≠ QUOTE := fun heq => hw.first (by rw [heq]; rfl)
      obtain ⟨happend, houtput, hpipe⟩ := operators_atMost (c := c) (s := w ++ rest)
        (fun heq => hspecial (by rw [heq]; decide)) (fun heq => hspecial (by rw [heq]; decide))
      simp only [List.mem_cons, List.not_mem_nil, or_false] at hr
      rcases hr with rfl | rfl | rfl | rfl | rfl | rfl
      · exact blank_atMost hblank
      · exact happend
      · exact houtput
      · exact hpipe
      · exact char_atMost hspecial
      · exact quoted_atMost_other hquote
    · cases hr
  exact token_eq hchoose hw.nonempty rfl

theorem blank_token (hw : Plain w) : token rules (SP :: (w ++ rest)) = token rules (w ++ rest) := by
  obtain ⟨c, w, rfl⟩ := List.exists_cons_of_ne_nil hw.nonempty
  have hc := hw.chars c List.mem_cons_self
  have hmost : AtMost blankRule.pattern (SP :: c :: (w ++ rest)) 1 := by
    intro x hbegins hx
    by_contra hlonger
    have hmem : c ∈ x := by
      obtain ⟨y, hy⟩ := hbegins
      cases x with
      | nil => exact absurd (Nat.zero_le 1) hlonger
      | cons d x =>
        cases x with
        | nil => exact absurd (Nat.le_refl 1) hlonger
        | cons e x =>
          have hsecond : e = c := (List.cons.inj (List.cons.inj hy).2).1
          rw [← hsecond]
          exact List.mem_cons_of_mem d List.mem_cons_self
    exact hc (List.mem_append_right _ (mem_star_oneOf.mp hx c hmem))
  have hchoose : choose ([] ++ blankRule ::
      [appendRule, outputRule, pipeRule, charRule, quotedRule, wordRule])
      ([SP] ++ c :: (w ++ rest)) = some ([SP].length, blankRule) := by
    have hblank : ∀ d ∈ [SP], d ∈ blank := fun d hd => by
      rw [List.mem_singleton.mp hd]
      exact List.mem_cons_self
    refine choose_eq (mem_star_oneOf.mpr hblank) (List.prefix_append ..) hmost
      (fun r hr => ?_) fun r hr => AtMost.mono ?_ (Nat.zero_le 1)
    · cases hr
    · obtain ⟨happend, houtput, hpipe⟩ := operators_atMost (c := SP) (s := c :: (w ++ rest))
        (by decide) (by decide)
      simp only [List.mem_cons, List.not_mem_nil, or_false] at hr
      rcases hr with rfl | rfl | rfl | rfl | rfl | rfl
      · exact happend
      · exact houtput
      · exact hpipe
      · exact char_atMost (by decide)
      · exact quoted_atMost_other (by decide)
      · exact word_atMost_other (by decide)
  have hstep := step_eq hchoose (List.cons_ne_nil _ _)
  show next rules ((c :: (w ++ rest)).length + 1) ([SP] ++ c :: (w ++ rest)) = _
  rw [next]
  have hrules : step rules ([SP] ++ c :: (w ++ rest)) = some (none, c :: (w ++ rest)) := hstep
  rw [hrules]
  rfl

theorem pipe_token : token rules (PIPE :: SP :: s) = some (.pipe false, SP :: s) := by
  have hpipe : AtMost pipeRule.pattern (PIPE :: SP :: s) 0 := by
    intro x hbegins hx
    rw [mem_literal.mp hx] at hbegins
    have hsecond := (List.cons_prefix_cons.mp (List.cons_prefix_cons.mp hbegins).2).1
    exact absurd hsecond (by decide)
  have hmost : AtMost charRule.pattern ([PIPE] ++ SP :: s) [PIPE].length := by
    intro x _ hx
    obtain ⟨d, -, rfl⟩ := mem_oneOf.mp hx
    exact Nat.le_refl 1
  have hchoose : choose ([blankRule, appendRule, outputRule, pipeRule] ++
      charRule :: [quotedRule, wordRule]) ([PIPE] ++ SP :: s) = some ([PIPE].length, charRule) := by
    refine choose_eq (mem_oneOf.mpr ⟨PIPE, by decide, rfl⟩) (List.prefix_append ..) hmost
      (fun r hr => ⟨0, Nat.one_pos, ?_⟩) fun r hr => AtMost.mono ?_ (Nat.zero_le 1)
    · simp only [List.mem_cons, List.not_mem_nil, or_false] at hr
      rcases hr with rfl | rfl | rfl | rfl
      · exact blank_atMost (by decide)
      · exact literal_other (by decide)
      · exact literal_other (by decide)
      · exact hpipe
    · simp only [List.mem_cons, List.not_mem_nil, or_false] at hr
      rcases hr with rfl | rfl
      · exact quoted_atMost_other (by decide)
      · exact word_atMost_other (by decide)
  exact token_eq hchoose (List.cons_ne_nil _ _) rfl

end Scanning

section Printing

variable {w rest : Word} {ws : List Word}

theorem delimited_words (hrest : Delimited rest) :
    Delimited (ws.flatMap (fun w => SP :: w) ++ rest) := by
  cases ws with
  | nil => exact hrest
  | cons w ws =>
    intro c hc
    obtain rfl : SP = c := Option.some.inj hc
    exact Or.inl List.mem_cons_self

theorem scan_words (hws : ∀ w ∈ ws, Plain w) (hrest : Delimited rest) :
    scan rules (ws.flatMap (fun w => SP :: w) ++ rest) = ws.map Token.WORD ++ scan rules rest := by
  induction ws with
  | nil => rfl
  | cons w ws ih =>
    have hw := hws w List.mem_cons_self
    have htoken : token rules (SP :: (w ++ (ws.flatMap (fun w => SP :: w) ++ rest))) =
        some (.WORD w, ws.flatMap (fun w => SP :: w) ++ rest) := by
      rw [blank_token hw, word_token hw (delimited_words hrest)]
    rw [List.flatMap_cons, List.cons_append, List.cons_append, List.append_assoc,
      scan_cons htoken, ih fun w hw => hws w (List.mem_cons_of_mem _ hw)]
    rfl

theorem scan_argv (hne : ws ≠ []) (hws : ∀ w ∈ ws, Plain w) (hrest : Delimited rest) :
    scan rules (printArgv ws ++ rest) = ws.map Token.WORD ++ scan rules rest := by
  obtain ⟨w, ws, rfl⟩ := List.exists_cons_of_ne_nil hne
  have hdelimited : Delimited (ws.flatMap (fun w => SP :: w) ++ rest) := delimited_words hrest
  have htoken := word_token (hws w List.mem_cons_self) hdelimited
  rw [printArgv, List.append_assoc, scan_cons htoken,
    scan_words (fun w hw => hws w (List.mem_cons_of_mem _ hw)) hrest]
  rfl

theorem scan_piped (hne : ws ≠ []) (hws : ∀ w ∈ ws, Plain w) (hrest : Delimited rest) :
    scan rules (PIPE :: SP :: (printArgv ws ++ rest)) =
      .pipe false :: (ws.map Token.WORD ++ scan rules rest) := by
  obtain ⟨w, ws, rfl⟩ := List.exists_cons_of_ne_nil hne
  have hspaced : SP :: (printArgv (w :: ws) ++ rest) =
      (w :: ws).flatMap (fun w => SP :: w) ++ rest := by
    simp [printArgv]
  rw [scan_cons pipe_token, hspaced, scan_words hws hrest]

theorem delimited_commands (cmds : List Command) :
    Delimited (cmds.flatMap fun cmd => PIPE :: SP :: printArgv cmd.argv) := by
  cases cmds with
  | nil =>
    intro c hc
    cases hc
  | cons cmd cmds =>
    intro c hc
    obtain rfl : PIPE = c := Option.some.inj hc
    exact Or.inr List.mem_cons_self

theorem scan_commands {cmds : List Command} (hplain : ∀ cmd ∈ cmds, ∀ w ∈ cmd.argv, Plain w) :
    scan rules (cmds.flatMap fun cmd => PIPE :: SP :: printArgv cmd.argv) =
      cmds.flatMap fun cmd => .pipe false :: cmd.argv.map Token.WORD := by
  induction cmds with
  | nil => rfl
  | cons cmd cmds ih =>
    have hscan := scan_piped cmd.nonempty (hplain cmd List.mem_cons_self) (delimited_commands cmds)
    rw [List.flatMap_cons, List.flatMap_cons, List.cons_append, List.cons_append, hscan,
      ih fun cmd hcmd => hplain cmd (List.mem_cons_of_mem _ hcmd)]
    rfl

/-- The pipeline as it is written, with `|` between its commands. -/
def pipelineOf (cmd : Command) (cmds : List Command) : PipelineText :=
  ⟨cmd.argv.map .word, cmds.map fun cmd => (false, cmd.argv.map .word)⟩

def textOf (cmd : Command) (cmds : List Command) : LineText := ⟨[], [(pipelineOf cmd cmds, [])]⟩

theorem commandTokens_words : commandTokens (ws.map Item.word) = ws.map Token.WORD := by
  induction ws with
  | nil => rfl
  | cons w ws ih =>
    rw [List.map_cons, List.map_cons, ← ih]
    rfl

theorem words_map : CommandLines.words (ws.map Item.word) = ws := by
  induction ws with
  | nil => rfl
  | cons w ws ih =>
    show w :: CommandLines.words (ws.map Item.word) = w :: ws
    rw [ih]

theorem inputs_map : inputs (ws.map Item.word) = [] := by
  induction ws with
  | nil => rfl
  | cons w ws ih => exact ih

theorem outputs_map : outputs (ws.map Item.word) = [] := by
  induction ws with
  | nil => rfl
  | cons w ws ih => exact ih

theorem textOf_tokens (cmd : Command) (cmds : List Command) : (textOf cmd cmds).tokens =
    cmd.argv.map Token.WORD ++ cmds.flatMap fun cmd => .pipe false :: cmd.argv.map Token.WORD := by
  simp [textOf, pipelineOf, LineText.tokens, PipelineText.tokens, commandTokens_words,
    List.flatMap_map]

theorem mem_commands {cmd : Command} {cmds : List Command} {c : CommandText}
    (hc : c ∈ (pipelineOf cmd cmds).commands) : ∃ cmd' ∈ cmd :: cmds, c = cmd'.argv.map .word := by
  rw [pipelineOf, PipelineText.commands, List.map_map] at hc
  rcases List.mem_cons.mp hc with rfl | hc
  · exact ⟨cmd, List.mem_cons_self, rfl⟩
  · obtain ⟨cmd', hcmd, rfl⟩ := List.mem_map.mp hc
    exact ⟨cmd', List.mem_cons_of_mem _ hcmd, rfl⟩

theorem outputs_last (cmd : Command) (cmds : List Command) :
    outputs (pipelineOf cmd cmds).last = [] := by
  have hlast : (pipelineOf cmd cmds).last ∈ (pipelineOf cmd cmds).commands := List.getLast_mem _
  obtain ⟨cmd', -, heq⟩ := mem_commands hlast
  rw [heq, outputs_map]

theorem textOf_wellFormed (cmd : Command) (cmds : List Command) : (textOf cmd cmds).WellFormed := by
  refine ⟨fun part hpart => ?_, fun part hpart => ?_⟩
  · rw [List.mem_singleton.mp hpart]
    refine ⟨fun c hc => ?_, ?_, fun link hlink => ?_, ?_, fun c hc => ?_⟩
    · obtain ⟨cmd', -, rfl⟩ := mem_commands hc
      rw [words_map]
      exact cmd'.nonempty
    · show (inputs (cmd.argv.map Item.word)).length ≤ 1
      rw [inputs_map]
      exact Nat.zero_le 1
    · obtain ⟨cmd', -, rfl⟩ := List.mem_map.mp hlink
      exact inputs_map
    · show (outputs (pipelineOf cmd cmds).last).length ≤ 1
      rw [outputs_last]
      exact Nat.zero_le 1
    · obtain ⟨cmd', -, rfl⟩ := mem_commands (List.mem_of_mem_dropLast hc)
      exact outputs_map
  · cases hpart

theorem textOf_describes {pipe : Pipeline} {cmd : Command} {cmds : List Command}
    (hcommands : pipe.commands = cmd :: cmds) : (textOf cmd cmds).Describes [shown pipe] := by
  have hnone := outputs_last cmd cmds
  have hfalse : ∀ op, redirects (pipelineOf cmd cmds).last op = false := fun op => by
    rw [redirects, hnone]
    rfl
  refine .cons ⟨⟨?_, ?_, ?_, ?_, ?_⟩, rfl⟩ .nil
  · simp [shown, hcommands, pipelineOf, PipelineText.commands, words_map]
  · show (shown pipe).commands.map Command.dupStderrToStdout =
      (pipelineOf cmd cmds).rest.map Prod.fst ++ [redirects (pipelineOf cmd cmds).last _]
    have hleft : (shown pipe).commands.map Command.dupStderrToStdout =
        List.replicate (cmds.length + 1) false := by
      simp [List.eq_replicate_iff, shown, hcommands]
    have hright : (pipelineOf cmd cmds).rest.map Prod.fst ++ [false] =
        List.replicate (cmds.length + 1) false := by
      simp [List.eq_replicate_iff, pipelineOf]
    rw [hfalse, hleft, hright]
  · show none = (inputs (cmd.argv.map Item.word)).head?
    rw [inputs_map]
    rfl
  · show none = (outputs (pipelineOf cmd cmds).last).head?.map Prod.snd
    rw [hnone]
    rfl
  · exact (hfalse _).symm

/-- What is printed for a pipeline of plain words is read back as its commands, in their order and
with their words; only the redirections and the `&` are lost. -/
theorem printed_readBack (pipe : Pipeline) (hplain : ∀ cmd ∈ pipe.commands, ∀ w ∈ cmd.argv, Plain w) :
    astParseCommandLine (scan rules (printCmdline pipe)) = some [shown pipe] ∧
      (shown pipe = pipe ↔ Bare pipe) := by
  obtain ⟨cmd, cmds, hcommands⟩ := List.exists_cons_of_ne_nil pipe.nonempty
  rw [hcommands] at hplain
  have hscan : scan rules (printCmdline pipe) = (textOf cmd cmds).tokens := by
    rw [printCmdline, hcommands, textOf_tokens,
      scan_argv cmd.nonempty (hplain cmd List.mem_cons_self) (delimited_commands cmds),
      scan_commands fun cmd hcmd => hplain cmd (List.mem_cons_of_mem _ hcmd)]
  constructor
  · rw [hscan]
    exact parse_eq_some_iff.mpr
      (line_of_text (textOf_wellFormed cmd cmds) (textOf_describes hcommands))
  · constructor
    · intro heq
      refine ⟨fun cmd hcmd => ?_, ?_, ?_, ?_, ?_⟩
      · rw [← heq] at hcmd
        obtain ⟨cmd', -, rfl⟩ := List.mem_map.mp hcmd
        rfl
      all_goals
        rw [← heq]
        rfl
    · intro hbare
      obtain ⟨commands, hne, ioredInput, ioredOutput, appendToOutput, bgJob⟩ := pipe
      obtain ⟨hstderr, rfl, rfl, rfl, rfl⟩ := hbare
      have hsame : commands.map (fun cmd : Command => { cmd with dupStderrToStdout := false }) =
          commands := by
        refine (List.map_congr_left fun cmd hcmd => ?_).trans (List.map_id commands)
        have hfalse := hstderr cmd hcmd
        obtain ⟨argv, hargv, dup⟩ := cmd
        simp only at hfalse
        rw [hfalse]
        rfl
      simp only [shown, Pipeline.mk.injEq, and_self, and_true]
      exact hsame

theorem plain_single {c : UInt8} (hc : c ∉ special ++ blank) (hquote : c ≠ QUOTE) : Plain [c] := by
  refine ⟨List.cons_ne_nil _ _, fun d hd => ?_, fun heq => hquote (Option.some.inj heq)⟩
  rw [List.mem_singleton.mp hd]
  exact hc

/-- `a b |& c >o &`. -/
def listed : Pipeline where
  commands := [⟨[[97], [98]], List.cons_ne_nil _ _, true⟩, ⟨[[99]], List.cons_ne_nil _ _, false⟩]
  nonempty := List.cons_ne_nil _ _
  ioredInput := none
  ioredOutput := some [111]
  appendToOutput := false
  bgJob := true

theorem printed_readBack_sample : printCmdline listed = [97, SP, 98, PIPE, SP, 99] ∧
    astParseCommandLine (scan rules (printCmdline listed)) = some [shown listed] := by
  refine ⟨rfl, (printed_readBack listed fun cmd hcmd w hw => ?_).1⟩
  simp only [listed, List.mem_cons, List.not_mem_nil, or_false] at hcmd
  rcases hcmd with rfl | rfl
  · simp only [List.mem_cons, List.not_mem_nil, or_false] at hw
    rcases hw with rfl | rfl
    · exact plain_single (by decide) (by decide)
    · exact plain_single (by decide) (by decide)
  · rw [List.mem_singleton.mp hw]
    exact plain_single (by decide) (by decide)

end Printing

end ComputerSystems.Cush.CommandPrinting
