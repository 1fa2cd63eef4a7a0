/- The syntax tree of a command line. -/

import Mathlib.Data.List.Basic

set_option autoImplicit false
set_option relaxedAutoImplicit false

namespace ComputerSystems.Cush.Ast

abbrev Word := List UInt8

/-- `struct ast_command`: at least one word, without the `NULL` behind the last one. -/
structure Command where
  argv : List Word
  nonempty : argv ≠ []
  dupStderrToStdout : Bool
  deriving DecidableEq, Repr

/-- `struct ast_pipeline`: a list of one or more commands. -/
structure Pipeline where
  commands : List Command
  nonempty : commands ≠ []
  ioredInput : Option Word
  ioredOutput : Option Word
  appendToOutput : Bool
  bgJob : Bool
  deriving DecidableEq, Repr

/-- `struct ast_command_line`. -/
abbrev CommandLine := List Pipeline

/-- `argv[0]`. -/
def Command.name (command : Command) : Word :=
  command.argv.head command.nonempty

def Pipeline.front (pipe : Pipeline) : Command :=
  pipe.commands.head pipe.nonempty

theorem Pipeline.length_pos (pipe : Pipeline) : 0 < pipe.commands.length :=
  List.length_pos_iff.mpr pipe.nonempty

end ComputerSystems.Cush.Ast
