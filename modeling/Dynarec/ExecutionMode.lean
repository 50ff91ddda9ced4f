/-!
# Execution modes

Whether compiled functions are used at all is chosen by the environment.
-/

namespace Dynarec

/-- How guest code is executed. -/
inductive ExecutionMode where
  | interpreter
  /-- Compiled functions are used where they exist. -/
  | recompiler
deriving DecidableEq, Repr

namespace ExecutionMode

/-- The environment variable for the mode. -/
def settingName : String := "PPCREC_MODE"

/-- The mode that a value stands for. -/
def ofValue (value : String) : ExecutionMode :=
  if value = "interpreter" then .interpreter else .recompiler

/-- The number of a mode. -/
def code : ExecutionMode → Nat
  | .interpreter => 0
  | .recompiler => 1

/-- The name of a mode. -/
def text : ExecutionMode → String
  | .interpreter => "interpreter"
  | .recompiler => "recompiler"

end ExecutionMode
end Dynarec
