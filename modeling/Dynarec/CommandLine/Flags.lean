import Dynarec.Text.Numeral
import Dynarec.Text.Quoted

/-!
# Flags

A flag is a name behind one or two dashes.  Its value follows behind an equals
sign or as the next argument.  Two dashes alone and the first argument that is
no flag end the flags.
-/

namespace Dynarec
namespace CommandLine

/-- What the value of a flag is. -/
inductive FlagKind where
  | text
  | number
deriving DecidableEq, Repr

def flagKinds : List (String × FlagKind) :=
  [("config-path", .text), ("image", .text), ("base", .text), ("entry", .text),
   ("dump-dir", .text), ("cache-path", .text), ("workers", .number), ("registers", .number)]

/-- Why arguments are refused. -/
inductive FlagError where
  | malformed (argument : String)
  | undefined (name : String)
  | help
  | noValue (name : String)
  | badValue (name value : String) (cause : Numeral.Error)
deriving DecidableEq, Repr

def describeNumber : Numeral.Error → String
  | .malformed => "parse error"
  | .outOfRange => "value out of range"

def FlagError.message : FlagError → String
  | .malformed argument => s!"bad flag syntax: {argument}"
  | .undefined name => s!"flag provided but not defined: -{name}"
  | .help => "flag: help requested"
  | .noValue name => s!"flag needs an argument: -{name}"
  | .badValue name value cause =>
      s!"invalid value {quoted value} for flag -{name}: {describeNumber cause}"

abbrev Flags := List (String × String)

def Flags.value? (flags : Flags) (name : String) : Option String :=
  flags.reverse.lookup name

def Flags.text (flags : Flags) (name default : String) : String :=
  (flags.value? name).getD default

def Flags.number (flags : Flags) (name : String) (default : Int) : Int :=
  match flags.value? name with
  | none => default
  | some value => (Numeral.parseInt value.toList).toOption.getD default

/-- An argument, split at its equals sign. -/
inductive Argument where
  | other
  | malformed
  | flag (name : String) (value : Option String)
deriving DecidableEq, Repr

/-- The name and the value of what stands behind the dashes. -/
def splitFlag (body : List Char) : Argument :=
  match body with
  | [] | '-' :: _ | '=' :: _ => .malformed
  | first :: rest =>
      let name := String.ofList (first :: rest.takeWhile (· ≠ '='))
      match rest.dropWhile (· ≠ '=') with
      | [] => .flag name none
      | _ :: value => .flag name (some (String.ofList value))

def Argument.ofText (text : String) : Argument :=
  match text.toList with
  | ['-', '-'] => .other
  | '-' :: '-' :: body => splitFlag body
  | ['-'] => .other
  | '-' :: body => splitFlag body
  | _ => .other

def checkValue (name value : String) : FlagKind → Except FlagError Unit
  | .text => .ok ()
  | .number =>
      match Numeral.parseInt value.toList with
      | .ok _ => .ok ()
      | .error cause => .error (.badValue name value cause)

def kindOf (name : String) : Except FlagError FlagKind :=
  match flagKinds.lookup name with
  | some kind => .ok kind
  | none => .error (if name = "help" ∨ name = "h" then .help else .undefined name)

/-- The flags of arguments. -/
def Flags.parse : List String → Except FlagError Flags
  | [] => .ok []
  | argument :: rest =>
      match Argument.ofText argument with
      | .other => .ok []
      | .malformed => .error (.malformed argument)
      | .flag name value => do
          let kind ← kindOf name
          match value, rest with
          | some value, rest =>
              checkValue name value kind
              return (name, value) :: (← Flags.parse rest)
          | none, [] => .error (.noValue name)
          | none, value :: rest =>
              checkValue name value kind
              return (name, value) :: (← Flags.parse rest)

end CommandLine
end Dynarec
