/-!
# Host machines

How many registers of each host machine are left to the code of a function.
-/

namespace Dynarec

/-- A machine that code is compiled for. -/
structure Host where
  architecture : String
  registers : Nat
deriving DecidableEq, Repr

namespace Host

/-- The host of a name. -/
def ofArchitecture (architecture : String) : Host :=
  { architecture
    registers :=
      match architecture with
      | "amd64" => 12
      | "arm64" => 24
      | _ => 8 }

/-- The host unless another one is asked for. -/
def default : Host := ofArchitecture "amd64"

end Host
end Dynarec
