import Dynarec.Guest.Memory
import Dynarec.Guest.Operation
import Std.Data.HashSet

/-!
# Extent of a guest function

The extent of a function is found by following its control flow from the entry
address.  A path ends at an unconditional branch that no other one follows, an
unconditional return, a computed jump into padding, a zero word, or a service
that never returns.
-/

namespace Dynarec
namespace Guest

/-- The most words unless others are asked for. -/
def defaultLimit : UInt32 := 4096

/-- A search for the extent of functions. -/
structure Tracker where
  memory : Memory
  /-- The most words of a function; zero stands for the default. -/
  limit : UInt32 := 0
  noReturn : List UInt32 := []

namespace Tracker

/-- The most words of a function. -/
def effectiveLimit (tracker : Tracker) : UInt32 :=
  if tracker.limit = 0 then defaultLimit else tracker.limit

/-- Where the words of a function can be. -/
def window (tracker : Tracker) (entry : Address) : AddressRange :=
  ⟨entry, tracker.effectiveLimit * 4⟩

/-- A test on the word at an address; a refused read gives the stated answer. -/
def test (tracker : Tracker) (address : Address) (refused : Bool) (holds : Word → Bool) :
    Except Interruption Bool :=
  match tracker.memory.read address with
  | .word word => .ok (holds word)
  | .refused _ => .ok refused
  | .crashed text => .error (.crash text)

/-- Whether a path ends with the word at an address. -/
def stops (tracker : Tracker) (address : Address) (word : Word) : Except Interruption Bool :=
  match word.primary with
  | 1 => .ok (word.lowHalf ∈ tracker.noReturn)
  | 16 => .ok (word.branchesAlways && !word.links)
  | 18 =>
      if word.links then .ok false
      else tracker.test (address + 4) true fun following => !following.isPlainBranch
  | 19 =>
      match word.extended with
      | 16 => .ok (word.branchesAlways && !word.links)
      | 528 =>
          if word.branchesAlways && !word.links then
            tracker.test (address + 4) true fun following =>
              following = 0x60000000 || following = 0 || !supports following
          else .ok false
      | _ => .ok false
  | _ => .ok false

/-- The address that the word at an address may branch to without linking. -/
def branchesTo (address : Address) (word : Word) : List Address :=
  match word.primary with
  | 16 => if word.links then [] else [word.conditionalTarget address]
  | 18 => if word.links then [] else [word.branchTarget address]
  | _ => []

/-- The addresses that a word leads to. -/
def successors (tracker : Tracker) (window : AddressRange) (address : Address) (word : Word) :
    Except Interruption (List Address) := do
  let targets := (branchesTo address word).filter window.contains
  return if ← tracker.stops address word then targets else (address + 4) :: targets

/-- The addresses reached from those still to be visited, each visit taking from the budget. -/
def walk (tracker : Tracker) (window : AddressRange) :
    Nat → List Address → Std.HashSet Address → Except Interruption (Std.HashSet Address)
  | 0, _, visited => .ok visited
  | _, [], visited => .ok visited
  | budget + 1, address :: rest, visited =>
      if !window.contains address || visited.contains address then
        tracker.walk window (budget + 1) rest visited
      else
        match tracker.memory.read address with
        | .crashed text => .error (.crash text)
        | .refused _ => tracker.walk window budget rest visited
        | .word word =>
            if word = 0 then tracker.walk window budget rest visited
            else do
              let next ← tracker.successors window address word
              tracker.walk window budget (next ++ rest) (visited.insert address)
termination_by budget work => (budget, work.length)

/-- How many of the words from an address on were visited, at most `bound`. -/
def run (visited : Std.HashSet Address) (address : Address) : Nat → Nat
  | 0 => 0
  | bound + 1 => if visited.contains address then run visited (address + 4) bound + 1 else 0

/-- The range of the function at an address. -/
def track (tracker : Tracker) (entry : Address) : Except Interruption AddressRange := do
  let budget := tracker.effectiveLimit.toNat * 4
  let visited ← tracker.walk (tracker.window entry) budget [entry] ∅
  match run visited entry visited.size with
  | 0 => .error (.fault (.unsupported entry 0 "no decodable code at entry"))
  | words => .ok ⟨entry, UInt32.ofNat (words * 4)⟩

end Tracker
end Guest
end Dynarec
