import Dynarec.Guest.Fragment
import Dynarec.Guest.Memory

/-!
# Inlined calls

A call of a short leaf function is replaced by the words of the callee.  A
callee qualifies if it is a few immediate additions and plain memory accesses
followed by a return.
-/

namespace Dynarec
namespace Guest

/-- The return instruction. -/
def returnWord : Word := 0x4E800020

/-- The most words of a callee that is decoded in place of its call. -/
def maxInline : Nat := 6

/-- Whether a callee can have the word. -/
def isInlinable (word : Word) : Bool :=
  word.primary = 14 || word.primary = 15 || (32 ≤ word.primary && word.primary ≤ 45)

/-- The words before the return of a callee, if all of them may be decoded in place and the
return is among the first `reads` words. -/
def calleeWords (memory : Memory) : Nat → Address → Except Interruption (Option (List Word))
  | 0, _ => .ok none
  | reads + 1, address =>
      match memory.read address with
      | .crashed text => .error (.crash text)
      | .refused _ => .ok none
      | .word word =>
          if word = returnWord then .ok (some [])
          else if !isInlinable word then .ok none
          else do
            let rest ← calleeWords memory reads (address + 4)
            return rest.map (word :: ·)

/-- How the attempt to inline a call ends. -/
inductive Inlining where
  /-- The callee does not qualify; `partway` is what was decoded before that was known. -/
  | declined (partway : Fragment)
  /-- The fragment that replaces the call, and the code that it covers. -/
  | inlined (fragment : Fragment) (range : AddressRange)
deriving Repr

namespace Inlining

/-- The fragments of the words of a callee, or those before the first word that is refused. -/
def body (site : Site) : List Word → Except Fragment Fragment
  | [] => .ok []
  | word :: rest =>
      match Operation.decode word with
      | .error _ => .error []
      | .ok operation =>
          let fragment := Fragment.ofOperation site word operation
          match body site rest with
          | .error partway => .error (fragment ++ partway)
          | .ok following => .ok (fragment ++ following)

/-- Assigns the link register as a call does. -/
def linkAssignment (address : Address) : Instruction Slot :=
  .immediate .assign (some .link) (address + 4).toInt32 {}

/-- The call of a target, decoded in place.  All instructions carry the address of the call. -/
def attempt (memory : Memory) (site : Site) (target : Address) : Except Interruption Inlining := do
  match ← calleeWords memory (maxInline + 1) target with
  | none => return .declined []
  | some words =>
      match body site words with
      | .error partway => return .declined (linkAssignment site.address :: partway)
      | .ok fragment =>
          let placed := (linkAssignment site.address :: fragment).map fun instr =>
            { instr with address := site.address }
          return .inlined placed ⟨target, UInt32.ofNat (words.length * 4 + 4)⟩

end Inlining
end Guest
end Dynarec
