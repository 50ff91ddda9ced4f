import Dynarec.Compiler.Basic
import Dynarec.Verdict.Store

/-!
# Compilation with stored verdicts

With a verdict store, code that could not be compiled before is refused at once,
and the verdict on all other code is stored.  Broken assumptions say nothing
about the code and are never stored.
-/

namespace Dynarec
namespace Compiler

/-- What is left to do for a request after its verdict was looked up. -/
inductive Plan where
  | fail (fault : Fault)
  | compile (count : Int) (key : Option VerdictKey)
deriving Repr

/-- The number of words that a request asks for. -/
def wordCount (config : Config) (memory : Memory) (request : Request) :
    Except Interruption Int :=
  if request.count ≤ 0 then do
    let tracker : Guest.Tracker := { memory, limit := UInt32.ofInt config.limit }
    let range ← tracker.track request.entry
    return (range.size / 4).toNat
  else .ok request.count

/-- The fault that a stored verdict stands for. -/
def storedFault (record : VerdictRecord) : Fault :=
  .unsupported record.address record.opcode (Utf8.text record.message ++ " (cached)")

/-- What a stored verdict makes of a request. -/
def planFor (store : VerdictStore) (count : Int) (key : VerdictKey) : Plan :=
  match store.get key with
  | .ok (some record) =>
      if record.verdict = .unsupported then .fail (storedFault record)
      else .compile count (some key)
  | _ => .compile count (some key)

/-- The plan for a request.  Only crashes are left to the caller. -/
def plan (config : Config) (store : Option VerdictStore) (memory : Memory) (request : Request) :
    Except String Plan :=
  match store with
  | none => .ok (.compile request.count none)
  | some store =>
      match wordCount config memory request with
      | .error (.crash text) => .error text
      | .error (.fault fault) => .ok (.fail (request.failed fault))
      | .ok count =>
          match memory.slice request.entry (UInt32.ofInt count * 4) with
          | .error _ => .ok (.compile count none)
          | .ok code => .ok (planFor store count (VerdictKey.ofCode request.entry code))

/-- The record of a compilation that says something about the code. -/
def recordOf? : Except Fault CompiledFunction → Option VerdictRecord
  | .ok _ => some { verdict := .compiled }
  | .error fault => fault.unsupported?.map fun report =>
      { verdict := .unsupported, address := report.address, opcode := report.opcode,
        message := Utf8.bytes report.detail }

/-- Stores the verdict on an outcome. -/
def remember (store : Option VerdictStore) (key : Option VerdictKey)
    (outcome : Except Fault CompiledFunction) : Option VerdictStore :=
  match store, key, recordOf? outcome with
  | some store, some key, some record => some (store.put key record)
  | store, _, _ => store

/-- What a compilation gives, and the verdicts after it. -/
structure Outcome where
  result : Except Interruption CompiledFunction
  store : Option VerdictStore

/-- Compiles a function, unless a verdict rules it out. -/
def compile (config : Config) (store : Option VerdictStore) (memory : Memory)
    (request : Request) : Outcome :=
  match plan config store memory request with
  | .error text => ⟨.error (.crash text), store⟩
  | .ok (.fail fault) => ⟨.error (.fault fault), store⟩
  | .ok (.compile count key) =>
      let outcome := contain (pipeline config memory request count)
      ⟨outcome.mapError fun fault => .fault (request.failed fault), remember store key outcome⟩

/-- The text that tells a watched read from a crash of the memory itself. -/
def watchMark : String := "watched word read"

/-- Whether the watched read took place. -/
def isWatched {α : Type} : Except Interruption α → Bool
  | .error (.crash text) => text = watchMark
  | _ => false

/-- Whether the compilation of a request reads the word at an address.  A read that crashes
is not one. -/
def reads (config : Config) (store : Option VerdictStore) (memory : Memory) (request : Request)
    (address : Address) : Bool :=
  let watched := if memory.crashesAt address then memory else memory.crashingAt address watchMark
  match plan config store watched request with
  | .error text => text = watchMark
  | .ok (.fail _) => false
  | .ok (.compile count _) => isWatched (pipeline config watched request count)

end Compiler
end Dynarec
