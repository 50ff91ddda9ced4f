import Dynarec.Text.Hex

/-!
# Faults

A fault is a chain of causes.  Two kinds of links classify it: guest code that
cannot be compiled, which aborts one function only, and a broken internal
assumption of the compiler.  All other links add context.

A fault has a message of its own.  An enclosing fault shows a fault with context
or an assertion below it as one line, made of the parts that the links of the
chain add, and everything else by its message.
-/

namespace Dynarec

/-- A failure together with the chain of its causes. -/
inductive Fault where
  | plain (text : String)
  | unsupported (address opcode : UInt32) (message : String)
  /-- Guest code that cannot be compiled because of another fault. -/
  | unsupportedBecause (address : UInt32) (message : String) (cause : Fault)
  | assertion (text : String)
  | invariant (message : String)
  | invariantBecause (message : String) (cause : Fault)
  /-- A fault seen from an enclosing operation; empty context is not shown. -/
  | within (context : String) (cause : Fault)
  | noted (note : String) (cause : Fault)
  | onFile (operation path : String) (cause : Fault)
deriving DecidableEq, Repr

namespace Fault

/-- A broken internal assumption, caused by the assertion that says so. -/
def broken (text : String) : Fault :=
  invariantBecause text (assertion text)

/-- Text as an enclosing operation shows it: angle quotation marks become question marks. -/
def plainMarks (text : String) : String :=
  text.map fun c => if c = '‹' ∨ c = '›' then '?' else c

/-- Text without empty lines.  Line breaks at its start become one break if the line after
them has at least the given number of bytes, and are dropped otherwise. -/
def closeUp (least : Nat) (text : String) : String :=
  match (text.splitOn "\n").filter (· ≠ "") with
  | [] => ""
  | line :: lines =>
      let closed := "\n".intercalate (line :: lines)
      if text.startsWith "\n" ∧ least ≤ line.utf8ByteSize then "\n" ++ closed else closed

/-- The text before an ending. -/
def before? (ending text : String) : Option String :=
  let kept := text.length - ending.length
  if text.toList.drop kept = ending.toList then some (String.ofList (text.toList.take kept))
  else none

/-- The texts that a fault is shown by. -/
structure Wording where
  message : String
  /-- What the links of its chain add to a line, outermost first. -/
  parts : List String
  /-- What an enclosing fault shows of it. -/
  shown : String
deriving DecidableEq, Repr

namespace Wording

/-- The wording of a fault without a cause. -/
def leaf (message : String) : Wording :=
  { message, parts := [closeUp 2 message], shown := message }

/-- The wording of a link whose message speaks for itself.  It adds what stands before the
message of its cause; if it does not end with that message, it stands for the whole chain. -/
def above (message : String) (cause : Wording) : Wording :=
  let parts := match before? cause.message message with
    | some "" => cause.parts
    | some front => match before? ": " front with
        | some own => closeUp 2 own :: cause.parts
        | none => [closeUp 2 message]
    | none => [closeUp 2 message]
  { message, parts, shown := message }

/-- The wording of a link that is shown as one line of its nonempty parts. -/
def line (message : String) (parts : List String) : Wording :=
  { message, parts, shown := ": ".intercalate (parts.filter (· ≠ "")) }

end Wording

/-- The wording of a fault. -/
def wording : Fault → Wording
  | plain text => .leaf text
  | unsupported address opcode text =>
      .leaf s!"unsupported at {Hex.word address} (opcode {Hex.word opcode}): {text}"
  | unsupportedBecause address text cause =>
      let inner := cause.wording
      .above s!"unsupported at {Hex.word address} (opcode {Hex.word 0}): {text}: {inner.shown}" inner
  | assertion text => .line (plainMarks text) [closeUp 1 (plainMarks text)]
  | invariant text => .leaf s!"invariant violated: {text}"
  | invariantBecause text cause =>
      let inner := cause.wording
      if inner.message = text then .above s!"invariant violated: {text}" inner
      else .above s!"invariant violated: {text}: {inner.shown}" inner
  | within context cause =>
      let inner := cause.wording
      let message := if context = "" then inner.message
        else s!"{plainMarks context}: {inner.shown}"
      .line message (closeUp 1 (plainMarks context) :: inner.parts)
  | noted note cause =>
      let inner := cause.wording
      .above s!"{note}: {inner.shown}" inner
  | onFile operation path cause =>
      let inner := cause.wording
      let own := s!"{operation} {path}"
      let message := s!"{own}: {inner.message}"
      { message, parts := closeUp 1 (plainMarks own) :: inner.parts, shown := message }

/-- The message of a fault. -/
def message (fault : Fault) : String :=
  fault.wording.message

/-- The causes of a fault, the fault itself first. -/
def chain : Fault → List Fault
  | fault@(unsupportedBecause _ _ cause) | fault@(invariantBecause _ cause)
  | fault@(within _ cause) | fault@(noted _ cause)
  | fault@(onFile _ _ cause) => fault :: cause.chain
  | fault => [fault]

/-- Where and why guest code is not supported. -/
structure Report where
  address : UInt32
  /-- The instruction word, zero if it is not known. -/
  opcode : UInt32
  detail : String
deriving DecidableEq, Repr

/-- The report of the first link. -/
def report? : Fault → Option Report
  | unsupported address opcode text => some ⟨address, opcode, text⟩
  | unsupportedBecause address text _ => some ⟨address, 0, text⟩
  | _ => none

/-- The outermost unsupported link of a chain. -/
def unsupported? (fault : Fault) : Option Report :=
  fault.chain.findSome? report?

/-- Whether the fault aborts one function only. -/
def isUnsupported (fault : Fault) : Bool :=
  fault.unsupported?.isSome

/-- Whether the first link is a broken assumption. -/
def isInvariantLink : Fault → Bool
  | invariant _ | invariantBecause _ _ => true
  | _ => false

/-- Whether an assumption is broken. -/
def isInvariant (fault : Fault) : Bool :=
  fault.chain.any isInvariantLink

/-- The kinds of links in a chain of causes. -/
inductive LinkSort where
  | plain
  | unsupported
  | invariant
  | assertion
  | within
  | noted
  | onFile
deriving DecidableEq, Repr

/-- The kinds of links, outermost first. -/
def sorts : Fault → List LinkSort
  | plain _ => [.plain]
  | unsupported _ _ _ => [.unsupported]
  | unsupportedBecause _ _ cause => .unsupported :: cause.sorts
  | assertion _ => [.assertion]
  | invariant _ => [.invariant]
  | invariantBecause _ cause => .invariant :: cause.sorts
  | within _ cause => .within :: cause.sorts
  | noted _ cause => .noted :: cause.sorts
  | onFile _ _ cause => .onFile :: cause.sorts

/-- Whether two faults look the same: same sorts of links and same message. -/
def alike (fault other : Fault) : Bool :=
  fault.sorts = other.sorts && fault.message = other.message

/-- Whether a link of the chain is like another fault. -/
def isLike (fault other : Fault) : Bool :=
  fault.chain.any (alike · other)

end Fault
end Dynarec
