import Dynarec.Fault
import Dynarec.Instruction.Basic

/-!
# Guest memory

An image is a run of guest bytes that starts at a base address.  Code readers
see it through `Memory`, whose word reads may also be refused or crash.
-/

namespace Dynarec

/-- Bytes of guest memory in a row. -/
structure AddressRange where
  start : Address
  size : UInt32
deriving DecidableEq, Repr

/-- Whether an address lies in the range. -/
def AddressRange.contains (range : AddressRange) (address : Address) : Bool :=
  range.start ≤ address && address - range.start < range.size

/-- What a read of a word gives. -/
inductive ReadResult where
  | word (word : Word)
  | refused (cause : Fault)
  /-- The read took the reader down. -/
  | crashed (text : String)
deriving Repr

/-- What keeps a computation from its result. -/
inductive Interruption where
  | fault (fault : Fault)
  | crash (text : String)
deriving DecidableEq, Repr

/-- Read access to big-endian guest memory. -/
structure Memory where
  read : Address → ReadResult
  slice : Address → UInt32 → Except Fault (List UInt8)

/-- The same memory, but reading exactly the word at `address` crashes. -/
def Memory.crashingAt (memory : Memory) (address : Address) (text : String) : Memory :=
  { memory with
    read := fun a => if a = address then .crashed text else memory.read a }

/-- Whether a read takes the reader down. -/
def Memory.crashesAt (memory : Memory) (address : Address) : Bool :=
  match memory.read address with
  | .crashed _ => true
  | _ => false

/-- Bytes that guest memory holds from an address on. -/
structure Image where
  base : Address
  data : Array UInt8
  /-- Whether the bytes are those of a file, which single words cannot change. -/
  mapped : Bool := false
deriving DecidableEq, Repr

namespace Image

/-- Why an image refuses an access. -/
inductive Error where
  | wordOutside (address : Address)
  | rangeOutside (range : AddressRange)
  | readOnly
deriving DecidableEq, Repr

/-- The text of an error. -/
def Error.message : Error → String
  | .wordOutside address => s!"guest address {Hex.word address} out of range"
  | .rangeOutside range =>
      s!"guest range {Hex.word range.start}+{Hex.short range.size} out of range"
  | .readOnly => "guest image is mapped read-only"

/-- The fault of an error. -/
def Error.fault (error : Error) : Fault :=
  .plain error.message

/-- An image of zeros. -/
def zeroed (base : Address) (size : UInt32) : Image :=
  { base, data := Array.replicate size.toNat 0 }

/-- Whether bytes lie in the image. -/
def contains (image : Image) (address : Address) (size : Nat) : Bool :=
  image.base ≤ address && (address - image.base).toNat + size ≤ image.data.size

/-- The word whose bytes, the highest first, start at an offset. -/
def wordAt (image : Image) (offset : Nat) : Word :=
  let byte (i : Nat) : UInt32 := (image.data.getD (offset + i) 0).toUInt32
  (byte 0 <<< 24) ||| (byte 1 <<< 16) ||| (byte 2 <<< 8) ||| byte 3

/-- The bytes of a word, the highest first. -/
def wordBytes (word : Word) : List UInt8 :=
  [(word >>> 24).toUInt8, (word >>> 16).toUInt8, (word >>> 8).toUInt8, word.toUInt8]

/-- The word at an address. -/
def readWord (image : Image) (address : Address) : Except Error Word :=
  if image.contains address 4 then .ok (image.wordAt (address - image.base).toNat)
  else .error (.wordOutside address)

/-- Writes bytes from an offset on. -/
def setBytes (data : Array UInt8) (offset : Nat) (bytes : List UInt8) : Array UInt8 :=
  (bytes.foldl (fun (state : Array UInt8 × Nat) byte =>
    (state.1.setIfInBounds state.2 byte, state.2 + 1)) (data, offset)).1

/-- Writes a word; the bytes of a file can be written, too. -/
def poke (image : Image) (address : Address) (word : Word) : Except Error Image :=
  if image.contains address 4 then
    let offset := (address - image.base).toNat
    .ok { image with data := setBytes image.data offset (wordBytes word) }
  else .error (.wordOutside address)

/-- The image with one word changed; a file image refuses. -/
def writeWord (image : Image) (address : Address) (word : Word) : Except Error Image :=
  if image.mapped then .error .readOnly else image.poke address word

/-- The bytes of a range. -/
def slice (image : Image) (address : Address) (size : UInt32) : Except Error (List UInt8) :=
  if image.contains address size.toNat then
    let offset := (address - image.base).toNat
    .ok (image.data.extract offset (offset + size.toNat)).toList
  else .error (.rangeOutside ⟨address, size⟩)

/-- Consecutive words written from an address on.  Words before a failing one stay written. -/
def assemble (image : Image) (address : Address) : List Word → Image × Except Error Unit
  | [] => (image, .ok ())
  | word :: rest =>
      match image.poke address word with
      | .error error => (image, .error error)
      | .ok image => image.assemble (address + 4) rest

/-- A file image gives up its bytes; any other stays as it is. -/
def close (image : Image) : Image :=
  if image.mapped then { image with data := #[] } else image

/-- Guest memory that holds the image. -/
def memory (image : Image) : Memory where
  read address :=
    match image.readWord address with
    | .ok word => .word word
    | .error error => .refused error.fault
  slice address size :=
    match image.slice address size with
    | .ok bytes => .ok bytes
    | .error error => .error error.fault

/-- Why a file is no image. -/
inductive FileError where
  | empty (path : String)
  | tooLarge (size : Nat) (base : Address)
deriving DecidableEq, Repr

/-- The text of an error. -/
def FileError.message : FileError → String
  | .empty path => s!"guest image {path} is empty"
  | .tooLarge size base => s!"guest image of {size} bytes does not fit at {Hex.word base}"

/-- The image of a file. -/
def ofFile (path : String) (base : Address) (data : Array UInt8) : Except FileError Image :=
  if data.size = 0 then .error (.empty path)
  else if data.size > UInt32.size - base.toNat then .error (.tooLarge data.size base)
  else .ok { base, data, mapped := true }

end Image
end Dynarec
