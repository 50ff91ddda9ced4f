import Dynarec.Digest.Blake2b
import Dynarec.Verdict.Basic

/-!
# The verdict store

Verdicts are kept under a key that is made of the entry address and a digest of
the code bytes, so that code which failed to compile once is not tried again.
-/

namespace Dynarec

/-- The bytes that a verdict is kept under. -/
abbrev VerdictKey := List UInt8

/-- The byte that all keys of verdicts begin with. -/
def VerdictKey.mark : UInt8 := 0x76

/-- The key of a function, made from its code. -/
def VerdictKey.ofCode (entry : Address) (code : List UInt8) : VerdictKey :=
  mark :: Image.wordBytes entry ++ Blake2b.digest code

/-- Stored bytes by key; no key occurs twice. -/
structure VerdictStore where
  items : List (VerdictKey × List UInt8) := []
deriving DecidableEq, Repr

namespace VerdictStore

/-- A store without verdicts. -/
def empty : VerdictStore := {}

/-- The bytes that are kept under a key. -/
def find? (store : VerdictStore) (key : VerdictKey) : Option (List UInt8) :=
  store.items.lookup key

/-- The record that is kept under a key. -/
def get (store : VerdictStore) (key : VerdictKey) :
    Except VerdictRecord.Error (Option VerdictRecord) :=
  match store.find? key with
  | none => .ok none
  | some bytes => (VerdictRecord.decode bytes).map some

/-- Forgets what is kept under a key. -/
def delete (store : VerdictStore) (key : VerdictKey) : VerdictStore :=
  { items := store.items.filter (·.1 ≠ key) }

/-- Keeps bytes under a key, in the place of others. -/
def putBytes (store : VerdictStore) (key : VerdictKey) (bytes : List UInt8) : VerdictStore :=
  { items := (key, bytes) :: (store.delete key).items }

/-- Keeps a record under a key. -/
def put (store : VerdictStore) (key : VerdictKey) (record : VerdictRecord) : VerdictStore :=
  store.putBytes key record.encode

/-- The number of verdicts, found under the keys that begin as those of verdicts do. -/
def count (store : VerdictStore) : Nat :=
  store.items.countP fun item => item.1.head? = some VerdictKey.mark

end VerdictStore
end Dynarec
