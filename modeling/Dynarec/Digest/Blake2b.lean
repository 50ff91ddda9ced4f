/-!
# BLAKE2b

The unkeyed BLAKE2b digest of 32 bytes.  The data are taken in blocks of 128
bytes, each read as sixteen little-endian lanes; the last block is filled up
with zeros and marked as the last.
-/

namespace Dynarec
namespace Blake2b

def initialVector : Array UInt64 :=
  #[0x6a09e667f3bcc908, 0xbb67ae8584caa73b, 0x3c6ef372fe94f82b, 0xa54ff53a5f1d36f1,
    0x510e527fade682d1, 0x9b05688c2b3e6c1f, 0x1f83d9abfb41bd6b, 0x5be0cd19137e2179]

/-- The order in which each round takes the lanes of a block. -/
def schedule : List (List Nat) :=
  let first := [0, 1, 2, 3, 4, 5, 6, 7, 8, 9, 10, 11, 12, 13, 14, 15]
  let second := [14, 10, 4, 8, 9, 15, 13, 6, 1, 12, 0, 2, 11, 7, 5, 3]
  [ first,
    second,
    [11, 8, 12, 0, 5, 2, 15, 13, 10, 14, 3, 6, 7, 1, 9, 4],
    [7, 9, 3, 1, 13, 12, 11, 14, 2, 6, 5, 10, 4, 0, 15, 8],
    [9, 0, 5, 7, 2, 4, 10, 15, 14, 1, 11, 12, 6, 8, 3, 13],
    [2, 12, 6, 10, 0, 11, 8, 3, 4, 13, 7, 5, 15, 14, 1, 9],
    [12, 5, 1, 15, 14, 13, 4, 10, 0, 7, 6, 3, 9, 2, 8, 11],
    [13, 11, 7, 14, 12, 1, 3, 9, 5, 0, 15, 4, 8, 6, 2, 10],
    [6, 15, 14, 9, 11, 3, 0, 8, 12, 2, 13, 7, 1, 4, 10, 5],
    [10, 2, 8, 4, 7, 6, 1, 5, 15, 11, 9, 14, 3, 12, 13, 0],
    first,
    second ]

/-- The lanes that are mixed together: the columns, then the diagonals. -/
def groups : List (Nat × Nat × Nat × Nat) :=
  [(0, 4, 8, 12), (1, 5, 9, 13), (2, 6, 10, 14), (3, 7, 11, 15),
   (0, 5, 10, 15), (1, 6, 11, 12), (2, 7, 8, 13), (3, 4, 9, 14)]

def rotate (lane count : UInt64) : UInt64 :=
  (lane >>> count) ||| (lane <<< (64 - count))

/-- Two lanes of the block mixed into four lanes of the working vector. -/
def mix (v : Array UInt64) (group : Nat × Nat × Nat × Nat) (x y : UInt64) : Array UInt64 :=
  let (ia, ib, ic, id) := group
  let a := v.getD ia 0 + v.getD ib 0 + x
  let d := rotate (v.getD id 0 ^^^ a) 32
  let c := v.getD ic 0 + d
  let b := rotate (v.getD ib 0 ^^^ c) 24
  let a := a + b + y
  let d := rotate (d ^^^ a) 16
  let c := c + d
  let b := rotate (b ^^^ c) 63
  (((v.setIfInBounds ia a).setIfInBounds ib b).setIfInBounds ic c).setIfInBounds id d

def round (block : Array UInt64) (v : Array UInt64) (order : List Nat) : Array UInt64 :=
  let lane (index : Nat) : UInt64 := block.getD (order.getD index 0) 0
  groups.zipIdx.foldl (fun v (group, index) =>
    mix v group (lane (2 * index)) (lane (2 * index + 1))) v

/-- The lane whose bytes, the lowest first, start at an offset of a block. -/
def laneAt (block : Array UInt8) (offset : Nat) : UInt64 :=
  (List.range 8).foldr (fun index lane =>
    (lane <<< 8) ||| (block.getD (offset + index) 0).toUInt64) 0

def laneBytes (lane : UInt64) : List UInt8 :=
  (List.range 8).map fun index => (lane >>> (8 * UInt64.ofNat index)).toUInt8

/-- Takes up a block. -/
def compress (lanes : Array UInt64) (block : List UInt8) (count : Nat) (last : Bool) :
    Array UInt64 :=
  let bytes := block.toArray
  let block := ((List.range 16).map fun index => laneAt bytes (8 * index)).toArray
  let start := lanes ++ initialVector
  let start := start.modify 12 (· ^^^ UInt64.ofNat count)
  let start := start.modify 13 (· ^^^ UInt64.ofNat (count / UInt64.size))
  let start := if last then start.modify 14 (~~~ ·) else start
  let v := schedule.foldl (round block) start
  lanes.mapIdx fun index lane => lane ^^^ v.getD index 0 ^^^ v.getD (index + 8) 0

/-- The lanes after the rest of the data, of which `count` bytes were taken before. -/
def absorb (lanes : Array UInt64) (count : Nat) (data : List UInt8) : Array UInt64 :=
  if data.length ≤ 128 then compress lanes data (count + data.length) true
  else absorb (compress lanes (data.take 128) (count + 128) false) (count + 128) (data.drop 128)
termination_by data.length
decreasing_by simp; omega

/-- The digest of bytes. -/
def digest (data : List UInt8) : List UInt8 :=
  let lanes := initialVector.modify 0 (· ^^^ 0x01010020)
  ((absorb lanes 0 data).toList.flatMap laneBytes).take 32

end Blake2b
end Dynarec
