import Trustd.Core.Wire

/-
  MessagePack as its specification has it, in the types the
  messages use and always in the shortest form.

  Key definitions include:
    * `Trustd.Wire.Item.size`
    * `Trustd.Wire.Sized`
    * `Trustd.Wire.messagePack`

  Key theorems include:
    * `Trustd.Wire.sized_messagePack`
-/

------------------------------------------------------------
-- Sizes
------------------------------------------------------------

namespace Trustd

namespace Wire

/- The bytes of a string of so many bytes. -/
def strSize (n : Nat) : Nat :=
  if n < 32 then 1 + n
  else if n < 2 ^ 8 then 2 + n
  else if n < 2 ^ 16 then 3 + n
  else 5 + n

/- The bytes of a byte array of so many bytes. -/
def binSize (n : Nat) : Nat :=
  if n < 2 ^ 8 then 2 + n
  else if n < 2 ^ 16 then 3 + n
  else 5 + n

/- The bytes that open an array or a map of so many items. -/
def countSize (n : Nat) : Nat :=
  if n < 16 then 1
  else if n < 2 ^ 16 then 3
  else 5

def uintSize (n : Nat) : Nat :=
  if n < 128 then 1
  else if n < 2 ^ 8 then 2
  else if n < 2 ^ 16 then 3
  else if n < 2 ^ 32 then 5
  else 9

def intSize : Int → Nat
  | .ofNat n => uintSize n
  | .negSucc n =>
      if n < 32 then 1
      else if n < 2 ^ 7 then 2
      else if n < 2 ^ 15 then 3
      else if n < 2 ^ 31 then 5
      else 9

/- How long an item is. -/
def Item.size : Item → Nat
  | .map count => countSize count
  | .array count => countSize count
  | .str text => strSize (Text.utf8 text).length
  | .bool _ => 1
  | .uint value => uintSize value
  | .int value => intSize value
  | .bin data => binSize data.length
  | .nil => 1

/- A writer that writes every item as short as it goes. -/
def Sized (mp : MsgPack) : Prop :=
  ∀ item, (mp.write item).length = item.size

end Wire

end Trustd

------------------------------------------------------------
-- Writing
------------------------------------------------------------

namespace Trustd

namespace Wire

/- A number in so many bytes, the highest first. -/
def beBytes : Nat → Nat → Bytes
  | 0, _ => []
  | width + 1, n => beBytes width (n / 256) ++ [UInt8.ofNat n]

@[simp] theorem length_beBytes
    (width n : Nat) :
    (beBytes width n).length = width := by
  induction width generalizing n with
  | zero => rfl
  | succ width ih => simp [beBytes, ih]

/- A type's byte and the number after it. -/
def tagged (tag width n : Nat) : Bytes :=
  UInt8.ofNat tag :: beBytes width n

def writeCount (short wide wider : Nat) (n : Nat) : Bytes :=
  if n < 16 then [UInt8.ofNat (short + n)]
  else if n < 2 ^ 16 then tagged wide 2 n
  else tagged wider 4 n

def writeStrHeader (n : Nat) : Bytes :=
  if n < 32 then [UInt8.ofNat (0xa0 + n)]
  else if n < 2 ^ 8 then tagged 0xd9 1 n
  else if n < 2 ^ 16 then tagged 0xda 2 n
  else tagged 0xdb 4 n

def writeBinHeader (n : Nat) : Bytes :=
  if n < 2 ^ 8 then tagged 0xc4 1 n
  else if n < 2 ^ 16 then tagged 0xc5 2 n
  else tagged 0xc6 4 n

def writeUint (n : Nat) : Bytes :=
  if n < 128 then [UInt8.ofNat n]
  else if n < 2 ^ 8 then tagged 0xcc 1 n
  else if n < 2 ^ 16 then tagged 0xcd 2 n
  else if n < 2 ^ 32 then tagged 0xce 4 n
  else tagged 0xcf 8 n

/- A negative number is written as its two's complement. -/
def writeInt : Int → Bytes
  | .ofNat n => writeUint n
  | .negSucc n =>
      if n < 32 then [UInt8.ofNat (2 ^ 8 - 1 - n)]
      else if n < 2 ^ 7 then tagged 0xd0 1 (2 ^ 8 - 1 - n)
      else if n < 2 ^ 15 then tagged 0xd1 2 (2 ^ 16 - 1 - n)
      else if n < 2 ^ 31 then tagged 0xd2 4 (2 ^ 32 - 1 - n)
      else tagged 0xd3 8 (2 ^ 64 - 1 - n)

def writeItem : Item → Bytes
  | .map count => writeCount 0x80 0xde 0xdf count
  | .array count => writeCount 0x90 0xdc 0xdd count
  | .str text =>
      writeStrHeader (Text.utf8 text).length ++ Text.utf8 text
  | .bool value => [if value then 0xc3 else 0xc2]
  | .uint value => writeUint value
  | .int value => writeInt value
  | .bin data => writeBinHeader data.length ++ data
  | .nil => [0xc0]

theorem length_writeCount
    (short wide wider n : Nat) :
    (writeCount short wide wider n).length = countSize n := by
  unfold writeCount countSize tagged
  split_ifs <;> simp

theorem length_writeUint (n : Nat) :
    (writeUint n).length = uintSize n := by
  unfold writeUint uintSize tagged
  split_ifs <;> simp

theorem length_writeInt (n : Int) :
    (writeInt n).length = intSize n := by
  cases n with
  | ofNat n => exact length_writeUint n
  | negSucc n =>
      unfold writeInt intSize tagged
      dsimp only
      split_ifs <;> simp

theorem length_writeStrHeader (n : Nat) :
    (writeStrHeader n).length + n = strSize n := by
  unfold writeStrHeader strSize tagged
  split_ifs <;> simp

theorem length_writeBinHeader (n : Nat) :
    (writeBinHeader n).length + n = binSize n := by
  unfold writeBinHeader binSize tagged
  split_ifs <;> simp

theorem length_writeItem (item : Item) :
    (writeItem item).length = item.size := by
  cases item with
  | map count => exact length_writeCount _ _ _ count
  | array count => exact length_writeCount _ _ _ count
  | str text =>
      rw [writeItem, List.length_append, length_writeStrHeader]
      rfl
  | bool value => rfl
  | uint value => exact length_writeUint value
  | int value => exact length_writeInt value
  | bin data =>
      rw [writeItem, List.length_append, length_writeBinHeader]
      rfl
  | nil => rfl

end Wire

end Trustd

------------------------------------------------------------
-- Reading
------------------------------------------------------------

namespace Trustd

namespace Wire

def fromBeBytes (bytes : Bytes) : Nat :=
  bytes.foldl (fun n b => n * 256 + b.toNat) 0

/- So many bytes and what comes after them. -/
def takeBytes (n : Nat) (bytes : Bytes) :
    Except Text (Bytes × Bytes) :=
  if bytes.length < n then .error "truncated".toList
  else .ok (bytes.take n, bytes.drop n)

/-
  A number a type's byte holds itself, or one that follows
  it in so many bytes.
-/
def readHeader
    (short : Nat → Option Nat)
    (wide : List (Nat × Nat)) :
    Bytes → Except Text (Nat × Bytes)
  | [] => .error "truncated".toList
  | b :: rest =>
      match short b.toNat with
      | some n => .ok (n, rest)
      | none =>
          match wide.find? (fun w => w.1 = b.toNat) with
          | some (_, width) =>
              (takeBytes width rest).map
                (fun r => (fromBeBytes r.1, r.2))
          | none => .error "unexpected type".toList

/- The type's bytes from one number up to another. -/
def within (low high : Nat) (b : Nat) : Option Nat :=
  if low ≤ b ∧ b < high then some (b - low) else none

def readMapHeader : Bytes → Except Text (Nat × Bytes) :=
  readHeader (within 0x80 0x90) [(0xde, 2), (0xdf, 4)]

def readArrayHeader : Bytes → Except Text (Nat × Bytes) :=
  readHeader (within 0x90 0xa0) [(0xdc, 2), (0xdd, 4)]

def readStrBytes (bytes : Bytes) :
    Except Text (Bytes × Bytes) := do
  let (n, rest) ← readHeader (within 0xa0 0xc0)
    [(0xd9, 1), (0xda, 2), (0xdb, 4)] bytes
  takeBytes n rest

def readStrText (bytes : Bytes) :
    Except Text (Text × Bytes) := do
  let (data, rest) ← readStrBytes bytes
  match Text.fromUtf8 data with
  | some text => return (text, rest)
  | none => throw "invalid UTF-8".toList

def readBinBytes (bytes : Bytes) :
    Except Text (Bytes × Bytes) := do
  let (n, rest) ← readHeader (fun _ => none)
    [(0xc4, 1), (0xc5, 2), (0xc6, 4)] bytes
  takeBytes n rest

def readUintValue : Bytes → Except Text (Nat × Bytes) :=
  readHeader (within 0 128)
    [(0xcc, 1), (0xcd, 2), (0xce, 4), (0xcf, 8)]

/- A number of so many bits, taken as a signed one. -/
def signed (bits n : Nat) : Int :=
  if n < 2 ^ (bits - 1) then n else (n : Int) - 2 ^ bits

def readIntValue : Bytes → Except Text (Int × Bytes)
  | [] => .error "truncated".toList
  | b :: rest =>
      if 0xe0 ≤ b.toNat then .ok (signed 8 b.toNat, rest)
      else
        match [(0xd0, 1), (0xd1, 2), (0xd2, 4),
            (0xd3, 8)].find? (fun w => w.1 = b.toNat) with
        | some (_, width) =>
            (takeBytes width rest).map (fun r =>
              (signed (8 * width) (fromBeBytes r.1), r.2))
        | none =>
            (readUintValue (b :: rest)).map
              (fun r => ((r.1 : Int), r.2))

def readBoolValue : Bytes → Except Text (Bool × Bytes)
  | 0xc3 :: rest => .ok (true, rest)
  | 0xc2 :: rest => .ok (false, rest)
  | _ => .error "unexpected type".toList

def readNilValue : Bytes → Except Text Bytes
  | 0xc0 :: rest => .ok rest
  | _ => .error "unexpected type".toList

/- The rest after one value that is not an array or a map. -/
def skipScalar (bytes : Bytes) : Except Text Bytes :=
  (readNilValue bytes).orElseLazy (fun _ =>
    ((readBoolValue bytes).map Prod.snd).orElseLazy (fun _ =>
      ((readStrBytes bytes).map Prod.snd).orElseLazy (fun _ =>
        ((readBinBytes bytes).map Prod.snd).orElseLazy
          (fun _ => (readIntValue bytes).map Prod.snd))))

/-
  The rest after so many values. An array or a map puts its
  items before those still to be skipped; every item takes a
  byte at least, which bounds the turns.
-/
def skipValues : Nat → Nat → Bytes → Except Text Bytes
  | _, 0, bytes => .ok bytes
  | 0, _ + 1, _ => .error "truncated".toList
  | turns + 1, n + 1, bytes =>
      match readMapHeader bytes, readArrayHeader bytes with
      | .ok (count, rest), _ =>
          skipValues turns (2 * count + n) rest
      | _, .ok (count, rest) =>
          skipValues turns (count + n) rest
      | _, _ =>
          match skipScalar bytes with
          | .ok rest => skipValues turns n rest
          | .error e => .error e

/- MessagePack. -/
def messagePack : MsgPack where
  write := writeItem
  readMap := readMapHeader
  readArray := readArrayHeader
  readStr := readStrText
  readBool := readBoolValue
  readUint := readUintValue
  readInt := readIntValue
  readBin := readBinBytes
  readNil := readNilValue
  skip bytes := skipValues bytes.length 1 bytes
  peeksNil bytes := bytes.head? = some 0xc0

theorem sized_messagePack : Sized messagePack :=
  length_writeItem

example :
    Request.decode messagePack
        ((Request.roots true none).encode messagePack) =
      .ok (.roots true none) := by
  decide +kernel

end Wire

end Trustd
