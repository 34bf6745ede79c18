import LogicConduit.ByteRegion

namespace LogicConduit

namespace Crc32c

def polynomial : UInt32 := 0x82f63b78

/-- One byte of the first table: eight shifts of the reflected polynomial. -/
def shiftBits : Nat → UInt32 → UInt32
  | 0, crc => crc
  | bit + 1, crc =>
    shiftBits bit (if crc &&& 1 ≠ 0 then (crc >>> 1) ^^^ polynomial else crc >>> 1)

def table : Nat → UInt32 → UInt32
  | 0, index => shiftBits 8 index
  | number + 1, index =>
    let previous := table number index
    shiftBits 8 (previous &&& 0xff) ^^^ (previous >>> 8)

def updateBytes (crc : UInt32) (bytes : Bytes) : UInt32 :=
  bytes.foldl (fun crc byte => table 0 ((crc ^^^ byte.toUInt32) &&& 0xff) ^^^ (crc >>> 8)) crc

def update (crc : UInt32) : Bytes → UInt32
  | b0 :: b1 :: b2 :: b3 :: b4 :: b5 :: b6 :: b7 :: rest =>
    let crc := crc ^^^ UInt32.ofNat (ofLeBytes [b0, b1, b2, b3])
    let crc := table 7 (crc &&& 0xff) ^^^ table 6 ((crc >>> 8) &&& 0xff) ^^^
      table 5 ((crc >>> 16) &&& 0xff) ^^^ table 4 (crc >>> 24) ^^^ table 3 b4.toUInt32 ^^^
      table 2 b5.toUInt32 ^^^ table 1 b6.toUInt32 ^^^ table 0 b7.toUInt32
    update crc rest
  | remainder => updateBytes crc remainder

def blockChecksum (bytes : Bytes) (checksumOffset : Nat) : UInt32 :=
  let crc := update (~~~0) (bytes.take checksumOffset)
  let crc := update crc [0, 0, 0, 0]
  let crc := update crc (bytes.drop (checksumOffset + 4))
  ~~~crc

def checksumParts (parts : List Bytes) : UInt32 :=
  ~~~parts.foldl update (~~~0)

end Crc32c

/-- All that the formats rely on: the checksum of a block does not depend on the four bytes that
store it. -/
structure BlockChecksum where
  sum : Bytes → Nat → UInt32
  ignores : ∀ (bytes field : Bytes) (offset : Nat), field.length = 4 → offset + 4 ≤ bytes.length →
    sum (putRange bytes offset field) offset = sum bytes offset

def BlockChecksum.crc32c : BlockChecksum where
  sum := Crc32c.blockChecksum
  ignores := by
    intro bytes field offset hf hb
    have ht : (putRange bytes offset field).take offset = bytes.take offset :=
      take_putRange (by omega)
    have hd : (putRange bytes offset field).drop (offset + 4) = bytes.drop (offset + 4) := by
      rw [← hf]
      exact drop_putRange (by omega)
    simp only [Crc32c.blockChecksum, ht, hd]

/-- The check value of CRC-32C over the digits `123456789`. -/
example : ~~~Crc32c.update (~~~0) "123456789".toByteArray.toList = 0xe3069283 := by decide +kernel

end LogicConduit
