import JvmPatch.Jar.Entry
import JvmPatch.Text.ModifiedUtf8
import JvmPatch.Zip.Inflate

/-! Archives as bytes: each entry with a header in front of it, then a directory that repeats the
headers and says where the entries are, then a record that says where the directory is. Entries are
written as they are; compressed ones can be read, too. -/

set_option autoImplicit false

namespace JvmPatch.Zip

/-! ### The checksum: the remainder of a polynomial division, with the low bit first -/

/-- Divides one bit. -/
def checksumBit (c : UInt32) : UInt32 :=
  if c &&& 1 = 1 then (c >>> 1) ^^^ 0xedb88320 else c >>> 1

/-- The remainder of each byte on its own. -/
def checksumTable : Array UInt32 :=
  (Array.range 256).map fun n => Nat.repeat checksumBit 8 (UInt32.ofNat n)

/-- Takes one more byte into a remainder. -/
def checksumByte (c : UInt32) (b : UInt8) : UInt32 :=
  (checksumTable[((c ^^^ b.toUInt32) &&& 0xff).toNat]?).getD 0 ^^^ (c >>> 8)

def checksum (s : List UInt8) : UInt32 := (s.foldl checksumByte 0xffffffff) ^^^ 0xffffffff

/-! ### Entries and the directory -/

/-- A number in the given number of bytes, the lowest byte first. -/
def littleEndian : Nat → Nat → Bytes
  | 0, _ => []
  | width + 1, n => UInt8.ofNat n :: littleEndian width (n / 256)

/-- The number in bytes from a place on. -/
def numberAt? (data : Array UInt8) : Nat → Nat → Option Nat
  | 0, _ => some 0
  | width + 1, place => do
    let low ← data[place]?
    pure (low.toNat + 256 * (← numberAt? data width (place + 1)))

/-- What marks the header of an entry. -/
def entryMark : Nat := 0x04034b50

/-- What marks an entry of the directory. -/
def directoryMark : Nat := 0x02014b50

/-- What marks the record at the end. -/
def endMark : Nat := 0x06054b50

/-- The number of bytes of the record at the end, without a comment. -/
def endSize : Nat := 22

/-- The fields that the header of an entry shares with the directory. Names are in UTF-8, and the
time is the first one that can be given. -/
def sharedFields (entry : String × Bytes) : Bytes :=
  let size := littleEndian 4 entry.2.length
  littleEndian 2 20 ++ littleEndian 2 0x0800 ++ littleEndian 2 0 ++ littleEndian 4 0x00210000 ++
    littleEndian 4 (checksum entry.2).toNat ++ size ++ size ++
    littleEndian 2 entry.1.utf8ByteSize ++ littleEndian 2 0

def nameBytes (name : String) : Bytes := name.toUTF8.toList

def entryBytes (entry : String × Bytes) : Bytes :=
  littleEndian 4 entryMark ++ sharedFields entry ++ nameBytes entry.1 ++ entry.2

/-- The directory of entries the first of which stands at a given place. -/
def directoryBytes : Nat → Archive → Bytes
  | _, [] => []
  | place, entry :: entries =>
    littleEndian 4 directoryMark ++ littleEndian 2 20 ++ sharedFields entry ++
      littleEndian 10 0 ++ littleEndian 4 place ++ nameBytes entry.1 ++
      directoryBytes (place + (entryBytes entry).length) entries

def encode (archive : Archive) : Bytes :=
  let entries := archive.flatMap entryBytes
  let directory := directoryBytes 0 archive
  let count := littleEndian 2 archive.length
  entries ++ directory ++ littleEndian 4 endMark ++ littleEndian 4 0 ++ count ++ count ++
    littleEndian 4 directory.length ++ littleEndian 4 entries.length ++ littleEndian 2 0

/-- The bytes of an entry whose header stands at a place. -/
def entryAt? (data : Array UInt8) (place method packed check : Nat) : Option Bytes := do
  let start := place + 30 + (← numberAt? data 2 (place + 26)) + (← numberAt? data 2 (place + 28))
  if (← numberAt? data 4 place) ≠ entryMark ∨ data.size < start + packed then none
  else
    let content := (data.extract start (start + packed)).toList
    let content ← if method = 0 then some content else if method = 8 then inflate content else none
    if (checksum content).toNat = check then some content else none

def directoryAt? (data : Array UInt8) : Nat → Nat → Option Archive
  | 0, _ => some []
  | count + 1, place => do
    if (← numberAt? data 4 place) ≠ directoryMark then none
    else
      let size ← numberAt? data 2 (place + 28)
      let extra := (← numberAt? data 2 (place + 30)) + (← numberAt? data 2 (place + 32))
      let name ← Text.decodeUtf8? (data.extract (place + 46) (place + 46 + size)).toList
      let content ← entryAt? data (← numberAt? data 4 (place + 42))
        (← numberAt? data 2 (place + 10)) (← numberAt? data 4 (place + 20))
        (← numberAt? data 4 (place + 16))
      let rest ← directoryAt? data count (place + 46 + size + extra)
      pure ((String.ofList name, content) :: rest)

/-- The entries of an archive. The record at the end is the last one that is marked as such. -/
def decode? (bytes : Array UInt8) : Option Archive := do
  let places := (List.range 0x10000).map fun comment => bytes.size - endSize - comment
  let place ← places.find? fun place => numberAt? bytes 4 place == some endMark
  directoryAt? bytes (← numberAt? bytes 2 (place + 10)) (← numberAt? bytes 4 (place + 16))

end JvmPatch.Zip
