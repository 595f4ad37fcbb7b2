import ClassCatalog.Bytes

/-! The CRC-32 checksum, with the reflected polynomial EDB88320. -/
namespace ClassCatalog.Archive.Checksum

def polynomial : UInt32 := 0xEDB88320

def shift (c : UInt32) : UInt32 := if c &&& 1 == 1 then (c >>> 1) ^^^ polynomial else c >>> 1

def addByte (c : UInt32) (b : UInt8) : UInt32 :=
  shift (shift (shift (shift (shift (shift (shift (shift (c ^^^ b.toUInt32))))))))

def crc32 (bytes : Bytes) : UInt32 := bytes.foldl addByte 0xFFFFFFFF ^^^ 0xFFFFFFFF

example : crc32 "123456789".toUTF8.data = 0xCBF43926 := by decide +kernel

end ClassCatalog.Archive.Checksum
