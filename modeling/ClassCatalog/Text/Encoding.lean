/-! The strings of class files.

How a string is written is left open; what is assumed of an `Encoding` is that texts in ASCII are written as such and
that no character takes less than a byte. -/
namespace ClassCatalog.Text

/-- The bytes of a text in ASCII. -/
def asciiBytes (cs : List Char) : List UInt8 := cs.map fun c => UInt8.ofNat c.toNat

def IsAscii (c : Char) : Prop := 0 < c.toNat ∧ c.toNat < 128

instance : DecidablePred IsAscii := fun _ => inferInstanceAs (Decidable (_ ∧ _))

/-- A way to read strings. -/
class Encoding where
  decode : List UInt8 → Option String
  decode_ascii (text : String) (h : ∀ c ∈ text.toList, IsAscii c) : decode (asciiBytes text.toList) = some text
  eq_ascii_of_decode {bytes : List UInt8} {text : String} (h : decode bytes = some text)
    (htext : ∀ c ∈ text.toList, IsAscii c) : bytes = asciiBytes text.toList
  length_le_of_decode {bytes : List UInt8} {text : String} (h : decode bytes = some text) : text.length ≤ bytes.length

end ClassCatalog.Text
