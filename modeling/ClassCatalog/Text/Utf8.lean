/-! UTF-8.

`decode` reads a whole byte string or nothing: a sequence is one of the well-formed
ones (no overlong form, no surrogate, nothing above U+10FFFF). `decodeLossy` always
answers and puts U+FFFD where a well-formed sequence breaks off or cannot begin, one
for each longest part that could still have become a sequence.

The tests for sequences of two, three and four bytes are shared with the decoder for
the strings of class files. -/
namespace ClassCatalog.Text.Utf8

/-! ### Sequences -/

/-- A byte that continues a sequence. -/
def isTail (b : UInt8) : Bool := 0x80 ≤ b && b ≤ 0xBF

/-- The six bits a continuation byte carries. -/
def bits (b : UInt8) : Nat := b.toNat % 64

def pair? (a b : UInt8) : Option Char :=
  if 0xC2 ≤ a && a ≤ 0xDF && isTail b then
    some (Char.ofNat ((a.toNat - 0xC0) * 64 + bits b))
  else none

/-- The number three bytes of the three-byte form stand for, which may be a surrogate. -/
def unit? (a b c : UInt8) : Option Nat :=
  if 0xE0 ≤ a && a ≤ 0xEF && isTail b && isTail c then
    let n := (a.toNat - 0xE0) * 4096 + bits b * 64 + bits c
    if 0x800 ≤ n then some n else none
  else none

def isSurrogate (n : Nat) : Bool := 0xD800 ≤ n && n ≤ 0xDFFF

def triple? (a b c : UInt8) : Option Char :=
  (unit? a b c).bind fun n => if isSurrogate n then none else some (Char.ofNat n)

def quad? (a b c d : UInt8) : Option Char :=
  if 0xF0 ≤ a && a ≤ 0xF4 && isTail b && isTail c && isTail d then
    let n := (a.toNat - 0xF0) * 262144 + bits b * 4096 + bits c * 64 + bits d
    if 0x10000 ≤ n && n ≤ 0x10FFFF then some (Char.ofNat n) else none
  else none

/-! ### Decoding all or nothing -/

def decode : List UInt8 → Option (List Char)
  | [] => some []
  | a :: rest =>
    if a < 0x80 then (decode rest).map (Char.ofNat a.toNat :: ·)
    else match rest with
      | [] => none
      | b :: rest => match pair? a b with
        | some c => (decode rest).map (c :: ·)
        | none => match rest with
          | [] => none
          | c :: rest => match triple? a b c with
            | some x => (decode rest).map (x :: ·)
            | none => match rest with
              | [] => none
              | d :: rest => match quad? a b c d with
                | some x => (decode rest).map (x :: ·)
                | none => none

/-! ### Decoding with replacement -/

/-- Whether `b` can be the second byte after `a` in a sequence of three or four. -/
def canFollow (a b : UInt8) : Bool :=
  isTail b &&
    (if a == 0xE0 then 0xA0 ≤ b
    else if a == 0xED then b ≤ 0x9F
    else if a == 0xF0 then 0x90 ≤ b
    else if a == 0xF4 then b ≤ 0x8F
    else 0xE1 ≤ a && a ≤ 0xF3)

/-- How many bytes at the front one replacement character stands for. -/
def brokenLength (a : UInt8) : List UInt8 → Nat
  | b :: c :: _ => if canFollow a b then (if 0xF0 ≤ a && isTail c then 3 else 2) else 1
  | b :: [] => if canFollow a b then 2 else 1
  | [] => 1

/-- The first character, or a replacement, and how many bytes it takes. -/
def first (a : UInt8) (rest : List UInt8) : Char × Nat :=
  if a < 0x80 then (Char.ofNat a.toNat, 1)
  else match rest.head?.bind (pair? a) with
    | some c => (c, 2)
    | none => match rest[0]?, rest[1]?, rest[2]? with
      | some b, some c, some d =>
        match triple? a b c, quad? a b c d with
        | some x, _ => (x, 3)
        | none, some x => (x, 4)
        | none, none => ('\uFFFD', brokenLength a rest)
      | some b, some c, none =>
        match triple? a b c with
        | some x => (x, 3)
        | none => ('\uFFFD', brokenLength a rest)
      | _, _, _ => ('\uFFFD', brokenLength a rest)

def decodeLossy : List UInt8 → List Char
  | [] => []
  | a :: rest => (first a rest).1 :: decodeLossy (rest.drop ((first a rest).2 - 1))
termination_by l => l.length
decreasing_by
  simp only [List.length_drop, List.length_cons]
  omega

end ClassCatalog.Text.Utf8
