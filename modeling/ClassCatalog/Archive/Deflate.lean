import ClassCatalog.Bytes

/-! Deflated data.

A deflated stream is a sequence of blocks of bits, the lowest bit of a byte first. A
block is stored, or made of symbols in a Huffman code that is fixed or described at its
front; symbols stand for bytes and for copies of what was written before. `inflate`
answers everything that could be decoded and how the stream ended. -/
namespace ClassCatalog.Archive.Deflate

/-- Why decoding stopped before the end of the last block. -/
inductive Stop where
  | unfinished
  | invalid
deriving DecidableEq, Repr

/-! ### Bits -/

structure Input where
  bytes : Bytes
  /-- How many bits have been taken. -/
  pos : Nat

def Input.left (i : Input) : Nat := 8 * i.bytes.size - i.pos

def Input.bit? (i : Input) : Option (Nat × Input) :=
  match i.bytes[i.pos / 8]? with
  | some b => some ((b.toNat.testBit (i.pos % 8)).toNat, { i with pos := i.pos + 1 })
  | none => none

/-- A number of `n` bits, lowest first. -/
def Input.take (i : Input) : Nat → Except Stop (Nat × Input)
  | 0 => .ok (0, i)
  | n + 1 =>
    match i.bit? with
    | none => .error .unfinished
    | some (b, i) =>
      match i.take n with
      | .ok (v, i) => .ok (b + 2 * v, i)
      | .error e => .error e

def Input.alignToByte (i : Input) : Input := { i with pos := (i.pos + 7) / 8 * 8 }

/-! ### Huffman codes -/

/-- A canonical code: how many symbols have each length from one bit to the longest, and the
symbols in the order of their codes. -/
structure Code where
  counts : List Nat
  symbols : Array Nat

def Code.ofLengths (lengths : List Nat) : Code :=
  let upToLongest := (List.range (lengths.foldl max 1)).map (· + 1)
  { counts := upToLongest.map lengths.count
    symbols := (upToLongest.flatMap fun n =>
      lengths.zipIdx.filterMap fun (l, s) => if l = n then some s else none).toArray }

/-- A code is complete when its symbols use up all bit sequences. -/
def Code.isComplete (c : Code) : Bool :=
  (c.counts.zipIdx.foldl (fun sum (n, l) => sum + n <<< (15 - l)) 0) == 65536

/-- Literals and distances can also do with no symbol, or with one of one bit. -/
def Code.isUsable (c : Code) : Bool :=
  c.isComplete || (c.counts.length == 1 && c.symbols.size ≤ 1)

/-- Takes bits until they are the code of a symbol, at most as many as the longest code has.
For each length come the number of codes, the first code of that length and the index of its
symbol. -/
def Code.symbolFrom (c : Code) : List Nat → Nat → Nat → Nat → Input → Except Stop (Nat × Input)
  | [], _, _, _, _ => .error .invalid
  | n :: counts, code, firstCode, index, i =>
    match i.bit? with
    | none => .error .unfinished
    | some (b, i) =>
      let code := code + b
      if code < firstCode + n then
        match c.symbols[index + (code - firstCode)]? with
        | some s => .ok (s, i)
        | none => .error .invalid
      else c.symbolFrom counts (2 * code) (2 * (firstCode + n)) (index + n) i

def Code.symbol (c : Code) (i : Input) : Except Stop (Nat × Input) :=
  c.symbolFrom c.counts 0 0 0 i

/-! ### Lengths and distances -/

/-- The least length of each length symbol from 257 on and the number of bits that add to it. -/
def lengthTable : List (Nat × Nat) :=
  [(3, 0), (4, 0), (5, 0), (6, 0), (7, 0), (8, 0), (9, 0), (10, 0), (11, 1), (13, 1), (15, 1),
   (17, 1), (19, 2), (23, 2), (27, 2), (31, 2), (35, 3), (43, 3), (51, 3), (59, 3), (67, 4),
   (83, 4), (99, 4), (115, 4), (131, 5), (163, 5), (195, 5), (227, 5), (258, 0)]

def distanceTable : List (Nat × Nat) :=
  [(1, 0), (2, 0), (3, 0), (4, 0), (5, 1), (7, 1), (9, 2), (13, 2), (17, 3), (25, 3), (33, 4),
   (49, 4), (65, 5), (97, 5), (129, 6), (193, 6), (257, 7), (385, 7), (513, 8), (769, 8),
   (1025, 9), (1537, 9), (2049, 10), (3073, 10), (4097, 11), (6145, 11), (8193, 12), (12289, 12),
   (16385, 13), (24577, 13)]

def takeEntry (table : List (Nat × Nat)) (k : Nat) (i : Input) : Except Stop (Nat × Input) :=
  match table[k]? with
  | none => .error .invalid
  | some (least, bits) =>
    match i.take bits with
    | .ok (n, i) => .ok (least + n, i)
    | .error e => .error e

/-- Copies `n` bytes from `distance` back; what lies before the start reads as zero. -/
def copy (distance : Nat) : Nat → Bytes → Bytes
  | 0, out => out
  | n + 1, out =>
    copy distance n (out.push (if distance ≤ out.size then (out[out.size - distance]?).getD 0 else 0))

/-! ### Blocks -/

structure Codes where
  literals : Code
  distances : Code

def fixedCodes : Codes where
  literals := .ofLengths (List.replicate 144 8 ++ List.replicate 112 9 ++ List.replicate 24 7 ++
    List.replicate 8 8)
  distances := .ofLengths (List.replicate 32 5)

/-- What has been decoded so far, and where and why it stopped. -/
structure Partial where
  out : Bytes
  rest : Except Stop Input

/-- The symbols of a block. Every symbol takes a bit at least, so `fuel` need not exceed the
number of bits. -/
def symbols (codes : Codes) : Nat → Bytes → Input → Partial
  | 0, out, _ => ⟨out, .error .unfinished⟩
  | fuel + 1, out, i =>
    match codes.literals.symbol i with
    | .error e => ⟨out, .error e⟩
    | .ok (s, i) =>
      if s < 256 then symbols codes fuel (out.push (UInt8.ofNat s)) i
      else if s = 256 then ⟨out, .ok i⟩
      else
        match takeEntry lengthTable (s - 257) i with
        | .error e => ⟨out, .error e⟩
        | .ok (length, i) =>
          match codes.distances.symbol i with
          | .error e => ⟨out, .error e⟩
          | .ok (d, i) =>
            match takeEntry distanceTable d i with
            | .error e => ⟨out, .error e⟩
            | .ok (distance, i) => symbols codes fuel (copy distance length out) i

/-- A stored block: its length, the complement of the length, and the bytes. -/
def stored (out : Bytes) (i : Input) : Partial :=
  let i := i.alignToByte
  match i.take 16 with
  | .error e => ⟨out, .error e⟩
  | .ok (length, i) =>
    match i.take 16 with
    | .error e => ⟨out, .error e⟩
    | .ok (complement, i) =>
      if length + complement ≠ 65535 then ⟨out, .error .invalid⟩
      else
        let start := i.pos / 8
        let content := i.bytes.extract start (start + length)
        if content.size < length then ⟨out ++ content, .error .unfinished⟩
        else ⟨out ++ content, .ok { i with pos := i.pos + 8 * length }⟩

/-- The order in which the lengths of the code for code lengths are written. -/
def lengthOrder : List Nat := [16, 17, 18, 0, 8, 7, 9, 6, 10, 5, 11, 4, 12, 3, 13, 2, 14, 1, 15]

def takeThrees : Nat → List Nat → Input → Except Stop (List Nat × Input)
  | 0, taken, i => .ok (taken.reverse, i)
  | n + 1, taken, i =>
    match i.take 3 with
    | .ok (v, i) => takeThrees n (v :: taken) i
    | .error e => .error e

/-- Code lengths, run-length coded, until there are `total`; the ones taken so far in reverse. -/
def codeLengths (code : Code) (total : Nat) : Nat → List Nat → Input →
    Except Stop (List Nat × Input)
  | 0, _, _ => .error .unfinished
  | fuel + 1, taken, i =>
    if total < taken.length then .error .invalid
    else if taken.length = total then .ok (taken.reverse, i)
    else
      match code.symbol i with
      | .error e => .error e
      | .ok (s, i) =>
        if s < 16 then codeLengths code total fuel (s :: taken) i
        else
          let (repeated, least, bits) : Option Nat × Nat × Nat :=
            if s = 16 then (taken.head?, 3, 2) else if s = 17 then (some 0, 3, 3) else (some 0, 11, 7)
          match repeated with
          | none => .error .invalid
          | some l =>
            match i.take bits with
            | .error e => .error e
            | .ok (n, i) => codeLengths code total fuel (List.replicate (least + n) l ++ taken) i

/-- The codes described at the front of a block. -/
def describedCodes (i : Input) : Except Stop (Codes × Input) := do
  let (l, i) ← i.take 5
  let (d, i) ← i.take 5
  let (n, i) ← i.take 4
  if 286 < l + 257 ∨ 30 < d + 1 then .error .invalid
  else
    let (threes, i) ← takeThrees (n + 4) [] i
    let written := lengthOrder.zip threes
    let lengthCode := Code.ofLengths ((List.range 19).map fun s => (written.lookup s).getD 0)
    if !lengthCode.isComplete then .error .invalid
    else
      let (lengths, i) ← codeLengths lengthCode (l + 257 + (d + 1)) (l + d + 260) [] i
      let literals := Code.ofLengths (lengths.take (l + 257))
      let distances := Code.ofLengths (lengths.drop (l + 257))
      if literals.isUsable && distances.isUsable then return (⟨literals, distances⟩, i)
      else .error .invalid

def block (type : Nat) (out : Bytes) (i : Input) : Partial :=
  if type = 0 then stored out i
  else if type = 1 then symbols fixedCodes (i.left + 1) out i
  else if type = 2 then
    match describedCodes i with
    | .error e => ⟨out, .error e⟩
    | .ok (codes, i) => symbols codes (i.left + 1) out i
  else ⟨out, .error .invalid⟩

/-- Blocks up to the last one. -/
def blocks : Nat → Bytes → Input → Bytes × Option Stop
  | 0, out, _ => (out, some .unfinished)
  | fuel + 1, out, i =>
    match i.take 1 with
    | .error e => (out, some e)
    | .ok (last, i) =>
      match i.take 2 with
      | .error e => (out, some e)
      | .ok (type, i) =>
        let p := block type out i
        match p.rest with
        | .error e => (p.out, some e)
        | .ok i => if last = 1 then (p.out, none) else blocks fuel p.out i

/-- What `bytes` inflate to, and why that is not all if it is not. -/
def inflate (bytes : Bytes) : Bytes × Option Stop :=
  blocks (8 * bytes.size + 1) #[] ⟨bytes, 0⟩

end ClassCatalog.Archive.Deflate
