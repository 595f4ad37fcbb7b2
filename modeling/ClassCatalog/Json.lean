/-! JSON text, read strictly.

`Json.parse` accepts one value with white space around it and nothing else. Of a number
only whether it is a natural number, written without fraction and exponent, is kept; of a
string whether its escapes make characters. Members of objects keep their order. -/
namespace ClassCatalog

inductive Json where
  | null
  | bool (b : Bool)
  /-- The number, if it is written as a natural number. -/
  | number (natural : Option Nat)
  /-- The characters, unless an escape in it stands for half a surrogate pair. -/
  | string (text : Option String)
  | array (items : List Json)
  | object (members : List (Option String × Json))

namespace Json

abbrev Rest (α : Type) := Option (α × List Char)

def isSpace (c : Char) : Bool := c = ' ' || c = '\t' || c = '\n' || c = '\r'

def skipSpace (cs : List Char) : List Char := cs.dropWhile isSpace

/-! ### Numbers -/

def digitValue (c : Char) : Nat := c.toNat - '0'.toNat

def value10 (digits : List Char) : Nat := digits.foldl (fun n d => 10 * n + digitValue d) 0

/-- At least one digit. -/
def digits (cs : List Char) : Rest (List Char) :=
  match cs.takeWhile Char.isDigit with
  | [] => none
  | ds => some (ds, cs.dropWhile Char.isDigit)

/-- Digits without a leading zero. -/
def whole (cs : List Char) : Rest Nat :=
  match digits cs with
  | some (ds, rest) => if ds.head? = some '0' ∧ 1 < ds.length then none else some (value10 ds, rest)
  | none => none

/-- A fraction, if there is one; the answer tells whether. -/
def fraction (cs : List Char) : Rest Bool :=
  match cs with
  | '.' :: cs => (digits cs).map fun (_, rest) => (true, rest)
  | cs => some (false, cs)

def dropSign : List Char → List Char
  | '+' :: cs => cs
  | '-' :: cs => cs
  | cs => cs

def exponent (cs : List Char) : Rest Bool :=
  match cs with
  | c :: rest =>
    if c = 'e' ∨ c = 'E' then (digits (dropSign rest)).map fun (_, rest) => (true, rest)
    else some (false, cs)
  | [] => some (false, [])

/-- A number behind its sign. -/
def unsigned (negative : Bool) (cs : List Char) : Rest Json :=
  (whole cs).bind fun (n, cs) =>
    (fraction cs).bind fun (fractional, cs) =>
      (exponent cs).map fun (scaled, cs) =>
        (number (if negative || fractional || scaled then none else some n), cs)

/-! ### Strings -/

def hexValue? (c : Char) : Option Nat :=
  if c.isDigit then some (digitValue c)
  else if 'a' ≤ c ∧ c ≤ 'f' then some (c.toNat - 'a'.toNat + 10)
  else if 'A' ≤ c ∧ c ≤ 'F' then some (c.toNat - 'A'.toNat + 10)
  else none

def hexUnit (a b c d : Char) : Option Nat := do
  return 4096 * (← hexValue? a) + 256 * (← hexValue? b) + 16 * (← hexValue? c) + (← hexValue? d)

def simpleEscape? (c : Char) : Option Char :=
  if c = '"' ∨ c = '\\' ∨ c = '/' then some c
  else if c = 'b' then some '\x08'
  else if c = 'f' then some '\x0c'
  else if c = 'n' then some '\n'
  else if c = 'r' then some '\r'
  else if c = 't' then some '\t'
  else none

/-- The numbers a string is made of, up to its closing quote: characters as they are, and the
16-bit units of its escapes. -/
inductive Piece where
  | char (c : Char)
  | unit (n : Nat)

def pieces : List Piece → List Char → Rest (List Piece)
  | _, [] => none
  | taken, '"' :: rest => some (taken.reverse, rest)
  | taken, '\\' :: 'u' :: a :: b :: c :: d :: rest =>
    match hexUnit a b c d with
    | some n => pieces (.unit n :: taken) rest
    | none => none
  | taken, '\\' :: c :: rest =>
    match simpleEscape? c with
    | some c => pieces (.char c :: taken) rest
    | none => none
  | taken, c :: rest => if c.toNat < 0x20 ∨ c = '\\' then none else pieces (.char c :: taken) rest

/-- The characters of the pieces, in reverse on top of those taken. -/
def join : List Char → List Piece → Option (List Char)
  | taken, [] => some taken.reverse
  | taken, .char c :: rest => join (c :: taken) rest
  | taken, .unit n :: rest =>
    if n < 0xD800 ∨ 0xDFFF < n then join (Char.ofNat n :: taken) rest
    else
      match rest with
      | .unit m :: rest =>
        if n ≤ 0xDBFF ∧ 0xDC00 ≤ m ∧ m ≤ 0xDFFF then
          join (Char.ofNat (0x10000 + (n - 0xD800) * 1024 + (m - 0xDC00)) :: taken) rest
        else none
      | _ => none

/-- A string behind its opening quote. -/
def stringBody (cs : List Char) : Rest (Option String) :=
  (pieces [] cs).map fun (ps, rest) => ((join [] ps).map String.ofList, rest)

/-! ### Values -/

def literal (word : List Char) (j : Json) (cs : List Char) : Rest Json :=
  if word.isPrefixOf cs then some (j, cs.drop word.length) else none

mutual

/-- A value without white space in front of it. -/
def value : Nat → List Char → Rest Json
  | 0, _ => none
  | fuel + 1, cs =>
    match cs with
    | [] => none
    | c :: rest =>
      if c = 'n' then literal "null".toList null cs
      else if c = 't' then literal "true".toList (bool true) cs
      else if c = 'f' then literal "false".toList (bool false) cs
      else if c = '"' then (stringBody rest).map fun (s, rest) => (string s, rest)
      else if c = '[' then
        match skipSpace rest with
        | ']' :: rest => some (array [], rest)
        | rest => items fuel [] rest
      else if c = '\x7b' then
        match skipSpace rest with
        | '\x7d' :: rest => some (object [], rest)
        | rest => members fuel [] rest
      else if c = '-' then unsigned true rest
      else unsigned false cs

/-- The items of an array from the next one on. -/
def items : Nat → List Json → List Char → Rest Json
  | 0, _, _ => none
  | fuel + 1, taken, cs =>
    match value fuel cs with
    | none => none
    | some (j, rest) =>
      match skipSpace rest with
      | ',' :: rest => items fuel (j :: taken) (skipSpace rest)
      | ']' :: rest => some (array (j :: taken).reverse, rest)
      | _ => none

/-- The members of an object from the next one on. -/
def members : Nat → List (Option String × Json) → List Char → Rest Json
  | 0, _, _ => none
  | fuel + 1, taken, cs =>
    match cs with
    | '"' :: rest =>
      match stringBody rest with
      | none => none
      | some (key, rest) =>
        match skipSpace rest with
        | ':' :: rest =>
          match value fuel (skipSpace rest) with
          | none => none
          | some (j, rest) =>
            match skipSpace rest with
            | ',' :: rest => members fuel ((key, j) :: taken) (skipSpace rest)
            | '\x7d' :: rest => some (object ((key, j) :: taken).reverse, rest)
            | _ => none
        | _ => none
    | _ => none

end

/-- Every step of the reader takes a character at least. -/
def parse (text : String) : Option Json :=
  let cs := text.toList
  match value (2 * cs.length + 2) (skipSpace cs) with
  | some (j, rest) => if skipSpace rest = [] then some j else none
  | none => none

end Json
end ClassCatalog
