/-! Class names.

Inside the catalog a name has slashes between its packages; callers may write dots.
A class constant names an array by its descriptor, and the catalog keeps the brackets
but drops the `L` and `;` around the element class. -/
namespace ClassCatalog.Name

def canonical (name : String) : String := name.map fun c => if c = '.' then '/' else c

/-- What stands before the last slash; empty when there is none. -/
def package (name : String) : String :=
  String.ofList ((name.toList.reverse.dropWhile (· ≠ '/')).drop 1).reverse

def fileName (name : String) : String := name ++ ".class"

/-- Without every `.class` at the end. -/
def stripSuffix (cs : List Char) : List Char := (strip cs.reverse).reverse
where
  strip : List Char → List Char
    | 's' :: 's' :: 'a' :: 'l' :: 'c' :: '.' :: rest => strip rest
    | cs => cs

def dropSemicolon (cs : List Char) : List Char :=
  if cs.getLast? = some ';' then cs.dropLast else cs

/-- The name a class constant stands for. -/
def ofConstant (text : String) : String :=
  let brackets := text.toList.takeWhile (· = '[')
  match text.toList.dropWhile (· = '[') with
  | 'L' :: element =>
    if brackets.isEmpty then text else String.ofList (brackets ++ dropSemicolon element)
  | _ => text

def object : String := "java/lang/Object"

def constructor : String := "<init>"

def staticInitializer : String := "<clinit>"

end ClassCatalog.Name
