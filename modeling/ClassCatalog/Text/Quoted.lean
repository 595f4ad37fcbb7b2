/-! Names in quotation marks.

A quote and a backslash inside take a backslash before them; printable ASCII is
otherwise written as it is. -/
namespace ClassCatalog.Text

def escape : List Char → List Char
  | [] => []
  | c :: rest =>
    if c = '"' ∨ c = '\\' then '\\' :: c :: escape rest else c :: escape rest

def quoted (s : String) : String := "\"" ++ String.ofList (escape s.toList) ++ "\""

end ClassCatalog.Text
