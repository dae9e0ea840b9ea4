namespace NestedPoly

inductive Document where
  | null
  | bool (value : Bool)
  | int (value : Int)
  | real (value : Float)
  | text (value : String)
  | list (items : List Document)
  | record (entries : List (String × Document))

namespace Document

def quote (text : String) : String :=
  let escape (c : Char) : String :=
    if c = '"' ∨ c = '\\' then "\\" ++ String.singleton c
    else if c.toNat < 32 then
      "\\u00" ++ String.ofList [Nat.digitChar (c.toNat / 16), Nat.digitChar (c.toNat % 16)]
    else String.singleton c
  "\"" ++ String.join (text.toList.map escape) ++ "\""

mutual

def render (realText : Float → String) : Document → String
  | null => "null"
  | bool value => if value then "true" else "false"
  | int value => toString value
  | real value => realText value
  | text value => quote value
  | list items => "[" ++ String.intercalate "," (renderItems realText items) ++ "]"
  | record entries =>
    "\x7b" ++ String.intercalate "," (renderEntries realText entries) ++ "\x7d"

def renderItems (realText : Float → String) : List Document → List String
  | [] => []
  | item :: items => render realText item :: renderItems realText items

def renderEntries (realText : Float → String) : List (String × Document) → List String
  | [] => []
  | (key, value) :: entries =>
    (quote key ++ ":" ++ render realText value) :: renderEntries realText entries

end

end Document

end NestedPoly
