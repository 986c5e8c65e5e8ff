import ShaclExtract.Number.Binary64

/-!
# ShaclExtract.Json.Basic

JSON values as results are rendered to. The fields of an object keep their order; a float is finite.
-/

namespace ShaclExtract

inductive Json where
  | null
  | bool (value : Bool)
  | integer (value : Int)
  | float (value : Binary64)
  | text (value : String)
  | array (items : List Json)
  | object (fields : List (String × Json))
deriving Repr

end ShaclExtract
