import Stigmergy.Decimal.Literal

/-!
# JSON values

Numbers keep their spelling, and objects keep every member in order, so that a reader of a document
can tell `3` from `3.0` and find a key that is given twice.
-/

namespace Stigmergy

/-- A JSON value. A string is `none` when its escapes name half a surrogate pair, which no text
holds. -/
inductive Json where
  | null
  | bool (b : Bool)
  | number (literal : Decimal.Literal)
  | string (text : Option String)
  | array (items : List Json)
  | object (members : List (Option String × Json))

end Stigmergy
