import Stigmergy.Json.Reader
import Stigmergy.Settings.Basic

/-!
# Settings documents

Settings are written as a JSON object with one member per field, or as an array of all fields in
their order.

* Every field has to be there, except that the seed may be missing; members that are no field are
  passed over. A field that is given twice is refused, and so is a key that is no text.
* The variant is its name, alone or as the only key of an object with no value. Counts are whole
  numbers below `2 ^ 64` without point and exponent, scalars any numbers of a double's size.

`Settings.ofDocument?` reads a document; whether the settings are valid is another question.
-/

namespace Stigmergy.Settings

namespace Document

def variant? : Json → Option Variant
  | .string (some name) => Variant.ofName? name
  | .object [(some name, .null)] => Variant.ofName? name
  | _ => none

def scalar? : Json → Option Float
  | .number literal => literal.toFloat?
  | _ => none

def count? : Json → Option Nat
  | .number literal => literal.natural?.filter (· < 1 <<< 64)
  | _ => none

def flag? : Json → Option Bool
  | .bool b => some b
  | _ => none

/-- A seed, or null for none. -/
def seed? : Json → Option (Option UInt64)
  | .null => some none
  | v => (count? v).map fun n => some n.toUInt64

def keys : List String :=
  ["variant", "alpha", "beta", "rho", "q", "elitist", "ants", "iterations", "infinity", "p_best",
    "parallel", "log_ant_trails", "seed"]

def ofValues? : List Json → Option (Settings Float)
  | [variant, alpha, beta, rho, q, elitist, ants, iterations, infinity, pBest, parallel,
      reportsAnts, seed] => do
    return {
      variant := ← variant? variant
      alpha := ← scalar? alpha
      beta := ← scalar? beta
      rho := ← scalar? rho
      q := ← scalar? q
      elitist := ← count? elitist
      ants := ← count? ants
      iterations := ← count? iterations
      infinity := ← scalar? infinity
      pBest := ← scalar? pBest
      parallel := ← flag? parallel
      reportsAnts := ← flag? reportsAnts
      seed := ← seed? seed }
  | _ => none

/-- The value of a field among members, null for a seed that is missing. -/
def field? (members : List (Option String × Json)) (key : String) : Option Json :=
  match members.filter fun (k, _) => k = some key with
  | [(_, v)] => some v
  | [] => if key = "seed" then some .null else none
  | _ => none

def ofJson? : Json → Option (Settings Float)
  | .array values => ofValues? values
  | .object members =>
    if members.any fun (k, _) => k.isNone then none
    else (keys.mapM (field? members)).bind ofValues?
  | _ => none

end Document

def ofDocument? (text : String) : Option (Settings Float) :=
  (Json.parse? text).bind Document.ofJson?

end Stigmergy.Settings
