import Stigmergy.Json.Value

/-!
# Reading JSON

Each reader takes the characters ahead and gives what it read with the characters after it, or
nothing where the grammar allows none.

* `Json.Reader.literal`, `string`: the two lexical forms with a structure of their own.
* `Json.Reader.value`: any value; the fuel bounds the number of nested and consecutive parts.
* `Json.parse?`: a whole text, with blanks around the value and nothing else.
-/

namespace Stigmergy.Json

namespace Reader

/-- The four characters that may stand between the parts of a document. -/
def isBlank (c : Char) : Bool := c = ' ' || c = '\n' || c = '\t' || c = '\r'

def skipBlanks (cs : List Char) : List Char := cs.dropWhile isBlank

/-- The characters after the given word, if it stands ahead. -/
def word? (w : List Char) (cs : List Char) : Option (List Char) :=
  if w.isPrefixOf cs then some (cs.drop w.length) else none

def digit (c : Char) : Nat := c.toNat - '0'.toNat

/-- One or more decimal digits. -/
def digits? (cs : List Char) : Option (List Nat × List Char) :=
  match cs.span Char.isDigit with
  | ([], _) => none
  | (ds, rest) => some (ds.map digit, rest)

/-- The digits before the point; a zero stands alone. -/
def whole? (cs : List Char) : Option (List Nat × List Char) :=
  match digits? cs with
  | some (0 :: _ :: _, _) => none
  | read => read

/-- A point with the digits after it, where a point stands ahead. -/
def fraction? (cs : List Char) : Option (Option (List Nat) × List Char) :=
  match cs with
  | '.' :: rest => (digits? rest).map fun (ds, after) => (some ds, after)
  | _ => some (none, cs)

/-- The digits of an exponent under their sign. -/
def signed? (cs : List Char) : Option (Int × List Char) :=
  match cs with
  | '-' :: rest => (digits? rest).map fun (ds, after) => (-Decimal.Literal.value ds, after)
  | '+' :: rest => (digits? rest).map fun (ds, after) => (Decimal.Literal.value ds, after)
  | _ => (digits? cs).map fun (ds, after) => (Decimal.Literal.value ds, after)

/-- A power of ten, where its letter stands ahead. -/
def exponent? (cs : List Char) : Option (Option Int × List Char) :=
  match cs with
  | 'e' :: rest | 'E' :: rest => (signed? rest).map fun (k, after) => (some k, after)
  | _ => some (none, cs)

/-- A number, from its sign on. -/
def literal? (cs : List Char) : Option (Decimal.Literal × List Char) := do
  let (negative, cs) := match cs with
    | '-' :: rest => (true, rest)
    | _ => (false, cs)
  let (whole, cs) ← whole? cs
  let (fraction, cs) ← fraction? cs
  let (exponent, cs) ← exponent? cs
  return (⟨negative, whole, fraction, exponent⟩, cs)

def hexDigit? (c : Char) : Option Nat :=
  if c.isDigit then some (digit c)
  else if 'a' ≤ c ∧ c ≤ 'f' then some (c.toNat - 'a'.toNat + 10)
  else if 'A' ≤ c ∧ c ≤ 'F' then some (c.toNat - 'A'.toNat + 10)
  else none

/-- The character a one-letter escape stands for. -/
def escaped? : Char → Option Nat
  | '"' => some 0x22
  | '\\' => some 0x5c
  | '/' => some 0x2f
  | 'b' => some 0x08
  | 'f' => some 0x0c
  | 'n' => some 0x0a
  | 'r' => some 0x0d
  | 't' => some 0x09
  | _ => none

/-- A unit of a string: a code point that stands for itself, or one of four hexadecimal digits. -/
inductive StringUnit where
  | char (code : Nat)
  | hex (code : Nat)

/-- The units of a string after its opening quote, and the characters after its closing one.
Control characters have to be escaped. -/
def units? : List Char → Option (List StringUnit × List Char)
  | [] => none
  | '"' :: rest => some ([], rest)
  | '\\' :: 'u' :: a :: b :: c :: d :: rest => do
    let high := 16 * (← hexDigit? a) + (← hexDigit? b)
    let low := 16 * (← hexDigit? c) + (← hexDigit? d)
    let (units, after) ← units? rest
    return (.hex (256 * high + low) :: units, after)
  | '\\' :: e :: rest => do
    let code ← escaped? e
    let (units, after) ← units? rest
    return (.char code :: units, after)
  | c :: rest =>
    if c.toNat < 0x20 then none
    else do
      let (units, after) ← units? rest
      return (.char c.toNat :: units, after)

/-- The text of a list of units, with each surrogate pair joined; none if one half is alone. -/
def text? : List StringUnit → Option (List Char)
  | [] => some []
  | .char code :: rest => (text? rest).map (Char.ofNat code :: ·)
  | .hex high :: rest =>
    if 0xd800 ≤ high ∧ high < 0xdc00 then
      match rest with
      | .hex low :: rest =>
        if 0xdc00 ≤ low ∧ low < 0xe000 then
          (text? rest).map (Char.ofNat (0x10000 + 0x400 * (high - 0xd800) + (low - 0xdc00)) :: ·)
        else none
      | _ => none
    else if 0xdc00 ≤ high ∧ high < 0xe000 then none
    else (text? rest).map (Char.ofNat high :: ·)

/-- A string from its opening quote on. -/
def string? (cs : List Char) : Option (Option String × List Char) :=
  match cs with
  | '"' :: rest => (units? rest).map fun (units, after) => ((text? units).map String.ofList, after)
  | _ => none

mutual

/-- Any value, after the blanks ahead of it. -/
def value? : (fuel : Nat) → List Char → Option (Json × List Char)
  | 0, _ => none
  | fuel + 1, cs =>
    match skipBlanks cs with
    | 'n' :: rest => (word? "ull".toList rest).map fun after => (.null, after)
    | 't' :: rest => (word? "rue".toList rest).map fun after => (.bool true, after)
    | 'f' :: rest => (word? "alse".toList rest).map fun after => (.bool false, after)
    | '"' :: rest => (string? ('"' :: rest)).map fun (text, after) => (.string text, after)
    | '[' :: rest =>
      match skipBlanks rest with
      | ']' :: after => some (.array [], after)
      | _ => (items? fuel rest).map fun (items, after) => (.array items, after)
    | '\x7b' :: rest =>
      match skipBlanks rest with
      | '\x7d' :: after => some (.object [], after)
      | _ => (members? fuel rest).map fun (members, after) => (.object members, after)
    | other => (literal? other).map fun (literal, after) => (.number literal, after)

/-- One or more values up to the closing bracket of their array. -/
def items? : (fuel : Nat) → List Char → Option (List Json × List Char)
  | 0, _ => none
  | fuel + 1, cs => do
    let (item, cs) ← value? fuel cs
    match skipBlanks cs with
    | ']' :: after => return ([item], after)
    | ',' :: rest =>
      let (items, after) ← items? fuel rest
      return (item :: items, after)
    | _ => none

/-- One or more members up to the closing brace of their object. -/
def members? : (fuel : Nat) → List Char → Option (List (Option String × Json) × List Char)
  | 0, _ => none
  | fuel + 1, cs => do
    let (key, cs) ← string? (skipBlanks cs)
    match skipBlanks cs with
    | ':' :: rest =>
      let (item, cs) ← value? fuel rest
      match skipBlanks cs with
      | '\x7d' :: after => return ([(key, item)], after)
      | ',' :: rest =>
        let (members, after) ← members? fuel rest
        return ((key, item) :: members, after)
      | _ => none
    | _ => none

end

end Reader

/-- The value that a whole text writes. Every call of a reader that needs fuel takes at least one
character or is followed by one that does, so twice the length suffices. -/
def parse? (text : String) : Option Json :=
  let cs := text.toList
  match Reader.value? (2 * cs.length + 2) cs with
  | some (v, rest) => if rest.all Reader.isBlank then some v else none
  | none => none

end Stigmergy.Json
