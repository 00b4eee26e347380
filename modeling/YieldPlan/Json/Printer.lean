import YieldPlan.Json.Value

/-! Writing JSON, two blanks per level and one item or field per line. Empty arrays and objects stay
on their line. -/

namespace YieldPlan

def NumberLiteral.text (n : NumberLiteral) : String :=
  (if n.negative then "-" else "") ++ String.ofList n.whole ++
    (if n.fraction.isEmpty then "" else "." ++ String.ofList n.fraction) ++
    (if n.exponent = 0 then "" else s!"e{n.exponent}")

namespace Json

def hexDigit (n : Nat) : Char := (Nat.toDigits 16 n).headD '0'

def escaped (c : Char) : List Char :=
  if c = '"' then ['\\', '"']
  else if c = '\\' then ['\\', '\\']
  else if c = '\n' then ['\\', 'n']
  else if c = '\r' then ['\\', 'r']
  else if c = '\t' then ['\\', 't']
  else if c.toNat = 8 then ['\\', 'b']
  else if c.toNat = 12 then ['\\', 'f']
  else if c.toNat < 0x20 then
    ['\\', 'u', '0', '0', hexDigit (c.toNat / 16), hexDigit (c.toNat % 16)]
  else [c]

def quotedText (s : String) : String :=
  String.ofList (['"'] ++ s.toList.flatMap escaped ++ ['"'])

/-- A literal without a text is written as the empty one. -/
def literalText (s : Literal) : String := quotedText (s.getD "")

def indentation (level : Nat) : String := String.ofList (List.replicate (2 * level) ' ')

mutual

def render (level : Nat) : Json → String
  | .null => "null"
  | .bool b => if b then "true" else "false"
  | .number n => n.text
  | .string s => literalText s
  | .array [] => "[]"
  | .array items =>
    "[\n" ++ ",\n".intercalate (renderItems (level + 1) items) ++ "\n" ++ indentation level ++ "]"
  | .object [] => "\x7b\x7d"
  | .object fields =>
    "\x7b\n" ++ ",\n".intercalate (renderFields (level + 1) fields) ++ "\n" ++
      indentation level ++ "\x7d"

def renderItems (level : Nat) : List Json → List String
  | [] => []
  | x :: xs => (indentation level ++ x.render level) :: renderItems level xs

def renderFields (level : Nat) : List (Literal × Json) → List String
  | [] => []
  | (name, x) :: fs =>
    (indentation level ++ literalText name ++ ": " ++ x.render level) :: renderFields level fs

end

def pretty (j : Json) : String := j.render 0

end Json

end YieldPlan
