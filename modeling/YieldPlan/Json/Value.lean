import YieldPlan.Json.Number

/-! JSON values as they stand in a text: fields in order and with repetitions, numbers by their
literal. Which parts of a value get checked beyond its grammar is left to the reader of the value.
-/

namespace YieldPlan

/-- The text of a string literal, or `none` when its escapes hold half of a surrogate pair. -/
abbrev Literal := Option String

inductive Json where
  | null
  | bool (b : Bool)
  | number (n : NumberLiteral)
  | string (s : Literal)
  | array (items : List Json)
  | object (fields : List (Literal × Json))
  deriving Repr, Inhabited

namespace Json

def text (s : String) : Json := .string (some s)

def nat (n : Nat) : Json := .number { whole := Nat.toDigits 10 n }

def record (fields : List (String × Json)) : Json :=
  .object (fields.map fun f => (some f.1, f.2))

mutual

/-- Are all literals inside well-formed and finite, with at most `levels` nested brackets? -/
def isStrict (levels : Nat) : Json → Bool
  | .null | .bool _ => true
  | .number n => n.isFinite
  | .string s => s.isSome
  | .array items => levels != 0 && itemsStrict (levels - 1) items
  | .object fields => levels != 0 && fieldsStrict (levels - 1) fields

def itemsStrict (levels : Nat) : List Json → Bool
  | [] => true
  | x :: xs => x.isStrict levels && itemsStrict levels xs

def fieldsStrict (levels : Nat) : List (Literal × Json) → Bool
  | [] => true
  | (name, x) :: fs => name.isSome && x.isStrict levels && fieldsStrict levels fs

end

end Json

end YieldPlan
