import YieldPlan.Description
import YieldPlan.Json.Parser

/-! Descriptions as JSON. They are written with every field present. When one is read, a record is
an object, whose unknown fields are skipped and whose known fields occur at most once, or the array
of its fields in order. Inside an operation every literal is checked, also in skipped fields, and
nesting is limited. -/

namespace YieldPlan

def encodeOption : Option String → Json
  | some s => .text s
  | none => .null

def encodeNames (names : List String) : Json := .array (names.map Json.text)

def OperationDesc.encode : OperationDesc → Json
  | .access kind loc => .record [("op", .text kind.name), ("loc", encodeOption loc)]
  | .local => .record [("op", .text "local")]
  | .debug => .record [("op", .text "debug")]
  | .call callee arg =>
    .record [("op", .text "call"), ("callee", .text callee), ("arg", encodeOption arg)]

def BlockDesc.encode (b : BlockDesc) : Json :=
  .record [("name", .text b.name), ("ops", .array (b.ops.map OperationDesc.encode)),
    ("succs", encodeNames b.succs)]

def ProcedureDesc.encode (p : ProcedureDesc) : Json :=
  .record [("name", .text p.name), ("blocks", .array (p.blocks.map BlockDesc.encode))]

def Description.encode (d : Description) : Json :=
  .record [("main", .text d.main), ("procedures", .array (d.procedures.map ProcedureDesc.encode))]

/-- The value of a field that occurs at most once: `some none` if it is missing. -/
def field? (fields : List (Literal × Json)) (name : String) : Option (Option Json) :=
  match fields.filter fun f => f.1 == some name with
  | [] => some none
  | [f] => some (some f.2)
  | _ => none

/-- The values of the named fields, in that order. In array form only the last ones may be
missing. -/
def recordFields (names : List String) : Json → Option (List (Option Json))
  | .object fields =>
    if fields.all fun f => f.1.isSome then names.mapM (field? fields) else none
  | .array items =>
    if items.length ≤ names.length then
      some (items.map some ++ List.replicate (names.length - items.length) none)
    else none
  | _ => none

def decodeText : Json → Option String
  | .string s => s
  | _ => none

def decodeOption : Json → Option (Option String)
  | .null => some none
  | .string (some s) => some (some s)
  | _ => none

def decodeList {α : Type} (item : Json → Option α) : Json → Option (List α)
  | .array items => items.mapM item
  | _ => none

/-- A field with a default. -/
def decodeOr {α : Type} (missing : α) (decode : Json → Option α) : Option Json → Option α
  | some j => decode j
  | none => some missing

/-- Brackets that may be open at once, from the whole text inwards. -/
def nestingLimit : Nat := 127

/-- Brackets around every operation: the description, its procedures, a procedure, its blocks, a
block and its operations. -/
def operationDepth : Nat := 6

def OperationDesc.decodeObject (tag : String) (fields : List (Literal × Json)) :
    Option OperationDesc :=
  if tag = "local" then some .local
  else if tag = "debug" then some .debug
  else if tag = "call" then do
    let callee ← field? fields "callee"
    let arg ← field? fields "arg"
    return .call (← decodeText (← callee)) (← decodeOr none decodeOption arg)
  else do
    let kind ← Access.ofName? tag
    let loc ← field? fields "loc"
    return .access kind (← decodeOr none decodeOption loc)

def OperationDesc.decodeArray (tag : String) (items : List Json) : Option OperationDesc :=
  if tag = "local" then if items.isEmpty then some .local else none
  else if tag = "debug" then if items.isEmpty then some .debug else none
  else if tag = "call" then
    match items with
    | [callee] => return .call (← decodeText callee) none
    | [callee, arg] => return .call (← decodeText callee) (← decodeOption arg)
    | _ => none
  else do
    let kind ← Access.ofName? tag
    match items with
    | [loc] => return .access kind (← decodeOption loc)
    | _ => none

def OperationDesc.decode (j : Json) : Option OperationDesc :=
  if j.isStrict (nestingLimit - operationDepth) then
    match j with
    | .object fields => do
      let tag ← decodeText (← (← field? fields "op"))
      OperationDesc.decodeObject tag fields
    | .array (tag :: items) => do
      OperationDesc.decodeArray (← decodeText tag) items
    | _ => none
  else none

def BlockDesc.decode (j : Json) : Option BlockDesc := do
  let [name, ops, succs] ← recordFields ["name", "ops", "succs"] j | none
  return {
    name := ← decodeText (← name)
    ops := ← decodeOr [] (decodeList OperationDesc.decode) ops
    succs := ← decodeOr [] (decodeList decodeText) succs }

def ProcedureDesc.decode (j : Json) : Option ProcedureDesc := do
  let [name, blocks] ← recordFields ["name", "blocks"] j | none
  return {
    name := ← decodeText (← name)
    blocks := ← decodeList BlockDesc.decode (← blocks) }

def Description.decode (j : Json) : Option Description := do
  let [main, procedures] ← recordFields ["main", "procedures"] j | none
  return {
    main := ← decodeOr "main" decodeText main
    procedures := ← decodeList ProcedureDesc.decode (← procedures) }

def Description.parse? (text : String) : Option Description :=
  (Json.parse? text).bind Description.decode

end YieldPlan
