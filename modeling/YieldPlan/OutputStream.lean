/-! Where output goes, by name. -/

namespace YieldPlan

inductive OutputStream where
  | null
  | stdout
  | stderr
  | file (path : String)
  deriving DecidableEq, Repr

instance : Inhabited OutputStream := ⟨.stdout⟩

namespace OutputStream

/-- `-` and `<out>` are standard output, `<err>` is standard error, `<null>` discards, and every
other name is a file. -/
def ofName (s : String) : OutputStream :=
  if s = "-" || s = "<out>" then .stdout
  else if s = "<err>" then .stderr
  else if s = "<null>" then .null
  else .file s

def name : OutputStream → String
  | .null => "<null>"
  | .stdout => "-"
  | .stderr => "<err>"
  | .file path => path

def path : OutputStream → String
  | .null => "<null>"
  | .stdout => "<stdout>"
  | .stderr => "<stderr>"
  | .file path => path

end OutputStream

end YieldPlan
