import YieldPlan.Text

/-! Files by path, as far as a run can tell: texts, directories and a few devices, and why a path
cannot be read or written. A path is walked name by name, and the first name that cannot be followed
decides the fault. -/

namespace YieldPlan

inductive FileFault where
  | missing
  | noDevice
  | denied
  | notDirectory
  | isDirectory
  | noSpace
  | nameTooLong
  | zeroByte
  | other (text : String)
  deriving DecidableEq, Repr

def FileFault.text : FileFault → String
  | .missing => "No such file or directory (os error 2)"
  | .noDevice => "No such device or address (os error 6)"
  | .denied => "Permission denied (os error 13)"
  | .notDirectory => "Not a directory (os error 20)"
  | .isDirectory => "Is a directory (os error 21)"
  | .noSpace => "No space left on device (os error 28)"
  | .nameTooLong => "File name too long (os error 36)"
  | .zeroByte => "file name contained an unexpected NUL byte"
  | .other text => text

abbrev Place := List String

structure Path where
  absolute : Bool
  names : List String
  slashed : Bool
  deriving DecidableEq, Repr

namespace Path

def maxSize : Nat := 4095
def maxNameSize : Nat := 255

def parse (s : String) : Except FileFault Path :=
  let pieces := Text.split '/' s
  if s.toList.contains (Char.ofNat 0) then .error .zeroByte
  else if s = "" then .error .missing
  else if maxSize < s.utf8ByteSize then .error .nameTooLong
  else .ok {
    absolute := pieces.head? = some ""
    names := pieces.filter (· ≠ "")
    slashed := pieces.getLast? = some "" }

end Path

/-- Files that keep no text: writing is discarded, refused or shown, and reading finds nothing. -/
inductive Device where
  | null | full | stdout | stderr
  deriving DecidableEq, Repr

inductive Node where
  | directory
  | text (content : String)
  | device (d : Device)
  | terminal
  deriving DecidableEq, Repr

/-- Named places, and the place from which relative paths start. -/
structure FileSystem where
  nodes : List (Place × Node)
  working : Place
  deriving DecidableEq, Repr

/-- What a path opened for writing leads to. -/
inductive Target where
  | text (place : Place)
  | device (d : Device)
  deriving DecidableEq, Repr

namespace FileSystem

variable (fs : FileSystem)

/-- What stands at a place. All places on the way to another one are directories. -/
def node? (place : Place) : Option Node :=
  match fs.nodes.lookup place with
  | some node => some node
  | none =>
    if place.isPrefixOf fs.working || fs.nodes.any fun e => place.isPrefixOf e.1 then some .directory
    else none

def enter (place : Place) : Except FileFault Unit :=
  match fs.node? place with
  | some .directory => .ok ()
  | some _ => .error .notDirectory
  | none => .error .missing

/-- Follow one name out of a directory. Above the root is the root. -/
def step (place : Place) (name : String) : Except FileFault Place := do
  fs.enter place
  if name = "." then return place
  else if name = ".." then return place.dropLast
  else if Path.maxNameSize < name.utf8ByteSize then throw .nameTooLong
  else return place ++ [name]

def walk (absolute : Bool) (names : List String) : Except FileFault Place :=
  names.foldlM fs.step (if absolute then [] else fs.working)

def read (path : String) : Except FileFault String := do
  let p ← Path.parse path
  let place ← fs.walk p.absolute p.names
  match fs.node? place with
  | none => throw .missing
  | some .directory => throw .isDirectory
  | some (.text content) => if p.slashed then throw .notDirectory else return content
  | some (.device _) => if p.slashed then throw .notDirectory else return ""
  | some .terminal => if p.slashed then throw .notDirectory else throw .noDevice

/-- Open a path for writing. The directory has to exist, the file need not. -/
def create (path : String) : Except FileFault Target := do
  let p ← Path.parse path
  let parent ← fs.walk p.absolute p.names.dropLast
  fs.enter parent
  match p.names.getLast? with
  | none => throw .isDirectory
  | some name =>
    if name = "." || name = ".." || p.slashed then throw .isDirectory
    else
      let place ← fs.step parent name
      match fs.node? place with
      | some .directory => throw .isDirectory
      | some .terminal => throw .noDevice
      | some (.device d) => return .device d
      | _ => return .text place

def put (place : Place) (content : String) : FileSystem :=
  { fs with nodes := fs.nodes.filter (fun e => e.1 ≠ place) ++ [(place, .text content)] }

def texts : List (String × String) :=
  fs.nodes.filterMap fun (place, node) =>
    match node, place.getLast? with
    | .text content, some name => if place = fs.working ++ [name] then some (name, content) else none
    | _, _ => none

def commonDirectories : List Place :=
  [["bin"], ["boot"], ["dev", "pts"], ["dev", "shm"], ["etc"], ["home"], ["lib"], ["lib64"],
    ["media"], ["mnt"], ["opt"], ["proc", "self"], ["root"], ["run"], ["sbin"], ["srv"], ["sys"],
    ["tmp"], ["usr", "bin"], ["usr", "lib"], ["usr", "local"], ["usr", "share"], ["var", "log"],
    ["var", "tmp"]]

def devices : List (Place × Device) :=
  [(["dev", "null"], .null), (["dev", "full"], .full), (["dev", "stdin"], .null),
    (["dev", "stdout"], .stdout), (["dev", "stderr"], .stderr),
    (["dev", "fd", "0"], .null), (["dev", "fd", "1"], .stdout), (["dev", "fd", "2"], .stderr),
    (["proc", "self", "fd", "0"], .null), (["proc", "self", "fd", "1"], .stdout),
    (["proc", "self", "fd", "2"], .stderr)]

def holding (texts : List (String × String)) : FileSystem :=
  let working := ["tmp", "work"]
  { nodes := texts.map (fun (name, content) =>
        (working ++ (Text.split '/' name).filter (· ≠ ""), .text content)) ++
      commonDirectories.map (fun place => (place, .directory)) ++
      devices.map (fun (place, d) => (place, .device d)) ++ [(["dev", "tty"], .terminal)]
    working }

end FileSystem

end YieldPlan
