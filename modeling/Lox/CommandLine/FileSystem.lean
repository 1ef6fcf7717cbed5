import Lox.CommandLine.Failure

/-!
# File systems

Files and directories by their location, for a command line that runs by itself. A path is walked
name by name, from the root or from the working directory, and every name but the last has to lead
to a directory. What is wrong with a path is said by the first name that cannot be followed.
-/

namespace Lox

/-- The names that lead from the root to a place, the last one first. -/
abbrev Location := List String

inductive FileNode where
  | directory
  | file (content : List UInt8)
  /-- A file that stays empty whatever is written to it. -/
  | null
  /-- Another name for what is at `target`, which is no link itself. -/
  | link (target : Location)
deriving DecidableEq

/-- What is known by location, newest first, and the directory where a path starts. -/
structure FileSystem where
  nodes : List (Location × FileNode)
  working : Location

namespace FileSystem

/-- The most bytes of a name. -/
def maxNameSize : Nat := 255

/-- The most bytes of a path. -/
def maxPathSize : Nat := 4095

/-- What is at a location. The root is a directory. -/
def node? (fs : FileSystem) : Location → Option FileNode
  | [] => some .directory
  | location => fs.nodes.lookup location

def put (fs : FileSystem) (location : Location) (node : FileNode) : FileSystem :=
  { fs with nodes := (location, node) :: fs.nodes }

theorem node?_put_self (fs : FileSystem) {location : Location} (node : FileNode)
    (h : location ≠ []) : (fs.put location node).node? location = some node := by
  cases location with
  | nil => contradiction
  | cons name parents => simp [node?, put]

theorem node?_put_of_ne (fs : FileSystem) {location other : Location} (node : FileNode)
    (h : other ≠ location) : (fs.put location node).node? other = fs.node? other := by
  cases other with
  | nil => rfl
  | cons name parents => simp [node?, put, List.lookup_cons, beq_eq_false_iff_ne.2 h]

/-- The place that a link at a location stands for, or the location. -/
def resolve (fs : FileSystem) (location : Location) : Location :=
  match fs.node? location with
  | some (.link target) => target
  | _ => location

theorem resolve_eq_self {fs : FileSystem} {location : Location}
    (h : ∀ target, fs.node? location ≠ some (.link target)) : fs.resolve location = location := by
  unfold resolve
  split
  · next target heq => exact absurd heq (h target)
  · rfl

/-- The directories below every root. -/
def rootDirectories : List String :=
  ["bin", "boot", "dev", "etc", "home", "lib", "media", "mnt", "opt", "proc", "root", "run", "sbin",
    "srv", "sys", "tmp", "usr", "var"]

/-- A working directory with these files, in a file system where programs find their input, the null
device and the working directory under the usual names. -/
def ofFiles (files : List (String × List UInt8)) (input : List UInt8) : FileSystem :=
  let working := ["lox", "tmp"]
  let process := ["self", "proc"]
  let descriptors := "fd" :: process
  { nodes :=
      [(["null", "dev"], .null), (["fd", "dev"], .link descriptors),
        (["stdin", "dev"], .link ("0" :: descriptors)), (process, .directory),
        ("cwd" :: process, .link working), ("root" :: process, .link []),
        (descriptors, .directory), ("0" :: descriptors, .file input), (working, .directory)] ++
        (rootDirectories.map fun name => ([name], .directory)) ++
        files.map fun (name, content) => (name :: working, .file content)
    working }

/-! ### Walking -/

/-- Whether a name stays in a directory or leads out of it. -/
def isDots (name : String) : Bool := name = "." || name = ".."

/-- The directory that a name leads to. The root is its own parent. -/
def enter (fs : FileSystem) (directory : Location) (name : String) :
    Except FileFault Location :=
  if name = "." then .ok directory
  else if name = ".." then .ok directory.tail
  else if maxNameSize < name.utf8ByteSize then .error .nameTooLong
  else
    let location := fs.resolve (name :: directory)
    match fs.node? location with
    | some .directory => .ok location
    | some _ => .error .notADirectory
    | none => .error .notFound

/-- Where a walk ends. -/
inductive Target where
  | directory
  /-- A name that may or may not be there, in a directory that is. -/
  | entry (directory : Location) (name : String)
deriving DecidableEq

/-- Walks along names, all but the last of which are entered. -/
def walk (fs : FileSystem) (directory : Location) : List String → Except FileFault Target
  | [] => .ok .directory
  | [name] => .ok (if isDots name then .directory else .entry directory name)
  | name :: rest => do fs.walk (← fs.enter directory name) rest

/-- The names of a path, between one or more slashes. -/
def names (path : String) : List String := (path.splitOn "/").filter (· ≠ "")

/-- The end of the walk along a path. -/
def target (fs : FileSystem) (path : String) : Except FileFault Target :=
  if maxPathSize < path.utf8ByteSize then .error .nameTooLong
  else if path = "" then .error .notFound
  else fs.walk (if path.startsWith "/" then [] else fs.working) (names path)

/-! ### Files -/

/-- What a path leads to, for reading. -/
def openNode (fs : FileSystem) (path : String) : Except FileFault FileNode := do
  match ← fs.target path with
  | .directory => return .directory
  | .entry directory name =>
    if maxNameSize < name.utf8ByteSize then throw .nameTooLong
    match fs.node? (fs.resolve (name :: directory)) with
    | none => throw .notFound
    | some .directory => return .directory
    | some node =>
      if path.endsWith "/" then throw .notADirectory
      return node

/-- The bytes of a file. Directories can be opened but not read. -/
def read (fs : FileSystem) (path : String) : Except CommandFailure (List UInt8) :=
  match fs.openNode path with
  | .ok (.file content) => .ok content
  | .ok .null => .ok []
  | .ok _ => .error (.cannotRead path .isADirectory)
  | .error fault => .error (.cannotOpen path fault)

/-- Makes a file, in place of one that is there. A path that ends in a slash asks for a directory,
whether there is one or not. -/
def create (fs : FileSystem) (path : String) (content : List UInt8) :
    Except FileFault FileSystem := do
  match ← fs.target path with
  | .directory => throw .isADirectory
  | .entry directory name =>
    if path.endsWith "/" then throw .isADirectory
    if maxNameSize < name.utf8ByteSize then throw .nameTooLong
    let location := fs.resolve (name :: directory)
    match fs.node? location with
    | some .directory => throw .isADirectory
    | some .null => return fs
    | _ => return fs.put location (.file content)

/-- Makes a log file that starts with a text. -/
def createLog (fs : FileSystem) (path text : String) : Except CommandFailure FileSystem :=
  (fs.create path text.toUTF8.toList).mapError (.cannotLog path)

end FileSystem

end Lox
