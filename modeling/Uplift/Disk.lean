import Uplift.Path

namespace Uplift

inductive Entry where
  | file (name : Text) (content : Text)
  | directory (name : Text) (entries : List Entry)
deriving Repr

namespace Entry

instance : Inhabited Entry := ⟨directory [] []⟩

def name : Entry → Text
  | file n _ => n
  | directory n _ => n

def entry? (e : Entry) (name : Text) : Option Entry :=
  match e with
  | file _ _ => none
  | directory _ entries => entries.find? (·.name == name)

def find? (e : Entry) : List Text → Option Entry
  | [] => some e
  | n :: rest => do (← e.entry? n).find? rest

def put (new : Entry) : List Entry → List Entry
  | [] => [new]
  | e :: rest => if e.name = new.name then new :: rest else e :: put new rest

/-- Sets the content of the file that a list of names leads to, with directories on the way. -/
def write (content : Text) : List Text → Entry → Entry
  | [], e => e
  | [n], directory d entries => directory d (put (file n content) entries)
  | n :: rest, directory d entries =>
    directory d
      (put (write content rest ((entries.find? (·.name == n)).getD (directory n []))) entries)
  | _ :: _, e => e

def makeDirectories : List Text → Entry → Entry
  | n :: rest, directory d entries =>
    directory d
      (put (makeDirectories rest ((entries.find? (·.name == n)).getD (directory n []))) entries)
  | _, e => e

/-- Whether source files below a directory are passed over. A name that is no text never tells. -/
def isSkipped (name : Text) : Bool :=
  name.toString?.any fun s => s = "node_modules" || s.toList.head? = some '.'

def extensions : List String := ["js", "jsx", "mjs", "cjs", "ts", "tsx", "mts", "cts"]

def isSource (name : Text) : Bool := (Path.extensionOf? name).any extensions.contains

mutual

def sources (base : Path) : Entry → List Path
  | file n _ => if isSource n then [base.join n] else []
  | directory n entries => if isSkipped n then [] else sourcesIn (base.join n) entries

def sourcesIn (base : Path) : List Entry → List Path
  | [] => []
  | e :: rest => sources base e ++ sourcesIn base rest

end

end Entry

inductive Obstacle where
  | notFound
  | notDirectory
  | isDirectory
  | notText
deriving DecidableEq, Repr, Inhabited

def Obstacle.message : Obstacle → String
  | notFound => "No such file or directory (os error 2)"
  | notDirectory => "Not a directory (os error 20)"
  | isDirectory => "Is a directory (os error 21)"
  | notText => "stream did not contain valid UTF-8"

/-- All files and directories, with the directory that relative paths start from. -/
structure Disk where
  root : Entry
  working : List Text := []
deriving Repr, Inhabited

namespace Disk

def follow (root : Entry) : List Text → List Text → Except Obstacle (List Text)
  | place, [] => .ok place
  | place, s :: rest =>
    match root.find? place with
    | none => .error .notFound
    | some (.file _ _) => .error .notDirectory
    | some (.directory _ _) =>
      if s = [] || s = Path.dot then follow root place rest
      else if s = Path.dots then follow root place.dropLast rest
      else if (root.find? (place ++ [s])).isSome then follow root (place ++ [s]) rest
      else .error .notFound

def place (d : Disk) (p : Path) : Except Obstacle (List Text) :=
  follow d.root (if p.isAbsolute then [] else d.working) p.segments

def entry (d : Disk) (p : Path) : Except Obstacle Entry := do
  match d.root.find? (← d.place p) with
  | some e => return e
  | none => throw .notFound

def read (d : Disk) (p : Path) : Except Obstacle Text := do
  match ← d.entry p with
  | .directory _ _ => throw .isDirectory
  | .file _ content => if (Text.decode? content).isSome then return content else throw .notText

def write (d : Disk) (p : Path) (content : Text) : Disk :=
  match d.place p with
  | .ok place => { d with root := d.root.write content place }
  | .error _ => d

/--
The files that a path selects: the source files in a directory and below it, or the path itself.
-/
def select (d : Disk) (p : Path) : List Path :=
  match d.entry p with
  | .ok (.directory _ entries) => Entry.sourcesIn p entries
  | _ => [p]

end Disk

end Uplift
