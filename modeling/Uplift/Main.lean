import Uplift.Command

namespace Uplift.Main

def content? (path : String) : IO (Option Text) := do
  try return some (← IO.FS.readBinFile path).toList
  catch _ => return none

def isDirectory (path : String) : IO Bool := do ((← IO.currentDir) / path).isDir

/-- Loads a directory, which stands at `place`. Only source files are read. -/
partial def loadDirectory (path : Path) (place : List Text) (root : Entry) : IO Entry := do
  let mut root := root.makeDirectories place
  for e in ← ((← IO.currentDir) / path.display).readDir do
    let name := Text.ofString e.fileName
    let inner := path.join name
    let innerPlace := place ++ [name]
    if ← isDirectory inner.display then
      root ←
        if Entry.isSkipped name then pure (root.makeDirectories innerPlace)
        else loadDirectory inner innerPlace root
    else if Entry.isSource name then
      if let some content ← content? inner.display then root := root.write content innerPlace
  return root

def load (working : List Text) (root : Entry) (path : Path) : IO Entry := do
  let mut root := root
  let mut place := if path.isAbsolute then [] else working
  let mut passed : Path := if path.isAbsolute then ⟨[Path.slash]⟩ else ⟨Path.dot⟩
  for s in path.segments do
    passed := passed.join s
    place :=
      if s = [] || s = Path.dot then place
      else if s = Path.dots then place.dropLast
      else place ++ [s]
    if ← isDirectory passed.display then root := root.makeDirectories place
    else if let some content ← content? passed.display then root := root.write content place
  if ← isDirectory path.display then loadDirectory path place root else return root

def run (request : Request) : IO UInt32 := do
  let here := Path.ofString (toString (← IO.currentDir))
  let working := here.segments.filter (· != [])
  let root ← request.paths.foldlM (load working) (Entry.makeDirectories working default)
  let session := Session.run request { root, working }
  for line in session.out do IO.println line
  for line in session.err do IO.eprintln line
  for (path, code) in session.writes do IO.FS.writeBinFile path.display ⟨code.toArray⟩
  return session.status.toUInt32

end Uplift.Main

def main (args : List String) : IO UInt32 :=
  match Uplift.Request.ofArguments {} (args.map Uplift.Text.ofString) with
  | .run request => Uplift.Main.run request
  | .help => do
    IO.println Uplift.Request.usage
    return 0
  | .misuse => do
    IO.eprintln Uplift.Request.usage
    return 2
