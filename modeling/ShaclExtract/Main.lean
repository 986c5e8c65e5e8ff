import ShaclExtract.CommandLine
import ShaclExtract.Json.Printer
import ShaclExtract.Rdf.Document.Reading

/-!
# ShaclExtract.Main

The program. It reads the files a command needs and the environment variables the data may ask for,
runs the command and prints its result. The exit code is 1 for a failure and 2 for arguments that
cannot be understood.
-/

namespace ShaclExtract
namespace Main

def usage : String :=
  "usage: shacl-extract shapes --shapes FILE\n" ++
  "       shacl-extract extract --shapes FILE --data FILE --focus IRI [--class IRI] [--cbd]"

/-- The quads of a file; one that cannot be opened or read as text is missing. -/
def load (name : String) : IO (Except Failure Graph) := do
  try
    let path ← IO.FS.realPath name
    let text ← IO.FS.readFile name
    return Document.read name (Iri.ofFileName path.toString) text
  catch _ => return .error (Document.missing name)

/-- The variables with the given keys that are set. -/
def environment (keys : List String) : IO Environment := do
  let mut set : Table String String := .empty
  for key in keys do
    match ← IO.getEnv key with
    | some value => set := set.insert key value
    | none => pure ()
  return set.get?

def execute (command : CommandLine.Command) : IO UInt32 := do
  let shapes ← load command.shapesFile
  let data ← match command.request with
    | some r => load r.dataFile
    | none => pure (.ok [])
  let keys := match data with
    | .ok g => g.environmentKeys
    | .error _ => []
  let files : CommandLine.Files := fun name => if name = command.shapesFile then shapes else data
  match CommandLine.run (← environment keys) files command with
  | .ok out =>
    IO.println out.pretty
    return 0
  | .error failure =>
    IO.eprintln failure.report
    return 1

end Main
end ShaclExtract

def main (arguments : List String) : IO UInt32 :=
  match ShaclExtract.CommandLine.parse? arguments with
  | some command => ShaclExtract.Main.execute command
  | none => do
    IO.eprintln ShaclExtract.Main.usage
    return 2
