import ShaclExtract.Failure.Structured
import ShaclExtract.Rdf.Iri
import ShaclExtract.Schema

/-!
# ShaclExtract.CommandLine

The command line: print the compiled shapes of a file, or extract one node of a data file, as JSON.
Arguments are read into a command first; a command is then run on the graphs that its files hold.
-/

namespace ShaclExtract
namespace CommandLine

/-! ## arguments -/

structure Request where
  dataFile : String
  focus : String
  /-- Extract as this class instead of by the asserted types. -/
  cls : Option String
  /-- See only the description of the focus. -/
  bounded : Bool
deriving DecidableEq, Repr

structure Command where
  shapesFile : String
  /-- None prints the shapes. -/
  request : Option Request
deriving DecidableEq, Repr

inductive Argument where
  | word (text : String)
  | flag (name : String)
  | value (name text : String)
deriving DecidableEq, Repr

/-- The long name of an option that is given by a letter. -/
def longName? : Char → Option String
  | 'v' => some "verbose"
  | 'q' => some "quiet"
  | 's' => some "shapes"
  | 'd' => some "data"
  | _ => none

def takesValue (name : String) : Bool :=
  ["log-level", "shapes", "data", "focus", "class"].contains name

def isFlag (name : String) : Bool := ["verbose", "quiet", "cbd"].contains name

def levels : List String := ["error", "warn", "info", "debug", "trace"]

/-- A value may be anything but another option. -/
def isValue (text : String) : Bool := !text.startsWith "-" || text == "-"

/-- Letters behind one dash: flags, then at most one option whose value is the rest. -/
def letters? : List Char → Option (List Argument × Option String)
  | [] => some ([], none)
  | c :: cs =>
    match longName? c with
    | none => none
    | some name =>
      if takesValue name then
        match cs with
        | [] => some ([], some name)
        | '=' :: text => some ([.value name (String.ofList text)], none)
        | text => some ([.value name (String.ofList text)], none)
      else
        match letters? cs with
        | none => none
        | some (args, waiting) => some (.flag name :: args, waiting)

/-- One argument; an option that waits for its value is given as the second component. -/
def argument? (text : String) : Option (List Argument × Option String) :=
  match text.toList with
  | '-' :: '-' :: name =>
    let parts := Iri.cut (fun c => c = '=') name
    let key := String.ofList parts.1
    match parts.2 with
    | _ :: value =>
      if takesValue key then some ([.value key (String.ofList value)], none) else none
    | [] =>
      if takesValue key then some ([], some key)
      else if isFlag key then some ([.flag key], none)
      else none
  | '-' :: c :: cs => letters? (c :: cs)
  | _ => some ([.word text], none)

/--
All arguments in order, or none if one is unknown or a value is missing. A closing `--` ends the
options, which changes nothing where no argument follows.
-/
def arguments? : Option String → List String → Option (List Argument)
  | none, [] => some []
  | some _, [] => none
  | some key, text :: rest =>
    if isValue text then (arguments? none rest).map fun args => .value key text :: args else none
  | none, ["--"] => some []
  | none, text :: rest =>
    match argument? text with
    | none => none
    | some (args, waiting) => (arguments? waiting rest).map fun more => args ++ more

def values (args : List Argument) (name : String) : List String :=
  args.filterMap fun a =>
    match a with
    | .value n v => if n = name then some v else none
    | _ => none

def flagCount (args : List Argument) (name : String) : Nat :=
  (args.filter fun a => a = .flag name).length

/-- The names of all options that are used, with or without value. -/
def used (args : List Argument) : List String :=
  args.filterMap fun a =>
    match a with
    | .word _ => none
    | .flag n => some n
    | .value n _ => some n

/-- An option that is given at most once. -/
def optional? (args : List Argument) (name : String) : Option (Option String) :=
  match values args name with
  | [] => some none
  | [v] => some (some v)
  | _ => none

def required? (args : List Argument) (name : String) : Option String :=
  match values args name with
  | [v] => some v
  | _ => none

def requiredFile? (args : List Argument) (name : String) : Option String :=
  match required? args name with
  | some "" => none
  | file => file

def generalOptions : List String := ["log-level", "verbose", "quiet"]

/-- A log level is given at most once and is one of the known ones. -/
def levelOk (args : List Argument) : Bool :=
  match optional? args "log-level" with
  | none => false
  | some none => true
  | some (some level) => levels.contains level

def onlyUses (args : List Argument) (names : List String) : Bool :=
  (used args).all fun n => generalOptions.contains n || names.contains n

def extractCommand? (args : List Argument) : Option Command :=
  if !onlyUses args ["shapes", "data", "focus", "class", "cbd"] || 1 < flagCount args "cbd" then
    none
  else
    match requiredFile? args "shapes", requiredFile? args "data", required? args "focus",
        optional? args "class" with
    | some shapesFile, some dataFile, some focus, some cls =>
      some ⟨shapesFile, some ⟨dataFile, focus, cls, flagCount args "cbd" = 1⟩⟩
    | _, _, _, _ => none

def shapesCommand? (args : List Argument) : Option Command :=
  if onlyUses args ["shapes"] then (requiredFile? args "shapes").map fun file => ⟨file, none⟩
  else none

/-- The arguments up to the first word, the word, and the arguments behind it. -/
def atWord? : List Argument → Option (List Argument × String × List Argument)
  | [] => none
  | .word w :: rest => some ([], w, rest)
  | a :: rest => (atWord? rest).map fun parts => (a :: parts.1, parts.2)

def isWord : Argument → Bool
  | .word _ => true
  | _ => false

/--
The command that the arguments ask for; none if they cannot be understood. In front of the command
only general options may stand, and behind it no further word.
-/
def parse? (arguments : List String) : Option Command :=
  match (arguments? none arguments).bind atWord? with
  | none => none
  | some (before, word, after) =>
    if !onlyUses before [] || !levelOk before || !levelOk after || after.any isWord then none
    else
      match word with
      | "shapes" => shapesCommand? after
      | "extract" => extractCommand? after
      | _ => none

/-! ## running -/

inductive Refusal where
  | extraction (e : Failure)
  | invalidFocus (focus : String)
  | untyped (focus : String)
  | endless
deriving DecidableEq, Repr

namespace Refusal

def report : Refusal → String
  | .extraction e => "Error: " ++ e.structured
  | .invalidFocus focus => "Error: " ++ Text.quoted ("Invalid focus IRI " ++ focus)
  | .untyped focus => "Error: " ++ Text.quoted (focus ++ " has no rdf:type; pass --class")
  | .endless => "Error: " ++ Text.quoted "a path description refers to itself"

end Refusal

def optionalField (name : String) : Option String → List (String × Json)
  | none => []
  | some text => [(name, .text text)]

def propertySummary (f : Property) : Json :=
  .object <|
    [("name", .text f.name), ("path", .text f.path.toSparql), ("min_count", .integer f.minCount),
      ("max_count", match f.maxCount with
        | none => .null
        | some m => .integer m)] ++
    match f.type with
    | .ofClass c => [("class", .text c.text)]
    | .datatype d => [("datatype", .text d.text)]

def shapeSummary (s : Shape) : Json :=
  .object <|
    [("id", .text s.id), ("target_class", .text s.target.text)] ++
      optionalField "description" s.description ++
      [("fields", .array (s.properties.map propertySummary))]

/-- What a step of extraction gives, as the result of a command. -/
def settled {α β : Type} (r : Option (Except Failure α)) (next : α → Except Refusal β) :
    Except Refusal β :=
  match r with
  | none => .error .endless
  | some (.error e) => .error (.extraction e)
  | some (.ok x) => next x

def extract (schema : Schema) (r : Request) (data : Graph) : Except Refusal Json :=
  match Iri.absolute? r.focus.toList with
  | none => .error (.invalidFocus r.focus)
  | some focus =>
    let view := if r.bounded then View.bounded (.iri focus) data else ⟨.iri focus, data⟩
    match r.cls with
    | some cls => settled (schema.extract ⟨cls⟩ view) fun x => .ok x.toJson
    | none =>
      settled (schema.extractTyped view) fun found =>
        match found with
        | some x => .ok x.toJson
        | none => .error (.untyped r.focus)

abbrev Files := String → Except Failure Graph

/-- Runs a command. The shapes are compiled before the data is looked at. -/
def run (environment : Environment) (files : Files) (command : Command) : Except Refusal Json :=
  match files command.shapesFile with
  | .error e => .error (.extraction e)
  | .ok shapes =>
    settled (Schema.compile { Options.default with environment } shapes) fun schema =>
      match command.request with
      | none => .ok (.array (schema.shapes.map shapeSummary))
      | some r =>
        match files r.dataFile with
        | .error e => .error (.extraction e)
        | .ok data => extract schema r data

end CommandLine
end ShaclExtract
