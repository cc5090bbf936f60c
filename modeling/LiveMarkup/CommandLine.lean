import LiveMarkup.CommandLine.Arguments
import LiveMarkup.Config.Reader
import LiveMarkup.Element.Manifest
import LiveMarkup.Folder
import LiveMarkup.Json.Reader
import LiveMarkup.Markup.Outline
import LiveMarkup.Renderer
import LiveMarkup.Template.Report

/-!
# The command line

The program renders a template source from a file or from standard input. Placeholders hold JSON
values; what is no JSON is a text. Other modes list the parts of the template, show the tree of the
output, or write plain markup back. A run is a function of the arguments, of standard input and of
what reading a file gives, to an exit code and two texts.
-/

namespace LiveMarkup.CommandLine

/-- What a run comes to. -/
structure Outcome where
  code : Nat := 0
  stdout : Text := []
  stderr : Text := []
  deriving DecidableEq, Repr, Inhabited

namespace Outcome

/-- A run that ends well and writes `t`. -/
def write (t : Text) : Outcome := { stdout := t }

/-- A run that ends well and writes the line `t`. -/
def line (t : Text) : Outcome := write (t ++ ['\n'])

/-- A run that ends with an error. -/
def fail (t : Text) : Outcome := { code := 1, stderr := t }

/-- A run that ends with an error told in one line. -/
def failLine (t : List Text) : Outcome := fail (t.flatten ++ ['\n'])

end Outcome

/-- The settings that the options ask for. -/
def loadConfig (read : ReadFile) (path : Option Text) : Except Outcome Config :=
  match path with
  | none => .ok {}
  | some path =>
    let fail (why : Text) : Except Outcome Config :=
      .error (.failLine ["Error loading config '".toList, path, "': ".toList, why])
    match read path with
    | .error e => fail ("Failed to read config file: ".toList ++ e.message)
    | .ok t =>
      match Config.read? t with
      | none => fail "Failed to parse config TOML: ".toList
      | some config => .ok config

/-- The elements that the options ask for. -/
def loadElements (read : ReadFile) (path : Option Text) : Except Outcome (Registry Unit) :=
  match path with
  | none => .ok {}
  | some path =>
    let fail (why : Text) : Except Outcome (Registry Unit) :=
      .error (.failLine ["Error loading elements '".toList, path, "': ".toList, why])
    match read path with
    | .error e => fail ("Failed to read element manifest: ".toList ++ e.message)
    | .ok t =>
      match Manifest.read t with
      | .error .malformed => fail "Failed to parse element manifest TOML: ".toList
      | .error e => fail e.message
      | .ok elements => .ok (({} : Registry Unit).registerAll elements).2

/-- The input with the name that reports give it. -/
def loadInput (read : ReadFile) (stdin : Text) (path : Option Text) :
    Except Outcome (Text × Text) :=
  match path with
  | none => .ok ("<stdin>".toList, stdin)
  | some path =>
    match read path with
    | .ok t => .ok (path, t)
    | .error e => .error (.failLine ["Error: reading file '".toList, path, "': ".toList, e.message])

/-- The value of a placeholder: what its text is as JSON, or else the text. -/
def literal (t : Text) : Value :=
  match Json.read? t with
  | some j => .ofJson j
  | none => .string t

/-- The line of a placeholder in the list of parts. -/
def partLine (index : Nat) (part : Option Part) (expression : Text) : Text :=
  let described := (part.map Part.describe).getD "(merged into previous)".toList
  [Text.padLeft 3 (Text.ofNat index), [' ', ' '], Text.padRight 40 described, [' ', '$', '\x7b'],
    expression, ['\x7d', '\n']].flatten

/-- The list of parts. -/
def partLines (index : Nat) : List (Option Part) → List Text → Text
  | [], _ => []
  | part :: parts, expressions =>
    partLine index part (expressions.head?.getD []) ++
      partLines (index + 1) parts expressions.tail

/-- Write plain markup back, or show its tree. -/
def normalize (tree : Bool) (t : Text) : Outcome :=
  let nodes := Node.parse t
  if tree then .write (Node.outline nodes) else .line (Node.serialize nodes)

/-- Render a source, or list its parts. -/
def render (opts : Options) (config : Config) (registry : Registry Unit) (filename t : Text) :
    Outcome :=
  let source := Source.ofText t
  match source.template with
  | .error e => .fail (e.report source filename)
  | .ok template =>
    if opts.parts then .write (partLines 0 template.parts source.expressions)
    else
      match (Page.render config registry ⟨.ok template, source.expressions.map literal⟩ ()).markup
      with
      | .error e => .failLine ["Error: ".toList, e.message]
      | .ok markup =>
        if opts.tree then .write (Node.outline (Node.parse markup)) else .line markup

/-- What the program does with its options. -/
def perform (opts : Options) (read : ReadFile) (stdin : Text) : Outcome :=
  let result : Except Outcome Outcome := do
    let config ← loadConfig read opts.config
    let registry ← loadElements read opts.elements
    let (filename, t) ← loadInput read stdin opts.input
    return if opts.normalize then normalize opts.tree t
      else render opts config registry filename t
  match result with
  | .ok outcome => outcome
  | .error outcome => outcome

/-- A run of the program. -/
def run (args : List Text) (read : ReadFile) (stdin : Text) : Outcome :=
  match readArgs args with
  | .error .help => .line Stop.help.message
  | .error e => { code := 2, stderr := e.message ++ ['\n'] }
  | .ok opts => perform opts read stdin

end LiveMarkup.CommandLine
