import LiveMarkup.Text

/-!
# Arguments

The arguments of the program are options, given by a long name or by the first letter of it, and at
most one input. A value is taken up only when the next argument has been understood, so an argument
that cannot be understood is told first, and what is wrong with the value before it never.
-/

namespace LiveMarkup.CommandLine

/-- What the arguments ask for. -/
structure Options where
  /-- The file to read instead of standard input. -/
  input : Option Text := none
  /-- The settings file. -/
  config : Option Text := none
  /-- The element manifest. -/
  elements : Option Text := none
  /-- List the parts instead of rendering. -/
  parts : Bool := false
  /-- Show the tree of the output. -/
  tree : Bool := false
  /-- Take the input as plain markup. -/
  normalize : Bool := false
  /-- Tell more about what is done. -/
  verbose : Bool := false
  deriving DecidableEq, Repr

/-- Why the arguments do not lead to a run. -/
inductive Stop where
  /-- They ask for help. -/
  | help
  | unexpected (arg : Text)
  | unexpectedValue (value option : Text)
  | missingValue (option : Text)
  | repeated (option : Text)
  deriving DecidableEq, Repr

namespace Stop

/-- How the program is used. -/
def usage : Text :=
  (String.intercalate "\n"
    ["Render tagged-template markup to HTML",
      "",
      "Usage: tagged-ssr [OPTIONS] [INPUT]",
      "",
      "Arguments:",
      "  [INPUT]  Input file (reads from stdin if not provided)",
      "",
      "Options:",
      "  -c, --config <CONFIG>      Render configuration file (TOML format)",
      "  -e, --elements <ELEMENTS>  Custom element manifest (TOML format); " ++
        "registered elements are hydrated",
      "  -p, --parts                List the parts found in the template instead of rendering",
      "  -t, --tree                 Print the node tree of the rendered output",
      "  -n, --normalize            Treat the input as plain HTML: parse and serialize it back",
      "  -v, --verbose              Enable debug logging",
      "  -h, --help                 Print help"]).toList

/-- What is told: how the program is used, or what is wrong. -/
def message : Stop → Text
  | .help => usage
  | .unexpected arg => ["error: unexpected argument '".toList, arg, "' found".toList].flatten
  | .unexpectedValue value option =>
    ["error: unexpected value '".toList, value, "' for '".toList, option,
      "' found; no more were expected".toList].flatten
  | .missingValue option =>
    ["error: a value is required for '".toList, option,
      "' but none was supplied".toList].flatten
  | .repeated option =>
    ["error: the argument '".toList, option, "' cannot be used multiple times".toList].flatten

end Stop

/-- An option that takes a value. -/
inductive Setting where
  | config
  | elements
  deriving DecidableEq, Repr

/-- An option that takes no value. -/
inductive Flag where
  | parts
  | tree
  | normalize
  | verbose
  | help
  deriving DecidableEq, Repr

/-- An option of the program. -/
inductive OptionName where
  | setting (s : Setting)
  | flag (f : Flag)
  deriving DecidableEq, Repr

namespace OptionName

/-- The long name of an option. -/
def long : OptionName → Text
  | .setting .config => "config".toList
  | .setting .elements => "elements".toList
  | .flag .parts => "parts".toList
  | .flag .tree => "tree".toList
  | .flag .normalize => "normalize".toList
  | .flag .verbose => "verbose".toList
  | .flag .help => "help".toList

/-- All options. -/
def all : List OptionName :=
  [.setting .config, .setting .elements, .flag .parts, .flag .tree, .flag .normalize,
    .flag .verbose, .flag .help]

/-- What messages call an option. -/
def display : OptionName → Text
  | .setting .config => "--config <CONFIG>".toList
  | .setting .elements => "--elements <ELEMENTS>".toList
  | .flag f => '-' :: '-' :: (flag f).long

/-- The option with a given long name. -/
def ofLong? (name : Text) : Option OptionName := all.find? fun o => o.long = name

/-- The option with a given short name, which is the first letter of the long one. -/
def ofShort? (c : Char) : Option OptionName := all.find? fun o => o.long.head? = some c

end OptionName

/-- Switch an option on, which may be done once. -/
def Flag.switch (f : Flag) (opts : Options) : Except Stop Options :=
  let once (before : Bool) (after : Options) : Except Stop Options :=
    if before then .error (.repeated (OptionName.flag f).display) else .ok after
  match f with
  | .parts => once opts.parts { opts with parts := true }
  | .tree => once opts.tree { opts with tree := true }
  | .normalize => once opts.normalize { opts with normalize := true }
  | .verbose => once opts.verbose { opts with verbose := true }
  | .help => .error .help

/-- What a value is given to. -/
inductive Target where
  | input
  | setting (s : Setting)
  deriving DecidableEq, Repr

namespace Target

/-- What messages call it. -/
def display : Target → Text
  | .input => "[INPUT]".toList
  | .setting s => (OptionName.setting s).display

/-- Give it a value, which may be done once; the value may not be empty. -/
def assign (target : Target) (value : Text) (opts : Options) : Except Stop Options :=
  let once (before : Option Text) (after : Options) : Except Stop Options :=
    if before.isSome then .error (.repeated target.display)
    else if value.isEmpty then .error (.missingValue target.display)
    else .ok after
  match target with
  | .input => once opts.input { opts with input := some value }
  | .setting .config => once opts.config { opts with config := some value }
  | .setting .elements => once opts.elements { opts with elements := some value }

end Target

/-- What has been read of the arguments. -/
structure Reading where
  opts : Options := {}
  /-- What the next value is given to, with the value when that has been read but not taken up. -/
  pending : Option (Target × Option Text) := none
  deriving DecidableEq, Repr

namespace Reading

/-- The options with the value that is pending. -/
def takeUp (r : Reading) : Except Stop Options :=
  match r.pending with
  | none => .ok r.opts
  | some (target, none) => .error (.missingValue target.display)
  | some (target, some value) => target.assign value r.opts

/-- An input has been read. -/
def hasInput (r : Reading) : Bool :=
  r.opts.input.isSome || r.pending.any fun p => p.1 = .input

/-- Read an option that takes a value, which may be attached to it. -/
def setting (r : Reading) (s : Setting) (attached : Option Text) : Except Stop Reading := do
  let opts ← r.takeUp
  match attached with
  | none => return ⟨opts, some (.setting s, none)⟩
  | some value => return { opts := ← (Target.setting s).assign value opts }

/-- Read an option that takes no value. -/
def flag (r : Reading) (f : Flag) : Except Stop Reading := do
  return { opts := ← f.switch (← r.takeUp) }

/-- Read a long option, from behind its hyphens on. A value is attached with an equals sign. -/
def long (r : Reading) (arg : Text) : Except Stop Reading :=
  let name := arg.takeWhile (· ≠ '=')
  match OptionName.ofLong? name, (Text.cutAt? '=' arg).map Prod.snd with
  | none, _ => .error (.unexpected ('-' :: '-' :: name))
  | some (.setting s), attached => r.setting s attached
  | some (.flag f), none => r.flag f
  | some (.flag f), some value => .error (.unexpectedValue value (OptionName.flag f).display)

/-- Read short options in one argument, from behind its hyphen on. What follows one that takes a
value is the value, after an equals sign or without. -/
def shorts (r : Reading) : Text → Except Stop Reading
  | [] => .ok r
  | c :: rest =>
    match OptionName.ofShort? c with
    | none => .error (.unexpected ['-', c])
    | some (.setting s) =>
      match rest with
      | [] => r.setting s none
      | '=' :: value => r.setting s (some value)
      | value => r.setting s (some value)
    | some (.flag f) => do shorts (← r.flag f) rest

/-- Read an argument that is the input. -/
def input (r : Reading) (arg : Text) : Except Stop Reading :=
  if r.hasInput then .error (.unexpected arg)
  else do return ⟨← r.takeUp, some (.input, some arg)⟩

/-- Read an argument that is no option. -/
def value (r : Reading) (arg : Text) : Except Stop Reading :=
  match r.pending with
  | some (target, none) => .ok { r with pending := some (target, some arg) }
  | _ => r.input arg

/-- Read arguments. Behind two hyphens there are no options any more. -/
def all (r : Reading) : List Text → Except Stop Reading
  | [] => .ok r
  | ['-', '-'] :: args => args.foldlM input r
  | ('-' :: '-' :: name) :: args => do all (← r.long name) args
  | ('-' :: c :: rest) :: args => do all (← r.shorts (c :: rest)) args
  | arg :: args => do all (← r.value arg) args

end Reading

/-- The options that the arguments ask for. -/
def readArgs (args : List Text) : Except Stop Options := do (← Reading.all {} args).takeUp

end LiveMarkup.CommandLine
