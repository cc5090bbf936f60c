import LiveMarkup.CommandLine

/-!
# The program

Reading the arguments, standard input and files, and writing what a run comes to.
-/

namespace LiveMarkup.CommandLine

/-- The error that a failed read is. -/
def fileError (e : IO.Error) : FileError :=
  match e with
  | .noFileOrDirectory _ _ _ => .notFound
  | .permissionDenied _ _ _ => .other "Permission denied (os error 13)".toList
  | .inappropriateType _ code _ => if code = 21 then .isFolder else .notFolder
  | .invalidArgument _ _ _ => .nameTooLong
  | .userError _ => .other "stream did not contain valid UTF-8".toList
  | e => .other e.toString.toList

/-- Read the files that the options name. -/
def readFiles (opts : Options) : IO (List (Text × Except FileError Text)) :=
  (opts.config.toList ++ opts.elements.toList ++ opts.input.toList).mapM fun path => do
    try
      let t ← IO.FS.readFile (Text.str path)
      return (path, .ok t.toList)
    catch e => return (path, .error (fileError e))

end LiveMarkup.CommandLine

open LiveMarkup CommandLine in
/-- Run the program. -/
def main (args : List String) : IO UInt32 := do
  let args := args.map String.toList
  let (files, stdin) ←
    match readArgs args with
    | .error _ => pure ([], [])
    | .ok opts => do
      let files ← readFiles opts
      let stdin ←
        if opts.input.isSome then pure "" else (← IO.getStdin).readToEnd
      pure (files, stdin.toList)
  let read (path : Text) : Except FileError Text :=
    (files.lookup path).getD (.error .notFound)
  let outcome := run args read stdin
  IO.print (Text.str outcome.stdout)
  IO.eprint (Text.str outcome.stderr)
  return outcome.code.toUInt32
