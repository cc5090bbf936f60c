import LiveMarkup.Json.Reader
import LiveMarkup.Toml.Scalar

/-!
# Reading TOML

A document is a row of lines: pairs of a dotted key and a value, and headers in single or double
brackets. Values may nest `Toml.maxDepth - 1` deep. What is wrong with a document is not told, only
that something is.
-/

namespace LiveMarkup.Toml

/-- How deep arrays and inline tables may not nest. -/
def maxDepth : Nat := 80

/-! ## Blanks, comments and line ends -/

/-- Space and tab. -/
def isGap (c : Char) : Bool := c = ' ' || c = '\t'

/-- `t` from its first character that is no space or tab. -/
def skipGaps (t : Text) : Text := t.dropWhile isGap

/-- A character that may stand in a comment: no control but the tab. -/
def isVisible (c : Char) : Bool := c = '\t' || (0x20 ≤ c.toNat && c.toNat ≠ 0x7F)

/-- What follows a line end. -/
def newline? : Text → Option Text
  | '\n' :: t => some t
  | '\r' :: '\n' :: t => some t
  | _ => none

/-- `t` without a comment at its start. -/
def skipComment : Text → Text
  | '#' :: t => t.dropWhile isVisible
  | t => t

/-- What follows the rest of a line, which may hold blanks and a comment. -/
def lineEnd? (t : Text) : Option Text :=
  match skipComment (skipGaps t) with
  | [] => some []
  | t => newline? t

/-- `t` without the blanks, comments and line ends at its start; only whole lines are skipped after
a comment. -/
def skipLines : (fuel : Nat) → Text → Text
  | 0, t => t
  | fuel + 1, t =>
    let t := skipGaps t
    match newline? (skipComment t) with
    | some rest => skipLines fuel rest
    | none => t

/-! ## Strings -/

/-- The character with the code that hexadecimal digits denote. -/
def charOf? (digits : Text) : Option Char :=
  (digits.foldlM (fun n c => (Json.hexValue? c).map (16 * n + ·)) 0).bind fun n =>
    if n.isValidChar then some (Char.ofNat n) else none

/-- What a backslash before `c` stands for. -/
def unescape? (c : Char) : Option Char :=
  if c = '"' || c = '\\' then some c
  else if c = 'b' then some '\x08'
  else if c = 't' then some '\t'
  else if c = 'n' then some '\n'
  else if c = 'f' then some '\x0C'
  else if c = 'r' then some '\r'
  else none

/-- Put a character, if there is one, in front of what was read behind it. -/
def push (c : Option Char) (read : Option (Text × Text)) : Option (Text × Text) :=
  match c, read with
  | some c, some (t, rest) => some (c :: t, rest)
  | _, _ => none

/-- The characters up to a double quote, and what follows it. -/
def basicBody? : Text → Option (Text × Text)
  | [] => none
  | '"' :: t => some ([], t)
  | '\\' :: 'u' :: a :: b :: c :: d :: t => push (charOf? [a, b, c, d]) (basicBody? t)
  | '\\' :: 'U' :: a :: b :: c :: d :: e :: f :: g :: h :: t =>
    push (charOf? [a, b, c, d, e, f, g, h]) (basicBody? t)
  | '\\' :: c :: t => push (unescape? c) (basicBody? t)
  | c :: t => if isVisible c then push (some c) (basicBody? t) else none

/-- The characters up to a single quote, and what follows it. -/
def literalBody? : Text → Option (Text × Text)
  | [] => none
  | '\'' :: t => some ([], t)
  | c :: t => if isVisible c then push (some c) (literalBody? t) else none

/-- How many quotes `q` belong to a text that ends where `t` starts: up to two stand in front of
the three that close it. Gives them and what follows, if three quotes close the text here. -/
def closing? (q : Char) (t : Text) : Option (Text × Text) :=
  let quotes := (t.takeWhile (· = q)).length
  if 5 ≤ quotes then some ([q, q], t.drop 5)
  else if 3 ≤ quotes then some (List.replicate (quotes - 3) q, t.drop quotes)
  else none

/-- `t` from its first character that is no blank and no line end. -/
def skipBlankLines : Text → Text
  | '\r' :: '\n' :: t => skipBlankLines t
  | c :: t => if isGap c || c = '\n' then skipBlankLines t else c :: t
  | [] => []

/-- The characters up to three double quotes, and what follows them. A backslash at the end of a
line takes the line end and all blanks behind it away. -/
def longBasicBody? : (fuel : Nat) → Text → Option (Text × Text)
  | 0, _ => none
  | fuel + 1, t =>
    match closing? '"' t with
    | some r => some r
    | none =>
      match t with
      | [] => none
      | '\\' :: 'u' :: a :: b :: c :: d :: t =>
        push (charOf? [a, b, c, d]) (longBasicBody? fuel t)
      | '\\' :: 'U' :: a :: b :: c :: d :: e :: f :: g :: h :: t =>
        push (charOf? [a, b, c, d, e, f, g, h]) (longBasicBody? fuel t)
      | '\\' :: c :: t =>
        if (newline? (skipGaps (c :: t))).isSome then
          longBasicBody? fuel (skipBlankLines (c :: t))
        else push (unescape? c) (longBasicBody? fuel t)
      | '\r' :: '\n' :: t => push (some '\n') (longBasicBody? fuel t)
      | c :: t => if isVisible c || c = '\n' then push (some c) (longBasicBody? fuel t) else none

/-- The characters up to three single quotes, and what follows them. -/
def longLiteralBody? (t : Text) : Option (Text × Text) :=
  match closing? '\'' t with
  | some r => some r
  | none =>
    match t with
    | [] => none
    | '\r' :: '\n' :: t => push (some '\n') (longLiteralBody? t)
    | c :: t => if isVisible c || c = '\n' then push (some c) (longLiteralBody? t) else none

/-- `t` without a line end at its start. -/
def skipNewline (t : Text) : Text := (newline? t).getD t

/-- The string at the start of `t`, and what follows it. -/
def string? (t : Text) : Option (Text × Text) :=
  match t with
  | '"' :: '"' :: '"' :: t => longBasicBody? (t.length + 1) (skipNewline t)
  | '\'' :: '\'' :: '\'' :: t => longLiteralBody? (skipNewline t)
  | '"' :: t => basicBody? t
  | '\'' :: t => literalBody? t
  | _ => none

/-! ## Keys -/

/-- A character of a key without quotes. -/
def isBareChar (c : Char) : Bool := Text.isAlphanum c || c = '_' || c = '-'

/-- The name at the start of `t`, and what follows it. -/
def name? (t : Text) : Option (Text × Text) :=
  match t with
  | '"' :: t => basicBody? t
  | '\'' :: t => literalBody? t
  | t =>
    let name := t.takeWhile isBareChar
    if name.isEmpty then none else some (name, t.dropWhile isBareChar)

/-- The dotted key at the start of `t`: the names before the last one, the last one, and what
follows. Blanks may stand around each name. -/
def key? : (fuel : Nat) → Text → Option (List Text × Text × Text)
  | 0, _ => none
  | fuel + 1, t =>
    match name? (skipGaps t) with
    | none => none
    | some (name, t) =>
      match skipGaps t with
      | '.' :: t => (key? fuel t).map fun (path, last, t) => (name :: path, last, t)
      | t => some ([], name, t)

/-! ## Values -/

/-- A character of a scalar. -/
def isScalarChar (c : Char) : Bool :=
  Text.isAlphanum c || c = '_' || c = '+' || c = '-' || c = '.' || c = ':'

/-- The scalar at the start of `t`, and what follows it. A space may stand between a date and a
time. -/
def scalarAt? (t : Text) : Option (Toml × Text) :=
  let word := t.takeWhile isScalarChar
  let rest := t.dropWhile isScalarChar
  match CalendarDate.read? word, rest with
  | some (_, []), ' ' :: rest =>
    let time := rest.takeWhile isScalarChar
    if time.isEmpty then (scalar? word).map fun v => (v, ' ' :: rest)
    else (scalar? (word ++ ' ' :: time)).map fun v => (v, rest.dropWhile isScalarChar)
  | _, _ => (scalar? word).map fun v => (v, rest)

mutual

/-- The value at the start of `t`, and what follows it; `depth` more values may nest. -/
def value? : (fuel depth : Nat) → Text → Option (Toml × Text)
  | 0, _, _ => none
  | fuel + 1, depth, t =>
    match t with
    | '[' :: t =>
      match depth with
      | 0 => none
      | depth + 1 => (arrayBody? fuel depth (skipLines t.length t)).map fun p => (.array p.1, p.2)
    | '{' :: t =>
      match depth, skipGaps t with
      | 0, _ => none
      | _ + 1, '}' :: t => some (.table .inlined [], t)
      | depth + 1, t => do
        let (pairs, rest) ← inlineBody? fuel depth t
        let table ← TomlTable.ofInline pairs
        return (table, rest)
    | t =>
      match string? t with
      | some (s, rest) => some (.string s, rest)
      | none => scalarAt? t

/-- The items up to the closing bracket, and what follows it. -/
def arrayBody? : (fuel depth : Nat) → Text → Option (List Toml × Text)
  | 0, _, _ => none
  | fuel + 1, depth, t =>
    match t with
    | ']' :: t => some ([], t)
    | t =>
      match value? fuel depth t with
      | none => none
      | some (v, t) =>
        match skipLines t.length t with
        | ',' :: t => (arrayBody? fuel depth (skipLines t.length t)).map fun p => (v :: p.1, p.2)
        | ']' :: t => some ([v], t)
        | _ => none

/-- One or more pairs up to the closing brace, and what follows it. -/
def inlineBody? : (fuel depth : Nat) → Text → Option (List (List Text × Text × Toml) × Text)
  | 0, _, _ => none
  | fuel + 1, depth, t =>
    match pair? fuel depth t with
    | none => none
    | some (pair, t) =>
      match skipGaps t with
      | ',' :: t => (inlineBody? fuel depth t).map fun p => (pair :: p.1, p.2)
      | '}' :: t => some ([pair], t)
      | _ => none

/-- The pair of a key and a value at the start of `t`, and what follows it. -/
def pair? : (fuel depth : Nat) → Text → Option ((List Text × Text × Toml) × Text)
  | 0, _, _ => none
  | fuel + 1, depth, t =>
    match key? (t.length + 1) t with
    | some (path, last, '=' :: t) =>
      if maxDepth ≤ path.length + 1 then none
      else (value? fuel depth (skipGaps t)).map fun p => ((path, last, p.1), p.2)
    | _ => none

end

/-! ## Documents -/

/-- A line of a document. -/
inductive Line where
  | pair (p : List Text × Text × Toml)
  | header (repeated : Bool) (path : List Text) (key : Text)

/-- The fuel that a text is read with: each character is passed by at most five calls. -/
def fuelFor (t : Text) : Nat := 5 * t.length + 5

/-- The line at the start of `t`, which is not blank, and what follows it. -/
def line? (t : Text) : Option (Line × Text) :=
  match t with
  | '[' :: '[' :: t =>
    match key? (t.length + 1) t with
    | some (path, last, ']' :: ']' :: t) =>
      if maxDepth ≤ path.length + 1 then none
      else (lineEnd? t).map fun t => (.header true path last, t)
    | _ => none
  | '[' :: t =>
    match key? (t.length + 1) t with
    | some (path, last, ']' :: t) =>
      if maxDepth ≤ path.length + 1 then none
      else (lineEnd? t).map fun t => (.header false path last, t)
    | _ => none
  | t => do
    let (pair, t) ← pair? (fuelFor t) (maxDepth - 1) t
    let t ← lineEnd? t
    return (.pair pair, t)

/-- The lines of a document. -/
def lines? : (fuel : Nat) → Text → Option (List Line)
  | 0, _ => none
  | fuel + 1, t =>
    match lineEnd? t with
    | some [] => some []
    | some t => lines? fuel t
    | none => do
      let (line, t) ← line? (skipGaps t)
      let lines ← if t.isEmpty then some [] else lines? fuel t
      return line :: lines

/-- The pairs before the first header, and the parts of a document. -/
def sections : List Line → List (List Text × Text × Toml) × List TomlTable.Section
  | [] => ([], [])
  | .pair p :: lines =>
    let (pairs, parts) := sections lines
    (p :: pairs, parts)
  | .header repeated path key :: lines =>
    let (pairs, parts) := sections lines
    ([], ⟨repeated, path, key, pairs⟩ :: parts)

/-- The table of the document that `t` is the text of. A byte order mark may stand in front. -/
def read? (t : Text) : Option (Keyed Toml) := do
  let t := if t.head? = some '\uFEFF' then t.drop 1 else t
  let lines ← lines? (t.length + 1) t
  let (pairs, parts) := sections lines
  let table ← TomlTable.ofSections pairs parts
  return table.fields

end LiveMarkup.Toml
