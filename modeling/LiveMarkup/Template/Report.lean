import LiveMarkup.Template.Source
import LiveMarkup.Text.Width

/-!
# Reports

A report shows an error with the line it is on and a mark under the place. The offsets of the
place count bytes, but the excerpt is found by counting characters, so behind characters other
than ASCII the mark stands further right; past the end of the text there is no excerpt.
-/

namespace LiveMarkup

/-- A line of a text. -/
structure SourceLine where
  /-- Counted from one. -/
  number : Nat
  /-- How many characters come before it. -/
  offset : Nat
  /-- Its characters, with those that end it. -/
  content : Text
  deriving DecidableEq, Repr, Inhabited

namespace SourceLine

/-- A character that ends a line. -/
def isBreak (c : Char) : Bool :=
  (0xA ≤ c.toNat && c.toNat ≤ 0xD) || c.toNat = 0x85 || c.toNat = 0x2028 || c.toNat = 0x2029

/-- Split behind every line break. A carriage return with a line feed is one break. -/
def splitLines : Text → List Text
  | [] => []
  | '\r' :: '\n' :: t => ['\r', '\n'] :: splitLines t
  | c :: t =>
    if isBreak c then [c] :: splitLines t
    else
      match splitLines t with
      | [] => [[c]]
      | line :: lines => (c :: line) :: lines

/-- The line on which the character at `index` stands, when the first of the lines has the given
number and offset; a place past the end counts to the last line. -/
def find (number offset index : Nat) : List Text → SourceLine
  | [] => ⟨number, offset, []⟩
  | [line] => ⟨number, offset, line⟩
  | line :: lines =>
    if index < offset + line.length then ⟨number, offset, line⟩
    else find (number + 1) (offset + line.length) index lines

/-- The line of `t` on which the character at `index` stands. -/
def at? (t : Text) (index : Nat) : Option SourceLine :=
  if index ≤ t.length then some (find 1 0 index (splitLines t)) else none

/-- The line without the blanks at its end. -/
def shown (line : SourceLine) : Text := Text.trimEnd line.content

/-- How many cells the character `c` in column `column` takes; a tab reaches to the next multiple
of four columns. -/
def cells (column : Nat) (c : Char) : Nat :=
  if c = '\t' then 4 - column % 4 else if Text.isBlank c then 1 else Text.width c

/-- Lay `row` out under the columns of the line from `column` on: each of its entries has one
character for the first cell of its column and one for those behind. -/
def under (column : Nat) : Text → List (Char × Char) → Text
  | _, [] => []
  | [], (first, _) :: row => first :: under (column + 1) [] row
  | c :: t, (first, other) :: row =>
    (first :: List.replicate (cells column c - 1) other).take (cells column c) ++
      under (column + 1) t row

/-- The line as it is shown, with blanks made spaces. -/
def display (column : Nat) : Text → Text
  | [] => []
  | c :: t =>
    (if Text.isBlank c then List.replicate (cells column c) ' ' else [c]) ++ display (column + 1) t

end SourceLine

namespace TemplateError

/-- The row that underlines `length` columns from `start` on, with its stem in column `stem`. -/
def underline (start length stem : Nat) : List (Char × Char) :=
  (List.range (start + length + 2)).map fun column =>
    if column = stem then if length = 0 then ('│', ' ') else ('┬', '─')
    else if start ≤ column && column < start + length then ('─', '─')
    else (' ', ' ')

/-- The row that leads from column `stem` to the label behind the underlined columns. -/
def leader (start length stem : Nat) : List (Char × Char) :=
  (List.range (start + length + 2)).map fun column =>
    if column < stem then (' ', ' ') else if column = stem then ('╰', '─') else ('─', '─')

/-- The excerpt of a report: place, line, mark and label. A place of more than one line or that
reaches past its line is not marked. -/
def excerpt (fault : TemplateFault) (filename : Text) (line : SourceLine) (span : Span) :
    Text :=
  let number := Text.ofNat line.number
  let margin := List.replicate (number.length + 2) ' '
  let start := span.start - line.offset
  let length := span.stop - span.start
  let stem := start + length / 2
  let shown := line.shown
  let bar := margin ++ ['│']
  let column := Text.ofNat (start + 1)
  let place := [margin, "╭─[".toList, filename, [':'], number, [':'], column, [']']].flatten
  let marked :=
    if start + length ≤ line.content.length then
      [[' '] ++ number ++ " │ ".toList ++ SourceLine.display 0 shown,
        bar ++ [' '] ++ SourceLine.under 0 shown (underline start length stem),
        bar ++ [' '] ++ SourceLine.under 0 shown (leader start length stem) ++ [' '] ++ fault.label]
    else [bar ++ [' ']]
  let foot := List.replicate (number.length + 2) '─' ++ ['╯']
  ([place, bar] ++ marked ++ [foot]).flatMap (· ++ ['\n'])

/-- The report of an error in `source`, which was read from `filename`. -/
def report (e : TemplateError) (source : Source) (filename : Text) : Text :=
  let span := source.absoluteSpan e.location
  let text := source.text
  let header := "Error: ".toList ++ (e.message ++ ['\n'])
  let last := if span.start < span.stop then span.stop - 1 else span.start
  match SourceLine.at? text span.start, SourceLine.at? text last with
  | some line, some _ => header ++ excerpt e.fault filename line span
  | _, _ => header

end TemplateError

end LiveMarkup
