import LiveMarkup.Directive
import LiveMarkup.Element.Render

/-!
# Expressions

Values written down as data, so that templates and render functions can be given without writing a
program. Inside an element an expression can refer to attributes, state, computed fields and what
the hooks before it gave; elsewhere such a reference is null.
-/

namespace LiveMarkup

/-- A step into a JSON value. -/
inductive PathStep where
  | item (i : Nat)
  | member (key : Text)
  deriving DecidableEq, Repr

/-- What an expression can refer to. -/
inductive Reference where
  | attr (name : Text)
  | state (name : Text)
  | computed (name : Text)
  /-- All attributes as an object. -/
  | attrs
  /-- The name of the tag. -/
  | tag
  /-- What a hook gave, by its number. -/
  | hook (i : Nat)
  deriving DecidableEq, Repr

/-- An expression for a value. -/
inductive Expr where
  | null
  | nothing
  | function
  | bool (b : Bool)
  | number (x : Binary64)
  | string (t : Text)
  | raw (t : Text)
  /-- A JSON value as it is. -/
  | json (j : Json)
  /-- A JSON value with its arrays made lists. -/
  | ofJson (j : Json)
  | list (items : List Expr)
  | template (fragments : List Text) (values : List Expr)
  | unsafeHtml (markup : Text)
  | classMap (classes : List (Text × Bool))
  | ifDefined (e : Expr)
  /-- A directive that gives each of the values in turn, so that the last one stays. -/
  | directive (values : List Expr)
  /-- A directive that gives the description of its part. -/
  | describePart
  /-- A directive that works nowhere. -/
  | refusePart
  /-- A pending value. All those of one name are the same. -/
  | pending (name : Option Text) (label : Option Text) (e : Expr)
  /-- A pending value that comes to a failure. -/
  | pendingError (name : Option Text) (label : Option Text) (message : Text)
  /-- One of two values. -/
  | choose (condition yes no : Expr)
  | ref (r : Reference) (path : List PathStep)
  deriving Inhabited

/-- The pending values that there are: those with a name, and how many. -/
structure Pendings where
  named : Keyed Value := []
  count : Nat := 0
  deriving Inhabited

namespace Pendings

/-- Make a pending value. -/
def create (p : Pendings) (name : Option Text) (label : Option Text)
    (outcome : Except Text Value) : Value × Pendings :=
  let v := Value.pending p.count label outcome
  match name with
  | none => (v, { p with count := p.count + 1 })
  | some name => (v, ⟨Keyed.insert p.named name v, p.count + 1⟩)

/-- The pending value of a given name, if there is one. -/
def find? (p : Pendings) (name : Option Text) : Option Value :=
  name.bind fun name => Keyed.get? p.named name

end Pendings

/-- What expressions are read in: what the element sees, if there is one, and what the hooks so
far gave. -/
structure Env where
  view : Option View := none
  hooks : List Json := []

namespace Env

/-- Take one step into a JSON value; a step that leads nowhere leads to null. -/
def goStep (j : Json) : PathStep → Json
  | .item i => (j.item? i).getD .null
  | .member key => (j.member? key).getD .null

/-- The JSON value that a reference stands for. -/
def resolve (env : Env) (r : Reference) : Json :=
  match r, env.view with
  | .hook i, _ => (env.hooks[i]?).getD .null
  | .attr name, some v => (Keyed.get? v.attrs name).getD .null
  | .state name, some v => (Keyed.get? v.state name).getD .null
  | .computed name, some v => (Keyed.get? v.computed name).getD .null
  | .attrs, some v => .obj v.attrs
  | .tag, some v => .str v.name
  | _, none => .null

end Env

namespace Expr

mutual

/-- The value of an expression. -/
def eval (env : Env) : Expr → Pendings → Value × Pendings
  | .null, p => (.null, p)
  | .nothing, p => (.nothing, p)
  | .function, p => (.function, p)
  | .bool b, p => (.bool b, p)
  | .number x, p => (.number x, p)
  | .string t, p => (.string t, p)
  | .raw t, p => (.raw t, p)
  | .json j, p => (.json j, p)
  | .ofJson j, p => (.ofJson j, p)
  | .list items, p =>
    let (vs, p) := evalAll env items p
    (.list vs, p)
  | .template fragments values, p =>
    let (vs, p) := evalAll env values p
    (.template (Template.ofFragments fragments) vs, p)
  | .unsafeHtml markup, p => (.unsafeHtml markup, p)
  | .classMap classes, p => (.classMap classes, p)
  | .ifDefined e, p =>
    let (v, p) := eval env e p
    (.ifDefined v, p)
  | .directive values, p =>
    let (vs, p) := evalAll env values p
    (.directive fun _ => .ok (vs.getLast?.getD .null), p)
  | .describePart, p => (.directive fun part => .ok (.string part.describe), p)
  | .refusePart, p =>
    (.directive fun part => .error (.incompatiblePart "custom".toList part), p)
  | .pending name label e, p =>
    match p.find? name with
    | some v => (v, p)
    | none =>
      let (v, p) := eval env e p
      p.create name label (.ok v)
  | .pendingError name label message, p =>
    match p.find? name with
    | some v => (v, p)
    | none => p.create name label (.error message)
  | .choose condition yes no, p =>
    let (c, p) := eval env condition p
    if c.isTruthy then eval env yes p else eval env no p
  | .ref r path, p => (.ofJson (path.foldl Env.goStep (env.resolve r)), p)

/-- The values of some expressions, from left to right. -/
def evalAll (env : Env) : List Expr → Pendings → List Value × Pendings
  | [], p => ([], p)
  | e :: es, p =>
    let (v, p) := eval env e p
    let (vs, p) := evalAll env es p
    (v :: vs, p)

end

/-- The JSON form of the value of an expression; null when it has none. -/
def toJson (env : Env) (e : Expr) : Json := ((eval env e {}).1.toJson?).getD .null

end Expr

/-- Fragments with expressions between them. -/
structure TemplateExpr where
  fragments : List Text := []
  values : List Expr := []
  deriving Inhabited

namespace TemplateExpr

/-- The template with the values of its expressions. -/
def eval (env : Env) (t : TemplateExpr) : TemplateResult :=
  .ofFragments t.fragments (Expr.evalAll env t.values {}).1

end TemplateExpr

end LiveMarkup
