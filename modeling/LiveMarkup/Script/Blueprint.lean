import LiveMarkup.Element
import LiveMarkup.Script.Expr
import LiveMarkup.Script.Memory

/-!
# Scripted elements

A blueprint gives an element as data: its declaration, the hooks that its render function calls one
after the other, and a template with expressions. What the hooks do, in effects and in callbacks,
is traced.
-/

namespace LiveMarkup

/-- Integers of 64 bits with a sign, on which arithmetic wraps around. -/
def wrap (n : Int) : Int := n.bmod (Nat.pow 2 64)

/-- What an action does. -/
inductive ActionKind where
  /-- Set a slot or a state field through its handle. -/
  | set (v : Json)
  /-- Add to the value of a slot through its setter. -/
  | add (n : Int)
  /-- Send an action to a reducer. -/
  | dispatch (v : Json)
  /-- Call a callback. -/
  | call (args : List Expr)
  /-- Call the element itself. -/
  | request (r : Request)

/-- Something to do on a live element. -/
structure Action where
  /-- The element, if it is not the own one. -/
  on : Option Nat := none
  /-- The hook whose handle is used. -/
  hook : Nat := 0
  kind : ActionKind

namespace Action

/-- The reducer: an integer is added, the text `reset` leads to zero, all else to what there is. -/
def reduce (v : Json) (n : Int) : Int :=
  match v with
  | .str t => if t = "reset".toList then 0 else n
  | v =>
    match v.int? with
    | some k => wrap (n + k)
    | none => n

/-- Carry out an action on an element through a handle of it. Nothing happens when the handle is of
another kind than the action. Arguments of a call are read outside of any element. -/
def useHandle (i : Nat) (next : Program Memory) : ActionKind → Handle → Program Memory
  | .set v, .json slot => .revise i slot (.json fun _ => .give (.json v)) next
  | .set v, .int slot => .revise i slot (.int fun _ => .give (.int (v.int?.getD 0))) next
  | .set v, .field name => .setField i name v next
  | .add k, .json slot =>
    .revise i slot (.json fun j => .give (.json (.int (wrap (j.int?.getD 0 + k))))) next
  | .add k, .int slot => .revise i slot (.int fun n => .give (.int (wrap (n + k)))) next
  | .dispatch v, .reducer slot =>
    .revise i slot (.int fun n => .give (.int (reduce v n))) next
  | .call args, .callback k => .call i k (Expr.evalAll {} args {}).1 next
  | _, _ => next

/-- Carry out an action; `own` is the element whose action it is. -/
def perform (own : Nat) (a : Action) (next : Program Memory) : Program Memory :=
  let i := a.on.getD own
  match a.kind with
  | .request r => .request i r next
  | kind =>
    .peek fun m =>
      match m.handle? (i, a.hook) with
      | some h => useHandle i next kind h
      | none => next

/-- Carry out actions one after the other. -/
def performAll (own : Nat) (actions : List Action) (next : Program Memory) : Program Memory :=
  actions.foldr (perform own) next

end Action

/-- What stands in the trace for a hook. -/
inductive Label where
  | text (t : Text)
  /-- The JSON text of a value. -/
  | expr (e : Expr)

namespace Label

/-- The text of a label. -/
def read (env : Env) : Label → Text
  | .text t => t
  | .expr e => (e.toJson env).text

end Label

/-- What a hook calls. -/
inductive HookKind where
  | state (init : Json)
  | int (init : Int)
  | reducer (init : Int)
  /-- A cell to which every render adds one. -/
  | cell (init : Int)
  | memo (deps : List Expr) (value : Expr) (label : Label)
  | callback (deps : List Expr) (label : Label)
  | field (name : Text)
  | setState (name : Text) (value : Expr)
  | effect (kind : EffectKind) (deps : Option (List Expr)) (label : Label)
      (actions : List Action) (cleanup : Option (List Action))

/-- A hook that is called on every render, or only when a condition holds. -/
structure HookSpec where
  condition : Option Expr := none
  kind : HookKind

/-- How a computed field comes from its dependencies. -/
inductive ComputeKind where
  /-- The sum of those that are integers. -/
  | sum
  /-- All of them in an array. -/
  | array
  deriving DecidableEq, Repr

namespace ComputeKind

/-- The value of a computed field. -/
def compute : ComputeKind → List Json → Json
  | .sum, inputs => .int (inputs.foldl (fun n j => wrap (n + j.int?.getD 0)) 0)
  | .array, inputs => .arr inputs

end ComputeKind

/-- An element as data. -/
structure Blueprint where
  name : Text
  attrs : List (Text × AttrType) := []
  state : List (Text × Json) := []
  computed : List (Text × List Text × ComputeKind) := []
  hooks : List HookSpec := []
  template : TemplateExpr := {}

namespace Blueprint

/-- The names of the kinds of arguments, with commas between them. -/
def kinds (args : List Value) : Text := Text.join [','] (args.map Value.kind)

/-- Remember a handle of a hook, if the element is a live one. -/
def remember (self : Option Nat) (number : Nat) (h : Handle) (next : Render Memory) :
    Render Memory :=
  match self with
  | none => next
  | some i => .poke (Memory.keep (i, number) h) next

/-- An effect: it is traced, does its actions, and ends with a cleanup that is traced and does
its own. -/
def effect (own : Nat) (label : Text) (actions : List Action)
    (cleanup : Option (List Action)) : Program Memory :=
  let undo := cleanup.map fun actions =>
    Program.poke (Memory.log ("clean ".toList ++ label))
      (Action.performAll own actions Program.skip)
  .poke (Memory.log ("run ".toList ++ label)) (Action.performAll own actions (.done undo))

/-- Call a hook and go on with what it gives. -/
def renderHook (env : Env) (view : View) (number : Nat) (next : Json → Render Memory) :
    HookKind → Render Memory
  | .state init =>
    .hook (.useState (.give (.json init))) fun (a : Json × Nat) =>
      remember view.self number (.json a.2) (next a.1)
  | .int init =>
    .hook (.useInt (.give (.int init))) fun (a : Int × Nat) =>
      remember view.self number (.int a.2) (next (.int a.1))
  | .reducer init =>
    .hook (.useInt (.give (.int init))) fun (a : Int × Nat) =>
      remember view.self number (.reducer a.2) (next (.int a.1))
  | .cell init =>
    .hook (.useCell (.give (.int init))) fun (k : Nat) =>
      .hook (.readCell k) fun (n : Int) =>
        .hook (.writeCell k (wrap (n + 1))) fun _ => next (.int (wrap (n + 1)))
  | .memo deps value label =>
    let compute (m : Memory) : Json × Memory :=
      (value.toJson env, m.log ("memo ".toList ++ label.read env))
    .hook (.useMemo (deps.map (Expr.toJson env)) compute) fun (j : Json) => next j
  | .callback deps label =>
    let text := label.read env
    let body (args : List Value) : Program Memory :=
      .poke (Memory.log ("call ".toList ++ (text ++ (" [".toList ++ (kinds args ++ [']'])))))
        Program.skip
    .hook (.useCallback (deps.map (Expr.toJson env)) body) fun (k : Nat) =>
      match view.self with
      | none => next (.int 0)
      | some i =>
        .peek fun m =>
          .poke (Memory.keepCallback (i, number) k) (next (.int (m.callbackCount (i, number) k)))
  | .field name =>
    remember view.self number (.field name) (next ((Keyed.get? view.state name).getD .null))
  | .setState name value =>
    .hook (.setState name (value.toJson env)) fun _ => next .null
  | .effect kind deps label actions cleanup =>
    let program := effect (view.self.getD 0) (label.read env) actions cleanup
    .hook (.useEffect kind (deps.map fun deps => deps.map (Expr.toJson env)) program) fun _ =>
      next .null

/-- Call the hooks one after the other, and then give the template; `results` is what the hooks
before gave. -/
def renderHooks (template : TemplateExpr) (results : List Json) : List HookSpec → Render Memory
  | [] => .hook .view fun (view : View) => .finish (template.eval ⟨some view, results⟩)
  | h :: hs =>
    .hook .view fun (view : View) =>
      let env : Env := ⟨some view, results⟩
      let next (j : Json) : Render Memory := renderHooks template (results ++ [j]) hs
      if h.condition.all fun c => (c.eval env {}).1.isTruthy then
        renderHook env view results.length next h.kind
      else next .null

/-- The element of a blueprint. -/
def element (b : Blueprint) : Element Memory :=
  { Element.named b.name (renderHooks b.template [] b.hooks) with
    attrTypes := b.attrs
    stateFields := b.state
    computedFields := b.computed.map fun c => ⟨c.1, c.2.1, c.2.2.compute⟩ }

end Blueprint

end LiveMarkup
