import LiveMarkup.Hydration

/-!
# The hydration walk

`Hydration.hydrateAll` says by recursion what hydration does to a forest. The walk does the same
from an explicit stack: it keeps the rows of nodes around the place where it stands, so that the
depth of a tree costs memory and not call stack.

The nodes that an element renders to are not there before it is expanded, so no size of the forest
bounds the walk. It ends because elements may expand inside one another only so deep: an expansion
takes work away at its depth and adds work only at the next larger one. `Load` is the work left
at each depth, and `Load.Less` compares it at the smallest depth where it differs.
-/

namespace LiveMarkup.Hydration

variable {H : Type}

/-! ## Work left -/

/-- How much work is left at each depth up to `limit`. -/
structure Load (limit : Nat) where
  amount : Nat → Nat

namespace Load

/-- There is less work left: less at some depth, and as much as before at all smaller ones. -/
def Less (limit : Nat) (f g : Nat → Nat) : Prop :=
  ∃ d ≤ limit, f d < g d ∧ ∀ c < d, f c = g c

theorem wf_less (limit : Nat) : WellFounded (Less limit) := by
  induction limit with
  | zero =>
    refine Subrelation.wf ?_ (InvImage.wf (fun f : Nat → Nat => f 0) Nat.lt_wfRel.wf)
    rintro f g ⟨d, hd, hlt, -⟩
    obtain rfl : d = 0 := by omega
    exact hlt
  | succ limit ih =>
    refine Subrelation.wf ?_
      (InvImage.wf (fun f : Nat → Nat => (f 0, fun d => f (d + 1)))
        (Prod.lex Nat.lt_wfRel ⟨_, ih⟩).wf)
    rintro f g ⟨d, hd, hlt, heq⟩
    show Prod.Lex _ _ (f 0, fun d => f (d + 1)) (g 0, fun d => g (d + 1))
    cases d with
    | zero => exact Prod.Lex.left _ _ hlt
    | succ d =>
      rw [heq 0 (Nat.succ_pos d)]
      exact Prod.Lex.right _ ⟨d, by omega, hlt, fun c hc => heq (c + 1) (by omega)⟩

instance (limit : Nat) : WellFoundedRelation (Load limit) where
  rel f g := Less limit f.amount g.amount
  wf := InvImage.wf amount (wf_less limit)

end Load

/-! ## Rows -/

/-- A row of nodes that is being hydrated: those that are done, the latest first, and those to
come. -/
structure Row (limit : Nat) where
  done : List Node
  todo : List Node
  /-- How many expanded elements the row stands inside. -/
  depth : Nat
  depth_le : depth ≤ limit

namespace Row

variable {limit : Nat}

/-- All nodes of the row, in order. -/
def nodes (r : Row limit) : List Node := r.done.reverse ++ r.todo

/-- Put a node behind those that are done. -/
def push (r : Row limit) (n : Node) : Row limit := { r with done := n :: r.done }

/-- The work left in the row, if it is at depth `d`. -/
def load (r : Row limit) (d : Nat) : Nat := if r.depth = d then Node.weightAll r.todo else 0

/-- The work left in a row that stands around the place of the walk, if it is at depth `d`. -/
def loadAround (r : Row limit) (d : Nat) : Nat :=
  if r.depth = d then Node.weightAll r.todo + 1 else 0

end Row

/-- The rows around a place, the innermost first, each with the tag that holds the place. The tag
stands between the nodes of its row that are done and those to come. -/
abbrev Around (limit : Nat) := List (TagHead × Row limit)

namespace Around

variable {limit : Nat}

/-- The forest around a row of nodes. -/
def rebuild (nodes : List Node) : Around limit → List Node
  | [] => nodes
  | (head, r) :: around => rebuild (r.push (.tag head nodes)).nodes around

/-- The work left around a place at depth `d`. -/
def load (d : Nat) : Around limit → Nat
  | [] => 0
  | (_, r) :: around => r.loadAround d + load d around

end Around

/-! ## Walking -/

/-- What a tag holds: its children or, when it is a registered element, what it renders to, and
how many expanded elements stand around that. Gives nothing after an error. -/
def enter (config : Config) (registry : Registry H) (head : TagHead) (children : List Node)
    (depth : Nat) (h : Hydration H) : Option (List Node × Nat) × Hydration H :=
  match registry.forTag? head with
  | none => (some (children, depth), h)
  | some element =>
    if config.maxDepth ≤ depth then
      (none, { h with error := some (.hydrationDepth head.name depth) })
    else
      let (nodes, h) := expand config element head.attributes h
      (nodes.map fun nodes => (nodes, depth + 1), h)

/-- The nodes inside a tag are its children, or else they stand inside one more element. -/
theorem enter_some {config : Config} {registry : Registry H} {head : TagHead}
    {children nodes : List Node} {depth inner : Nat} {h h' : Hydration H}
    (e : enter config registry head children depth h = (some (nodes, inner), h')) :
    nodes = children ∧ inner = depth ∨ inner = depth + 1 ∧ depth < config.maxDepth := by
  unfold enter at e
  split at e
  · simp only [Prod.mk.injEq, Option.some.injEq] at e
    exact .inl ⟨e.1.1.symm, e.1.2.symm⟩
  · split at e
    · simp at e
    · next hdepth =>
      simp only [Prod.mk.injEq, Option.map_eq_some_iff] at e
      obtain ⟨⟨_, _, _, rfl⟩, _⟩ := e
      exact .inr ⟨rfl, Nat.lt_of_not_le hdepth⟩

theorem le_of_enter_some {config : Config} {registry : Registry H} {head : TagHead}
    {children nodes : List Node} {depth inner : Nat} {h h' : Hydration H}
    (e : enter config registry head children depth h = (some (nodes, inner), h'))
    (le : depth ≤ config.maxDepth) : inner ≤ config.maxDepth := by
  rcases enter_some e with ⟨-, rfl⟩ | ⟨rfl, lt⟩
  · exact le
  · exact lt

/-- Walk on from a row in the midst of others, up to the end or the first error. -/
def walk (config : Config) (registry : Registry H) (row : Row config.maxDepth)
    (around : Around config.maxDepth) (h : Hydration H) : List Node × Hydration H :=
  match row with
  | ⟨done, [], _, _⟩ =>
    match around with
    | [] => (done.reverse, h)
    | (head, r) :: around => walk config registry (r.push (.tag head done.reverse)) around h
  | ⟨done, .tag head children :: todo, depth, le⟩ =>
    match e : enter config registry head children depth h with
    | (none, h) => (around.rebuild (done.reverse ++ .tag head children :: todo), h)
    | (some (nodes, inner), h) =>
      walk config registry ⟨[], nodes, inner, le_of_enter_some e le⟩
        ((head, ⟨done, todo, depth, le⟩) :: around) h
  | ⟨done, n :: todo, depth, le⟩ => walk config registry ⟨n :: done, todo, depth, le⟩ around h
termination_by (⟨fun d => row.load d + around.load d⟩ : Load config.maxDepth)
decreasing_by
  · refine ⟨r.depth, r.depth_le, ?_, fun c hc => ?_⟩
    · simp only [Row.load, Row.loadAround, Row.push, Around.load, Node.weightAll, ite_true, ite_self]
      omega
    · simp [Row.load, Row.loadAround, Row.push, Around.load, Node.weightAll, Nat.ne_of_gt hc]
  · refine ⟨depth, le, ?_, fun c hc => ?_⟩
    · rcases enter_some e with ⟨rfl, rfl⟩ | ⟨rfl, -⟩
      · simp only [Row.load, Row.loadAround, Around.load, Node.weightAll, Node.weight, ite_true]
        omega
      · simp only [Row.load, Row.loadAround, Around.load, Node.weightAll, Node.weight, ite_true,
          Nat.succ_ne_self, ite_false]
        omega
    · have hne : inner ≠ c := by
        rcases enter_some e with ⟨-, rfl⟩ | ⟨rfl, -⟩
        · exact Nat.ne_of_gt hc
        · omega
      simp [Row.load, Row.loadAround, Around.load, Nat.ne_of_gt hc, hne]
  · refine ⟨depth, le, ?_, fun c hc => ?_⟩
    · have := Node.weight_pos n
      simp only [Row.load, Node.weightAll, ite_true]
      omega
    · simp [Row.load, Nat.ne_of_gt hc]

/-- Hydrate a forest. -/
def run (config : Config) (registry : Registry H) (nodes : List Node) (host : H) :
    List Node × Hydration H :=
  walk config registry ⟨[], nodes, 0, Nat.zero_le _⟩ [] { host }

end LiveMarkup.Hydration
