import SqlQuery.Dialect.Basic
import SqlQuery.Join.Numbering

/-!
# Join plans

A join plan is a chain of tables in the order in which they are joined.  Each table after the
anchor carries the condition that stands after ON, unless the dialect does not accept it there; such
a condition is deferred to WHERE.  The condition of an outer join is never deferred, because it means
something else there.
-/

namespace SqlQuery

/-- One table of the chain, how it is joined and on which condition. -/
structure JoinStep where
  table : TableRef
  condition? : Option Text
  type : JoinType
  deriving DecidableEq

/-- The chain grown from the anchor, and the predicates left for WHERE in the order of attachment. -/
structure JoinPlan where
  anchor : TableRef
  joins : List JoinStep
  deferred : List Text
  deriving DecidableEq

/-- Places the predicate of an attachment in the dialect. -/
def Attachment.step (d : Dialect) (a : Attachment) : JoinStep where
  table := a.table
  condition? := if d.eligibleForOn a.edge.predicate then some a.edge.predicate else none
  type := a.type

namespace JoinPlan

/-- The whole chain, with the anchor as a step without condition. -/
def steps (p : JoinPlan) : List JoinStep := ⟨p.anchor, none, .inner⟩ :: p.joins

def uses (p : JoinPlan) (t : TableRef) : Bool := p.steps.any (·.table == t)

/-- The plan of the given attachments. -/
def ofAttached (d : Dialect) (anchor : TableRef) (attached : List Attachment) : JoinPlan where
  anchor := anchor
  joins := attached.map (·.step d)
  deferred := (attached.map (·.edge.predicate)).filter (!d.eligibleForOn ·)

/-- Whether the condition of an outer join has no place in the dialect. -/
def misplaced (d : Dialect) (e : JoinEdge) : Bool := e.isOuter && !d.eligibleForOn e.predicate

/-- The first construct that the edges need and the dialect lacks. -/
def missingOuterJoin? (d : Dialect) (edges : List JoinEdge) : Option Unsupported :=
  if d.capabilities.outerJoin then none
  else (edges.find? (·.isOuter)).map fun e =>
    .outerJoin (some (e.left.reference, e.right.reference))

/-- Makes a plan of a grown chain.  An attached edge with a misplaced condition is met before the
reason why the chain stopped. -/
def ofGrowth (d : Dialect) (anchor : TableRef) (g : Growth) : Except Failure JoinPlan :=
  match g.attached.find? (misplaced d ·.edge), g.failure? with
  | some a, _ =>
    .error (.unsupported (.outerJoinCondition a.edge.left.reference a.edge.right.reference))
  | none, some e => .error (.path e)
  | none, none => .ok (ofAttached d anchor g.attached)

/-- Joins all edges in one chain.  The edges are taken in the order of their keys, and the left
table of the first is the anchor. -/
def resolve (d : Dialect) (edges : List JoinEdge) : Except Failure JoinPlan :=
  match JoinEdge.inOrder edges with
  | [] => .error (.misuse .noJoins)
  | first :: rest =>
    match missingOuterJoin? d edges with
    | some u => .error (.unsupported u)
    | none => do
      let plan ← ofGrowth d first.left (growByNumber (first :: rest))
      if plan.steps.length = edges.length + 1 then pure plan
      else throw (.invariant .oneTablePerEdge)

/-! ## The plan as text -/

/-- The line of one join. -/
def joinLine (s : JoinStep) : Text :=
  let condition : Text :=
    match s.condition? with
    | some c => " ON ( " ++ c ++ " )"
    | none => " (condition deferred)"
  "  " ++ s.type.keyword ++ " " ++ s.table.reference ++ condition

/-- The line of one deferred predicate. -/
def deferredLine (predicate : Text) : Text := "  deferred ( " ++ predicate ++ " )"

/-- The plan for the user to look at, one line for each table and each deferred predicate. -/
def toText (p : JoinPlan) : Text :=
  Text.ofLines <|
    "JoinPlan" :: ("  anchor " ++ p.anchor.reference) ::
      (p.joins.map joinLine ++ p.deferred.map deferredLine)

end JoinPlan

end SqlQuery
