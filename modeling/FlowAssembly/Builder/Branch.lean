import FlowAssembly.Builder.Attach
import FlowAssembly.Plan

/-!
# Branches

A branch is a flow that a nested builder assembled, seen from its parent: what
it registered, and how it ended. It ends *pending* on a component whose output
is unbound, on a bare *channel* that nothing in it reads, or *closed*: on a
handler that never replies, on a name, or on a router whose branches are all
closed.

Open branches are dealt with in one of two ways. They `converge` on a merge
channel, so that the parent can go on behind a bridge that reads it; or they
are left open, replies going where each message asks, and a bare channel gets
a bridge for its reader.
-/

namespace FlowAssembly

/-- How a branch ended. -/
inductive Ending where
  | pending (output : PendingOutput)
  | channel (channel : Channel)
  | closed
deriving DecidableEq, Repr

/-- An assembled branch: what it registered, and how it ended. -/
structure Branch where
  registry : Registry
  ending : Ending

/-- What one destination of a router leads to: a target, or the channel that a
branch starts at. -/
inductive Opening where
  | target (target : Target)
  | seed (channel : Channel)
deriving DecidableEq, Repr

/-- The target that stands in a routing table. -/
def Opening.toTarget : Opening → Target
  | .target given => given
  | .seed start => .channel start

/-- Makes the target of a destination, or the channel that its flow starts
at. -/
def Destination.openUp : Destination → Assembly Opening
  | .target plan => Opening.target <$> plan.make
  | .flow _ => Opening.seed <$> Assembly.implicitChannel

/-- Where unmatched messages go, with its target made. -/
inductive DefaultOutput where
  | parentFlow
  | target (target : Target)
deriving DecidableEq, Repr

/-- Makes where unmatched messages go. -/
def DefaultPlan.make : DefaultPlan → Assembly DefaultOutput
  | .parentFlow => return .parentFlow
  | .target plan => DefaultOutput.target <$> plan.make

/-- Makes where unmatched messages go, if that is said. -/
def DefaultPlan.makeOptional : Option DefaultPlan → Assembly (Option DefaultOutput)
  | some plan => some <$> plan.make
  | none => return none

namespace Branch

/-- Whether the branch goes on past its last component. -/
def isOpen (br : Branch) : Bool :=
  br.ending ≠ .closed

/-- The bare channel that the branch ended on. -/
def channel? (br : Branch) : Option Channel :=
  match br.ending with
  | .channel c => some c
  | _ => none

/-- Registers a bridge in the branch that reads a channel, and answers it with
the bridge's key. -/
def addBridge (br : Branch) (parent : Builder) (input : Channel) :
    Assembly (Branch × ComponentKey) := do
  let spec ← Assembly.newBridge
  let (registry, endpoint) ← Assembly.registerEndpoint parent.session parent.flowId
    br.registry spec (.channel input)
  return ({ registry, ending := .closed }, endpoint.key)

/-- Leads an open end into a merge channel. A branch that ended on the merge
channel itself needs nothing. -/
def converge (br : Branch) (parent : Builder) (merge : Channel) : Assembly Branch :=
  match br.ending with
  | .pending output =>
      return { registry := br.registry.bindOutput output.component (.channel merge),
               ending := .closed }
  | .channel last => do
      if last.key = merge.key then
        return { br with ending := .closed }
      else
        let (linked, key) ← br.addBridge parent last
        return { linked with
          registry := linked.registry.bindOutput key (.channel merge) }
  | .closed => return br

/-- Leaves a pending end unbound, unless its handler must have an output, and
gives a bare channel its reader. -/
def leaveOpen (br : Branch) (parent : Builder) : Assembly Branch :=
  match br.ending with
  | .pending output =>
      if output.requiresReply then Assembly.fail (.outputRequired output.owner)
      else return br
  | .channel last => Prod.fst <$> br.addBridge parent last
  | .closed => return br

end Branch

namespace Builder

/-- Ends a nested builder. The builder is gone, so claims that are its own are
released. -/
def intoBranch (b : Builder) : Assembly Branch := do
  let b := b.flushDeferred
  b.discard
  match b.cursor.pending, b.cursor.channel with
  | _, some (.fixedSubscriber id) =>
      Assembly.fail (.unboundFixedSubscriber (id.getD "fixed-subscriber"))
  | some output, _ => return ⟨b.registry, .pending output⟩
  | none, some (.channel channel) => return ⟨b.registry, .channel channel⟩
  | none, _ => return ⟨b.registry, .closed⟩

/-- Leads the open ends of all branches into one merge channel. -/
def converge (b : Builder) (branches : List Branch) (merge : Channel) :
    Assembly (List Branch) :=
  branches.mapM fun br => br.converge b merge

/-- Leaves the ends of all branches open, in order. -/
def leaveOpen (b : Builder) (branches : List Branch) : Assembly (List Branch) :=
  branches.mapM fun br => br.leaveOpen b

/-- The channel that open branches meet on: the first bare channel that one of
them ended on, or else a new one. -/
def mergeChannel (branches : List Branch) : Assembly Channel :=
  match branches.findSome? Branch.channel? with
  | some channel => return channel
  | none => Assembly.implicitChannel

/-- What a router's branches came to: their registries, the merge channel if
one was needed, and the target of unmatched messages. -/
structure Reconciled where
  branches : List Branch
  merge : Option Channel
  defaultOutput : Option Target

/-- Lets the open branches of a router converge. A merge channel is needed
when a branch is open, or when unmatched messages go on in the parent. -/
def reconcile (b : Builder) (branches : List Branch)
    (default : Option DefaultOutput) : Assembly Reconciled := do
  if default = some .parentFlow ∨ branches.any Branch.isOpen then
    let merge ← mergeChannel branches
    let branches ← b.converge branches merge
    let defaultOutput := match default with
      | some (.target target) => some target
      | some .parentFlow => some (.channel merge)
      | none => none
    return { branches, merge := some merge, defaultOutput }
  else
    let defaultOutput := match default with
      | some (.target target) => some target
      | _ => none
    return { branches, merge := none, defaultOutput }

/-- Registers what the branches registered, in their order. -/
def absorb (b : Builder) (branches : List Branch) : Builder :=
  { b with
    registry := (branches.map Branch.registry).foldl Registry.extend b.registry }

/-- Adds the branches behind their router, then the merge channel and a bridge
that reads it. The merge channel moves to the end if one of the branches
registered it. -/
def absorbMerged (b : Builder) (branches : List Branch) (merge : Option Channel) :
    Assembly Builder := do
  let b := b.absorb branches
  match merge with
  | none => return b
  | some merge =>
      let registry :=
        if b.registry.contains merge.key then b.registry.relocateToEnd merge.key
        else b.registry.add (.channel merge)
      let b := { b with registry }
      (b.continueFrom (.channel merge)).bridge

end Builder

end FlowAssembly
