import FlowAssembly.Graph.Basic

/-!
# Containers

A container knows channels by name. Flows refer to channels of other flows by
name only; a container that holds them resolves those references when the
flows start.
-/

namespace FlowAssembly

/-- Channels by name, each name once. -/
structure Container where
  channels : List (String × Channel) := []
deriving DecidableEq, Repr

namespace Container

/-- Puts a channel under a name, in place of an earlier one. -/
def put (c : Container) (name : String) (channel : Channel) : Container :=
  ⟨(c.channels.filter fun known => known.1 ≠ name) ++ [(name, channel)]⟩

/-- Puts a channel under its id; a channel without one is passed over. -/
def register (c : Container) (channel : Channel) : Container :=
  match channel.id with
  | some id => c.put id channel
  | none => c

/-- The channels of a flow with the names of their entries, in order. -/
def flowChannels (g : FlowGraph) : List (String × Channel) :=
  g.entries.filterMap fun e => e.component.channel?.map fun channel =>
    (e.name, channel)

/-- Puts every channel of a flow under its name there. -/
def registerFlow (c : Container) (g : FlowGraph) : Container :=
  (flowChannels g).foldl (fun acc known => acc.put known.1 known.2) c

/-- How many names have a channel. -/
def size (c : Container) : Nat :=
  c.channels.length

/-- The channel under a name. A name that has none is an error. -/
def resolve (c : Container) (name : String) : Except FlowError Channel :=
  match c.channels.lookup name with
  | some channel => .ok channel
  | none => .error (.unresolvedReference name "message channel")

end Container

/-- The channels that a flow refers to by name, in order of first use; the
first name that the container does not know is an error. -/
def FlowGraph.resolveReferences (g : FlowGraph) (taps : Interceptions)
    (c : Container) :
    Except FlowError (List (String × Channel)) :=
  (g.namedReferences taps).mapM fun name => (c.resolve name).map fun channel =>
    (name, channel)

end FlowAssembly
