import FlowAssembly.Registry
import FlowAssembly.Workshop

/-!
# Flow builders

A builder is a flow under assembly: what it registered so far, and a cursor
that says how the next call connects.

The cursor holds up to four things. The *current channel* was appended, or
made as a tap point, and has no reader yet. The *tail* is the last endpoint,
which tells whether anything may follow. The *pending output* belongs to the
last component that produces messages and is bound to whatever the next call
reads from or appends. The *deferred* registries are the flows of wire taps;
they wait until the tapped channel has its reader.

A nested builder assembles a branch for its parent, under the parent's flow id
and session. Its claims are its parent's to release. A call that fails drops
its builder, and a dropped builder that is not nested releases every claim of
its flow (`guarded`).
-/

namespace FlowAssembly

/-- The output of a component, waiting for a target. -/
structure PendingOutput where
  component : ComponentKey
  /-- The label of the component. -/
  owner : String
  /-- Whether it may not stay unbound. -/
  requiresReply : Bool
deriving DecidableEq, Repr

/-- The last endpoint or source. -/
structure Tail where
  label : String
  produces : Bool
deriving DecidableEq, Repr

/-- How the next call connects. -/
structure Cursor where
  channel : Option ChannelSource := none
  tail : Option Tail := none
  pending : Option PendingOutput := none
  deferred : List Registry := []

/-- A flow under assembly. -/
structure Builder where
  flowId : String
  session : SessionId
  /-- Whether it assembles a branch of another builder. -/
  nested : Bool
  config : Config
  registry : Registry
  cursor : Cursor
  /-- The name of the channel it reads from, when that is a reference. -/
  namedInput : Option String
  /-- The channel it reads from, once side flows were registered ahead of it. -/
  input : Option ComponentKey

/-- A source to start with: what it is and how it produces messages. -/
structure SourceSpec where
  componentType : String
  id : Option String
  mode : SourceMode
  lifecycle : Lifecycle
deriving DecidableEq, Repr

namespace Builder

/-- A flow without components, in a session of its own. -/
def withConfig (config : Config) : Assembly Builder := do
  let flowId ← Assembly.newFlowId config
  let session ← Assembly.newSession
  return { flowId, session, nested := false, config, registry := .empty,
           cursor := {}, namedInput := none,
           input := none }

/-- A flow without components, under the default configuration. -/
def new : Assembly Builder :=
  withConfig {}

/-- A flow that reads from a channel of the caller's. -/
def fromChannel (channel : Channel) : Assembly Builder := do
  let b ← new
  return { b with
    registry := b.registry.add (.channel channel)
    cursor := { channel := some (.channel channel) } }

/-- A flow that reads from a channel known by name only. -/
def fromChannelName (name : String) : Assembly Builder := do
  let b ← new
  return { b with
    namedInput := some name
    cursor := { channel := some (.named name) } }

/-- A flow that starts with a source. What the source produces needs somewhere
to go. -/
def fromSource (spec : SourceSpec) : Assembly Builder := do
  let b ← new
  let key ← Assembly.newComponentKey
  let source : Source :=
    { key, id := spec.id, componentType := spec.componentType, mode := spec.mode,
      output := none, lifecycle := spec.lifecycle }
  return { b with
    registry := b.registry.add (.source source)
    cursor :=
      { tail := some ⟨source.label, true⟩
        pending :=
          some { component := key, owner := source.label,
                 requiresReply := true } } }

/-- Drops a builder: the claims of its flow are released, unless they are its
parent's. -/
def discard (b : Builder) : Assembly Unit :=
  if b.nested then return () else Assembly.release b.session b.flowId

/-- Runs a call of a builder. If it fails the builder is dropped. -/
def guarded (b : Builder) (call : Assembly α) : Assembly α :=
  tryCatch call fun cause => do
    b.discard
    throw cause

/-- Renames a flow together with the owner of its claims. A nested builder
keeps its parent's id. -/
def withId (b : Builder) (id : String) : Assembly Builder := do
  if b.nested then
    return b
  else
    Assembly.updateClaims fun book => .ok (book.rename b.session b.flowId id)
    return { b with flowId := id }

/-- Moves a flow into a session together with its claims. A nested builder
stays in its parent's session. -/
def withSession (b : Builder) (session : SessionId) : Assembly Builder := do
  if b.nested then
    return b
  else
    let _ ← Assembly.transferClaims b.session session b.flowId
    return { b with session }

/-- Fails if the last endpoint never replies, since nothing can follow it. -/
def ensureOpen (b : Builder) (attempted : String) : Assembly Unit :=
  match b.cursor.tail with
  | some tail =>
      if tail.produces then return ()
      else Assembly.fail (.oneWayHandler tail.label attempted)
  | none => return ()

/-- Binds the pending output, if there is one, to a target. -/
def bindPending (b : Builder) (target : Target) : Builder :=
  match b.cursor.pending with
  | some pending =>
      { b with
        registry := b.registry.bindOutput pending.component target
        cursor := { b.cursor with pending := none } }
  | none => b

/-- Makes a channel the current one. Whatever came before it is left behind. -/
def continueFrom (b : Builder) (source : ChannelSource) : Builder :=
  { b with cursor := { b.cursor with channel := some source, tail := none } }

/-- The builder of a branch, which starts at the given channel. -/
def branch (b : Builder) (seed : Channel) : Builder :=
  { flowId := b.flowId
    session := b.session
    nested := true
    config := b.config
    registry := Registry.empty.add (.channel seed)
    cursor := { channel := some (.channel seed) }
    namedInput := none
    input := none }

end Builder

end FlowAssembly
