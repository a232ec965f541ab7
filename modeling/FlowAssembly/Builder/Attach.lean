import FlowAssembly.Builder.Basic

/-!
# Appending channels and endpoints

An endpoint reads from the current channel. If that is a marker, a channel
bound to the endpoint's handler is made in its place, and if there is none, an
implicit one is made. The pending output of what came before is bound to the
same channel, which is how a chain is connected.

Two channels never stand in a row: appending a channel while another is
current puts a bridge between them.

Side flows of an endpoint are registered ahead of it and ahead of its input
channel. The flow's own input is then no longer its first channel, so it is
remembered (`placeSides`).
-/

namespace FlowAssembly

/-- An endpoint to append, its handler made. -/
structure EndpointSpec where
  handler : Handler
  id : Option String := none
  lifecycle : Lifecycle := {}
  advice : List Advice := []
  poller : Option Poller := none

/-- What an endpoint reads from, and the channel that was made for it if one
was. -/
structure ResolvedInput where
  target : Target
  made : Option Channel

namespace Assembly

/-- Decides what an endpoint reads from, and makes the channel where none stands
ready. -/
def resolveInput (current : Option ChannelSource) (handler : Handler) :
    Assembly ResolvedInput :=
  match current with
  | some (.channel channel) => return ⟨.channel channel, none⟩
  | some (.named name) => return ⟨.named name, none⟩
  | some (.fixedSubscriber id) => do
      let channel ← boundChannel id handler
      return ⟨.channel channel, some channel⟩
  | none => do
      let channel ← implicitChannel
      return ⟨.channel channel, some channel⟩

/-- Fails if an endpoint has a poller and reads from a channel that cannot be
polled. -/
def checkPoller (spec : EndpointSpec) (input : Target) : Assembly Unit :=
  match spec.poller, input with
  | some _, .channel channel =>
      if channel.pollable then return ()
      else fail
        (.pollerOnSubscribableChannel (spec.id.getD spec.handler.label)
          channel.label)
  | _, _ => return ()

/-- Registers an endpoint without an output. A handler that produces replies
is claimed for the flow first. -/
def registerEndpoint (session : SessionId) (flowId : String) (registry : Registry)
    (spec : EndpointSpec) (input : Target) : Assembly (Registry × Endpoint) := do
  checkPoller spec input
  if spec.handler.producesReplies then
    claim session spec.handler flowId
  let key ← newComponentKey
  let endpoint : Endpoint :=
    { key, id := spec.id, handler := spec.handler, input, output := none,
      lifecycle := spec.lifecycle, advice := spec.advice, poller := spec.poller }
  return (registry.add (.endpoint endpoint), endpoint)

/-- An endpoint that passes messages on as they are. -/
def newBridge : Assembly EndpointSpec := do
  let handler ← newHandler .bridge
  return { handler }

end Assembly

namespace Registry

/-- Adds registries behind what is there, except that a channel which stood
last stays last. -/
def extendBefore (r : Registry) (trailing : Option ComponentKey)
    (others : List Registry) : Registry :=
  let extended := others.foldl extend r
  match trailing.filter r.endsWith with
  | some key => extended.relocateToEnd key
  | none => extended

end Registry

namespace Builder

/-- The key of the current channel, unless that is a name or a marker. -/
def currentKey? (b : Builder) : Option ComponentKey :=
  match b.cursor.channel with
  | some (.channel channel) => some channel.key
  | _ => none

/-- Registers the flows of wire taps that were held back. A current channel
that stood last stays last. -/
def flushDeferred (b : Builder) : Builder :=
  match b.cursor.deferred with
  | [] => b
  | deferred =>
      { b with
        registry := b.registry.extendBefore b.currentKey? deferred
        cursor := { b.cursor with deferred := [] } }

/-- The channel that is registered first. -/
def firstChannel? (b : Builder) : Option Channel :=
  b.registry.components.findSome? Component.channel?

/-- Registers side flows ahead of the channel that the endpoint will read
from, and remembers the flow's input. -/
def placeSides (b : Builder) (input : Target) (sides : List Registry) : Builder :=
  match sides with
  | [] => b
  | sides =>
      { b with
        input := b.input <|> (b.firstChannel? <|> input.channel?).map Channel.key
        registry := b.registry.extendBefore (input.channel?.map Channel.key) sides }

/-- Registers an endpoint whose input is decided: behind its side flows and
behind the channel made for it. It becomes the tail, and its output is pending
if it produces replies. -/
def wire (b : Builder) (spec : EndpointSpec) (input : ResolvedInput)
    (sides : List Registry) : Assembly Builder := do
  let b := { b with cursor := { b.cursor with channel := none } }
  let b := b.placeSides input.target sides
  let b := match input.made with
    | some channel => { b with registry := b.registry.add (.channel channel) }
    | none => b
  let b := b.bindPending input.target
  let (registry, endpoint) ← Assembly.registerEndpoint b.session b.flowId b.registry
    spec input.target
  let b := flushDeferred { b with registry }
  let produces := spec.handler.producesReplies
  let pending : PendingOutput :=
    { component := endpoint.key, owner := endpoint.label,
      requiresReply := spec.handler.requiresReply }
  return { b with
    cursor := { b.cursor with
      tail := some ⟨endpoint.label, produces⟩
      pending := if produces then some pending else none } }

/-- Appends an endpoint without side flows. -/
def attach (b : Builder) (spec : EndpointSpec) : Assembly Builder := do
  let input ← Assembly.resolveInput b.cursor.channel spec.handler
  Assembly.checkPoller spec input.target
  b.wire spec input []

/-- Appends a bridge, which reads the current channel. -/
def bridge (b : Builder) : Assembly Builder := do
  b.attach (← Assembly.newBridge)

/-- Continues through a channel, a name or a marker, behind a bridge if
another is current. -/
def channel (b : Builder) (source : ChannelSource) : Assembly Builder := do
  b.ensureOpen ("channel " ++ source.label)
  let b ← if b.cursor.channel.isSome then b.bridge else pure b
  let b := match source with
    | .channel channel => { b with registry := b.registry.add (.channel channel) }
    | _ => b
  let b := match source.target? with
    | some target => b.bindPending target
    | none => b
  return b.continueFrom source

/-- The channel that interceptors attach to: the current one, or an implicit
one made for them. -/
def tapPoint (b : Builder) (attempted : String) : Assembly (Builder × Channel) := do
  b.ensureOpen attempted
  match b.cursor.channel with
  | some (.channel channel) =>
      if channel.supportsInterceptors then return (b, channel)
      else Assembly.fail (.interceptorsNotSupported channel.label)
  | some source => Assembly.fail (.interceptorsNotSupported source.label)
  | none =>
      let channel ← Assembly.implicitChannel
      let b := { b with registry := b.registry.add (.channel channel) }
      let b := b.bindPending (.channel channel)
      return (b.continueFrom (.channel channel), channel)

/-- Attaches an interceptor to the current channel, or to one made for it. -/
def intercept (b : Builder) (interceptor : Interceptor) : Assembly Builder := do
  let (b, channel) ← b.tapPoint interceptor.label
  Assembly.addInterceptor channel interceptor
  return b

end Builder

end FlowAssembly
