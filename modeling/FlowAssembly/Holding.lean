import FlowAssembly.Builder.Basic
import FlowAssembly.Container

/-!
# What holds a handler

A claim counts while its handler is held by something. An endpoint holds its
handler, a channel the handler that it was bound to, and a scatter-gather the
gatherer inside it; a builder, a graph, a registry and a container hold what
their components hold.
-/

namespace FlowAssembly

/-- The handlers that a record of a subscriber holds. -/
def Subscriber.held (s : Subscriber) : List HandlerKey :=
  s.handler.key :: s.gatherer.toList

/-- The handlers that a channel holds. -/
def Channel.held (c : Channel) : List HandlerKey :=
  c.subscriber.toList.flatMap Subscriber.held

/-- The handlers that a target holds. -/
def Target.held (t : Target) : List HandlerKey :=
  t.channel?.toList.flatMap Channel.held

/-- The handlers that a handler holds, itself among them. -/
def Handler.held (h : Handler) : List HandlerKey :=
  h.key :: h.behaviour.gatherer?.toList ++ h.routeTargets.flatMap Target.held

/-- The handlers that a component holds. -/
def Component.held : Component → List HandlerKey
  | .channel c => c.held
  | .endpoint e =>
      e.handler.held ++ e.input.held ++ e.output.toList.flatMap Target.held
  | .source s => s.output.toList.flatMap Target.held

/-- The handlers that a registry holds. -/
def Registry.held (r : Registry) : List HandlerKey :=
  r.components.flatMap Component.held

/-- The handlers that a builder holds, in what it registered and in the flows
it holds back. -/
def Builder.held (b : Builder) : List HandlerKey :=
  b.registry.held ++ b.cursor.deferred.flatMap Registry.held

/-- The handlers that a finished flow holds. -/
def FlowGraph.held (g : FlowGraph) : List HandlerKey :=
  g.components.flatMap Component.held

/-- The handlers that a container holds. -/
def Container.held (c : Container) : List HandlerKey :=
  c.channels.flatMap fun known => known.2.held

end FlowAssembly
