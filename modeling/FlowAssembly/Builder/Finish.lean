import FlowAssembly.Builder.Attach
import FlowAssembly.Graph.Basic

/-!
# Finishing a flow

A flow may end on an endpoint, or on a channel of the caller's. If it ends on
a channel of the assembler's own, a bridge is put behind it, so that the
channel has a reader; a strict configuration refuses such an end instead. The
finished flow is checked once more as a whole: no two channels stand in a row,
and every endpoint stands behind the channel it reads from. A finished flow
keeps its claims.
-/

namespace FlowAssembly

namespace Registry

/-- The first two channels that stand in a row. -/
def adjacentChannels? : List Component → Option (Channel × Channel)
  | first :: second :: rest =>
      match first, second with
      | .channel a, .channel b => some (a, b)
      | _, _ => adjacentChannels? (second :: rest)
  | _ => none

/-- The first endpoint that does not stand behind the channel it reads from,
with that channel, given the keys that stand before the components. -/
def unregisteredInput? : List ComponentKey → List Component →
    Option (Endpoint × Channel)
  | _, [] => none
  | before, c :: rest =>
      match c with
      | .endpoint e =>
          match e.input with
          | .channel input =>
              if before.contains input.key then
                unregisteredInput? (c.key :: before) rest
              else some (e, input)
          | .named _ => unregisteredInput? (c.key :: before) rest
      | _ => unregisteredInput? (c.key :: before) rest

/-- Checks the order of a finished registry. -/
def validate (r : Registry) : Except FlowError Unit :=
  match adjacentChannels? r.components with
  | some (a, b) => .error (.adjacentChannels a.label b.label)
  | none =>
      match unregisteredInput? [] r.components with
      | some (e, c) => .error (.inputNotRegistered e.label c.label)
      | none => .ok ()

end Registry

namespace Builder

/-- Checks that no end of the flow is left that only a further call could
close. -/
def checkEnds (b : Builder) : Except FlowError Unit :=
  match b.cursor.channel with
  | some (.fixedSubscriber id) =>
      .error (.unboundFixedSubscriber (id.getD "fixed-subscriber"))
  | _ =>
      let sources := b.registry.components.filterMap Component.source?
      match sources.find? fun s => s.output.isNone with
      | some source => .error (.sourceWithoutOutput source.label)
      | none =>
          match b.cursor.pending with
          | some pending =>
              if pending.requiresReply then .error (.outputRequired pending.owner)
              else .ok ()
          | none => .ok ()

/-- Checks that the flow has components, and more than a bare channel. -/
def checkSize (b : Builder) : Except FlowError Unit :=
  match b.registry.components with
  | [] => .error (.emptyFlow b.flowId)
  | [.channel channel] => .error (.danglingChannel channel.label)
  | _ => .ok ()

/-- Puts a bridge behind a current channel of the assembler's own, or refuses
it. -/
def closeImplicit (b : Builder) : Assembly Builder :=
  match b.cursor.channel with
  | some (.channel channel) =>
      if channel.implicit then
        if b.config.strictTermination then
          Assembly.fail (.danglingChannel channel.label)
        else b.bridge
      else return b
  | _ => return b

/-- The flow as a graph: its components in order of registration, each under
its own name or a generated one. -/
def toGraph (b : Builder) : FlowGraph where
  flowId := b.flowId
  entries := nameEntries b.flowId [] b.registry.entries
  namedInput := b.namedInput
  input := b.input

/-- Finishes the flow. If that fails the builder is dropped. -/
def finish (b : Builder) : Assembly FlowGraph := b.guarded do
  Assembly.ensure b.checkEnds
  let b ← b.closeImplicit
  Assembly.ensure b.checkSize
  let b := b.flushDeferred
  Assembly.ensure b.registry.validate
  return b.toGraph

end Builder

end FlowAssembly
