import FlowAssembly.Builder.Assemble
import FlowAssembly.Builder.Finish
import FlowAssembly.Holding

/-!
# The workbench

Several flows under assembly at once, with everything that a caller keeps
under names: channels, handlers, sessions, builders, finished flows,
containers and registries.

A call takes its builder off the bench. If it succeeds the builder comes back
under its name; if it fails the builder is gone, with the claims of its flow.
What leaves the bench is dropped: a builder that is not finished releases its
claims, and a handler that nothing on the bench holds any more loses them
(`settle`).
-/

namespace FlowAssembly

/-- Values by name, each name once. -/
structure Names (α : Type) where
  pairs : List (String × α) := []

namespace Names

variable {α : Type}

/-- The value under a name. -/
def get? (n : Names α) (name : String) : Option α :=
  n.pairs.lookup name

/-- Puts a value under a name, in place of an earlier one. -/
def put (n : Names α) (name : String) (value : α) : Names α :=
  ⟨(name, value) :: n.pairs.filter fun known => known.1 ≠ name⟩

/-- Takes a name out. -/
def erase (n : Names α) (name : String) : Names α :=
  ⟨n.pairs.filter fun known => known.1 ≠ name⟩

/-- The values, without their names. -/
def values (n : Names α) : List α :=
  n.pairs.map Prod.snd

end Names

/-- All that is kept while flows are assembled. -/
structure Workbench where
  workshop : Workshop
  channels : Names Channel := {}
  handlers : Names Handler := {}
  sessions : Names SessionId := {}
  builders : Names Builder := {}
  graphs : Names FlowGraph := {}
  containers : Names Container := {}
  registries : Names Registry := {}

namespace Workbench

/-- The plan of the channel that has a name. -/
def channelPlan (w : Workbench) (name : String) : ChannelPlan :=
  match w.channels.get? name with
  | some channel => .existing channel
  | none => .faulty .unknownName

/-- The plan of the handler that has a name. -/
def handlerPlan (w : Workbench) (name : String) : HandlerPlan :=
  match w.handlers.get? name with
  | some handler => .existing handler
  | none => .faulty .unknownName

/-- The step into the session that has a name. -/
def sessionStep (w : Workbench) (name : String) : Step :=
  match w.sessions.get? name with
  | some session => .withSession session
  | none => .faulty .unknownName

/-- The handlers that something on the bench holds. -/
def held (w : Workbench) : List HandlerKey :=
  w.channels.values.flatMap Channel.held ++
    w.handlers.values.flatMap Handler.held ++
    w.builders.values.flatMap Builder.held ++
    w.graphs.values.flatMap FlowGraph.held ++
    w.containers.values.flatMap Container.held ++
    w.registries.values.flatMap Registry.held

/-- Drops the claims on handlers that nothing on the bench holds. -/
def settle (w : Workbench) : Workbench :=
  { w with
    workshop := { w.workshop with claims := w.workshop.claims.retain w.held } }

/-- How many claims a session has once what nothing holds is dropped. -/
def claimCount (w : Workbench) (session : SessionId) : Nat :=
  w.settle.workshop.claims.count session

/-- Runs a call in the workshop of the bench. -/
def run (w : Workbench) (step : Assembly α) : Except Refusal α × Workbench :=
  let (result, workshop) := StateT.run (ExceptT.run step) w.workshop
  (result, { w with workshop })

/-- Drops a builder that is not on the bench. -/
def discard (w : Workbench) (b : Builder) : Workbench :=
  (w.run b.discard).2

/-- Takes a builder off the bench and drops it. -/
def dropBuilder (w : Workbench) (name : String) : Workbench :=
  match w.builders.get? name with
  | some b => { w with builders := w.builders.erase name }.discard b
  | none => w

/-- Puts a builder on the bench. One that has the name already is dropped. -/
def putBuilder (w : Workbench) (name : String) (b : Builder) : Workbench :=
  let w := w.dropBuilder name
  { w with builders := w.builders.put name b }

/-- Runs a step on the builder of a name. -/
def perform (w : Workbench) (name : String) (step : Step) :
    Except Refusal Builder × Workbench :=
  match w.builders.get? name with
  | none => (.error .unknownName, w)
  | some b =>
      let w := { w with builders := w.builders.erase name }
      match w.run (step.assemble b) with
      | (.ok b, w) => (.ok b, { w with builders := w.builders.put name b })
      | (.error cause, w) => (.error cause, w)

/-- Finishes the flow of a builder and keeps it under a name. -/
def finish (w : Workbench) (name graphName : String) :
    Except Refusal FlowGraph × Workbench :=
  match w.builders.get? name with
  | none => (.error .unknownName, w)
  | some b =>
      let w := { w with builders := w.builders.erase name }
      match w.run b.finish with
      | (.ok g, w) => (.ok g, { w with graphs := w.graphs.put graphName g })
      | (.error cause, w) => (.error cause, w)

end Workbench

end FlowAssembly
