import FlowAssembly.Builder.ScatterGather

/-!
# Assembling a plan

Running the steps of a plan on a builder. A step first makes its arguments,
then does its work; a step that branches assembles each branch in a nested
builder, in declared order, before it registers anything of its own.

The functions follow the nesting of a plan: one for a step, and one for each
kind of list that a step holds. The first failure ends the whole run.
Whichever builder fails is dropped, and so in turn is each builder around it.
-/

namespace FlowAssembly

mutual

/-- Makes the arguments of a step and carries it out on a builder. -/
def Step.assemble (b : Builder) : Step → Assembly Builder
  | .channel plan => b.guarded do
    b.channel (← plan.make)
  | .endpoint plan sides => b.guarded do
    let handler ← plan.handler.make
    let seeds ← sides.mapM fun side => side.1.make
    let spec : EndpointSpec :=
      { handler, id := plan.id, lifecycle := plan.lifecycle, advice := plan.advice,
        poller := plan.poller }
    b.ensureOpen handler.componentType
    let input ← Assembly.resolveInput b.cursor.channel handler
    Assembly.checkPoller spec input.target
    let flows ← assembleSides b seeds sides
    let flows ← b.leaveOpen flows
    b.wire spec input (flows.map Branch.registry)
  | .wireTap plan destination => b.guarded do
    let opening ← destination.openUp
    let selector ← Assembly.parseOptional plan.selector
    let (b, channel) ← b.tapPoint "wire-tap"
    let flow ← destination.assemble b opening
    b.finishTap channel
      { target := opening.toTarget, selector, timeout := plan.timeout } flow
  | .intercept plan => b.guarded do
    b.intercept (← plan.make)
  | .route plan mappings => b.guarded do
    let parts ← plan.make mappings
    Assembly.ensure (plan.check mappings)
    b.ensureOpen "router"
    let branches ← assembleMappings b (parts.openings.map Prod.snd) mappings
    b.finishRoute plan parts branches
  | .routeToRecipients plan recipients => b.guarded do
    let parts ← plan.make recipients
    Assembly.ensure (plan.check recipients)
    b.ensureOpen "recipient-list-router"
    let branches ← assembleRecipients b (parts.openings.map Prod.snd) recipients
    b.finishRecipients plan parts branches
  | .publishSubscribe plan subscribers => b.guarded do
    let given ← plan.channel.mapM ChannelPlan.make
    let channel ← Builder.fanOutChannel plan given
    let b ← b.openFanOut channel
    let branches ← assembleSubscribers b channel subscribers
    b.finishFanOut branches
  | .scatterGather plan scatter => b.guarded do
    let release ← plan.gather.release.make
    let parts ← scatter.make
    Assembly.ensure (plan.check b.config scatter)
    b.ensureOpen "scatter-gather"
    let gather ← Assembly.implicitChannel
    let scattering ← scatter.assemble b parts gather
    b.finishScatterGather plan release scattering gather
  | .withId id => b.guarded (b.withId id)
  | .withSession session => b.guarded (b.withSession session)
  | .fresh => do
      b.discard
      Builder.new
  | .faulty cause => b.guarded (throw cause)

/-- Carries out steps one after the other. -/
def assembleSteps (b : Builder) : List Step → Assembly Builder
  | [] => return b
  | step :: rest => do
      let b ← step.assemble b
      assembleSteps b rest

/-- Assembles the flow of a destination from the channel that was opened for
it. A target needs nothing. -/
def Destination.assemble (b : Builder) (opening : Opening) :
    Destination → Assembly (List Branch)
  | .target _ => return []
  | .flow steps =>
      match opening with
      | .target _ => return []
      | .seed channel => do
          let nested ← assembleSteps (b.branch channel) steps
          return [← nested.intoBranch]

/-- Makes the channel of a scatter, and assembles what is behind it. -/
def Scatter.assemble (b : Builder) (parts : ScatterParts) (gather : Channel) :
    Scatter → Assembly Scattering
  | .recipients plan members => do
      let channel ← Assembly.implicitChannel
      let branches ← assembleRecipients b (parts.list.openings.map Prod.snd) members
      return { channel, branches,
               list := some (Builder.scatterList plan parts.list gather, plan.id) }
  | .publish plan subscribers => do
      let channel ← Builder.fanOutChannel plan parts.channel
      let branches ← assembleSubscribers b channel subscribers
      return { channel, branches, list := none }

/-- Assembles the flows of a routing table, in declared order. -/
def assembleMappings (b : Builder) : List Opening → List (String × Destination) →
    Assembly (List Branch)
  | opening :: openings, (_, destination) :: rest => do
      let here ← destination.assemble b opening
      let others ← assembleMappings b openings rest
      return here ++ others
  | _, _ => return []

/-- Assembles the flows of recipients, in declared order. -/
def assembleRecipients (b : Builder) :
    List Opening → List (Option String × Destination) → Assembly (List Branch)
  | opening :: openings, (_, destination) :: rest => do
      let here ← destination.assemble b opening
      let others ← assembleRecipients b openings rest
      return here ++ others
  | _, _ => return []

/-- Assembles the side flows of an endpoint, each from its own channel, in
order. -/
def assembleSides (b : Builder) : List Channel → List (ChannelPlan × List Step) →
    Assembly (List Branch)
  | seed :: seeds, (_, steps) :: rest => do
      let nested ← assembleSteps (b.branch seed) steps
      let here ← nested.intoBranch
      let others ← assembleSides b seeds rest
      return here :: others
  | _, _ => return []

/-- Assembles subscribers, all from one channel, in order. -/
def assembleSubscribers (b : Builder) (channel : Channel) :
    List (List Step) → Assembly (List Branch)
  | [] => return []
  | steps :: rest => do
      let nested ← assembleSteps (b.branch channel) steps
      let here ← nested.intoBranch
      let others ← assembleSubscribers b channel rest
      return here :: others

end

/-- A fresh start drops the builder at hand. -/
theorem Step.assemble_fresh (b : Builder) :
    Step.fresh.assemble b = (do b.discard; Builder.new) := by
  rw [assemble]

end FlowAssembly
