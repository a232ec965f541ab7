import FlowAssembly.Builder.Routing

/-!
# Scatter-gather

A scatter-gather sends a request out over a scatter channel, to the recipients
of a list or to the subscribers of a fan-out, and every open branch answers
into one gather channel, where an aggregator collects the replies. It
registers in this order: its own endpoint, the scatter channel, the recipient
list if it has one, the branches, the gather channel, the gatherer. The flow
then goes on behind the endpoint, as behind any handler that replies; the
gatherer answers by a header of the message and stays without an output.
-/

namespace FlowAssembly

namespace ScatterGatherPlan

/-- How errors call the scatter-gather. -/
def label (plan : ScatterGatherPlan) : String :=
  match plan.id with
  | some id => "scatter-gather '" ++ id ++ "'"
  | none => "scatter-gather"

/-- How long it waits: the time of the plan, or the configured one. -/
def wait (plan : ScatterGatherPlan) (config : Config) : Duration :=
  plan.timeout.getD config.gatherTimeout

/-- Checks that it waits for some time and has something to scatter to. -/
def check (plan : ScatterGatherPlan) (config : Config) (scatter : Scatter) :
    Except FlowError Unit :=
  if (plan.wait config).isZero then .error (.invalidGatherTimeout plan.label)
  else
    match scatter with
    | .recipients list recipients => list.check recipients
    | .publish _ subscribers =>
        if subscribers.isEmpty then .error (.emptyBranchSet plan.label) else .ok ()

end ScatterGatherPlan

/-- The arguments of a scatter, made: those of its list, and the channel that
a fan-out was given. -/
structure ScatterParts where
  list : RecipientParts
  channel : Option Channel

/-- Makes the arguments of a scatter. -/
def Scatter.make : Scatter → Assembly ScatterParts
  | .recipients plan members => do
      let list ← plan.make members
      return { list, channel := none }
  | .publish plan _ => do
      let channel ← plan.channel.mapM ChannelPlan.make
      return { list := { openings := [], default := none }, channel }

/-- A scatter under assembly: its channel, its branches, and the recipient
list that reads the channel if there is one, with the list's id. -/
structure Scattering where
  channel : Channel
  branches : List Branch
  list : Option (RecipientList × Option String)

namespace Builder

/-- The recipient list of a scatter. Unmatched messages that go on in the
parent flow go to the gather channel. -/
def scatterList (plan : RecipientsPlan) (parts : RecipientParts)
    (gather : Channel) : RecipientList :=
  { recipients := parts.recipients
    defaultOutput := parts.default.map fun
      | .target given => given
      | .parentFlow => .channel gather
    applySequence := plan.applySequence
    ignoreSendFailures := plan.ignoreSendFailures }

/-- Registers a scatter behind its endpoint: the channel, the list, the
branches. -/
def registerScatter (b : Builder) (scattering : Scattering)
    (branches : List Branch) : Assembly Builder := do
  let b := { b with registry := b.registry.add (.channel scattering.channel) }
  let b ← match scattering.list with
    | some (list, id) => do
        let handler ← Assembly.newHandler (.recipientList list)
        let b :=
          { b with
            cursor := { b.cursor with
              channel := some (.channel scattering.channel) } }
        b.attach { handler, id }
    | none => pure b
  return b.absorb branches

/-- Appends a scatter-gather whose branches are assembled. -/
def finishScatterGather (b : Builder) (plan : ScatterGatherPlan) (release : Release)
    (scattering : Scattering) (gather : Channel) : Assembly Builder := do
  let branches ← b.converge scattering.branches gather
  let aggregator : Aggregator :=
    { correlation := .implicit
      release
      groupTimeout := plan.gather.groupTimeout
      sendPartialOnExpiry := plan.gather.sendPartialOnExpiry
      expireGroupsUponCompletion := true }
  let gatherer ← Assembly.newHandler (.aggregator aggregator)
  let handler ← Assembly.newHandler (.scatterGather
    { scatter := scattering.channel
      gather
      gatherer := ⟨gatherer.key, aggregator⟩
      timeout := plan.wait b.config
      errorChannel := some (plan.errorChannel.getD b.config.errorChannel) })
  let b ← b.attach { handler, id := plan.id }
  let resume := b.cursor
  let b := { b with cursor := { b.cursor with tail := none, pending := none } }
  let b ← b.registerScatter scattering branches
  let b := { b with registry := b.registry.add (.channel gather) }
  let b ← (b.continueFrom (.channel gather)).attach { handler := gatherer }
  return { b with
    cursor := { b.cursor with tail := resume.tail, pending := resume.pending,
                              channel := none } }

end Builder

end FlowAssembly
