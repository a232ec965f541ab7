import FlowAssembly.Endpoint
import FlowAssembly.Workshop

/-!
# Plans

A plan says what a caller wants before anything is made: which channels and
handlers to use or to make, with their expressions still as text, and which
steps to take in which order. The steps of a flow are a list; a step that
branches holds the steps of each branch, so a whole flow, however deep it
nests, is one value.

Making a channel or a handler of a plan (`make`) gives it its identity and
parses its expressions. The plan of a branch is not looked at before the
branch is assembled, so a fault in it comes out only then.

A plan can be faulty in a place where its caller used a name that nothing has,
or wrote what makes no sense. The fault ends the step when its place is
reached, so an earlier fault of the same step comes first.
-/

namespace FlowAssembly

mutual

/-- A channel that exists, or one to make. -/
inductive ChannelPlan where
  | existing (channel : Channel)
  | new (kind : ChannelKind) (id : Option String) (datatypes : List String)
      (interceptors : List InterceptorPlan)
  | faulty (cause : Refusal)

/-- A channel or a name. -/
inductive TargetPlan where
  | channel (channel : ChannelPlan)
  | named (name : String)

/-- An interceptor of the runtime, or a wire tap with its selector as text. -/
inductive InterceptorPlan where
  | custom (name : String)
  | wireTap (target : TargetPlan) (selector : Option String)
      (timeout : Option Duration)

end

mutual

/-- Makes the channel of a plan. A fixed-subscriber channel is made without
its interceptors. -/
def ChannelPlan.make : ChannelPlan → Assembly Channel
  | .existing channel => return channel
  | .new kind id datatypes plans => do
      let interceptors ← InterceptorPlan.makeAll plans
      let channel ← Assembly.explicitChannel kind id datatypes
      if channel.supportsInterceptors then
        interceptors.forM (Assembly.attach channel)
      return channel
  | .faulty cause => throw cause

/-- Makes the target of a plan. -/
def TargetPlan.make : TargetPlan → Assembly Target
  | .channel plan => Target.channel <$> plan.make
  | .named name => return .named name

/-- Makes the interceptor of a plan: its target first, then its selector. -/
def InterceptorPlan.make : InterceptorPlan → Assembly Interceptor
  | .custom name => return .custom name
  | .wireTap target selector timeout => do
      let target ← target.make
      let selector ← Assembly.parseOptional selector
      return .wireTap { target, selector, timeout }

/-- Makes interceptors, in order. -/
def InterceptorPlan.makeAll : List InterceptorPlan → Assembly (List Interceptor)
  | [] => return []
  | plan :: rest => do
      let interceptor ← plan.make
      let others ← InterceptorPlan.makeAll rest
      return interceptor :: others

end

/-- What a flow continues through. -/
inductive SourcePlan where
  | channel (channel : ChannelPlan)
  | named (name : String)
  | fixedSubscriber (id : Option String)

/-- Makes what a flow goes on from. -/
def SourcePlan.make : SourcePlan → Assembly ChannelSource
  | .channel plan => ChannelSource.channel <$> plan.make
  | .named name => return .named name
  | .fixedSubscriber id => return .fixedSubscriber id

/-- When a group is complete, with an expression as text. -/
inductive ReleasePlan where
  | sequenceComplete
  | count (n : Nat)
  | expression (text : String)
  | faulty (cause : Refusal)

/-- Makes when a group is complete. -/
def ReleasePlan.make : ReleasePlan → Assembly Release
  | .sequenceComplete => return .sequenceComplete
  | .count n => return .count n
  | .expression text => Release.expression <$> Assembly.parse text
  | .faulty cause => throw cause

/-- A handler that exists, or one to make, with its expressions as text. -/
inductive HandlerPlan where
  | existing (handler : Handler)
  | bridge
  | service (service : Service)
  | transformer (expression : Option String)
  | filter (selector : String) (discard : Option String) (throwOnRejection : Bool)
  | splitter (expression : Option String) (applySequence : Bool)
  | aggregator (correlation : Option String) (release : ReleasePlan)
      (groupTimeout : Option Duration)
      (sendPartialOnExpiry expireGroupsUponCompletion : Bool)
  | enricher (enricher : Enricher)
  | logger (level : LogLevel) (category expression : Option String)
  | custom (componentType : String) (producesReplies requiresReply : Bool)
      (routeTargets : List TargetPlan)
  | faulty (cause : Refusal)

/-- Makes a handler, or takes the one that the caller has. -/
def HandlerPlan.make : HandlerPlan → Assembly Handler
  | .existing handler => return handler
  | .bridge => Assembly.newHandler .bridge
  | .service s => Assembly.newHandler (.service s)
  | .transformer text => do
      let expression ← Assembly.parseOptional text
      Assembly.newHandler (.transformer expression)
  | .filter selector discard throwOnRejection => do
      let selector ← Assembly.parse selector
      Assembly.newHandler (.filter { selector, discard, throwOnRejection })
  | .splitter text applySequence => do
      let expression ← Assembly.parseOptional text
      Assembly.newHandler (.splitter { expression, applySequence })
  | .aggregator correlation release groupTimeout sendPartialOnExpiry
      expireGroupsUponCompletion => do
        let correlation := match ← Assembly.parseOptional correlation with
          | some expression => Correlation.expression expression
          | none => Correlation.implicit
        let release ← release.make
        Assembly.newHandler
          (.aggregator { correlation, release, groupTimeout, sendPartialOnExpiry,
                         expireGroupsUponCompletion })
  | .enricher e => Assembly.newHandler (.enricher e)
  | .logger level category text => do
      let expression ← Assembly.parseOptional text
      Assembly.newHandler (.logger { level, category, expression })
  | .custom componentType producesReplies requiresReply targets => do
      let routeTargets ← targets.mapM TargetPlan.make
      Assembly.newHandler
        (.custom { componentType, producesReplies, requiresReply, routeTargets })
  | .faulty cause => throw cause

/-- An endpoint to append. -/
structure EndpointPlan where
  handler : HandlerPlan
  id : Option String := none
  lifecycle : Lifecycle := {}
  advice : List Advice := []
  poller : Option Poller := none

/-- The selector and the timeout of a wire tap. -/
structure TapPlan where
  selector : Option String := none
  timeout : Option Duration := none

/-- How a router finds the key of a message, with an expression as text. -/
inductive StrategyPlan where
  | expression (text : String)
  | header (name : String)
  | function (name : String) (function : Message → Option String)

/-- Makes how a router finds the key of a message. -/
def StrategyPlan.make : StrategyPlan → Assembly RouteStrategy
  | .expression text => RouteStrategy.expression <$> Assembly.parse text
  | .header name => return .header name
  | .function name compute => return .function name compute

/-- Where unmatched messages go: on in the flow that the router stands in, or
to a target. -/
inductive DefaultPlan where
  | parentFlow
  | target (target : TargetPlan)

/-- The options of a router, apart from its mappings. -/
structure RouterPlan where
  strategy : StrategyPlan
  id : Option String := none
  lead : Option String := none
  trail : Option String := none
  default : Option DefaultPlan := none
  resolutionRequired : Bool := true
  applySequence : Bool := false

/-- The options of a recipient list, apart from its recipients. -/
structure RecipientsPlan where
  id : Option String := none
  default : Option DefaultPlan := none
  applySequence : Bool := false
  ignoreSendFailures : Bool := false

/-- The options of a fan-out, apart from its subscribers; with no channel
given, one is made. -/
structure FanOutPlan where
  channel : Option ChannelPlan := none
  applySequence : Bool := false
  ignoreFailures : Bool := false

/-- How the replies of a scatter are gathered. -/
structure GatherPlan where
  release : ReleasePlan := .sequenceComplete
  groupTimeout : Option Duration := none
  sendPartialOnExpiry : Bool := false

/-- The options of a scatter-gather, apart from its scatter. -/
structure ScatterGatherPlan where
  id : Option String := none
  gather : GatherPlan := {}
  timeout : Option Duration := none
  errorChannel : Option String := none

mutual

/-- Where a key, a recipient or a tap leads: to a target, or into a flow of
its own. -/
inductive Destination where
  | target (target : TargetPlan)
  | flow (steps : List Step)

/-- How a request is scattered. -/
inductive Scatter where
  | recipients (plan : RecipientsPlan)
      (recipients : List (Option String × Destination))
  | publish (plan : FanOutPlan) (subscribers : List (List Step))

/-- One step of a flow. -/
inductive Step where
  /-- Continues through a channel, a name or a marker. -/
  | channel (source : SourcePlan)
  /-- Appends an endpoint; each side flow starts at a channel that the handler
  sends to by itself. -/
  | endpoint (plan : EndpointPlan) (sides : List (ChannelPlan × List Step))
  /-- Taps the current channel. -/
  | wireTap (plan : TapPlan) (destination : Destination)
  /-- Attaches an interceptor to the current channel. -/
  | intercept (interceptor : InterceptorPlan)
  /-- Appends a router with the destination of each key. -/
  | route (plan : RouterPlan) (mappings : List (String × Destination))
  /-- Appends a recipient list; a recipient may have a selector. -/
  | routeToRecipients (plan : RecipientsPlan)
      (recipients : List (Option String × Destination))
  /-- Fans out to subscribers; the flow goes on as one more of them. -/
  | publishSubscribe (plan : FanOutPlan) (subscribers : List (List Step))
  /-- Appends a scatter-gather. -/
  | scatterGather (plan : ScatterGatherPlan) (scatter : Scatter)
  /-- Renames the flow. -/
  | withId (id : String)
  /-- Moves the flow into a session. -/
  | withSession (session : SessionId)
  /-- Throws the flow away and goes on with a new one: an empty one with the
  default configuration, which takes a flow id and a session of its own. A new
  flow that starts with a configuration, a channel or a source of its own is
  left out. -/
  | fresh
  /-- Does nothing but fail. -/
  | faulty (cause : Refusal)

end

namespace Destination

/-- Whether it is a flow of its own. -/
def isFlow : Destination → Bool
  | .flow _ => true
  | .target _ => false

end Destination

namespace Step

/-- Appends an endpoint that has only a handler. -/
def handle (handler : HandlerPlan) : Step :=
  .endpoint { handler } []

/-- Taps the current channel into a flow that logs its messages. -/
def log (level : LogLevel) (category : Option String) : Step :=
  .wireTap {} (.flow [handle (.logger level category none)])

end Step

end FlowAssembly
