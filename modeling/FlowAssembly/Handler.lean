import FlowAssembly.Channel

/-!
# Handlers

A handler is what an endpoint does with a message. To the assembler it is
three facts: whether it produces replies, and so needs an output; whether it
must have one; and the targets it sends to by itself. A handler has an
identity: one that produces replies may be wired into one endpoint of a
session only.

Routers, recipient lists and scatter-gathers are made by the assembler, which
fills in the channels that it made for their branches.
-/

namespace FlowAssembly

/-- A handler made of a function. -/
structure Service where
  name : String
  function : Message → Option Message
  producesReplies : Bool
  requiresReply : Bool

/-- Lets messages through that its selector accepts. -/
structure Filter where
  selector : Expression
  /-- The name of the channel that refused messages go to. -/
  discard : Option String
  throwOnRejection : Bool

/-- Splits a message into a sequence. -/
structure Splitter where
  expression : Option Expression
  applySequence : Bool

/-- What messages are grouped by. -/
inductive Correlation where
  /-- The correlation header. -/
  | implicit
  | expression (expression : Expression)

/-- When a group is complete. -/
inductive Release where
  | sequenceComplete
  | count (n : Nat)
  | expression (expression : Expression)

/-- Collects groups of messages into one. -/
structure Aggregator where
  correlation : Correlation
  release : Release
  groupTimeout : Option Duration
  sendPartialOnExpiry : Bool
  expireGroupsUponCompletion : Bool

/-- Adds headers to each message. -/
structure Enricher where
  headers : List (String × Json)
  overwrite : Bool

/-- How serious a logged message is. -/
inductive LogLevel where
  | trace
  | debug
  | info
  | warn
  | error
deriving DecidableEq, Repr

namespace LogLevel

def names : List (String × LogLevel) :=
  [("trace", .trace), ("debug", .debug), ("info", .info), ("warn", .warn),
    ("error", .error)]

def name : LogLevel → String
  | .trace => "trace"
  | .debug => "debug"
  | .info => "info"
  | .warn => "warn"
  | .error => "error"

/-- The level when none is given. -/
def standard : LogLevel := .info

def ofJson? (value : Json) : Option LogLevel :=
  Json.choice? names value

end LogLevel

/-- Logs messages and ends the chain. -/
structure Logger where
  level : LogLevel
  category : Option String
  expression : Option Expression

/-- How a router finds the key of a message. -/
inductive RouteStrategy where
  | expression (expression : Expression)
  | header (name : String)
  | function (name : String) (function : Message → Option String)

/-- Sends each message where its key leads. -/
structure Router where
  strategy : RouteStrategy
  /-- The keys with their targets, in declared order. -/
  mappings : List (String × Target)
  /-- What a derived channel name has before the key. -/
  lead : Option String
  /-- What a derived channel name has after the key. -/
  trail : Option String
  defaultOutput : Option Target
  resolutionRequired : Bool
  applySequence : Bool

namespace Router

/-- The target declared for a key. -/
def targetFor? (r : Router) (key : String) : Option Target :=
  r.mappings.lookup key

/-- The channel name made of a key, if the router derives names. -/
def derivedName? (r : Router) (key : String) : Option String :=
  if r.lead.isNone && r.trail.isNone then none
  else some (r.lead.getD "" ++ key ++ r.trail.getD "")

end Router

/-- One receiver of a recipient list; without a selector it gets every
message. -/
structure Recipient where
  selector : Option Expression
  target : Target

/-- Sends each message to every recipient that wants it. -/
structure RecipientList where
  recipients : List Recipient
  defaultOutput : Option Target
  applySequence : Bool
  ignoreSendFailures : Bool

/-- The aggregator inside a scatter-gather, with its identity. -/
structure Gatherer where
  key : HandlerKey
  aggregator : Aggregator

/-- Scatters a request, gathers the replies and goes on with one reply. -/
structure ScatterGather where
  scatter : Channel
  gather : Channel
  gatherer : Gatherer
  timeout : Duration
  errorChannel : Option String

/-- A handler of the caller's own. -/
structure CustomHandler where
  componentType : String
  producesReplies : Bool
  requiresReply : Bool
  routeTargets : List Target

/-- What a handler does. -/
inductive Behaviour where
  | bridge
  | service (service : Service)
  /-- Applies an expression, or else a function. -/
  | transformer (expression : Option Expression)
  | filter (filter : Filter)
  | splitter (splitter : Splitter)
  | aggregator (aggregator : Aggregator)
  | enricher (enricher : Enricher)
  | logger (logger : Logger)
  | router (router : Router)
  | recipientList (list : RecipientList)
  | scatterGather (scatterGather : ScatterGather)
  | custom (custom : CustomHandler)

namespace Behaviour

/-- The type in labels and generated names. -/
def componentType : Behaviour → String
  | .bridge => "bridge"
  | .service _ => "service-activator"
  | .transformer _ => "transformer"
  | .filter _ => "filter"
  | .splitter _ => "splitter"
  | .aggregator _ => "aggregator"
  | .enricher _ => "header-enricher"
  | .logger _ => "logging-handler"
  | .router _ => "router"
  | .recipientList _ => "recipient-list-router"
  | .scatterGather _ => "scatter-gather"
  | .custom h => h.componentType

/-- Whether messages come out of it. -/
def producesReplies : Behaviour → Bool
  | .service s => s.producesReplies
  | .custom h => h.producesReplies
  | .logger _ | .router _ | .recipientList _ => false
  | _ => true

/-- Whether it may not be left without an output. -/
def requiresReply : Behaviour → Bool
  | .service s => s.requiresReply
  | .custom h => h.requiresReply
  | _ => false

/-- The targets it sends to by itself, in order. -/
def routeTargets : Behaviour → List Target
  | .filter f => f.discard.toList.map Target.named
  | .router r => r.mappings.map Prod.snd ++ r.defaultOutput.toList
  | .recipientList l => l.recipients.map Recipient.target ++ l.defaultOutput.toList
  | .scatterGather s => [.channel s.scatter]
  | .custom h => h.routeTargets
  | _ => []

/-- The handler inside it, if it has one. -/
def gatherer? : Behaviour → Option HandlerKey
  | .scatterGather s => some s.gatherer.key
  | _ => none

end Behaviour

/-- A handler: what it does and who it is. -/
structure Handler where
  key : HandlerKey
  behaviour : Behaviour

namespace Handler

def componentType (h : Handler) : String :=
  h.behaviour.componentType

def producesReplies (h : Handler) : Bool :=
  h.behaviour.producesReplies

def requiresReply (h : Handler) : Bool :=
  h.behaviour.requiresReply

def routeTargets (h : Handler) : List Target :=
  h.behaviour.routeTargets

/-- Who the handler is, and its type. -/
def tag (h : Handler) : HandlerTag :=
  ⟨h.key, h.componentType⟩

/-- How errors call it. -/
def label (h : Handler) : String :=
  h.tag.label

/-- What a channel bound to it records. -/
def subscriber (h : Handler) : Subscriber :=
  ⟨h.tag, h.behaviour.gatherer?⟩

end Handler

/-- The aggregator of a scatter-gather as a handler of its own. -/
def Gatherer.handler (g : Gatherer) : Handler :=
  ⟨g.key, .aggregator g.aggregator⟩

end FlowAssembly
