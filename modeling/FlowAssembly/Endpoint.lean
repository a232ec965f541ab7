import FlowAssembly.Handler

/-!
# Endpoints and sources

An endpoint ties one handler to the target it reads from and, where something
follows it, to the target it writes to. A source starts a flow: it only
writes. Both carry settings for the runtime that the assembler records and
does not interpret.
-/

namespace FlowAssembly

/-- How the runtime starts a component. -/
structure Lifecycle where
  autoStartup : Bool := true
  phase : Int := 0
  role : Option String := none
deriving DecidableEq, Repr

def Lifecycle.toJson (l : Lifecycle) : Json :=
  .object [("auto_startup", .bool l.autoStartup),
    ("phase", .number (.integer l.phase)),
    ("role", Json.ofOption Json.string l.role)]

/-- Advice around a handler's work. -/
inductive Advice where
  | retry (maxAttempts : Nat) (backoff : Duration)
  | circuitBreaker (threshold : Nat) (halfOpenAfter : Duration)
  | expressionEvaluating (onSuccess onFailure : Option String)
  | custom (name : String)
deriving DecidableEq, Repr

def Advice.toJson : Advice → Json
  | .retry maxAttempts backoff =>
      .object [("advice", .string "retry"), ("max_attempts", .ofNat maxAttempts),
        ("backoff", backoff.toJson)]
  | .circuitBreaker threshold halfOpenAfter =>
      .object [("advice", .string "circuit_breaker"),
        ("threshold", .ofNat threshold), ("half_open_after", halfOpenAfter.toJson)]
  | .expressionEvaluating onSuccess onFailure =>
      .object [("advice", .string "expression_evaluating"),
        ("on_success", Json.ofOption Json.string onSuccess),
        ("on_failure", Json.ofOption Json.string onFailure)]
  | .custom name => .object [("advice", .string "custom"), ("name", .string name)]

/-- When a poll happens. -/
inductive Trigger where
  | fixedDelay (delay : Duration)
  | fixedRate (period : Duration)
  | cron (schedule : String)
deriving DecidableEq, Repr

def Trigger.toJson : Trigger → Json
  | .fixedDelay delay =>
      .object [("trigger", .string "fixed_delay"), ("value", delay.toJson)]
  | .fixedRate period =>
      .object [("trigger", .string "fixed_rate"), ("value", period.toJson)]
  | .cron schedule =>
      .object [("trigger", .string "cron"), ("value", .string schedule)]

/-- How messages are fetched from a channel or a source that does not push
them. -/
structure Poller where
  trigger : Trigger
  maxMessages : Option Nat := none
  receiveTimeout : Option Duration := none
deriving DecidableEq, Repr

def Poller.toJson (p : Poller) : Json :=
  .object [("trigger", p.trigger.toJson),
    ("max_messages_per_poll", Json.ofOption Json.ofNat p.maxMessages),
    ("receive_timeout", Json.ofOption Duration.toJson p.receiveTimeout)]

/-- A handler that reads from a channel. -/
structure Endpoint where
  key : ComponentKey
  id : Option String
  handler : Handler
  input : Target
  /-- Where replies go; with none they go where the message asks. -/
  output : Option Target
  lifecycle : Lifecycle
  advice : List Advice
  poller : Option Poller

namespace Endpoint

def componentType (e : Endpoint) : String :=
  e.handler.componentType

/-- How errors call it. -/
def label (e : Endpoint) : String :=
  componentLabel e.id e.componentType e.key

end Endpoint

/-- How a source delivers its messages. -/
inductive SourceMode where
  | polling (poller : Poller)
  | messageDriven
deriving DecidableEq, Repr

/-- What produces messages of its own accord. -/
structure Source where
  key : ComponentKey
  id : Option String
  componentType : String
  mode : SourceMode
  output : Option Target
  lifecycle : Lifecycle
deriving DecidableEq, Repr

namespace Source

/-- How errors call it. -/
def label (s : Source) : String :=
  componentLabel s.id s.componentType s.key

end Source

end FlowAssembly
