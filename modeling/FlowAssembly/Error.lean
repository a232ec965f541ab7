import FlowAssembly.Expression

/-!
# Assembly errors

Every way in which assembling a flow can fail. An error names the component or
option at fault by its label; what a caller shows of it is its message, its
diagnostic code and, for most errors, a line of advice.

A call can also be refused for what its caller wrote, before any rule of flows
is asked: it uses a name that nothing has, or asks for what makes no sense.
-/

namespace FlowAssembly

/-- Why a flow cannot be assembled. -/
inductive FlowError where
  /-- Nothing was registered before the end of the flow. -/
  | emptyFlow (flow : String)
  /-- The flow is a bare channel, or ends on one where that is forbidden. -/
  | danglingChannel (channel : String)
  /-- No endpoint followed a fixed-subscriber marker. -/
  | unboundFixedSubscriber (channel : String)
  /-- Something was attached after a handler that never replies. -/
  | oneWayHandler (handler attempted : String)
  /-- A reply-producing handler was wired twice in one session. -/
  | replyProducerReused (handler owner : String)
  /-- Two options that exclude each other were both set. -/
  | mutuallyExclusiveOptions (component first second : String)
  /-- A routing key was mapped twice. -/
  | duplicateRouteKey (component key : String)
  /-- A router, recipient list or scatter has no branch. -/
  | emptyBranchSet (component : String)
  /-- A source was never given an output. -/
  | sourceWithoutOutput (source : String)
  /-- A handler that must reply was left without an output. -/
  | outputRequired (handler : String)
  /-- The flow has no channel to serve as its input. -/
  | noInputChannel (flow : String)
  /-- Interceptors were asked of a channel that cannot carry them. -/
  | interceptorsNotSupported (channel : String)
  /-- An endpoint with a poller reads a channel that cannot be polled. -/
  | pollerOnSubscribableChannel (endpoint channel : String)
  /-- An endpoint reads a channel that is not registered ahead of it. -/
  | inputNotRegistered (endpoint channel : String)
  /-- Two channels are registered with no endpoint between them. -/
  | adjacentChannels (first second : String)
  /-- A scatter-gather may not wait for zero time. -/
  | invalidGatherTimeout (component : String)
  /-- The container has no channel of a referenced name. -/
  | unresolvedReference (name expected : String)
  /-- An expression given to an option is not a path. -/
  | expression (cause : ExpressionError)
deriving DecidableEq, Repr

/-- Why a call is refused. -/
inductive Refusal where
  /-- The flow cannot be assembled. -/
  | flow (cause : FlowError)
  /-- Nothing has the given name. -/
  | unknownName
  /-- The call makes no sense, or what has the given name is of another kind
  than the call is for. -/
  | unsuitable
deriving DecidableEq, Repr

namespace FlowError

/-- The text of an error. -/
def message : FlowError → String
  | .emptyFlow flow => "flow '" ++ flow ++ "' has no components"
  | .danglingChannel channel =>
      "channel " ++ channel ++
        " is dangling: a flow cannot consist of a bare channel"
  | .unboundFixedSubscriber channel =>
      "fixed-subscriber channel " ++ channel ++ " was never bound to a handler"
  | .oneWayHandler handler attempted =>
      "cannot attach " ++ attempted ++ " downstream of one-way handler " ++ handler
  | .replyProducerReused handler owner =>
      "reply-producing handler " ++ handler ++ " is already wired into flow '" ++
        owner ++ "'"
  | .mutuallyExclusiveOptions component first second =>
      component ++ ": options '" ++ first ++ "' and '" ++ second ++
        "' are mutually exclusive"
  | .duplicateRouteKey component key =>
      component ++ ": route key '" ++ key ++ "' is mapped more than once"
  | .emptyBranchSet component => component ++ " declares no branches"
  | .sourceWithoutOutput source =>
      "source " ++ source ++ " has no output destination"
  | .outputRequired handler =>
      "handler " ++ handler ++ " requires an output channel but none was wired"
  | .noInputChannel flow => "flow '" ++ flow ++ "' has no input channel"
  | .interceptorsNotSupported channel =>
      "channel " ++ channel ++ " does not support interceptors"
  | .pollerOnSubscribableChannel endpoint channel =>
      "endpoint " ++ endpoint ++ " has a poller but its input channel " ++
        channel ++ " is not pollable"
  | .inputNotRegistered endpoint channel =>
      "endpoint " ++ endpoint ++ " consumes channel " ++ channel ++
        ", which is not registered ahead of it"
  | .adjacentChannels first second =>
      "channels " ++ first ++ " and " ++ second ++ " are registered back to back"
  | .invalidGatherTimeout component =>
      component ++ ": gather timeout must be greater than zero"
  | .unresolvedReference name expected =>
      "channel reference '" ++ name ++ "' could not be resolved (expected " ++
        expected ++ ")"
  | .expression cause => cause.message

/-- The code that an error is known by. -/
def code : FlowError → String
  | .emptyFlow .. => "wireflow::flow::empty"
  | .danglingChannel .. => "wireflow::flow::dangling_channel"
  | .unboundFixedSubscriber .. => "wireflow::flow::unbound_fixed_subscriber"
  | .oneWayHandler .. => "wireflow::flow::one_way_handler"
  | .replyProducerReused .. => "wireflow::flow::reply_producer_reused"
  | .mutuallyExclusiveOptions .. => "wireflow::flow::mutually_exclusive"
  | .duplicateRouteKey .. => "wireflow::flow::duplicate_route_key"
  | .emptyBranchSet .. => "wireflow::flow::empty_branch_set"
  | .sourceWithoutOutput .. => "wireflow::flow::source_without_output"
  | .outputRequired .. => "wireflow::flow::output_required"
  | .noInputChannel .. => "wireflow::flow::no_input_channel"
  | .interceptorsNotSupported .. => "wireflow::flow::interceptors_not_supported"
  | .pollerOnSubscribableChannel .. => "wireflow::flow::poller_on_subscribable"
  | .inputNotRegistered .. => "wireflow::flow::input_not_registered"
  | .adjacentChannels .. => "wireflow::flow::adjacent_channels"
  | .invalidGatherTimeout .. => "wireflow::flow::invalid_gather_timeout"
  | .unresolvedReference .. => "wireflow::flow::unresolved_reference"
  | .expression cause => cause.code

/-- What to do about an error, where there is something to say. -/
def help? : FlowError → Option String
  | .emptyFlow .. => some "Append at least one endpoint before calling finalize()."
  | .danglingChannel .. =>
      some ("Attach an endpoint after the channel; the minimum flow is a " ++
        "channel (or source) plus an endpoint.")
  | .unboundFixedSubscriber .. =>
      some "A fixed-subscriber channel binds to the very next endpoint; append one."
  | .oneWayHandler .. =>
      some ("One-way handlers terminate a chain; start a new flow or use a " ++
        "producing handler.")
  | .replyProducerReused .. =>
      some ("Reply producers are single-assignment; create a new handler " ++
        "instance per endpoint.")
  | .sourceWithoutOutput .. =>
      some "Append a channel or endpoint after from_source()."
  | .interceptorsNotSupported .. =>
      some ("Fixed-subscriber channels and named channel references cannot be " ++
        "intercepted.")
  | .adjacentChannels .. =>
      some ("every channel must be followed by an endpoint; insert a bridge " ++
        "between them")
  | .expression cause => cause.help?
  | _ => none

end FlowError

end FlowAssembly
