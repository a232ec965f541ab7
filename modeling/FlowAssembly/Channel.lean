import FlowAssembly.Duration
import FlowAssembly.Expression
import FlowAssembly.Key

/-!
# Channels

A channel is a point of a flow that messages pass through. The assembler looks
at its key, its id and its kind, and at two marks: whether the assembler made
it (`implicit`), and the handler it was bound to when it was made, which only
a fixed-subscriber channel has.

Copies of a channel are the same channel. What may change after it is made,
its list of interceptors, is therefore not a part of the value: the lists of
all channels are kept together, by key (`Interceptions`).
-/

namespace FlowAssembly

/-- How a channel hands its messages on. -/
inductive ChannelKind where
  | direct
  | queue (capacity : Option Nat)
  | fixedSubscriber
  | publishSubscribe (applySequence ignoreFailures : Bool)
  | executor (pool : String)
  | reactive
deriving DecidableEq, Repr

namespace ChannelKind

/-- The type in labels and generated names. -/
def componentType : ChannelKind → String
  | .direct => "direct-channel"
  | .queue _ => "queue-channel"
  | .fixedSubscriber => "fixed-subscriber-channel"
  | .publishSubscribe .. => "publish-subscribe-channel"
  | .executor _ => "executor-channel"
  | .reactive => "reactive-channel"

def toJson : ChannelKind → Json
  | .direct => .object [("kind", .string "direct")]
  | .queue capacity =>
      .object [("kind", .string "queue"),
        ("capacity", Json.ofOption Json.ofNat capacity)]
  | .fixedSubscriber => .object [("kind", .string "fixed_subscriber")]
  | .publishSubscribe applySequence ignoreFailures =>
      .object [("kind", .string "publish_subscribe"),
        ("apply_sequence", .bool applySequence),
        ("ignore_failures", .bool ignoreFailures)]
  | .executor pool =>
      .object [("kind", .string "executor"), ("executor", .string pool)]
  | .reactive => .object [("kind", .string "reactive")]

end ChannelKind

/-- A handler by its identity, without what it does. -/
structure HandlerTag where
  key : HandlerKey
  componentType : String
deriving DecidableEq, Repr

/-- How errors call the handler. -/
def HandlerTag.label (h : HandlerTag) : String :=
  h.componentType ++ " " ++ h.key.text

/-- The handler that a fixed-subscriber channel was bound to, and the gatherer
inside it if it has one. -/
structure Subscriber where
  handler : HandlerTag
  gatherer : Option HandlerKey
deriving DecidableEq, Repr

/-- A message channel. -/
structure Channel where
  key : ComponentKey
  id : Option String
  kind : ChannelKind
  /-- The payload types it accepts; none given means all. -/
  datatypes : List String
  /-- Whether the assembler made it. -/
  implicit : Bool
  /-- The handler it was bound to when it was made. -/
  subscriber : Option Subscriber
deriving DecidableEq, Repr

namespace Channel

/-- The type in labels and generated names. -/
def componentType (c : Channel) : String :=
  c.kind.componentType

/-- The id in quotes, or else type and key. -/
def label (c : Channel) : String :=
  componentLabel c.id c.componentType c.key

/-- Whether interceptors may be attached: every kind but one carries them. -/
def supportsInterceptors (c : Channel) : Bool :=
  c.kind ≠ .fixedSubscriber

/-- Whether readers fetch messages from it instead of being called. -/
def pollable (c : Channel) : Bool :=
  match c.kind with
  | .queue _ => true
  | _ => false

/-- Whether readers are called with each message. -/
def subscribable (c : Channel) : Bool :=
  !c.pollable

end Channel

/-- Where messages are read from or sent to: a channel, or a name that a
container resolves later. -/
inductive Target where
  | channel (channel : Channel)
  | named (name : String)
deriving DecidableEq, Repr

namespace Target

/-- The channel, unless the target is a name. -/
def channel? : Target → Option Channel
  | .channel c => some c
  | .named _ => none

/-- The name, unless the target is a channel. -/
def name? : Target → Option String
  | .channel _ => none
  | .named name => some name

/-- How labels call the target. -/
def label : Target → String
  | .channel c => c.label
  | .named name => "'" ++ name ++ "'"

end Target

/-- What a flow continues through: a channel, a name, or a marker for a
channel that is made for the next endpoint and bound to its handler. -/
inductive ChannelSource where
  | channel (channel : Channel)
  | named (name : String)
  | fixedSubscriber (id : Option String)
deriving DecidableEq, Repr

namespace ChannelSource

/-- How errors call it. -/
def label : ChannelSource → String
  | .channel c => c.label
  | .named name => "'" ++ name ++ "'"
  | .fixedSubscriber (some id) => "fixed-subscriber '" ++ id ++ "'"
  | .fixedSubscriber none => "fixed-subscriber"

/-- The target that an output can be bound to at once; a marker has none yet. -/
def target? : ChannelSource → Option Target
  | .channel c => some (.channel c)
  | .named name => some (.named name)
  | .fixedSubscriber _ => none

end ChannelSource

/-- A copy of each message, or of those that a selector picks, sent to another
target. -/
structure WireTap where
  target : Target
  selector : Option Expression
  timeout : Option Duration
deriving DecidableEq, Repr

/-- What is attached to a channel: a wire tap, or an interceptor of the
runtime by its name. -/
inductive Interceptor where
  | wireTap (tap : WireTap)
  | custom (name : String)
deriving DecidableEq, Repr

namespace Interceptor

/-- How errors and descriptors call it. -/
def label : Interceptor → String
  | .wireTap tap => "wire-tap -> " ++ tap.target.label
  | .custom name => name

/-- Where a wire tap copies messages to. -/
def tapTarget? : Interceptor → Option Target
  | .wireTap tap => some tap.target
  | .custom _ => none

end Interceptor

/-- The interceptors of every channel, in the order in which they were
attached. -/
abbrev Interceptions := ComponentKey → List Interceptor

end FlowAssembly
