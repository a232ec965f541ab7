import FlowAssembly.ClaimBook
import FlowAssembly.Config
import FlowAssembly.Handler

/-!
# The workshop

What all flows under assembly share: the next free identities, the
interceptors of every channel and the claims of every session. It outlives
each single call, a failed one too: a call that fails returns no flow, but an
interceptor that it attached before it failed stays attached.

`Assembly` is a computation on the workshop that may fail, and that leaves the
workshop as it was at the failure.
-/

namespace FlowAssembly

/-- The state that flows under assembly share. -/
structure Workshop where
  nextComponent : Nat
  nextHandler : Nat
  nextSession : Nat
  nextFlow : Nat
  claims : ClaimBook := {}
  /-- Every interceptor with the channel it was attached to, in order. -/
  attached : List (ComponentKey × Interceptor) := []
deriving Repr

/-- A step of assembly. -/
abbrev Assembly := ExceptT Refusal (StateM Workshop)

namespace Workshop

/-- A workshop in which nothing was made yet, with the numbers that its
identities start from. -/
def start (firstComponent firstHandler : Nat) : Workshop where
  nextComponent := firstComponent
  nextHandler := firstHandler
  nextSession := 1
  nextFlow := 1

/-- The interceptors of each channel, in the order in which they were
attached. -/
def interceptors (w : Workshop) : Interceptions := fun key =>
  w.attached.filterMap fun (channel, interceptor) =>
    if channel = key then some interceptor else none

end Workshop

namespace Assembly

/-- Fails with an error of the assembler. -/
def fail (cause : FlowError) : Assembly α :=
  throw (.flow cause)

/-- An identity for a new component. -/
def newComponentKey : Assembly ComponentKey :=
  modifyGet fun w =>
    (⟨w.nextComponent⟩, { w with nextComponent := w.nextComponent + 1 })

/-- A handler with an identity of its own. -/
def newHandler (behaviour : Behaviour) : Assembly Handler :=
  modifyGet fun w =>
    (⟨⟨w.nextHandler⟩, behaviour⟩, { w with nextHandler := w.nextHandler + 1 })

/-- A session without claims. -/
def newSession : Assembly SessionId :=
  modifyGet fun w => (⟨w.nextSession⟩, { w with nextSession := w.nextSession + 1 })

/-- A flow id that no other flow was given. -/
def newFlowId (config : Config) : Assembly String :=
  modifyGet fun w =>
    (config.flowId w.nextFlow, { w with nextFlow := w.nextFlow + 1 })

/-- A channel of the assembler's own. -/
def implicitChannel : Assembly Channel := do
  let key ← newComponentKey
  return { key, id := none, kind := .direct, datatypes := [], implicit := true,
           subscriber := none }

/-- A channel that is bound to a handler. -/
def boundChannel (id : Option String) (handler : Handler) : Assembly Channel := do
  let key ← newComponentKey
  let subscriber := some handler.subscriber
  return { key, id, kind := .fixedSubscriber, datatypes := [],
           implicit := false, subscriber }

/-- A channel of the caller's. -/
def explicitChannel (kind : ChannelKind) (id : Option String)
    (datatypes : List String) : Assembly Channel := do
  let key ← newComponentKey
  return { key, id, kind, datatypes, implicit := false, subscriber := none }

/-- Attaches an interceptor to a channel. -/
def attach (channel : Channel) (interceptor : Interceptor) : Assembly Unit :=
  modify fun w => { w with attached := w.attached ++ [(channel.key, interceptor)] }

/-- Attaches an interceptor, if the channel can carry any. -/
def addInterceptor (channel : Channel) (interceptor : Interceptor) :
    Assembly Unit :=
  if channel.supportsInterceptors then attach channel interceptor
  else fail (.interceptorsNotSupported channel.label)

/-- Passes on the failure of a check. -/
def ensure : Except FlowError Unit → Assembly Unit
  | .ok _ => return ()
  | .error cause => fail cause

/-- Reads an expression, or fails. -/
def parse (text : String) : Assembly Expression :=
  match Expression.parse text with
  | .ok expression => return expression
  | .error cause => fail (.expression cause)

/-- Reads an expression if there is one. -/
def parseOptional : Option String → Assembly (Option Expression)
  | some text => some <$> parse text
  | none => return none

/-- Changes the claims, or fails and leaves them. -/
def updateClaims (change : ClaimBook → Except FlowError ClaimBook) :
    Assembly Unit := do
  match change (← get).claims with
  | .ok claims => modify fun w => { w with claims }
  | .error cause => fail cause

/-- Claims a handler for a flow, or fails. -/
def claim (session : SessionId) (handler : Handler) (owner : String) :
    Assembly Unit :=
  updateClaims fun book => book.claim session handler.tag owner

/-- Moves the claims of a flow into another session and says how many they
were, or fails and leaves them all. -/
def transferClaims (source target : SessionId) (owner : String) : Assembly Nat := do
  let moving := (← get).claims.ownedBy source owner
  updateClaims fun book => book.transfer source target owner
  return if source = target then 0 else moving.length

/-- Releases the claims of a flow. -/
def release (session : SessionId) (owner : String) : Assembly Unit :=
  modify fun w => { w with claims := w.claims.release session owner }

end Assembly

end FlowAssembly
