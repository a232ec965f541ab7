import FlowAssembly.Error
import FlowAssembly.Channel

/-!
# Claims on reply producers

A handler that produces replies answers into one place, so a session lets it
be wired once. Wiring it records a claim: the session, the handler and the
flow that owns the claim. Owners are flow ids, compared as texts.

One book holds the claims of all sessions. A claim counts only as long as
something still holds its handler; which handlers are held is known to whoever
holds them, and `retain` drops the claims on the others.
-/

namespace FlowAssembly

/-- A handler wired into a flow of a session. -/
structure Claim where
  session : SessionId
  handler : HandlerTag
  owner : String
deriving DecidableEq, Repr

/-- The claims of all sessions, in the order in which they were made. -/
structure ClaimBook where
  claims : List Claim := []
deriving DecidableEq, Repr

namespace ClaimBook

/-- The claims of a session. -/
def ofSession (b : ClaimBook) (session : SessionId) : List Claim :=
  b.claims.filter fun c => c.session = session

/-- The claims of a session that a flow owns. -/
def ownedBy (b : ClaimBook) (session : SessionId) (owner : String) : List Claim :=
  (b.ofSession session).filter fun c => c.owner = owner

/-- The claim on a handler in a session. -/
def find? (b : ClaimBook) (session : SessionId) (handler : HandlerKey) :
    Option Claim :=
  b.claims.find? fun c => c.session = session ∧ c.handler.key = handler

/-- Records a handler as wired into a flow; refused while the handler is
claimed in the session, by the same flow too. -/
def claim (b : ClaimBook) (session : SessionId) (handler : HandlerTag)
    (owner : String) :
    Except FlowError ClaimBook :=
  match b.find? session handler.key with
  | some held => .error (.replyProducerReused handler.label held.owner)
  | none => .ok ⟨b.claims ++ [⟨session, handler, owner⟩]⟩

/-- Drops the claims that a flow owns in a session. -/
def release (b : ClaimBook) (session : SessionId) (owner : String) : ClaimBook :=
  ⟨b.claims.filter fun c => ¬(c.session = session ∧ c.owner = owner)⟩

/-- Gives the claims of one flow of a session to another flow of it. -/
def rename (b : ClaimBook) (session : SessionId) (owner newOwner : String) :
    ClaimBook :=
  ⟨b.claims.map fun c => if c.session = session ∧ c.owner = owner
    then { c with owner := newOwner } else c⟩

/-- A claim of a flow in one session whose handler is claimed in another, with
the claim there. -/
def conflict? (b : ClaimBook) (source target : SessionId) (owner : String) :
    Option (Claim × Claim) :=
  (b.ownedBy source owner).findSome? fun c =>
    (b.find? target c.handler.key).map fun held => (c, held)

/-- Moves the claims of a flow into another session: all of them, or none
where one of the handlers is claimed there. With a map of claims for each
session that is four passes: collect the claims of the flow, look each handler
up in the target, insert what was collected there, and release it in the
source. Claims of all sessions stand in one book here, which makes the last
two one pass that gives each claim its new session. A look-up in either
session comes to the same after them. -/
def transfer (b : ClaimBook) (source target : SessionId) (owner : String) :
    Except FlowError ClaimBook :=
  if source = target then .ok b
  else
    match b.conflict? source target owner with
    | some (moving, held) =>
        .error (.replyProducerReused moving.handler.label held.owner)
    | none =>
        .ok ⟨b.claims.map fun c =>
          if c.session = source ∧ c.owner = owner then { c with session := target }
          else c⟩

/-- Drops the claims on handlers that nothing holds any more. -/
def retain (b : ClaimBook) (held : List HandlerKey) : ClaimBook :=
  ⟨b.claims.filter fun c => held.contains c.handler.key⟩

/-- How many claims a session has. -/
def count (b : ClaimBook) (session : SessionId) : Nat :=
  (b.ofSession session).length

/-- Whether a handler is claimed in a session. -/
def isClaimed (b : ClaimBook) (session : SessionId) (handler : HandlerKey) : Bool :=
  (b.find? session handler).isSome

end ClaimBook

end FlowAssembly
