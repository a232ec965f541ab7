import FlowAssembly.Builder.Branch

/-!
# Routers and fan-outs

The options of a router are checked before anything is done: names derived
from keys exclude branches of the router's own, no key is mapped twice, and
there is something to route to. The check looks at no branch.

The branches are then assembled, the router is registered with its table, and
behind it the branches in declared order. Here stands what happens before and
after the branches; running them is left to the caller.
-/

namespace FlowAssembly

/-- The first text of a list that stood in it before. -/
def firstRepeated? : List String → List String → Option String
  | _, [] => none
  | seen, text :: rest =>
      if seen.contains text then some text else firstRepeated? (text :: seen) rest

namespace RouterPlan

/-- How errors call the router. -/
def label (plan : RouterPlan) : String :=
  match plan.id with
  | some id => "router '" ++ id ++ "'"
  | none => "router"

/-- Whether the router makes channel names out of keys. -/
def derivesNames (plan : RouterPlan) : Bool :=
  plan.lead.isSome || plan.trail.isSome

/-- Checks the options of a router: names derived from keys exclude flows, no
key is mapped twice, and there is something to route to. It looks at no step
of a flow. -/
def check (plan : RouterPlan) (mappings : List (String × Destination)) :
    Except FlowError Unit :=
  if plan.derivesNames && mappings.any (fun mapping => mapping.2.isFlow) then
    .error (.mutuallyExclusiveOptions plan.label
      (if plan.lead.isSome then "prefix" else "suffix") "subflow mapping")
  else
    match firstRepeated? [] (mappings.map Prod.fst) with
    | some key => .error (.duplicateRouteKey plan.label key)
    | none =>
        if mappings.isEmpty && !plan.derivesNames && plan.default.isNone then
          .error (.emptyBranchSet plan.label)
        else .ok ()

end RouterPlan

namespace RecipientsPlan

/-- How errors call the recipient list. -/
def label (plan : RecipientsPlan) : String :=
  match plan.id with
  | some id => "recipient-list-router '" ++ id ++ "'"
  | none => "recipient-list-router"

/-- Checks that there is a recipient. -/
def check (plan : RecipientsPlan)
    (recipients : List (Option String × Destination)) : Except FlowError Unit :=
  if recipients.isEmpty then .error (.emptyBranchSet plan.label) else .ok ()

end RecipientsPlan

/-- A router's arguments, made: its strategy, what each key leads to, and
where unmatched messages go. -/
structure RouterParts where
  strategy : RouteStrategy
  openings : List (String × Opening)
  default : Option DefaultOutput

/-- Makes the arguments of a router: its strategy, then what each key leads
to, then the default. -/
def RouterPlan.make (plan : RouterPlan) (mappings : List (String × Destination)) :
    Assembly RouterParts := do
  let strategy ← plan.strategy.make
  let openings ←
    mappings.mapM fun (key, destination) => do return (key, ← destination.openUp)
  let default ← DefaultPlan.makeOptional plan.default
  return { strategy, openings, default }

/-- A recipient list's arguments, made: each selector with what it leads to,
and where unmatched messages go. -/
structure RecipientParts where
  openings : List (Option Expression × Opening)
  default : Option DefaultOutput

/-- Makes the arguments of a recipient list: of each recipient its target
first, then its selector. -/
def RecipientsPlan.make (plan : RecipientsPlan)
    (recipients : List (Option String × Destination)) :
    Assembly RecipientParts := do
  let openings ← recipients.mapM fun (selector, destination) => do
    let opening ← destination.openUp
    return (← Assembly.parseOptional selector, opening)
  let default ← DefaultPlan.makeOptional plan.default
  return { openings, default }

namespace RecipientParts

/-- The recipients with their targets, in declared order. -/
def recipients (parts : RecipientParts) : List Recipient :=
  parts.openings.map fun (selector, opening) => ⟨selector, opening.toTarget⟩

end RecipientParts

namespace Builder

/-- Appends a router behind whose registration its branches follow. -/
def finishRoute (b : Builder) (plan : RouterPlan) (parts : RouterParts)
    (branches : List Branch) :
    Assembly Builder := do
  let r ← b.reconcile branches parts.default
  let handler ← Assembly.newHandler (.router
    { strategy := parts.strategy
      mappings := parts.openings.map fun (key, opening) => (key, opening.toTarget)
      lead := plan.lead
      trail := plan.trail
      defaultOutput := r.defaultOutput
      resolutionRequired := plan.resolutionRequired
      applySequence := plan.applySequence })
  let b ← b.attach { handler, id := plan.id }
  b.absorbMerged r.branches r.merge

/-- Appends a recipient list behind whose registration its branches follow. -/
def finishRecipients (b : Builder) (plan : RecipientsPlan) (parts : RecipientParts)
    (branches : List Branch) :
    Assembly Builder := do
  let r ← b.reconcile branches parts.default
  let handler ← Assembly.newHandler (.recipientList
    { recipients := parts.recipients
      defaultOutput := r.defaultOutput
      applySequence := plan.applySequence
      ignoreSendFailures := plan.ignoreSendFailures })
  let b ← b.attach { handler, id := plan.id }
  b.absorbMerged r.branches r.merge

/-- The channel of a fan-out: the one given, or a new one. -/
def fanOutChannel (plan : FanOutPlan) (given : Option Channel) : Assembly Channel :=
  match given with
  | some channel => return channel
  | none =>
      Assembly.explicitChannel (.publishSubscribe plan.applySequence
        plan.ignoreFailures) none []

/-- Continues through the channel of a fan-out, unless it is current already. -/
def openFanOut (b : Builder) (channel : Channel) : Assembly Builder :=
  if b.currentKey? = some channel.key then return b
  else b.channel (.channel channel)

/-- Closes the subscribers of a fan-out and registers them. The channel stays
current. -/
def finishFanOut (b : Builder) (subscribers : List Branch) : Assembly Builder := do
  let subscribers ← b.leaveOpen subscribers
  return b.absorb subscribers

/-- Attaches a wire tap to a channel. The flow that it leads to, if it does,
is closed and held back. -/
def finishTap (b : Builder) (channel : Channel) (tap : WireTap)
    (flow : List Branch) : Assembly Builder := do
  let flow ← b.leaveOpen flow
  Assembly.addInterceptor channel (.wireTap tap)
  return { b with
    cursor := { b.cursor with
      deferred := b.cursor.deferred ++ flow.map Branch.registry } }

end Builder

end FlowAssembly
