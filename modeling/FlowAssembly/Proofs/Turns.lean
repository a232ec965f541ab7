import FlowAssembly.Proofs.Stock

/-!
# Turns

A flow is assembled by builders that lie on top of one another: while a branch
is assembled its parent waits, with the branches that are done and with
channels that stand nowhere yet. Such a builder with all that lies beside it
is a desk. Whatever a step does, it does in turns, each of which changes the
uppermost desk, puts a desk on top of it, or takes one away.

The turns say nothing about claims, names or tables. They say where each
component stands, what is read and what is bound, so a property of these
things is proved once for each turn; that every step is a series of turns is
shown apart from any property. All that a run went through is its history, one
moment behind each turn.
-/

namespace FlowAssembly

/-- Whether the assembler made the channel: for itself, or to bind it to a
handler. -/
def Channel.isMade (c : Channel) : Bool :=
  c.implicit || c.subscriber.isSome

/-- Whether it is a router or a recipient list. -/
def Handler.isRouter (h : Handler) : Bool :=
  match h.behaviour with
  | .router _ | .recipientList _ => true
  | _ => false

/-- Whether it is a recipient list or an aggregator: these are what a
scatter-gather has besides its own endpoint. -/
def Handler.isScatterEnd (h : Handler) : Bool :=
  match h.behaviour with
  | .recipientList _ | .aggregator _ => true
  | _ => false

theorem Handler.requiresReply_of_isScatterEnd {h : Handler}
    (hs : h.isScatterEnd = true) : h.requiresReply = false := by
  unfold isScatterEnd at hs
  split at hs
  · next hb => rw [requiresReply, hb]; rfl
  · next hb => rw [requiresReply, hb]; rfl
  · cases hs

/-- The endpoint has the next key, and no output yet. -/
structure Endpoint.Fresh (e : Endpoint) (next : Nat) : Prop where
  key : e.key = ⟨next⟩
  output : e.output = none

/-! ## What a builder becomes -/

namespace Builder

/-- Something may follow: the flow stands on a channel, a name or a marker, or
its last endpoint replies. -/
def Open (b : Builder) : Prop :=
  b.cursor.channel = none → ∀ tail ∈ b.cursor.tail, tail.produces = true

/-- The builder once an endpoint stands behind all that was readied for it,
and held-back flows behind that. -/
def wired (b : Builder) (input : ResolvedInput) (sides : List Registry)
    (e : Endpoint) : Builder :=
  let ready := b.ready input sides
  let b := flushDeferred { ready with registry := ready.registry.add (.endpoint e) }
  { b with
    cursor := { b.cursor with
      tail := some ⟨e.label, e.handler.producesReplies⟩
      pending :=
        if e.handler.producesReplies then
          some { component := e.key, owner := e.label,
                 requiresReply := e.handler.requiresReply }
        else none } }

/-- The builder with a channel registered, and behind it an endpoint that
reads it, if there is one. -/
def posted (b : Builder) (c : Channel) (reader : Option Endpoint) : Builder :=
  { b with
    registry := match reader with
      | some e => (b.registry.add (.channel c)).add (.endpoint e)
      | none => b.registry.add (.channel c) }

/-- The builder with the flows of branches held back. -/
def holding (b : Builder) (branches : List Branch) : Builder :=
  { b with
    cursor := { b.cursor with
      deferred := b.cursor.deferred ++ branches.map Branch.registry } }

/-- The branch that a builder ends as. -/
def toBranch (b : Builder) : Branch where
  registry := b.flushDeferred.registry
  ending :=
    match b.cursor.pending, b.cursor.channel with
    | some output, _ => .pending output
    | none, some (.channel c) => .channel c
    | none, _ => .closed

theorem cursor_wired (b : Builder) (input : ResolvedInput) (sides : List Registry)
    (e : Endpoint) :
    (b.wired input sides e).cursor =
      { channel := none
        tail := some ⟨e.label, e.handler.producesReplies⟩
        pending :=
          if e.handler.producesReplies then
            some { component := e.key, owner := e.label,
                   requiresReply := e.handler.requiresReply }
          else none
        deferred := [] } := by
  have hchannel : (flushDeferred { b.ready input sides with
      registry := (b.ready input sides).registry.add
        (.endpoint e) }).cursor.channel = none := by
    rw [channel_flushDeferred]
    show (b.ready input sides).cursor.channel = none
    rw [ready_eq, channel_bindPending, cursor_placed]
  have hdeferred := deferred_flushDeferred { b.ready input sides with
    registry := (b.ready input sides).registry.add (.endpoint e) }
  unfold wired
  dsimp only
  rw [hchannel, hdeferred]

theorem condenses_wired (b : Builder) (input : ResolvedInput)
    (sides : List Registry) (e : Endpoint) :
    Condenses
      ((b.registry.components ++ sides.flatMap Registry.components ++
          madeChannels input).map (b.bound input.target) ++ [.endpoint e] ++
        b.cursor.deferred.flatMap Registry.components)
      (b.wired input sides e).components := by
  have hdeferred : (b.wired input sides e).cursor.deferred = [] := by
    rw [cursor_wired]
  have hready : (b.ready input sides).cursor.deferred = b.cursor.deferred := by
    rw [ready_eq, deferred_bindPending, cursor_placed]
  rw [components_eq_of_deferred hdeferred, ← hready]
  refine Condenses.trans (Condenses.append_right ?_ _)
    (condenses_flushDeferred { b.ready input sides with
      registry := (b.ready input sides).registry.add (.endpoint e) })
  exact ((b.condenses_ready input sides).append_right _).trans
    (Registry.condenses_add _ _)

/-- The endpoint stands in the registry, unless its key stood there before. -/
theorem mem_wired {b : Builder} {input : ResolvedInput} {sides : List Registry}
    {e : Endpoint}
    (h : ∀ x ∈ b.registry.components ++ sides.flatMap Registry.components ++
      madeChannels input, x.key ≠ e.key) :
    .endpoint e ∈ (b.wired input sides e).registry.components := by
  refine subset_flushDeferred { b.ready input sides with
    registry := (b.ready input sides).registry.add (.endpoint e) }
      (Registry.mem_add fun x hx => ?_)
  obtain ⟨y, hy, rfl⟩ :=
    List.mem_map.1 ((b.condenses_ready input sides).subperm.subset hx)
  rw [key_bound]
  exact h y hy

theorem condenses_posted (b : Builder) (c : Channel) (reader : Option Endpoint) :
    Condenses (b.components ++ [.channel c] ++ reader.toList.map Component.endpoint)
      (b.posted c reader).components := by
  rw [components_eq, components_eq]
  refine Condenses.perm_left
    (a :=
      (b.registry.components ++ [.channel c] ++
        reader.toList.map Component.endpoint) ++
      b.cursor.deferred.flatMap Registry.components) ?_ ?_
  · refine Condenses.append_right ?_ _
    have h := b.registry.condenses_add (.channel c)
    cases reader with
    | none => exact h.perm_left (.of_eq (List.append_nil _).symm)
    | some e => exact (h.append_right _).trans (Registry.condenses_add _ _)
  · simp only [List.append_assoc]
    refine List.Perm.append_left _ ?_
    rw [← List.append_assoc]
    exact List.perm_append_comm

theorem condenses_holding (b : Builder) (branches : List Branch) :
    Condenses (b.components ++ branches.flatMap fun br => br.registry.components)
      (b.holding branches).components := by
  rw [components_eq, components_eq]
  simp only [holding, List.flatMap_append, List.flatMap_map, List.append_assoc]
  exact .refl _

end Builder

/-! ## Desks -/

/-- The channel that branches converge on. -/
structure Meeting where
  channel : Channel
  /-- Whether it is to be registered behind the branches; if not, one of them
  ended on it. -/
  isNew : Bool

/-- A builder with what lies beside it. -/
structure Desk where
  builder : Builder
  /-- The branches that are assembled, and not taken over yet. -/
  branches : List Branch := []
  /-- Channels that were made, or brought by the caller, and stand nowhere
  yet. -/
  channels : List Channel := []
  /-- Where the branches meet, once that is chosen. -/
  merge : Option Meeting := none

/-- The channel of a meeting, if it stands nowhere yet. -/
def Meeting.components (m : Meeting) : List Component :=
  if m.isNew then [.channel m.channel] else []

namespace Desk

/-- What is registered in the branches. -/
def branched (d : Desk) : List Component :=
  d.branches.flatMap fun br => br.registry.components

/-- What lies on the desk and stands nowhere yet. -/
def loose (d : Desk) : List Component :=
  d.channels.map Component.channel ++ d.merge.toList.flatMap Meeting.components

/-- What is registered on a desk, in the builder or in a branch. -/
def registered (d : Desk) : List Component :=
  d.builder.components ++ d.branched

/-- What is registered on a desk, and what is to be. -/
def components (d : Desk) : List Component :=
  d.registered ++ d.loose

end Desk

/-- The branch can be left as it is: nothing in it must have an output, and no
channel has to be read. -/
def Branch.Settled (br : Branch) : Prop :=
  br.ending = .closed ∨ ∃ output, br.ending = .pending output ∧
    output.requiresReply = false

/-- What an endpoint with a handler reads, when the flow stands on a channel,
a name, a marker or nothing: for the last two a channel that lies ready, which
is bound to the handler in place of a marker. -/
inductive Reads (handler : Handler) : Option ChannelSource → List Channel →
    ResolvedInput → List Channel → Prop
  | channel (c : Channel) (channels : List Channel) :
    Reads handler (some (.channel c)) channels ⟨.channel c, none⟩ channels
  | named (name : String) (channels : List Channel) :
    Reads handler (some (.named name)) channels ⟨.named name, none⟩ channels
  | marker (id : Option String) {c : Channel} {channels rest : List Channel} :
      channels.Perm (c :: rest) → c.subscriber = some handler.subscriber →
      Reads handler (some (.fixedSubscriber id)) channels ⟨.channel c, some c⟩ rest
  | none {c : Channel} {channels rest : List Channel} : channels.Perm (c :: rest) →
      c.subscriber = none → Reads handler none channels ⟨.channel c, some c⟩ rest

/-- What is done to one branch before it is taken over. -/
inductive Tends (merge : Option Meeting) (next : Nat) : Branch → Branch → Nat → Prop
  /-- A bare channel that is not the one to meet on gets a bridge that reads
  it. -/
  | link {br : Branch} {c : Channel} {e : Endpoint} : br.ending = .channel c →
      (∀ m ∈ merge, c.key ≠ m.channel.key) → e.Fresh next →
      e.handler.behaviour = .bridge → e.input = .channel c → Tends merge next br
      { registry := br.registry.add (.endpoint e)
        ending :=
          .pending
          { component := e.key, owner := e.label, requiresReply := false } }
      (next + 1)
  /-- A pending output is bound to the channel that the branches converge on. -/
  | bind {br : Branch} {p : PendingOutput} {m : Meeting} : br.ending = .pending p →
      merge = some m →
      Tends merge next br ⟨br.registry.bindOutput p.component (.channel m.channel),
        .closed⟩ next
  /-- A pending output that may stay unbound is left. -/
  | leave {br : Branch} {p : PendingOutput} : br.ending = .pending p →
      p.requiresReply = false → Tends merge next br ⟨br.registry, .closed⟩ next
  /-- The branch ended on the channel that the branches converge on. -/
  | meet {br : Branch} {c : Channel} {m : Meeting} : br.ending = .channel c →
      merge = some m → c.key = m.channel.key →
      Tends merge next br ⟨br.registry, .closed⟩ next

/-- How a builder takes over branches: their components are registered behind
its own, or held back. -/
inductive Stows (b : Builder) (branches : List Branch) : Builder → Prop
  | absorb : Stows b branches (b.absorb branches)
  | hold : Stows b branches (b.holding branches)

/-- A channel of the caller's: one that is brought, or one that was made for
the caller. -/
def Callers (brought : Channel → Prop) (c : Channel) : Prop :=
  brought c ∨ c.isMade = false

/-- There can be copies of a channel: it is brought, or it is one of the
caller's that is on the desk. -/
def Desk.Lends (brought : Channel → Prop) (d : Desk) (c : Channel) : Prop :=
  brought c ∨ c.isMade = false ∧ .channel c ∈ d.components

/-- Where a branch gets the channel that it starts at: from what lies ready,
or it is a copy of a channel of the caller's. -/
inductive Offers (brought : Channel → Prop) (d : Desk) (c : Channel) :
    List Channel → Prop
  | ready {rest : List Channel} : d.channels.Perm (c :: rest) →
      c.subscriber = none ∨ brought c → Offers brought d c rest
  | copy : d.Lends brought c → Offers brought d c d.channels

/-- What an endpoint that a builder attached is to the chain of its flow. -/
inductive Role where
  /-- It comes next in the chain. -/
  | next
  /-- It comes next, as the bridge behind the channel that branches converged
  on. -/
  | merging
  /-- It is the recipient list or the gatherer of a scatter-gather, apart from
  the chain. -/
  | aside
deriving DecidableEq

/-- An endpoint that a builder attached. -/
structure Link where
  key : ComponentKey
  role : Role
deriving DecidableEq

/-- The link of what was made last before the next component is to get the
number. -/
def Link.latest (n : Nat) (role : Role) : Link :=
  ⟨⟨n - 1⟩, role⟩

theorem Endpoint.Fresh.link_eq {e : Endpoint} {n : Nat} (h : e.Fresh n)
    (role : Role) :
    (⟨e.key, role⟩ : Link) = .latest (n + 1) role := by
  rw [h.key]
  rfl

/-- One turn at the uppermost desk. The numbers are those of the next
component before and after the turn. -/
inductive Work (brought : Channel → Prop) : Desk → Nat → Option Link →
    Desk → Nat → Prop
  /-- Nothing that concerns components happens, or it happens elsewhere. -/
  | idle {d : Desk} {b : Builder} {n n' : Nat} : b.registry = d.builder.registry →
      b.cursor = d.builder.cursor → n ≤ n' →
      Work brought d n none { d with builder := b } n'
  /-- A channel is made, or brought by the caller, or it is a copy of one of
  the caller's. -/
  | take {d : Desk} {c : Channel} {n n' : Nat} : c.key = ⟨n⟩ ∧ n' = n + 1 ∨
      d.Lends brought c ∧ n' = n →
      Work brought d n none { d with channels := d.channels ++ [c] } n'
  /-- A channel of the caller's is put away, since it stands in the flow by
  now. -/
  | shed {d : Desk} {c : Channel} {rest : List Channel} {n : Nat} :
      d.channels.Perm (c :: rest) → Callers brought c →
      Work brought d n none { d with channels := rest } n
  /-- The flow goes on through a channel, a name or a marker. -/
  | append {d : Desk} {s : ChannelSource} {rest : List Channel} {n : Nat} :
      d.builder.Open → d.builder.cursor.channel = none →
      (d.channels.map Component.channel).Perm
        (Builder.sourceChannels s ++ rest.map Component.channel) →
      (∀ c, s = .channel c → c.subscriber = none ∨ brought c) →
      Work brought d n none { d with
        builder := d.builder.appended s, channels := rest } n
  /-- An endpoint is attached, with branches as its sides. While branches
  converge it is a router or replies. -/
  | attach {d : Desk} {e : Endpoint} {input : ResolvedInput}
      {sides kept : List Branch} {rest : List Channel} {n : Nat} :
      d.builder.Open →
      d.branches = sides ++ kept → (∀ br ∈ sides, br.Settled) →
      (d.merge ≠ none → sides = [] ∧
        (e.handler.producesReplies = true ∨ e.handler.isRouter = true)) →
      Reads e.handler d.builder.cursor.channel d.channels input rest →
      e.input = input.target → e.Fresh n →
      Work brought d n (some ⟨e.key, .next⟩) { d with
        builder := d.builder.wired input (sides.map Branch.registry) e
        branches := kept
        channels := rest }
      (n + 1)
  /-- A branch is made ready to be taken over. -/
  | tend {d : Desk} {done todo : List Branch} {br br' : Branch} {n n' : Nat} :
      d.branches = done ++ br :: todo → Tends d.merge n br br' n' →
      Work brought d n none { d with branches := done ++ br' :: todo } n'
  /-- The branches are to meet on a channel that lies ready. -/
  | meetReady {d : Desk} {m : Channel} {rest : List Channel} {n : Nat} :
      d.builder.Open → d.merge = none → d.channels.Perm (m :: rest) →
      m.subscriber = none →
      Work brought d n none { d with channels := rest, merge := some ⟨m, true⟩ } n
  /-- The branches are to meet on a channel that one of them ended on. -/
  | meetBare {d : Desk} {m : Channel} {br : Branch} {n : Nat} : d.builder.Open →
      d.merge = none → br ∈ d.branches → br.ending = .channel m →
      Work brought d n none { d with merge := some ⟨m, false⟩ } n
  /-- The branches have met, and the channel lies ready again. -/
  | part {d : Desk} {m : Channel} {n : Nat} : d.merge = some ⟨m, true⟩ →
      (∀ br ∈ d.branches, br.ending = .closed) → m.subscriber = none →
      Work brought d n none { d with channels := m :: d.channels, merge := none } n
  /-- The branches are taken over. -/
  | stow {d : Desk} {b : Builder} {n : Nat} : (∀ br ∈ d.branches, br.Settled) →
      d.merge = none → Stows d.builder d.branches b →
      Work brought d n none { d with builder := b, branches := [] } n
  /-- Behind a router its branches are taken over, and behind the channel that
  they met on a bridge. -/
  | merge {d : Desk} {m : Meeting} {e : Endpoint} {n : Nat} : d.merge = some m →
      (∀ br ∈ d.branches, br.ending = .closed) → d.builder.cursor.channel = none →
      d.builder.cursor.pending = none → e.handler.behaviour = .bridge →
      e.input = .channel m.channel → e.Fresh n →
      Work brought d n (some ⟨e.key, .merging⟩)
      { builder := (d.builder.mergedOn d.branches m.channel).wired
          ⟨.channel m.channel, none⟩ [] e
        channels := d.channels }
      (n + 1)
  /-- A channel of a scatter-gather that lies ready is registered with its
  reader, apart from the chain. Without a reader it is a channel of the
  caller's. -/
  | post {d : Desk} {c : Channel} {reader : Option Endpoint} {rest : List Channel}
      {n : Nat} : d.merge = none → d.channels.Perm (c :: rest) →
      (∀ e ∈ reader, e.Fresh n ∧ e.handler.isScatterEnd = true ∧
        e.input = .channel c ∧ c.subscriber = none) →
      (reader = none → Callers brought c) →
      Work brought d n (reader.map fun e => ⟨e.key, .aside⟩) { d with
          builder := d.builder.posted c reader,
          channels := rest } (n + reader.toList.length)

/-- An endpoint is attached without sides. -/
theorem Work.attach_alone {brought : Channel → Prop} {d : Desk} {e : Endpoint}
    {input : ResolvedInput} {rest : List Channel} {n : Nat} (ho : d.builder.Open)
    (hm : d.merge ≠ none → e.handler.producesReplies = true ∨
      e.handler.isRouter = true)
    (hr : Reads e.handler d.builder.cursor.channel d.channels input rest)
    (hi : e.input = input.target) (he : e.Fresh n) :
    Work brought d n (some ⟨e.key, .next⟩) { d with
        builder := d.builder.wired input [] e, channels := rest } (n + 1) :=
  @Work.attach brought d e input [] d.branches rest n ho rfl nofun
    (fun hne => ⟨rfl, hm hne⟩) hr hi he

/-- Where the desks stand behind a turn, with the endpoint that was attached,
if the turn attached one, and with what was thrown away. -/
structure Moment where
  desks : List Desk
  link : Option Link := none
  dropped : List Component := []

/-- The endpoint that was attached by the builder at a height of the pile. -/
def Moment.linkAt (height : Nat) (m : Moment) : Option Link :=
  if m.desks.length = height then m.link else none

/-- The endpoints that were attached at a height of the pile, in order. -/
def linksAt (height : Nat) (history : List Moment) : List Link :=
  history.filterMap (Moment.linkAt height)

theorem linksAt_append (height : Nat) (history history' : List Moment) :
    linksAt height (history ++ history') = linksAt height history ++
      linksAt height history' :=
  List.filterMap_append

/-- Nothing is attached below the height that all links of a history have. -/
theorem linksAt_eq_nil {height below : Nat} {history : List Moment}
    (h : ∀ m ∈ history, m.link ≠ none → height ≤ m.desks.length)
    (hlt : below < height) :
    linksAt below history = [] := by
  rw [linksAt, List.filterMap_eq_nil_iff]
  intro m hm
  by_cases hnone : m.link = none
  · rw [Moment.linkAt, hnone, ite_self]
  · have habove := h m hm hnone
    exact if_neg (by omega)

/-- One turn, at a pile of desks. -/
inductive Turn (brought : Channel → Prop) : List Desk → Nat → Moment → Nat → Prop
  | work {d d' : Desk} {ds : List Desk} {link : Option Link} {n n' : Nat} :
      Work brought d n link d' n' →
      Turn brought (d :: ds) n { desks := d' :: ds, link } n'
  /-- A branch starts. -/
  | push {d : Desk} {ds : List Desk} {c : Channel} {rest : List Channel} {n : Nat} :
      Offers brought d c rest →
      Turn brought
        (d :: ds) n { desks := { builder := d.builder.branch c } :: { d with
            channels := rest } :: ds } n
  /-- A branch ends. -/
  | pop {b : Builder} {d : Desk} {ds : List Desk} {n : Nat} :
      Turn brought ({ builder := b } :: d :: ds) n
        { desks := { d with branches := d.branches ++ [b.toBranch] } :: ds } n
  /-- The builder of a branch is thrown away, and another goes on. -/
  | fresh {b b' : Builder} {d : Desk} {ds : List Desk} {n : Nat} :
      b'.registry = .empty → b'.cursor = {} →
      Turn brought ({ builder := b } :: d :: ds) n
        { desks := { builder := b' } :: d :: ds, dropped := b.components } n

/-- A series of turns, with the moment behind each of them. -/
inductive Turns (brought : Channel → Prop) : List Desk → Nat → List Moment →
    List Desk → Nat → Prop
  | refl (ds : List Desk) (n : Nat) : Turns brought ds n [] ds n
  | step {ds ds' : List Desk} {m : Moment} {history : List Moment} {n n₁ n' : Nat} :
      Turn brought ds n m n₁ → Turns brought m.desks n₁ history ds' n' →
      Turns brought ds n (m :: history) ds' n'

namespace Turns

variable {brought : Channel → Prop} {ds ds₁ ds' : List Desk}
  {history history' : List Moment} {n n₁ n' : Nat}

theorem trans (h : Turns brought ds n history ds₁ n₁)
    (h' : Turns brought ds₁ n₁ history' ds' n') :
    Turns brought ds n (history ++ history') ds' n' := by
  induction h with
  | refl => exact h'
  | step ht _ ih => exact .step ht (ih h')

/-- What every turn keeps, of the moments so far and the desks as they stand,
is kept by a series of turns. -/
theorem induct {I : List Moment → List Desk → Nat → Prop}
    (turn : ∀ {past ds n m n'}, I past ds n → Turn brought ds n m n' →
      I (past ++ [m]) m.desks n')
    (h : Turns brought ds n history ds' n') {past : List Moment}
    (hI : I past ds n) : I (past ++ history) ds' n' := by
  induction h generalizing past with
  | refl => simpa using hI
  | step ht _ ih =>
      have hnext := ih (turn hI ht)
      rwa [List.append_assoc] at hnext

/-- What every turn keeps of the desks as they stand. -/
theorem keeps {I : List Desk → Nat → Prop}
    (turn : ∀ {ds n m n'}, I ds n → Turn brought ds n m n' → I m.desks n')
    (h : Turns brought ds n history ds' n') (hI : I ds n) : I ds' n' := by
  induction h with
  | refl => exact hI
  | step ht _ ih => exact ih (turn hI ht)

end Turns

/-- A history from a pile of desks shows every builder that is reached on the
way, and no builder is thrown away in it but one that is reached where a fresh
start is next. The links are what the builder at the top of the pile attaches;
whatever else is attached stands higher. -/
structure Shows (reached : List Step → Builder → Prop) (links : List Link)
    (ds : List Desk) (history : List Moment) :
    Prop where
  all : ∀ left b, reached left b → ∃ desks ∈ ds :: history.map Moment.desks,
    ∃ d ∈ desks, d.builder = b
  dropped : ∀ m ∈ history, m.dropped ≠ [] → ∃ left b, reached (.fresh :: left) b ∧
    m.dropped = b.components
  above : ∀ m ∈ history, m.link ≠ none → ds.length ≤ m.desks.length
  attached : linksAt ds.length history = links

theorem Turns.mem_desks {brought : Channel → Prop} {ds ds' : List Desk}
    {history : List Moment} {n n' : Nat} (h : Turns brought ds n history ds' n') :
    ds' ∈ ds :: history.map Moment.desks := by
  induction h with
  | refl => exact List.mem_cons_self
  | step _ _ ih => exact List.mem_cons_of_mem _ ih

namespace Shows

variable {reached reached' : List Step → Builder → Prop} {links links' : List Link}
  {ds ds₁ : List Desk} {history history' : List Moment}

theorem append (h : Shows reached links ds history)
    (h' : Shows reached' links' ds₁ history')
    (hm : ds₁ ∈ ds :: history.map Moment.desks) (hlen : ds₁.length = ds.length) :
    Shows (fun left b => reached left b ∨ reached' left b) (links ++ links') ds
      (history ++ history') where
  all left b hr := by
    rw [List.map_append, ← List.cons_append]
    rcases hr with hr | hr
    · obtain ⟨desks, hdesks, hd⟩ := h.all left b hr
      exact ⟨desks, List.mem_append_left _ hdesks, hd⟩
    · obtain ⟨desks, hdesks, hd⟩ := h'.all left b hr
      refine ⟨desks, ?_, hd⟩
      rcases List.mem_cons.1 hdesks with rfl | hdesks
      · exact List.mem_append_left _ hm
      · exact List.mem_append_right _ hdesks
  dropped m hm hne := by
    rcases List.mem_append.1 hm with hm | hm
    · obtain ⟨left, b, hr, hd⟩ := h.dropped m hm hne
      exact ⟨left, b, .inl hr, hd⟩
    · obtain ⟨left, b, hr, hd⟩ := h'.dropped m hm hne
      exact ⟨left, b, .inr hr, hd⟩
  above m hm hne := by
    rcases List.mem_append.1 hm with hm | hm
    · exact h.above m hm hne
    · rw [← hlen]
      exact h'.above m hm hne
  attached := by
    rw [linksAt_append, h.attached, ← hlen, h'.attached]

theorem congr (h : Shows reached links ds history)
    (hiff : ∀ left b, reached' left b ↔ reached left b) :
    Shows reached' links ds history where
  all left b hr := h.all left b ((hiff left b).1 hr)
  dropped m hm hne := by
    obtain ⟨left, b, hr, hd⟩ := h.dropped m hm hne
    exact ⟨left, b, (hiff _ _).2 hr, hd⟩
  above := h.above
  attached := h.attached

/-- A branch is seen from the pile that it starts and ends on: nothing is
attached there meanwhile. -/
theorem nested {d d₁ d₂ top : Desk} {t : List Desk}
    (h : Shows reached links (top :: d₁ :: t) history) :
    Shows reached [] (d :: t)
      ({ desks := top :: d₁ :: t } :: (history ++ [{ desks := d₂ :: t }])) where
  all left b hr := by
    obtain ⟨desks, hdesks, hd⟩ := h.all left b hr
    refine ⟨desks, List.mem_cons_of_mem _ ?_, hd⟩
    rw [List.map_cons, List.map_append]
    exact List.mem_append_left _ hdesks
  dropped m hm hne := by
    simp only [List.mem_cons, List.mem_append, List.not_mem_nil, or_false] at hm
    rcases hm with rfl | hm | rfl
    · exact absurd rfl hne
    · exact h.dropped m hm hne
    · exact absurd rfl hne
  above m hm hne := by
    simp only [List.mem_cons, List.mem_append, List.not_mem_nil, or_false] at hm
    rcases hm with rfl | hm | rfl
    · exact absurd rfl hne
    · exact Nat.le_of_succ_le (h.above m hm hne)
    · exact absurd rfl hne
  attached := by
    refine @linksAt_eq_nil (top :: d₁ :: t).length _ _ (fun m hm hne => ?_)
      (Nat.lt_succ_self _)
    simp only [List.mem_cons, List.mem_append, List.not_mem_nil, or_false] at hm
    rcases hm with rfl | hm | rfl
    · exact absurd rfl hne
    · exact h.above m hm hne
    · exact absurd rfl hne

/-- Where nothing is thrown away and no builder is reached, only the links are
left to be told. -/
theorem single {m : Moment} (hd : m.dropped = [])
    (hl : m.link ≠ none → m.desks.length = ds.length) :
    Shows (fun _ _ => False) m.link.toList ds [m] where
  all _ _ hr := hr.elim
  dropped m' hm hne := by
    obtain rfl := List.mem_singleton.1 hm
    exact absurd hd hne
  above m' hm hne := by
    obtain rfl := List.mem_singleton.1 hm
    exact Nat.le_of_eq (hl hne).symm
  attached := by
    rw [linksAt, List.filterMap_cons, Moment.linkAt, List.filterMap_nil]
    cases hlink : m.link with
    | none => rw [ite_self]; rfl
    | some link => rw [if_pos (hl (by rw [hlink]; exact nofun))]; rfl

end Shows

/-- Turns lead from one pile of desks to another, past the builders that are
reached on the way. The links are what the builder at the top of the pile
attaches meanwhile. -/
def LeadsPast (reached : List Step → Builder → Prop) (links : List Link)
    (brought : Channel → Prop) (ds : List Desk) (n : Nat) (ds' : List Desk)
    (n' : Nat) : Prop :=
  ∃ history, Turns brought ds n history ds' n' ∧ Shows reached links ds history

/-- Turns lead from one pile of desks to another, and no builder is thrown
away. -/
def Attaches (links : List Link) (brought : Channel → Prop) (ds : List Desk)
    (n : Nat) (ds' : List Desk) (n' : Nat) :
    Prop :=
  LeadsPast (fun _ _ => False) links brought ds n ds' n'

/-- Turns lead from one pile of desks to another, no builder is thrown away,
and nothing is attached. -/
def Leads (brought : Channel → Prop) (ds : List Desk) (n : Nat) (ds' : List Desk)
    (n' : Nat) : Prop :=
  Attaches [] brought ds n ds' n'

namespace LeadsPast

variable {brought : Channel → Prop} {reached reached' : List Step → Builder → Prop}
  {links links' : List Link} {d d₁ d₂ : Desk} {t ds ds' : List Desk} {n n₁ n' : Nat}

theorem trans (h : LeadsPast reached links brought (d :: t) n (d₁ :: t) n₁)
    (h' : LeadsPast reached' links' brought (d₁ :: t) n₁ ds' n') :
    LeadsPast (fun left b => reached left b ∨ reached' left b)
      (links ++ links') brought (d :: t) n ds' n' := by
  obtain ⟨history, ht, hs⟩ := h
  obtain ⟨history', ht', hs'⟩ := h'
  exact ⟨_, ht.trans ht', hs.append hs' ht.mem_desks rfl⟩

theorem congr (h : LeadsPast reached links brought ds n ds' n')
    (hiff : ∀ left b, reached' left b ↔ reached left b) :
    LeadsPast reached' links brought ds n ds' n' := by
  obtain ⟨history, ht, hs⟩ := h
  exact ⟨history, ht, hs.congr hiff⟩

theorem andThen (h : LeadsPast reached links brought (d :: t) n (d₁ :: t) n₁)
    (h' : Attaches links' brought (d₁ :: t) n₁ ds' n') :
    LeadsPast reached (links ++ links') brought (d :: t) n ds' n' :=
  (h.trans h').congr fun _ _ => (or_iff_left id).symm

/-- A builder that stands on the pile is passed. -/
theorem here (b : Builder) (left : List Step) (ds : List Desk) (n : Nat) :
    LeadsPast (fun left' b' => left' = left ∧ b' = b) [] brought
      ({ builder := b } :: ds) n ({ builder := b } :: ds) n := by
  refine ⟨[], .refl _ n, ?_, fun _ hm => absurd hm List.not_mem_nil,
    fun _ hm => absurd hm List.not_mem_nil, rfl⟩
  rintro _ _ ⟨rfl, rfl⟩
  exact ⟨_, List.mem_cons_self, _, List.mem_cons_self, rfl⟩

/-- A builder that stands on the pile is thrown away. -/
theorem dropped {b b' : Builder} (left : List Step)
    (h : Turn brought ({ builder := b } :: ds) n
      { desks := { builder := b' } :: ds, dropped := b.components } n') :
    LeadsPast (fun left' b' => left' = .fresh :: left ∧ b' = b) [] brought
      ({ builder := b } :: ds) n ({ builder := b' } :: ds) n' := by
  refine ⟨[_], .step h (.refl _ n'), ?_, fun m hm _ => ⟨left, b, ⟨rfl, rfl⟩, ?_⟩,
    fun m hm hne => ?_, ?_⟩
  · rintro _ _ ⟨rfl, rfl⟩
    exact ⟨_, List.mem_cons_self, _, List.mem_cons_self, rfl⟩
  · obtain rfl := List.mem_singleton.1 hm
    rfl
  · obtain rfl := List.mem_singleton.1 hm
    exact absurd rfl hne
  · simp [linksAt, Moment.linkAt]

/-- A branch starts, its builder works, and it ends: nothing is attached on
the pile below. -/
theorem nested {top top' : Desk}
    (hpush : Turn brought (d :: t) n { desks := top :: d₁ :: t } n₁)
    (h : LeadsPast reached links brought (top :: d₁ :: t) n₁ (top' :: d₁ :: t) n')
    (hpop : Turn brought (top' :: d₁ :: t) n' { desks := d₂ :: t } n') :
    LeadsPast reached [] brought (d :: t) n (d₂ :: t) n' := by
  obtain ⟨history, ht, hs⟩ := h
  exact ⟨_, .step hpush (ht.trans (.step hpop (.refl _ _))), hs.nested⟩

end LeadsPast

namespace Attaches

variable {brought : Channel → Prop} {reached : List Step → Builder → Prop}
  {links links' : List Link} {d d₁ d' : Desk} {t ds' : List Desk} {n n₁ n' : Nat}

theorem past (h : Attaches links brought (d :: t) n (d₁ :: t) n₁)
    (h' : LeadsPast reached links' brought (d₁ :: t) n₁ ds' n') :
    LeadsPast reached (links ++ links') brought (d :: t) n ds' n' :=
  (LeadsPast.trans h h').congr fun _ _ => (or_iff_right id).symm

theorem trans (h : Attaches links brought (d :: t) n (d₁ :: t) n₁)
    (h' : Attaches links' brought (d₁ :: t) n₁ ds' n') :
    Attaches (links ++ links') brought (d :: t) n ds' n' :=
  h.past h'

theorem of_work {link : Option Link} (h : Work brought d n link d' n') :
    Attaches link.toList brought (d :: t) n (d' :: t) n' :=
  ⟨[_], .step (.work h) (.refl _ _),
    .single (m := { desks := d' :: t, link }) rfl fun _ => rfl⟩

theorem work {l : Link} (h : Work brought d n (some l) d' n') :
    Attaches [l] brought (d :: t) n (d' :: t) n' :=
  of_work h

end Attaches

namespace Leads

variable {brought : Channel → Prop} {reached : List Step → Builder → Prop}
  {links : List Link} {d d₁ d' : Desk} {t ds ds' : List Desk} {n n₁ n' : Nat}

theorem refl (ds : List Desk) (n : Nat) : Leads brought ds n ds n :=
  ⟨[], .refl ds n, fun _ _ hr => hr.elim, fun _ hm => absurd hm List.not_mem_nil,
    fun _ hm => absurd hm List.not_mem_nil, rfl⟩

theorem past (h : Leads brought (d :: t) n (d₁ :: t) n₁)
    (h' : LeadsPast reached links brought (d₁ :: t) n₁ ds' n') :
    LeadsPast reached links brought (d :: t) n ds' n' :=
  Attaches.past h h'

theorem andThen (h : Leads brought (d :: t) n (d₁ :: t) n₁)
    (h' : Attaches links brought (d₁ :: t) n₁ ds' n') :
    Attaches links brought (d :: t) n ds' n' :=
  h.past h'

theorem trans (h : Leads brought (d :: t) n (d₁ :: t) n₁)
    (h' : Leads brought (d₁ :: t) n₁ ds' n') :
    Leads brought (d :: t) n ds' n' :=
  h.past h'

theorem work (h : Work brought d n none d' n') :
    Leads brought (d :: t) n (d' :: t) n' :=
  Attaches.of_work h

end Leads

end FlowAssembly
