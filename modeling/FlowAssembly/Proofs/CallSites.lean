import FlowAssembly.Proofs.Pieces
import FlowAssembly.Proofs.Stages

/-!
# The place of side flows and of tapped flows

The flows that an endpoint holds stand ahead of the channel that it reads. A
flow that is tapped off a channel is held back until the channel has got its
reader, and stands behind that; if it gets none, the flow stands ahead of the
channel. What is asked of the order is said of one call (`Call.Placed`), and
it is left open in which order the pieces are to stand: it is asked again of
each flow around the call.

Calls are made on the builder that steps run on, and on those that are nested
in its calls (`Makes`). A builder that is thrown away takes with it what was
called on it, so only those calls count whose builders are kept.
-/

namespace FlowAssembly

open Assembly

/-- A call that answered. -/
structure Call where
  step : Step
  builder : Builder
  workshop : Workshop
  answer : Builder

/-- The call runs the flow in a builder that is nested in the parent, from the
workshop `v` on. -/
def Step.Runs (s : Step) (b : Builder) (w : Workshop) (parent : Builder)
    (flow : Channel × List Step) (v : Workshop) : Prop :=
  ∃ st w₁ before after branches, Yields (s.stage b) w st w₁ ∧ st.builder = parent ∧
    st.flows = before ++ flow :: after ∧
    YieldsAll parent.runBranch w₁ before branches v

/-- While the steps run the call is made, on their builder or on one that is
nested in a call of theirs, and no builder around it is thrown away later
on. -/
inductive Makes : List Step → Builder → Workshop → Call → Prop
  | here {s : Step} {rest : List Step} {b b' : Builder} {w w' : Workshop} :
      Yields (s.assemble b) w b' w' → (∀ t ∈ rest, t.isFresh = false) →
      Makes (s :: rest) b w ⟨s, b, w, b'⟩
  | later {s : Step} {rest : List Step} {b b₁ : Builder} {w w₁ : Workshop}
      {call : Call} : Yields (s.assemble b) w b₁ w₁ → Makes rest b₁ w₁ call →
      Makes (s :: rest) b w call
  | within {s : Step} {rest : List Step} {b parent : Builder}
      {flow : Channel × List Step} {w v : Workshop} {call : Call} :
      s.Runs b w parent flow v → Makes flow.2 (parent.branch flow.1) v call →
      (∀ t ∈ rest, t.isFresh = false) → Makes (s :: rest) b w call

/-- The flows of the call in declared order, each as it is once it is closed:
where it ended on a channel, a bridge reads that. -/
def Step.Comes (s : Step) (b : Builder) (w : Workshop) (rs : List Registry) :
    Prop :=
  ∃ st w₁ branches w₂ closed w₃, Yields (s.stage b) w st w₁ ∧
    YieldsAll st.builder.runBranch w₁ st.flows branches w₂ ∧
    YieldsAll (fun br => br.leaveOpen st.builder) w₂ branches closed w₃ ∧
    rs = closed.map Branch.registry

/-- The flows that were tapped off since the builder last moved on, in the
order of the calls. -/
inductive Tapped : Builder → Workshop → List Registry → Prop
  | begun {start : Start} {b : Builder} {w w' : Workshop} :
      Yields start.make w b w' → Tapped b w' []
  | branch (parent : Builder) (c : Channel) (w : Workshop) :
      Tapped (parent.branch c) w []
  | moved {s : Step} {b b' : Builder} {w w' : Workshop} : s.lingers = false →
      Yields (s.assemble b) w b' w' → Tapped b' w' []
  | lingered {s : Step} {b b' : Builder} {w w' : Workshop}
      {rs rs' : List Registry} : Tapped b w rs → s.lingers = true →
      s.Comes b w rs' → Yields (s.assemble b) w b' w' → Tapped b' w' (rs ++ rs')
  | meanwhile {b : Builder} {w w' : Workshop} {rs : List Registry} : Tapped b w rs →
    w.nextComponent ≤ w'.nextComponent → Tapped b w' rs

namespace Builder

/-- The order of the flows that are held back. -/
def heldBack (b : Builder) : List Mark :=
  b.cursor.deferred.flatMap Registry.marks

/-- The builder holds back what was tapped off the channel that it stands on,
and nothing where it stands on none. -/
structure HoldsBack (b : Builder) (w : Workshop) : Prop where
  tapped : Tapped b w b.cursor.deferred
  vacant : (∀ c, b.cursor.channel ≠ some (.channel c)) → b.cursor.deferred = []

/-- What an endpoint that comes next reads, and what stands ahead of that: the
channel that the flow stands on, a name, or a channel that is made for the
endpoint. -/
inductive Feeds (b : Builder) : List Mark → Option ComponentKey → Prop
  | stood {c : Channel} {front : List Mark} : b.cursor.channel = some (.channel c) →
    b.registry.marks = front ++ [.channel c.key] → Feeds b front (some c.key)
  | named {name : String} : b.cursor.channel = some (.named name) →
      Feeds b b.registry.marks none
  | made {k : ComponentKey} : (∀ source ∈ b.cursor.channel, source.target? = none) →
    Feeds b b.registry.marks (some k)

/-- The flow ended on the channel with the given order: what it held back went
ahead of the channel, which is last. -/
def EndsOn (b : Builder) (c : Channel) (marks : List Mark) : Prop :=
  ∃ front, b.registry.marks = front ++ [.channel c.key] ∧
    marks = front ++ b.heldBack ++ [.channel c.key]

end Builder

/-- Side flows in declared order, the channel that is read, and the endpoint
that reads it. -/
def led (sides : List Registry) (k? : Option ComponentKey) (e : ComponentKey) :
    List Mark :=
  sides.flatMap Registry.marks ++ (k?.map Mark.channel).toList ++ [.endpoint e k?]

namespace Call

/-- What a call asks of the order of a flow around it, where `InPiece` tells
which marks stand in one piece there. -/
structure Placed (call : Call) (InPiece : List Mark → Prop) : Prop where
  held : call.builder.HoldsBack call.workshop
  /-- An endpoint goes right behind the channel that it reads, and its side
  flows go right ahead of that. -/
  sides : ∀ plan flows, call.step = .endpoint plan flows →
    ∃ rs front k? e, call.step.Comes call.builder call.workshop rs ∧
      call.builder.Feeds front k? ∧
      call.answer.registry.marks = front ++ led rs k? e ++ call.builder.heldBack ∧
      InPiece (led rs k? e)
  /-- A call that moves on reads the channel, and what was held back goes
  right behind the reader. -/
  read : call.step.lingers = false → call.step.isFresh = false →
    ∀ c, call.builder.cursor.channel = some (.channel c) →
      ∃ front sides e rest,
        call.builder.registry.marks = front ++ [.channel c.key] ∧
        call.answer.registry.marks = front ++ sides ++ .channel c.key ::
          .endpoint e (some c.key) :: (call.builder.heldBack ++ rest) ∧
        InPiece (.endpoint e (some c.key) :: call.builder.heldBack)
  /-- Where a flow of the call ends on a channel, what it held back stands
  ahead of that. -/
  ended : ∀ parent flow v n u,
    call.step.Runs call.builder call.workshop parent flow v →
    Yields (assembleSteps (parent.branch flow.1) flow.2) v n u → n.HoldsBack u ∧
    ∀ c, n.cursor.channel = some (.channel c) →
      ∃ gap, InPiece (n.heldBack ++ gap ++ [.channel c.key])

/-- Each flow of the call has what is called in it in its place, and its own
channel at its end. -/
def Levels (call : Call) : Prop :=
  ∀ parent flow v br v', call.step.Runs call.builder call.workshop parent flow v →
    Yields (parent.runBranch flow) v br v' →
    (∀ inner, Makes flow.2 (parent.branch flow.1) v inner →
      inner.Placed (· <:+: br.registry.marks)) ∧
    ∀ n u c, Yields (assembleSteps (parent.branch flow.1) flow.2) v n u →
      n.cursor.channel = some (.channel c) → n.EndsOn c br.registry.marks

theorem Placed.mono {call : Call} {P Q : List Mark → Prop} (h : call.Placed P)
    (hPQ : ∀ l, P l → Q l) :
    call.Placed Q where
  held := h.held
  sides plan flows hs := by
    obtain ⟨rs, front, k?, e, hcomes, hfeeds, hmarks, hin⟩ := h.sides plan flows hs
    exact ⟨rs, front, k?, e, hcomes, hfeeds, hmarks, hPQ _ hin⟩
  read hl hf c hc := by
    obtain ⟨front, sides, e, rest, hfront, hmarks, hin⟩ := h.read hl hf c hc
    exact ⟨front, sides, e, rest, hfront, hmarks, hPQ _ hin⟩
  ended parent flow v n u hr hy := by
    refine (h.ended parent flow v n u hr hy).imp_right fun hend c hc => ?_
    obtain ⟨gap, hin⟩ := hend c hc
    exact ⟨gap, hPQ _ hin⟩

end Call

/-! ## Calls of a run -/

section

variable {s : Step} {rest : List Step} {b b' b₁ parent : Builder}
  {flow : Channel × List Step} {st : Stage} {rs : List Registry} {call : Call}
  {w w' w₁ v : Workshop}

theorem Step.runs_iff (h : Yields (s.stage b) w st w₁) :
    s.Runs b w parent flow v ↔ st.builder = parent ∧
      ∃ before after branches, st.flows = before ++ flow :: after ∧
        YieldsAll parent.runBranch w₁ before branches v := by
  constructor
  · rintro ⟨_, _, before, after, branches, hst, hparent, hflows, hbefore⟩
    obtain ⟨rfl, rfl⟩ := h.eq hst
    exact ⟨hparent, before, after, branches, hflows, hbefore⟩
  · rintro ⟨hparent, before, after, branches, hflows, hbefore⟩
    exact ⟨st, w₁, before, after, branches, h, hparent, hflows, hbefore⟩

theorem not_makes_nil : ¬ Makes [] b w call := nofun

/-- A call of a single step is that step, or is made in a flow that it runs. -/
theorem makes_singleton (hy : Yields (s.assemble b) w b' w')
    (h : Makes [s] b w call) :
    call = ⟨s, b, w, b'⟩ ∨
    ∃ parent flow v, s.Runs b w parent flow v ∧
      Makes flow.2 (parent.branch flow.1) v call := by
  cases h with
  | here hy' _ =>
      obtain ⟨rfl, -⟩ := hy.eq hy'
      exact .inl rfl
  | later _ hrest => exact absurd hrest not_makes_nil
  | within hr hin _ => exact .inr ⟨_, _, _, hr, hin⟩

/-- A call is made by the first step, if nothing throws its builder away later
on, or behind it. -/
theorem makes_cons (hy : Yields (s.assemble b) w b₁ w₁)
    (h : Makes (s :: rest) b w call) :
    Makes [s] b w call ∧ (∀ t ∈ rest, t.isFresh = false) ∨
    Makes rest b₁ w₁ call := by
  cases h with
  | here hy' hkept => exact .inl ⟨.here hy' (List.forall_mem_nil _), hkept⟩
  | later hy' hrest =>
      obtain ⟨rfl, rfl⟩ := hy.eq hy'
      exact .inr hrest
  | within hr hin hkept =>
      exact .inl ⟨.within hr hin (List.forall_mem_nil _), hkept⟩

/-! ## Flows that are held back -/

theorem Builder.deferred_tapPoint {attempted : String} {c : Channel}
    (h : Yields (b.tapPoint attempted) w (b', c) w') :
    b'.cursor.deferred = b.cursor.deferred := by
  rcases of_yields_tapPoint h with ⟨-, rfl, -⟩ | ⟨-, rfl, -⟩
  · rfl
  · exact deferred_bindPending _ _

/-- What a call that lingers adds to the flows that are held back are its
own. -/
theorem Step.comes_of_lingers (hl : s.lingers = true)
    (hy : Yields (s.assemble b) w b' w') :
    ∃ rs, s.Comes b w rs ∧ b'.cursor.deferred = b.cursor.deferred ++ rs := by
  obtain ⟨st, w₁, branches, w₂, w₃, hst, hbr, hclose, -⟩ := of_yields hy
  -- A call without flows adds none.
  have hnone : st.flows = [] → b'.cursor.deferred = b.cursor.deferred →
      ∃ rs, s.Comes b w rs ∧ b'.cursor.deferred = b.cursor.deferred ++ rs := by
    intro hflows hsame
    refine ⟨[], ⟨st, w₁, [], w₁, [], w₁, hst, ?_, .nil _, rfl⟩,
      by rw [hsame, List.append_nil]⟩
    rw [hflows]
    exact .nil _
  cases s with
  | channel | endpoint | route | routeToRecipients | publishSubscribe
  | scatterGather | fresh | faulty =>
      cases hl
  | wireTap plan destination =>
      have hstage := hst
      simp only [stage, yields_bind, yields_pure] at hst
      obtain ⟨opening, _, -, selector, _, -, ⟨b₁, c⟩, _, ht, rfl, -⟩ := hst
      obtain ⟨closed, w₄, hl, hb'⟩ := yields_bind.1 hclose
      obtain ⟨rfl, -⟩ := yields_pure.1 hb'
      refine ⟨_, ⟨_, _, _, _, closed, w₄, hstage, hbr, yieldsAll_of_mapM hl, rfl⟩,
        ?_⟩
      show b₁.cursor.deferred ++ _ = _
      rw [Builder.deferred_tapPoint ht]
  | intercept plan =>
      simp only [stage, yields_bind, yields_pure] at hst
      obtain ⟨interceptor, _, -, ⟨b₁, c⟩, _, ht, rfl, -⟩ := hst
      obtain ⟨rfl, -⟩ := yields_pure.1 hclose
      exact hnone rfl (Builder.deferred_tapPoint ht)
  | withId id =>
      simp only [stage, yields_pure] at hst
      obtain ⟨rfl, -⟩ := hst
      refine hnone rfl ?_
      rcases of_yields_withId hy with ⟨-, rfl, -⟩ | ⟨-, rfl, -⟩ <;> rfl
  | withSession session =>
      simp only [stage, yields_pure] at hst
      obtain ⟨rfl, -⟩ := hst
      refine hnone rfl ?_
      rcases of_yields_withSession hy with ⟨-, rfl, -⟩ | ⟨-, rfl, -⟩ <;> rfl

theorem Tapped.lingers (h : Tapped b w b.cursor.deferred) (hl : s.lingers = true)
    (hy : Yields (s.assemble b) w b' w') : Tapped b' w' b'.cursor.deferred := by
  obtain ⟨rs, hcomes, hheld⟩ := Step.comes_of_lingers hl hy
  rw [hheld]
  exact h.lingered hl hcomes hy

end

end FlowAssembly
