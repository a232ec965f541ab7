import FlowAssembly.Proofs.Accounts
import FlowAssembly.Proofs.StepTurns

/-!
# Histories

A builder is followed from its start through its calls, while others work in
the same workshop, up to the flow that is finished. Its history holds a moment
for the start and one for each turn of each call, at whatever depth, so that
it tells all that ever stood in a registry on the way, and the endpoints of
the main chain in the order in which they were attached.

Every program that runs has a history (`Underway.exists_call`,
`Underway.exists_finished`), which shows all the builders that are nested in
its steps. The endpoints that it has in the main chain are those that each
call attached to the flow of its own builder, and the bridge that the flow may
be closed by: they can be computed from the run without any history
(`Step.links`, `Builder.closing`). What is kept by each turn holds all along
it (`Underway.kept`). A channel that the caller brings is one that was made
before, and if its key stands in the flow already then it is the same channel
that stands there.
-/

namespace FlowAssembly

open Assembly

/-- The channel that a flow starts at, if the caller brings it. -/
def Start.brought : Start → List Channel
  | .channel c => [c]
  | .empty _ | .name _ | .source _ => []

/-- A builder as a flow starts with it: nothing is registered, or the channel
that it starts at, or a source whose output is pending. -/
inductive Builder.Started (s : Start) (b : Builder) (n : Nat) : Nat → Prop
  | bare : b.registry = .empty → b.cursor.tail = none → b.cursor.pending = none →
      b.cursor.deferred = [] → (∀ c, b.cursor.channel ≠ some (.channel c)) →
      Started s b n n
  | channel {c : Channel} : s = .channel c →
      b.registry = Registry.empty.add (.channel c) →
      b.cursor = { channel := some (.channel c) } → Started s b n n
  | source {src : Source} : b.registry = Registry.empty.add (.source src) →
      src.key = ⟨n⟩ → src.output = none → b.cursor =
      { tail := some ⟨src.label, true⟩
        pending :=
          some { component := src.key, owner := src.label,
                 requiresReply := true } } →
    Started s b n (n + 1)

theorem Start.started {s : Start} {b : Builder} {w w' : Workshop}
    (h : Yields s.make w b w') :
    b.Started s w.nextComponent w'.nextComponent := by
  match s with
  | .empty config =>
      simp only [Start.make, Builder.withConfig, yields_bind, yields_newFlowId,
        yields_newSession, yields_pure] at h
      obtain ⟨_, _, ⟨rfl, rfl⟩, _, _, ⟨rfl, rfl⟩, rfl, rfl⟩ := h
      exact .bare rfl rfl rfl rfl (by simp)
  | .channel c =>
      simp only [Start.make, Builder.fromChannel, Builder.new, Builder.withConfig,
        yields_bind, yields_newFlowId, yields_newSession, yields_pure] at h
      obtain ⟨_, _, ⟨_, _, ⟨rfl, rfl⟩, _, _, ⟨rfl, rfl⟩, rfl, rfl⟩, rfl, rfl⟩ := h
      exact .channel rfl rfl rfl
  | .name text =>
      simp only [Start.make, Builder.fromChannelName, Builder.new,
        Builder.withConfig, yields_bind, yields_newFlowId, yields_newSession,
        yields_pure] at h
      obtain ⟨_, _, ⟨_, _, ⟨rfl, rfl⟩, _, _, ⟨rfl, rfl⟩, rfl, rfl⟩, rfl, rfl⟩ := h
      exact .bare rfl rfl rfl rfl (by simp)
  | .source spec =>
      simp only [Start.make, Builder.fromSource, Builder.new, Builder.withConfig,
        yields_bind, yields_newFlowId, yields_newSession, yields_newComponentKey,
        yields_pure] at h
      obtain ⟨_, _, ⟨_, _, ⟨rfl, rfl⟩, _, _, ⟨rfl, rfl⟩, rfl, rfl⟩, _, _,
        ⟨rfl, rfl⟩, rfl, rfl⟩ := h
      exact .source rfl rfl rfl rfl

/-- A flow starts with at most one component. -/
theorem Builder.Started.components {s : Start} {b : Builder} {n n' : Nat}
    (h : b.Started s n n') :
    b.components = [] ∨
    (∃ c, s = .channel c ∧ b.components = [.channel c] ∧ n' = n) ∨
    ∃ src : Source, b.components = [.source src] ∧ src.key = ⟨n⟩ ∧
      src.output = none ∧ n' = n + 1 := by
  cases h with
  | bare hr _ _ hd => exact .inl (by rw [Builder.components_eq, hr, hd]; rfl)
  | channel hs hr hc =>
      exact .inr (.inl ⟨_, hs, by rw [Builder.components_eq, hr, hc]; rfl, rfl⟩)
  | source hr hk ho hc =>
      exact .inr (.inr ⟨_, by rw [Builder.components_eq, hr, hc]; rfl, hk, ho, rfl⟩)

/-- The channel was made before, and nothing else stands in the flow under its
key. -/
structure Builder.Knows (b : Builder) (w : Workshop) (c : Channel) : Prop where
  made : c.key.number < w.nextComponent
  same : ∀ x ∈ b.components, x.key = c.key → x = .channel c

/-- A flow at its start. A source that it starts from comes first in its
chain. -/
def Moment.first (b : Builder) : Moment where
  desks := [{ builder := b }]
  link := b.cursor.pending.map fun output => ⟨output.component, .next⟩

/-- The bridge that a flow is closed by, if it ends on a channel that was made
for it. -/
def Builder.closing (b : Builder) (n : Nat) : List Link :=
  match b.cursor.channel with
  | some (.channel c) => if c.implicit then [.latest n .next] else []
  | _ => []

/-- A builder that started and was worked on by the steps of a program, one
call for each, with all that it went through. In between others may have made
components. The channels that the caller brings are usable ones. The history
of a call has the links of the call. -/
inductive Underway (usable : Channel → Prop) : List Step → Builder → Workshop →
    List Moment → Prop
  | start {s : Start} {b : Builder} {w w' : Workshop} :
      (∀ c ∈ s.brought, usable c ∧ c.key.number < w.nextComponent) →
      Yields s.make w b w' → Underway usable [] b w' [.first b]
  | call {program : List Step} {s : Step} {b b' : Builder} {w w' : Workshop}
      {past history : List Moment} : Underway usable program b w past →
      s.isFresh = false → (∀ c ∈ s.brought, usable c ∧ b.Knows w c) →
      Yields (s.assemble b) w b' w' →
      Turns (· ∈ s.brought) [{ builder := b }] w.nextComponent history
        [{ builder := b' }] w'.nextComponent →
      Shows (s.Reaches b w) (s.links b w) [{ builder := b }] history →
      Underway usable (program ++ [s]) b' w' (past ++ history)
  | meanwhile {program : List Step} {b : Builder} {w w' : Workshop}
      {past : List Moment} : Underway usable program b w past →
      w.nextComponent ≤ w'.nextComponent → Underway usable program b w' past

/-- A finished flow with its program and its history, up to the bridge that it
may end on. -/
inductive Finished (usable : Channel → Prop) :
    List Step → FlowGraph → List Moment → Prop
  | finish {program : List Step} {b b' : Builder} {w w' : Workshop} {g : FlowGraph}
      {past history : List Moment} : Underway usable program b w past →
      Yields b.finish w g w' → Yields b.closeImplicit w b' w' →
      Turns (fun _ => False) [{ builder := b }] w.nextComponent history
        [{ builder := b' }] w'.nextComponent →
      Shows (fun _ _ => False) (b.closing w'.nextComponent)
        [{ builder := b }] history → Finished usable program g (past ++ history)

variable {usable : Channel → Prop} {program : List Step} {b b' : Builder}
  {w w' : Workshop} {g : FlowGraph} {past history : List Moment}

/-! ## Every run has a history -/

theorem Underway.exists_call {s : Step} (h : Underway usable program b w past)
    (hfresh : s.isFresh = false) (hb : ∀ c ∈ s.brought, usable c ∧ b.Knows w c)
    (hy : Yields (s.assemble b) w b' w') :
    ∃ history, Underway usable (program ++ [s]) b' w' (past ++ history) ∧
      linksAt 1 history = s.links b w := by
  obtain ⟨history, ht, hs⟩ :=
    Step.call_turns (B := (· ∈ s.brought)) (fun c hc => hc) hfresh hy
  exact ⟨history, .call h hfresh hb hy ht hs, hs.attached⟩

theorem leads_closeImplicit (hy : Yields b.closeImplicit w b' w') :
    Attaches (b.closing w'.nextComponent) (fun _ => False)
      [{ builder := b }] w.nextComponent [{ builder := b' }]
      w'.nextComponent := by
  rcases Builder.of_yields_closeImplicit hy
    with ⟨rfl, rfl, hexplicit⟩ | ⟨c, hc, himplicit, hb⟩
  · have hnone : b'.closing w'.nextComponent = [] := by
      unfold Builder.closing
      split
      · next c hc => rw [hexplicit c hc]; rfl
      · rfl
    rw [hnone]
    exact Leads.refl _ _
  · have hopen : b.Open := by
      intro hnone
      rw [hc] at hnone
      cases hnone
    have hbridge :
        b.closing w'.nextComponent = [.latest w'.nextComponent .next] := by
      rw [Builder.closing, hc]
      exact if_pos himplicit
    rw [hbridge]
    exact (leads_bridge (d := { builder := b }) hopen hb).1

theorem Underway.exists_finished (h : Underway usable program b w past)
    (hy : Yields b.finish w g w') :
    ∃ history, Finished usable program g (past ++ history) ∧
      linksAt 1 history = b.closing w'.nextComponent := by
  obtain ⟨b', hc, -, -⟩ := Builder.of_yields_finish hy
  obtain ⟨history, ht, hs⟩ := leads_closeImplicit hc
  exact ⟨history, .finish h hy hc ht hs, hs.attached⟩

/-- The endpoints that the calls of a program attach to the flow, in order. -/
def linksAlong : List Step → Builder → Workshop → List Link
  | [], _, _ => []
  | s :: rest, b, w =>
      match (s.assemble b).outcome w with
      | (.ok b', w') => s.links b w ++ linksAlong rest b' w'
      | _ => []

theorem linksAlong_cons {s : Step} {rest : List Step}
    (h : Yields (s.assemble b) w b' w') :
    linksAlong (s :: rest) b w = s.links b w ++ linksAlong rest b' w' := by
  unfold Yields at h
  rw [linksAlong, h]

/-- A program that brings no channels of the caller's can be run in one go. -/
theorem Underway.exists_steps {steps : List Step}
    (h : Underway usable program b w past)
    (hs : ∀ s ∈ steps, s.isFresh = false ∧ s.brought = [])
    (hy : Yields (assembleSteps b steps) w b' w') :
    ∃ history, Underway usable (program ++ steps) b' w' history ∧
      linksAt 1 history = linksAt 1 past ++ linksAlong steps b w := by
  induction steps generalizing program b w past with
  | nil =>
      obtain ⟨rfl, rfl⟩ := yields_pure.1 hy
      rw [List.append_nil]
      exact ⟨past, h, (List.append_nil _).symm⟩
  | cons s rest ih =>
      obtain ⟨b₁, w₁, hstep, hy⟩ := of_yields_assembleSteps_cons hy
      obtain ⟨hfresh, hbrought⟩ := hs s List.mem_cons_self
      obtain ⟨history, hcall, hlinks⟩ :=
        h.exists_call hfresh (by simp [hbrought]) hstep
      obtain ⟨later, hrest, hall⟩ :=
        ih hcall (fun s hm => hs s (List.mem_cons_of_mem _ hm)) hy
      rw [List.append_assoc] at hrest
      refine ⟨later, hrest, ?_⟩
      rw [hall, linksAt_append, hlinks, linksAlong_cons hstep, List.append_assoc]

theorem Finished.exists_of_run {start : Start} {steps : List Step}
    (hstart : ∀ c ∈ start.brought, usable c ∧ c.key.number < w.nextComponent)
    (hs : ∀ s ∈ steps, s.isFresh = false ∧ s.brought = [])
    (hy : Yields (do let b ← start.make; let b ← assembleSteps b steps; b.finish)
      w g w') :
    ∃ history, Finished usable steps g history := by
  simp only [yields_bind] at hy
  obtain ⟨b, w₁, hmake, b', w₂, hsteps, hfinish⟩ := hy
  obtain ⟨history, hunderway, -⟩ :=
    (Underway.start hstart hmake).exists_steps hs hsteps
  obtain ⟨last, hfinished, -⟩ := hunderway.exists_finished hfinish
  exact ⟨_, hfinished⟩

theorem Builder.checkEnds_of_yields_finish (hy : Yields b.finish w g w') :
    b.checkEnds = .ok () := by
  simp only [finish, yields_guarded, yields_bind, yields_ensure, yields_pure] at hy
  obtain ⟨_, _, ⟨hends, rfl⟩, -⟩ := hy
  exact hends

/-- What stands in a finished flow stands in its builder, closed and with the
held-back taps placed. -/
theorem Builder.components_of_yields_finish (hy : Yields b.finish w g w')
    (hc : Yields b.closeImplicit w b' w') :
    g.components = b'.flushDeferred.registry.components := by
  obtain ⟨b₁, hc₁, -, rfl⟩ := of_yields_finish hy
  obtain ⟨rfl, -⟩ := hc₁.eq hc
  exact components_toGraph _

namespace FlowGraph

theorem mem_channels {c : Channel} : c ∈ g.channels ↔
      .channel c ∈ g.components := by
  rw [channels, List.mem_filterMap]
  refine ⟨?_, fun h => ⟨_, h, rfl⟩⟩
  rintro ⟨x, hx, hc⟩
  cases x <;> cases hc
  exact hx

theorem mem_endpoints {e : Endpoint} : e ∈ g.endpoints ↔
      .endpoint e ∈ g.components := by
  rw [endpoints, List.mem_filterMap]
  refine ⟨?_, fun h => ⟨_, h, rfl⟩⟩
  rintro ⟨x, hx, he⟩
  cases x <;> cases he
  exact hx

theorem mem_sources {s : Source} : s ∈ g.sources ↔ .source s ∈ g.components := by
  rw [sources, List.mem_filterMap]
  refine ⟨?_, fun h => ⟨_, h, rfl⟩⟩
  rintro ⟨x, hx, hs⟩
  cases x <;> cases hs
  exact hx

end FlowGraph

/-! ## What holds all along -/

/-- A property of the moments so far and the desks as they stand that a run
keeps, given the channels that the call under way brings. -/
structure Kept (usable : Channel → Prop)
    (I : (Channel → Prop) → List Moment → List Desk → Nat → Prop) : Prop where
  start {s : Start} {b : Builder} {w w' : Workshop} :
    (∀ c ∈ s.brought, usable c ∧ c.key.number < w.nextComponent) →
    Yields s.make w b w' →
    I (fun _ => False) [.first b] [{ builder := b }] w'.nextComponent
  bring {brought : Channel → Prop} {b : Builder} {w : Workshop}
    {past : List Moment} : I (fun _ => False) past [{ builder := b }]
    w.nextComponent → (∀ c, brought c → usable c ∧ b.Knows w c) →
    I brought past [{ builder := b }] w.nextComponent
  turn {brought : Channel → Prop} {past : List Moment} {ds : List Desk} {m : Moment}
    {n n' : Nat} : I brought past ds n → Turn brought ds n m n' →
    I brought (past ++ [m]) m.desks n'
  forget {brought : Channel → Prop} {past : List Moment} {ds : List Desk}
    {n : Nat} : I brought past ds n → I (fun _ => False) past ds n
  wait {past : List Moment} {ds : List Desk} {n n' : Nat} :
    I (fun _ => False) past ds n → n ≤ n' → I (fun _ => False) past ds n'

section

variable {I : (Channel → Prop) → List Moment → List Desk → Nat → Prop}

theorem Kept.and {J : (Channel → Prop) → List Moment → List Desk → Nat → Prop}
    (hI : Kept usable I) (hJ : Kept usable J) : Kept usable fun brought past ds n =>
      I brought past ds n ∧ J brought past ds n where
  start hs hy := ⟨hI.start hs hy, hJ.start hs hy⟩
  bring h hb := ⟨hI.bring h.1 hb, hJ.bring h.2 hb⟩
  turn h ht := ⟨hI.turn h.1 ht, hJ.turn h.2 ht⟩
  forget h := ⟨hI.forget h.1, hJ.forget h.2⟩
  wait h hle := ⟨hI.wait h.1 hle, hJ.wait h.2 hle⟩

theorem Underway.kept (h : Underway usable program b w past) (hI : Kept usable I) :
    I (fun _ => False) past [{ builder := b }] w.nextComponent := by
  induction h with
  | start hs hy => exact hI.start hs hy
  | call _ _ hb _ ht _ ih => exact hI.forget (ht.induct hI.turn (hI.bring ih hb))
  | meanwhile _ hle ih => exact hI.wait ih hle

/-- A finished flow comes of a builder that passed the check of its ends, and
may have been closed by a bridge. -/
theorem Finished.kept (h : Finished usable program g history) (hI : Kept usable I) :
    ∃ b b' w w' past, Underway usable program b w past ∧ b.checkEnds = .ok () ∧
      Yields b.closeImplicit w b' w' ∧
      g.components = b'.flushDeferred.registry.components ∧
      I (fun _ => False) past [{ builder := b }] w.nextComponent ∧
      I (fun _ => False) history [{ builder := b' }] w'.nextComponent := by
  cases h with
  | @finish b b' w w' _ past _ hu hy hc ht _ =>
      have hpast := hu.kept hI
      exact ⟨b, b', w, w', past, hu, Builder.checkEnds_of_yields_finish hy, hc,
        Builder.components_of_yields_finish hy hc, hpast, ht.induct hI.turn hpast⟩

end

end FlowAssembly
