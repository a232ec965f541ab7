import FlowAssembly.Proofs.Stages

/-!
# What happens along a run

While steps run, builders stand before calls: the builder that was called, and
those that are nested in its calls, each in the workshop as it is at that
moment (`Visits`). A call that fails has its moments too, up to the failure.

A relation between workshops that is kept by whatever each of these builders
does by itself (`Keeps`) is kept by the whole run, and on the way to each of
its moments, and from there to the end, whether the run answers or fails.
-/

namespace FlowAssembly

open Assembly

namespace Assembly

variable {α β : Type} {m : Assembly α} {f : α → Assembly β} {w : Workshop}
  {Q : Workshop → Prop}

/-- From the given workshop the step comes to one with the property, whether
it answers or fails. -/
def Ends (m : Assembly α) (w : Workshop) (Q : Workshop → Prop) : Prop :=
  Q (m.outcome w).2

theorem Leaves.ends {P : Workshop → Workshop → Prop} (h : m.Leaves P)
    (w : Workshop) : m.Ends w (P w) :=
  h w

theorem Ends.of_yields {w' : Workshop} {a : α} (h : m.Ends w Q)
    (hy : Yields m w a w') : Q w' := by
  unfold Ends at h
  rwa [hy] at h

theorem ends_bind_of_yields {w' : Workshop} {a : α} (hy : Yields m w a w') :
    (m >>= f).Ends w Q ↔ (f a).Ends w' Q := by
  rw [Ends, outcome_bind, hy]
  rfl

theorem Ends.bind {P : Workshop → Workshop → Prop} [Trans P P P] {v : Workshop}
    (hm : m.Ends w (P v)) (hf : ∀ {a w₁}, Yields m w a w₁ → (f a).Ends w₁ (P w₁)) :
    (m >>= f).Ends w (P v) := by
  unfold Ends at hm ⊢
  rw [outcome_bind]
  split
  · next a w₁ hy =>
      rw [hy] at hm
      exact Trans.trans hm (hf hy)
  · next cause w₁ hy =>
      rwa [hy] at hm

/-- The step fails from the workshop `w`, and leaves `w'`. -/
def Stops (m : Assembly α) (w : Workshop) (cause : Refusal) (w' : Workshop) :
    Prop :=
  m.outcome w = (.error cause, w')

theorem Ends.of_stops {cause : Refusal} {w' : Workshop} (h : m.Ends w Q)
    (hs : Stops m w cause w') : Q w' := by
  unfold Ends at h
  rwa [hs] at h

theorem fails_iff_stops {cause : Refusal} : Fails m w cause ↔
      ∃ w', Stops m w cause w' := by
  constructor
  · exact fun h => ⟨_, Prod.ext h rfl⟩
  · rintro ⟨w', h⟩
    exact congrArg Prod.fst h

@[simp]
theorem not_stops_pure {a : α} {cause : Refusal} {w' : Workshop} :
    ¬ Stops (pure a) w cause w' :=
  nofun

@[simp]
theorem stops_throw {c cause : Refusal} {w' : Workshop} :
    Stops (throw c : Assembly α) w cause w' ↔ cause = c ∧ w' = w := by
  constructor
  · intro h
    have h : ((Except.error c : Except Refusal α), w) = (.error cause, w') := h
    cases h
    exact ⟨rfl, rfl⟩
  · rintro ⟨rfl, rfl⟩
    rfl

theorem stops_ensure {check : Except FlowError Unit} {cause : Refusal}
    {w' : Workshop} :
    Stops (ensure check) w cause w' ↔
      ∃ c, check = .error c ∧ cause = .flow c ∧ w' = w := by
  cases check with
  | ok => exact ⟨fun h => absurd h not_stops_pure, nofun⟩
  | error c => simp [ensure, fail]

@[simp]
theorem stops_bind {cause : Refusal} {w' : Workshop} :
    Stops (m >>= f) w cause w' ↔
      Stops m w cause w' ∨ ∃ a w₁, Yields m w a w₁ ∧ Stops (f a) w₁ cause w' := by
  unfold Stops Yields
  rw [outcome_bind]
  match m.outcome w with
  | (.ok a, w₁) =>
      constructor
      · exact fun h => .inr ⟨a, w₁, rfl, h⟩
      · rintro (h | ⟨_, _, h, hf⟩)
        · cases h
        · cases h
          exact hf
  | (.error c, w₁) =>
      constructor
      · intro h
        cases h
        exact .inl rfl
      · rintro (h | ⟨_, _, h, -⟩)
        · cases h
          rfl
        · cases h

theorem stops_bind_of_yields {a : α} {cause : Refusal} {w₁ w' : Workshop}
    (hy : Yields m w a w₁) :
    Stops (m >>= f) w cause w' ↔ Stops (f a) w₁ cause w' := by
  rw [Stops, outcome_bind, hy]
  rfl

/-- A step is seen to fail by evaluating it. -/
theorem exists_stops (h : (m.outcome w).1.toOption.isSome = false) :
    ∃ cause w', Stops m w cause w' := by
  unfold Stops
  match m.outcome w, h with
  | (.error cause, w'), _ => exact ⟨cause, w', rfl⟩

theorem stops_updateClaims {change : ClaimBook → Except FlowError ClaimBook}
    {cause : Refusal} {w' : Workshop} :
    Stops (updateClaims change) w cause w' ↔
      ∃ c, change w.claims = .error c ∧ cause = .flow c ∧ w' = w := by
  have hget : (get : Assembly Workshop).outcome w = (.ok w, w) := rfl
  unfold Stops updateClaims
  rw [outcome_bind, hget]
  dsimp only
  match change w.claims with
  | .ok claims => exact ⟨nofun, nofun⟩
  | .error c =>
      refine stops_throw.trans ⟨?_, ?_⟩
      · rintro ⟨rfl, rfl⟩
        exact ⟨c, rfl, rfl, rfl⟩
      · rintro ⟨_, ⟨⟩, rfl, rfl⟩
        exact ⟨rfl, rfl⟩

theorem stops_transferClaims {source target : SessionId} {owner : String}
    {cause : Refusal} {w' : Workshop} :
    Stops (transferClaims source target owner) w cause w' ↔
      ∃ c, w.claims.transfer source target owner = .error c ∧
        cause = .flow c ∧ w' = w := by
  have hget : Yields (get : Assembly Workshop) w w w := rfl
  rw [transferClaims, stops_bind_of_yields hget, stops_bind, stops_updateClaims]
  constructor
  · rintro (h | ⟨_, _, -, h⟩)
    · exact h
    · exact absurd h not_stops_pure
  · exact .inl

/-- Where one of a list of steps fails, those behind it do not run. -/
theorem stops_mapM {before after : List α} {a : α} {bs : List β} {w₁ w' : Workshop}
    {cause : Refusal} (hys : YieldsAll f w before bs w₁)
    (hs : Stops (f a) w₁ cause w') :
    Stops ((before ++ a :: after).mapM f) w cause w' := by
  induction hys with
  | nil w =>
      rw [List.nil_append, List.mapM_cons]
      exact stops_bind.2 (.inl hs)
  | cons hy _ ih =>
      rw [List.cons_append, List.mapM_cons]
      exact stops_bind.2 (.inr ⟨_, _, hy, stops_bind.2 (.inl (ih hs))⟩)

/-- A call that fails drops its builder in the end. -/
theorem stops_guarded {b : Builder} {cause : Refusal} {w' : Workshop} :
    Stops (b.guarded m) w cause w' ↔
      ∃ w₁, Stops m w cause w₁ ∧ Yields b.discard w₁ () w' := by
  have hdrop : ∀ w₁ c, (b.discard >>= fun _ => (throw c : Assembly α)).outcome w₁ =
      (.error c, (b.discard.outcome w₁).2) ∧
      b.discard.outcome w₁ = (.ok (), (b.discard.outcome w₁).2) := by
    intro w₁ c
    unfold Builder.discard
    split <;> exact ⟨rfl, rfl⟩
  unfold Stops Builder.guarded Yields
  rw [outcome_tryCatch]
  match m.outcome w with
  | (.ok a, w₁) => exact ⟨nofun, nofun⟩
  | (.error c, w₁) =>
      obtain ⟨hthrow, hdiscard⟩ := hdrop w₁ c
      dsimp only
      rw [hthrow]
      constructor
      · intro h
        cases h
        exact ⟨w₁, rfl, hdiscard⟩
      · rintro ⟨_, ⟨⟩, h⟩
        rw [h]

/-- What a failing call comes to once its builder is dropped. -/
theorem Ends.guarded {P : Workshop → Workshop → Prop} [Trans P P P] {b : Builder}
    {v : Workshop} (hm : m.Ends w (P v)) (hd : b.discard.Leaves P) :
    (b.guarded m).Ends w (P v) := by
  unfold Ends Builder.guarded at *
  rw [outcome_tryCatch]
  split
  · next a w₁ hy => rwa [hy] at hm
  · next cause w₁ hy =>
      rw [hy] at hm
      rw [outcome_bind]
      have hdrop := hd w₁
      split
      · next u w₂ hu =>
          rw [hu] at hdrop
          exact Trans.trans hm hdrop
      · next c w₂ hu =>
          rw [hu] at hdrop
          exact Trans.trans hm hdrop

end Assembly

/-! ## The moments of a run -/

/-- While steps run on a builder from a workshop, it stands before the steps
that are left as given, or a builder that is nested in one of its calls does,
in the given workshop. -/
inductive Visits : List Step → Builder → Workshop → List Step → Builder →
    Workshop → Prop
  | here (steps : List Step) (b : Builder) (w : Workshop) :
      Visits steps b w steps b w
  | later {s : Step} {steps left : List Step} {b b₁ b' : Builder}
      {w w₁ w' : Workshop} : Yields (s.assemble b) w b₁ w₁ →
      Visits steps b₁ w₁ left b' w' → Visits (s :: steps) b w left b' w'
  | within {s : Step} {steps left : List Step} {b b' : Builder} {st : Stage}
      {before after : List (Channel × List Step)} {flow : Channel × List Step}
      {branches : List Branch} {w w₁ w₂ w' : Workshop} :
      Yields (s.stage b) w st w₁ → st.flows = before ++ flow :: after →
      YieldsAll st.builder.runBranch w₁ before branches w₂ →
      Visits flow.2 (st.builder.branch flow.1) w₂ left b' w' →
      Visits (s :: steps) b w left b' w'

/-- While a call runs, a builder that is nested in it stands as given. -/
def Step.Visits (s : Step) (b : Builder) (w : Workshop) (left : List Step)
    (b' : Builder) (w' : Workshop) : Prop :=
  ∃ st w₁ before flow after branches w₂, Yields (s.stage b) w st w₁ ∧
    st.flows = before ++ flow :: after ∧
    YieldsAll st.builder.runBranch w₁ before branches w₂ ∧
    FlowAssembly.Visits flow.2 (st.builder.branch flow.1) w₂ left b' w'

theorem Visits.of_yields {steps : List Step} {b b' : Builder} {w w' : Workshop}
    (h : Yields (assembleSteps b steps) w b' w') : Visits steps b w [] b' w' := by
  induction steps generalizing b w with
  | nil =>
      obtain ⟨rfl, rfl⟩ := yields_pure.1 h
      exact .here [] _ _
  | cons s rest ih =>
      obtain ⟨b₁, w₁, hs, h⟩ := of_yields_assembleSteps_cons h
      exact .later hs (ih h)

/-- A builder that is called, and answers, stands before the next call. -/
theorem Visits.next {t : Step} {steps left : List Step} {b b' b'' : Builder}
    {w w' w'' : Workshop} (h : Visits steps b w (t :: left) b' w')
    (hy : Yields (t.assemble b') w' b'' w'') :
    Visits steps b w left b'' w'' := by
  generalize hl : t :: left = l at h
  induction h with
  | here =>
      subst hl
      exact .later hy (.here _ _ _)
  | later hstep _ ih => exact .later hstep (ih hy hl)
  | within hst heq hys _ ih => exact .within hst heq hys (ih hy hl)

theorem Step.Visits.next {s t : Step} {left : List Step} {b b' b'' : Builder}
    {w w' w'' : Workshop} (h : s.Visits b w (t :: left) b' w')
    (hy : Yields (t.assemble b') w' b'' w'') : s.Visits b w left b'' w'' := by
  obtain ⟨st, w₁, before, flow, after, branches, w₂, hst, heq, hys, hv⟩ := h
  exact ⟨st, w₁, before, flow, after, branches, w₂, hst, heq, hys, hv.next hy⟩

theorem Step.Visits.mem {s : Step} {steps left : List Step} {b b' : Builder}
    {w w' : Workshop} (h : s.Visits b w left b' w') :
    FlowAssembly.Visits (s :: steps) b w left b' w' := by
  obtain ⟨_, _, _, _, _, _, _, hst, hf, hys, hv⟩ := h
  exact .within hst hf hys hv

/-- Where no builder is thrown away, all that a run on a nested builder comes
to assemble the same flow. -/
theorem Visits.sameFlow {steps left : List Step} {b b' : Builder} {w w' : Workshop}
    (h : Visits steps b w left b' w') (hc : Contained steps)
    (hn : b.nested = true) : b.SameFlow b' := by
  induction h with
  | here => exact .refl _
  | later hy _ ih =>
      obtain ⟨hfresh, -, hrest⟩ := contained_cons.1 hc
      have hstep := Step.sameFlow (.inr ⟨hn, hfresh⟩) hy
      exact hstep.trans (ih hrest (hstep.nested.trans hn))
  | @within s steps left b b' st before after flow branches w w₁ w₂ w' hst
      heq _ _ ih =>
        obtain ⟨-, hin, -⟩ := contained_cons.1 hc
        have hflow := hin.flow
          (Step.flow_mem_of_stage hst
            (heq ▸ List.mem_append_right _ List.mem_cons_self))
        have hbranch : b.SameFlow (st.builder.branch flow.1) :=
          ⟨(Step.stage_serves hst).same.session,
            (Step.stage_serves hst).same.flowId, hn.symm⟩
        exact hbranch.trans (ih hflow rfl)

theorem Step.Visits.nested {s : Step} {left : List Step} {b b' : Builder}
    {w w' : Workshop} (h : s.Visits b w left b' w') (hc : s.Contained) :
    b'.nested = true := by
  obtain ⟨st, w₁, before, flow, after, branches, w₂, hst, heq, -, hv⟩ := h
  have hflow := hc.flow
    (Step.flow_mem_of_stage hst (heq ▸ List.mem_append_right _ List.mem_cons_self))
  exact (hv.sameFlow hflow rfl).nested

/-! ## Relations that are kept -/

variable {P : Workshop → Workshop → Prop}

/-- In a call, the builder keeps to the relation by what it does before its
flows and behind them. -/
structure Step.Keeps (P : Workshop → Workshop → Prop) (s : Step) (b : Builder)
    (w : Workshop) : Prop where
  stage : (s.stage b).Ends w (P w)
  close : ∀ {st w₁ branches w₂}, Yields (s.stage b) w st w₁ →
    YieldsAll st.builder.runBranch w₁ st.flows branches w₂ →
    Ends (do let b ← st.close branches; st.attach; return b) w₂ (P w₂)

/-- At a moment of a run, the builder keeps to the relation by what it does
next and by being dropped. -/
def Observes (P : Workshop → Workshop → Prop) (left : List Step) (b : Builder)
    (w : Workshop) : Prop :=
  match left with
  | [] => b.intoBranch.Ends w (P w)
  | s :: _ => s.Keeps P b w ∧ b.discard.Leaves P

/-- A builder abides by a relation if it keeps to it by all that it does by
itself, but for the interceptor that a call attaches in the end. -/
structure Builder.Abides (P : Workshop → Workshop → Prop) (b : Builder) : Prop where
  adds : ∀ {w w'}, w.Adds b.session b.flowId w' → P w w'
  withId : ∀ id, (b.withId id).Leaves P
  withSession : ∀ session, (b.withSession session).Leaves P
  discard : b.discard.Leaves P

/-- The interceptor that a call attaches in the end, if it gets to that, is in
keeping with the relation. -/
def Step.TapKeeps (P : Workshop → Workshop → Prop) (s : Step) (b : Builder)
    (w : Workshop) : Prop :=
  ∀ st w₁ channel interceptor branches w₂ b' w₃, Yields (s.stage b) w st w₁ →
    st.tap = some (channel, interceptor) →
    YieldsAll st.builder.runBranch w₁ st.flows branches w₂ →
    Yields (st.close branches) w₂ b' w₃ →
    (addInterceptor channel interceptor).Ends w₃ (P w₃)

section

variable {s : Step} {left : List Step} {b : Builder} {st : Stage} {w w₁ : Workshop}

theorem Step.TapKeeps.of_leaves
    (h : ∀ channel interceptor, (addInterceptor channel interceptor).Leaves P) :
    s.TapKeeps P b w :=
  fun _ _ channel interceptor _ _ _ w₃ _ _ _ _ => h channel interceptor w₃

variable [Trans P P P]

theorem Step.close_leaves (hadds : ∀ {w w'}, w.Adds b.session b.flowId w' → P w w')
    (hchange : s.changesFlow = true → b.Abides P) (hst : Yields (s.stage b) w st w₁)
    (branches : List Branch) :
    (st.close branches).Leaves P := by
  cases hs : s.changesFlow with
  | false => exact ((stage_serves hst).close hs branches).mono hadds
  | true =>
      have hb := hchange hs
      obtain ⟨id, rfl⟩ | ⟨session, rfl⟩ | rfl := cases_of_changesFlow hs
      · obtain ⟨rfl, -⟩ := yields_pure.1 hst
        exact hb.withId id
      · obtain ⟨rfl, -⟩ := yields_pure.1 hst
        exact hb.withSession session
      · obtain ⟨rfl, -⟩ := yields_pure.1 hst
        exact .bind hb.discard fun _ =>
          ((Builder.withConfig_leaves {}).mono .of_supplied).mono hadds

variable [Std.Refl P]

theorem Step.keeps_of (hadds : ∀ {w w'}, w.Adds b.session b.flowId w' → P w w')
    (hchange : s.changesFlow = true → b.Abides P) (htap : s.TapKeeps P b w) :
    s.Keeps P b w where
  stage := ((s.stage_adds b).mono hadds).ends w
  close := by
    intro st w₁ branches w₂ hst hbr
    refine .bind ((close_leaves hadds hchange hst branches).ends w₂)
      fun {b' w₃} hclose => .bind ?_ fun _ => (Leaves.pure _).ends _
    unfold Stage.attach
    split
    · next channel interceptor heq =>
        exact htap st w₁ channel interceptor branches w₂ b' w₃ hst heq hbr hclose
    · exact (Leaves.pure _).ends _

/-- At any moment of a run, whoever abides by the relation may go on. -/
theorem Builder.Abides.observes (hb : b.Abides P)
    (htap : ∀ s rest, left = s :: rest → s.TapKeeps P b w) :
    Observes P left b w := by
  cases left with
  | nil => exact (leaves_intoBranch hb.discard).ends w
  | cons s rest =>
      exact ⟨Step.keeps_of hb.adds (fun _ => hb) (htap s rest rfl), hb.discard⟩

end

namespace Builder

variable {b : Builder} {flows before after : List (Channel × List Step)}
  {flow : Channel × List Step} {branches : List Branch} {v w w₁ : Workshop}

/-- Each of the branches keeps to the relation, where those ahead of it have
run. -/
def BranchesKeep (P : Workshop → Workshop → Prop) (b : Builder)
    (flows : List (Channel × List Step)) (w : Workshop) :
    Prop :=
  ∀ before flow after branches w₁, flows = before ++ flow :: after →
    YieldsAll b.runBranch w before branches w₁ → (b.runBranch flow).Ends w₁ (P w₁)

namespace BranchesKeep

variable {rest : List (Channel × List Step)} {br : Branch}

theorem head (h : BranchesKeep P b (flow :: rest) w) :
    (b.runBranch flow).Ends w (P w) :=
  h [] flow rest [] w rfl (.nil w)

theorem tail (h : BranchesKeep P b (flow :: rest) w)
    (hy : Yields (b.runBranch flow) w br w₁) :
    BranchesKeep P b rest w₁ :=
  fun before next after branches w₂ heq hys =>
    h (flow :: before) next after (br :: branches) w₂ (by rw [heq]; rfl)
      (.cons hy hys)

theorem left (h : BranchesKeep P b (before ++ rest) w) :
    BranchesKeep P b before w :=
  fun earlier next later branches w₁ heq hys =>
    h earlier next (later ++ rest) branches w₁
      (by rw [heq, List.append_assoc]; rfl) hys

end BranchesKeep

/-- Branches that run one after the other keep to a relation that each of them
keeps to. -/
theorem runBranches_keep [Std.Refl P] [Trans P P P] (h : BranchesKeep P b flows w) :
    (flows.mapM b.runBranch).Ends w (P w) := by
  induction flows generalizing w with
  | nil => exact (Leaves.pure []).ends w
  | cons flow rest ih =>
      rw [List.mapM_cons]
      exact .bind h.head fun hy => .bind (ih (h.tail hy)) fun _ =>
        (Leaves.pure _).ends _

theorem runBranches_keep_before [Std.Refl P] [Trans P P P]
    (hys : YieldsAll b.runBranch w before branches w₁)
    (h : BranchesKeep P b before w) : P w w₁ := by
  induction hys with
  | nil w => exact Std.Refl.refl w
  | cons hy _ ih => exact Trans.trans (h.head.of_yields hy) (ih (h.tail hy))

/-- What holds from somewhere in one of the branches up to its end holds up to
the end of all of them. -/
theorem runBranches_end [Std.Refl P] [Trans P P P]
    (hys : YieldsAll b.runBranch w before branches w₁)
    (hv : (b.runBranch flow).Ends w₁ (P v))
    (h : BranchesKeep P b (before ++ flow :: after) w) :
    ((before ++ flow :: after).mapM b.runBranch).Ends w (P v) := by
  induction hys with
  | nil w =>
      rw [List.nil_append, List.mapM_cons]
      exact .bind hv fun hy => .bind (runBranches_keep (h.tail hy)) fun _ =>
        (Leaves.pure _).ends _
  | cons hy _ ih =>
      rw [List.cons_append, List.mapM_cons, ends_bind_of_yields hy]
      exact .bind (ih hv (h.tail hy)) fun _ => (Leaves.pure _).ends _

end Builder

/-- A flow keeps to a relation if all along its run it does. -/
def KeepsWithin (P : Workshop → Workshop → Prop) (steps : List Step) : Prop :=
  ∀ {b w}, (∀ {left b' w'}, Visits steps b w left b' w' → Observes P left b' w') →
    (assembleSteps b steps).Ends w (P w)

section

variable [Trans P P P] {s : Step} {b : Builder} {w : Workshop}

theorem runBranch_keeps {flow : Channel × List Step} (hf : KeepsWithin P flow.2)
    (h : ∀ {left b' w'}, Visits flow.2 (b.branch flow.1) w left b' w' →
      Observes P left b' w') :
    (b.runBranch flow).Ends w (P w) :=
  .bind (hf h) fun hy => h (.of_yields hy)

/-- Up to its failure, if it fails, a call keeps to a relation that it keeps
to by itself and all along its flows. -/
theorem Step.run_keeps_of [Std.Refl P] (hf : ∀ flow ∈ s.flows, KeepsWithin P flow)
    (hs : s.Keeps P b w)
    (h : ∀ {left b' w'}, s.Visits b w left b' w' → Observes P left b' w') :
    (s.stage b >>= Stage.run).Ends w (P w) := by
  refine .bind hs.stage fun {st w₁} hst => .bind ?_ fun {branches w₂} hbr =>
    hs.close hst (yieldsAll_of_mapM hbr)
  refine Builder.runBranches_keep fun before flow after branches w₂ heq hys =>
    runBranch_keeps ?_ fun hv => ?_
  · exact hf flow.2
      (flow_mem_of_stage hst (heq ▸ List.mem_append_right _ List.mem_cons_self))
  · exact h ⟨st, w₁, before, flow, after, branches, w₂, hst, heq, hys, hv⟩

end

variable [Std.Refl P] [Trans P P P] {s : Step} {steps left : List Step}
  {b b' : Builder} {w w' : Workshop}

theorem keepsWithin (steps : List Step) : KeepsWithin P steps := by
  refine Step.flow_induction (P := fun s => ∀ flow ∈ s.flows, KeepsWithin P flow)
    (Q := KeepsWithin P) ?step ?nil ?cons steps
  case step => exact fun _ ih => ih
  case nil => exact fun {b w} _ => (Leaves.pure b).ends w
  case cons =>
    intro s rest hs hrest b w h
    obtain ⟨hown, hdrop⟩ := h (.here (s :: rest) b w)
    rw [assembleSteps, Step.assemble_eq]
    refine .bind (.guarded (Step.run_keeps_of hs hown fun hv => h hv.mem) hdrop)
      fun hy => ?_
    refine hrest fun hv => h (.later ?_ hv)
    rwa [Step.assemble_eq]

namespace Step

/-- Up to its failure, if it fails, a call keeps to the relation. -/
theorem run_keeps (hs : s.Keeps P b w)
    (h : ∀ {left b' w'}, s.Visits b w left b' w' → Observes P left b' w') :
    (s.stage b >>= Stage.run).Ends w (P w) :=
  run_keeps_of (fun flow _ => keepsWithin flow) hs h

theorem assemble_keeps (hs : s.Keeps P b w) (hd : b.discard.Leaves P)
    (h : ∀ {left b' w'}, s.Visits b w left b' w' → Observes P left b' w') :
    (s.assemble b).Ends w (P w) := by
  rw [assemble_eq]
  exact .guarded (run_keeps hs h) hd

/-- What holds on the way to a moment of a flow, and from there to its end,
holds so for the call around it. -/
theorem keeps_through {st : Stage} {before after : List (Channel × List Step)}
    {flow : Channel × List Step} {branches : List Branch} {w₁ w₂ : Workshop}
    (hs : s.Keeps P b w)
    (h : ∀ {left b' w'}, s.Visits b w left b' w' → Observes P left b' w')
    (hst : Yields (s.stage b) w st w₁) (heq : st.flows = before ++ flow :: after)
    (hys : YieldsAll st.builder.runBranch w₁ before branches w₂) (hin : P w₂ w')
    (hout : (assembleSteps (st.builder.branch flow.1) flow.2).Ends w₂ (P w')) :
    P w w' ∧ (s.stage b >>= Stage.run).Ends w (P w') := by
  have hbranches : Builder.BranchesKeep P st.builder (before ++ flow :: after) w₁ :=
    fun earlier flow' later branches w₁' hsplit hys =>
      runBranch_keeps (keepsWithin flow'.2) fun hv =>
        h ⟨st, w₁, earlier, flow', later, branches, w₁', hst,
          heq.trans hsplit, hys, hv⟩
  constructor
  · have hbefore : P w₁ w₂ := Builder.runBranches_keep_before hys hbranches.left
    exact Trans.trans (Trans.trans (hs.stage.of_yields hst) hbefore) hin
  · rw [ends_bind_of_yields hst]
    refine .bind ?_ fun hbr => hs.close hst (yieldsAll_of_mapM hbr)
    rw [heq]
    refine Builder.runBranches_end hys (.bind hout fun hy => ?_) hbranches
    exact h ⟨st, w₁, before, flow, after, branches, w₂, hst, heq, hys,
      .of_yields hy⟩

end Step

/-- The relation holds on the way to each moment of a run, and from there to
the end. -/
theorem Visits.keeps (hv : Visits steps b w left b' w')
    (h : ∀ {left b' w'}, Visits steps b w left b' w' → Observes P left b' w') :
    P w w' ∧ (assembleSteps b steps).Ends w (P w') := by
  induction hv with
  | here steps b w => exact ⟨Std.Refl.refl w, keepsWithin steps h⟩
  | @later s steps left b b₁ b' w w₁ w' hy _ ih =>
      obtain ⟨hown, hdrop⟩ := h (.here _ _ _)
      obtain ⟨hto, hfrom⟩ := ih fun hv => h (.later hy hv)
      have hstep := (Step.assemble_keeps hown hdrop fun hv => h hv.mem).of_yields hy
      refine ⟨Trans.trans hstep hto, ?_⟩
      rwa [assembleSteps, ends_bind_of_yields hy]
  | @within s steps left b b' st before after flow branches w w₁ w₂ w' hst
      heq hys _ ih =>
        obtain ⟨hown, hdrop⟩ := h (.here _ _ _)
        obtain ⟨hin, hout⟩ := ih fun hv => h (.within hst heq hys hv)
        obtain ⟨hto, hfrom⟩ :=
          Step.keeps_through hown (fun hv => h hv.mem) hst heq hys hin hout
        refine ⟨hto, ?_⟩
        rw [assembleSteps, Step.assemble_eq]
        refine .bind (.guarded hfrom hdrop) fun hy => keepsWithin steps fun hv =>
          h (.later ?_ hv)
        rwa [Step.assemble_eq]

/-- The relation holds on the way to each moment inside a call, and from there
to the end of the call or to its failure. -/
theorem Step.Visits.keeps (hv : s.Visits b w left b' w') (hs : s.Keeps P b w)
    (h : ∀ {left b' w'}, s.Visits b w left b' w' → Observes P left b' w') :
    P w w' ∧ (s.stage b >>= Stage.run).Ends w (P w') := by
  obtain ⟨st, w₁, before, flow, after, branches, w₂, hst, heq, hys, hv⟩ := hv
  obtain ⟨hin, hout⟩ := hv.keeps fun hv =>
    h ⟨st, w₁, before, flow, after, branches, w₂, hst, heq, hys, hv⟩
  exact keeps_through hs h hst heq hys hin hout

end FlowAssembly
