import FlowAssembly.Proofs.Binding
import FlowAssembly.Proofs.Ledger
import FlowAssembly.Proofs.RouterOrder

/-!
# The options of a router

Which options a router refuses, and why, is said here without the order in
which they are looked at: a list of keys is told by its shape what it repeats
first (`RepeatsFirst`), and each refusal by the options that it is about
(`RouterPlan.Refuses`). The check gives just these refusals.

A refused router is one that never was. Its arguments are made without a look
at its flows, so the flows may be exchanged (`Destination.Alike`) and the same
arguments come out, in the same workshop; the check is the next thing, and all
that is left then is to drop the builder. So the call fails alike for any
flows, any chain and any session, no builder for a flow ever stands, and no
interceptor is attached behind the making of the arguments.

A router that is not refused goes on as if there was no check. It is
registered, and whatever its branches add behind it, it stays: then its keys
are distinct, and looking one up finds the target that was declared for it.
-/

namespace FlowAssembly

open Assembly

/-! ## Repeated keys -/

/-- The text is the one at the earliest place of the list where a text stands
that stood before. -/
def RepeatsFirst (texts : List String) (text : String) : Prop :=
  ∃ before after, texts = before ++ text :: after ∧ text ∈ before ∧ before.Nodup

theorem firstRepeated?_eq_none_iff {seen texts : List String} :
    firstRepeated? seen texts = none ↔
      texts.Nodup ∧ ∀ text ∈ texts, text ∉ seen := by
  induction texts generalizing seen with
  | nil => simp [firstRepeated?]
  | cons text rest ih =>
      by_cases hseen : text ∈ seen
      · simp [firstRepeated?, hseen]
      · simp only [firstRepeated?, List.contains_iff_mem, hseen, if_false, ih,
          List.mem_cons, not_or, List.nodup_cons, forall_eq_or_imp,
          not_false_eq_true, true_and]
        constructor
        · rintro ⟨hnodup, hrest⟩
          exact ⟨⟨fun hmem => (hrest text hmem).1 rfl, hnodup⟩,
            fun other hmem => (hrest other hmem).2⟩
        · rintro ⟨⟨hmem, hnodup⟩, hrest⟩
          exact ⟨hnodup,
            fun other hother =>
              ⟨fun heq => hmem (heq ▸ hother), hrest other hother⟩⟩

theorem firstRepeated?_eq_some_iff {seen texts : List String} {text : String} :
    firstRepeated? seen texts = some text ↔
      ∃ before after, texts = before ++ text :: after ∧
        (text ∈ seen ∨ text ∈ before) ∧ before.Nodup ∧
        ∀ other ∈ before, other ∉ seen := by
  induction texts generalizing seen with
  | nil => simp [firstRepeated?]
  | cons first rest ih =>
      by_cases hseen : first ∈ seen
      · simp only [firstRepeated?, List.contains_iff_mem, hseen, if_true,
          Option.some.injEq]
        constructor
        · rintro rfl
          exact ⟨[], rest, rfl, .inl hseen, .nil, by simp⟩
        · rintro ⟨before, after, heq, -, -, hbefore⟩
          cases before with
          | nil => exact (List.cons.inj heq).1
          | cons other before =>
              obtain ⟨rfl, -⟩ := List.cons.inj heq
              exact absurd hseen (hbefore first List.mem_cons_self)
      · simp only [firstRepeated?, List.contains_iff_mem, hseen, if_false, ih]
        constructor
        · rintro ⟨before, after, rfl, htext, hnodup, hbefore⟩
          refine ⟨first :: before, after, rfl, ?_, ?_, ?_⟩
          · rw [List.mem_cons] at htext ⊢
            tauto
          · exact List.nodup_cons.2
              ⟨fun hmem => hbefore first hmem List.mem_cons_self, hnodup⟩
          · exact List.forall_mem_cons.2
              ⟨hseen, fun other hmem => fun hs => hbefore other hmem (.tail _ hs)⟩
        · rintro ⟨before, after, heq, htext, hnodup, hbefore⟩
          cases before with
          | nil =>
              obtain ⟨rfl, rfl⟩ := List.cons.inj heq
              simp only [hseen, List.not_mem_nil, or_self] at htext
          | cons other before =>
              obtain ⟨rfl, rfl⟩ := List.cons.inj heq
              obtain ⟨hother, hnodup⟩ := List.nodup_cons.1 hnodup
              refine ⟨before, after, rfl, ?_, hnodup, fun x hx => ?_⟩
              · rw [List.mem_cons] at htext ⊢
                tauto
              · rw [List.mem_cons, not_or]
                exact ⟨fun heq => hother (heq ▸ hx), hbefore x (.tail _ hx)⟩

theorem firstRepeated?_nil_eq_some_iff {texts : List String} {text : String} :
    firstRepeated? [] texts = some text ↔ RepeatsFirst texts text := by
  simp [firstRepeated?_eq_some_iff, RepeatsFirst]

/-! ## Refusals -/

namespace RouterPlan

/-- The router derives names from keys, and a key leads to a flow. -/
def Conflicts (plan : RouterPlan) (mappings : List (String × Destination)) : Prop :=
  (plan.lead ≠ none ∨ plan.trail ≠ none) ∧
    ∃ key steps, (key, Destination.flow steps) ∈ mappings

/-- The options of the router are refused: it derives names and has flows; or
else some key is mapped twice; or else there is nowhere to route to. -/
inductive Refuses (plan : RouterPlan) (mappings : List (String × Destination)) :
    FlowError → Prop
  | leads : plan.Conflicts mappings → plan.lead ≠ none →
      Refuses plan mappings (.mutuallyExclusiveOptions plan.label "prefix"
        "subflow mapping")
  | trails : plan.Conflicts mappings → plan.lead = none →
      Refuses plan mappings (.mutuallyExclusiveOptions plan.label "suffix"
        "subflow mapping")
  | repeats {key : String} : ¬ plan.Conflicts mappings →
      RepeatsFirst (mappings.map Prod.fst) key →
      Refuses plan mappings (.duplicateRouteKey plan.label key)
  | empty : mappings = [] → plan.lead = none → plan.trail = none →
      plan.default = none → Refuses plan mappings (.emptyBranchSet plan.label)

variable {plan : RouterPlan} {mappings others : List (String × Destination)}
  {cause : FlowError}

theorem conflicts_iff :
    plan.Conflicts mappings ↔
      (plan.derivesNames && mappings.any (fun mapping => mapping.2.isFlow)) =
        true := by
  have hflow : ∀ d : Destination, d.isFlow = true ↔ ∃ steps, d = .flow steps :=
    fun d => by
      cases d <;> simp [Destination.isFlow]
  simp only [Conflicts, derivesNames, Bool.and_eq_true, Bool.or_eq_true,
    Option.isSome_iff_ne_none, List.any_eq_true, Prod.exists, hflow]
  refine and_congr_right fun _ => exists_congr fun key => ?_
  constructor
  · rintro ⟨steps, hmem⟩
    exact ⟨.flow steps, hmem, steps, rfl⟩
  · rintro ⟨_, hmem, steps, rfl⟩
    exact ⟨steps, hmem⟩

theorem refuses_of_check (h : plan.check mappings = .error cause) :
    plan.Refuses mappings cause := by
  unfold check at h
  split at h
  · next hc =>
    have hc := conflicts_iff.2 hc
    obtain rfl := Except.error.inj h
    cases hlead : plan.lead with
    | none => exact .trails hc hlead
    | some lead => exact .leads hc (by simp [hlead])
  · next hc =>
    split at h
    · next key hkeys =>
      obtain rfl := Except.error.inj h
      exact .repeats (fun h => hc (conflicts_iff.1 h))
        (firstRepeated?_nil_eq_some_iff.1 hkeys)
    · split at h
      · next hbare =>
        obtain rfl := Except.error.inj h
        simp only [derivesNames, Bool.and_eq_true, List.isEmpty_iff,
          Bool.not_eq_true', Bool.or_eq_false_iff, Option.isSome_eq_false_iff,
          Option.isNone_iff_eq_none] at hbare
        obtain ⟨⟨hempty, hlead, htrail⟩, hdefault⟩ := hbare
        exact .empty hempty hlead htrail hdefault
      · cases h

theorem Refuses.check (h : plan.Refuses mappings cause) :
    plan.check mappings = .error cause := by
  cases h with
  | leads hc hlead =>
      rw [RouterPlan.check, if_pos (conflicts_iff.1 hc),
        if_pos (Option.isSome_iff_ne_none.2 hlead)]
  | trails hc hlead =>
      rw [RouterPlan.check, if_pos (conflicts_iff.1 hc), hlead]
      rfl
  | repeats hc hkeys =>
      rw [RouterPlan.check, if_neg (fun h => hc (conflicts_iff.2 h)),
        firstRepeated?_nil_eq_some_iff.2 hkeys]
  | empty hempty hlead htrail hdefault =>
      simp [RouterPlan.check, derivesNames, firstRepeated?, hempty, hlead,
        htrail, hdefault]

/-- The check gives the refusals, and no others. -/
theorem check_eq_error_iff : plan.check mappings = .error cause ↔
      plan.Refuses mappings cause :=
  ⟨refuses_of_check, Refuses.check⟩

/-- A router that is not refused passes the check, and then no key is mapped
twice. -/
theorem check_eq_ok (h : ∀ cause, ¬ plan.Refuses mappings cause) :
    plan.check mappings = .ok () := by
  cases hcheck : plan.check mappings with
  | ok => rfl
  | error cause => exact absurd (check_eq_error_iff.1 hcheck) (h cause)

theorem nodup_of_check (h : plan.check mappings = .ok ()) :
    (mappings.map Prod.fst).Nodup := by
  unfold check at h
  split at h
  · cases h
  · split at h
    · cases h
    · next hkeys => exact (firstRepeated?_eq_none_iff.1 hkeys).1

end RouterPlan

/-! ## Exchanging flows -/

/-- The destinations are the same, but for the steps of a flow. -/
inductive Destination.Alike : Destination → Destination → Prop
  | target (plan : TargetPlan) : Alike (.target plan) (.target plan)
  | flow (steps others : List Step) : Alike (.flow steps) (.flow others)

namespace Destination.Alike

variable {d d' : Destination}

theorem symm (h : d.Alike d') : d'.Alike d := by
  cases h with
  | target plan => exact .target plan
  | flow steps others => exact .flow others steps

/-- What leads to a flow is made without a look at the flow. -/
theorem openUp_eq (h : d.Alike d') : d.openUp = d'.openUp := by
  cases h <;> rfl

end Destination.Alike

/-- The keys lead to the same destinations, but for the steps of the flows. -/
def AlikeMappings (mappings others : List (String × Destination)) : Prop :=
  List.Forall₂ (fun m m' => m.1 = m'.1 ∧ m.2.Alike m'.2) mappings others

namespace AlikeMappings

variable {plan : RouterPlan} {mappings others : List (String × Destination)}
  {cause : FlowError}

theorem symm (h : AlikeMappings mappings others) : AlikeMappings others mappings :=
  List.Forall₂.flip (h.imp fun _ _ hm => ⟨hm.1.symm, hm.2.symm⟩)

theorem keys_eq (h : AlikeMappings mappings others) :
    mappings.map Prod.fst = others.map Prod.fst := by
  induction h with
  | nil => rfl
  | cons hm _ ih => rw [List.map_cons, List.map_cons, hm.1, ih]

theorem flow_mem (h : AlikeMappings mappings others) {key : String}
    {steps : List Step} (hmem : (key, .flow steps) ∈ mappings) :
    ∃ steps', (key, .flow steps') ∈ others := by
  induction h with
  | nil => cases hmem
  | @cons m m' _ _ hm _ ih =>
      obtain rfl | hmem := List.mem_cons.1 hmem
      · obtain ⟨key', d⟩ := m'
        obtain ⟨rfl, hd⟩ := hm
        cases hd with
        | flow _ steps' => exact ⟨steps', List.mem_cons_self⟩
      · obtain ⟨steps', hmem⟩ := ih hmem
        exact ⟨steps', .tail _ hmem⟩

theorem make_eq (h : AlikeMappings mappings others) :
    plan.make mappings = plan.make others := by
  rw [RouterPlan.make, RouterPlan.make, Assembly.mapM_eq_mapM (h.imp ?_)]
  rintro ⟨key, d⟩ ⟨key', d'⟩ ⟨rfl, hd⟩
  dsimp only
  rw [Destination.Alike.openUp_eq hd]

theorem conflicts (h : AlikeMappings mappings others)
    (hc : plan.Conflicts mappings) : plan.Conflicts others := by
  obtain ⟨hderives, key, steps, hmem⟩ := hc
  exact ⟨hderives, key, h.flow_mem hmem⟩

/-- A router is refused for what it is, and not for what its flows do. -/
theorem refuses (h : AlikeMappings mappings others)
    (hr : plan.Refuses mappings cause) :
    plan.Refuses others cause := by
  cases hr with
  | leads hc hlead => exact .leads (h.conflicts hc) hlead
  | trails hc hlead => exact .trails (h.conflicts hc) hlead
  | repeats hc hkeys =>
      exact .repeats (fun hc' => hc (h.symm.conflicts hc')) (h.keys_eq ▸ hkeys)
  | empty hempty hlead htrail hdefault =>
      subst hempty
      cases h
      exact .empty rfl hlead htrail hdefault

end AlikeMappings

/-! ## Calls -/

/-- Dropping a builder leaves the interceptors alone. -/
theorem Builder.attached_of_yields_discard {b : Builder} {w w' : Workshop}
    (h : Yields b.discard w () w') :
    w'.attached = w.attached := by
  unfold discard at h
  split at h
  · rw [(yields_pure.1 h).2]
  · obtain ⟨-, rfl⟩ := yields_release.1 h
    rfl

theorem Builder.outcome_guarded_congr {m m' : Assembly α} {b : Builder}
    {w w' : Workshop} (h : m.outcome w = m'.outcome w') :
    (b.guarded m).outcome w = (b.guarded m').outcome w' := by
  unfold guarded
  rw [outcome_tryCatch, outcome_tryCatch, h]

/-- What a router does once its options are checked. -/
def RouterPlan.unchecked (plan : RouterPlan)
    (mappings : List (String × Destination)) (parts : RouterParts) (b : Builder) :
    Assembly Builder := do
  b.ensureOpen "router"
  let branches ← assembleMappings b (parts.openings.map Prod.snd) mappings
  b.finishRoute plan parts branches

section

variable {plan : RouterPlan} {mappings : List (String × Destination)}
  {parts : RouterParts} {b b' : Builder} {w₀ w w' : Workshop}

/-- A router that is refused fails behind the making of its arguments, and
drops its builder. -/
theorem RouterPlan.Refuses.stops {cause : FlowError}
    (h : plan.Refuses mappings cause) (hm : Yields (plan.make mappings) w₀ parts w)
    (hd : Yields b.discard w () w') :
    Stops ((Step.route plan mappings).assemble b) w₀ (.flow cause) w' := by
  rw [Step.assemble, stops_guarded]
  refine ⟨w, ?_, hd⟩
  rw [stops_bind_of_yields hm]
  exact stops_bind.2 (.inl (stops_ensure.2 ⟨cause, h.check, rfl, rfl⟩))

/-- No builder for a flow of a refused router ever stands. -/
theorem RouterPlan.Refuses.not_visits {cause : FlowError}
    (h : plan.Refuses mappings cause) (left : List Step) (b' : Builder)
    (w' : Workshop) : ¬ (Step.route plan mappings).Visits b w₀ left b' w' := by
  rintro ⟨st, w₁, before, flow, after, branches, w₂, hst, -⟩
  simp only [Step.stage, yields_bind, yields_ensure] at hst
  obtain ⟨_, _, -, _, _, ⟨hcheck, -⟩, -⟩ := hst
  rw [h.check] at hcheck
  cases hcheck

/-- A router that passes the check goes on as if there was none. -/
theorem RouterPlan.outcome_of_check (hcheck : plan.check mappings = .ok ())
    (hm : Yields (plan.make mappings) w₀ parts w) :
    ((Step.route plan mappings).assemble b).outcome w₀ =
      (b.guarded (plan.unchecked mappings parts b)).outcome w := by
  rw [Step.assemble]
  refine Builder.outcome_guarded_congr ?_
  rw [outcome_bind, hm]
  dsimp only
  rw [hcheck]
  rfl

/-- What is settled in a flow stays in it when branches are taken in and
meet. -/
theorem Builder.Settled.absorbMerged {x : Component} {branches : List Branch}
    {merge : Option Channel} (h : b.Settled x)
    (hlt : x.key.number < w.nextComponent)
    (hy : Yields (b.absorbMerged branches merge) w b' w') :
    x ∈ b'.registry.components := by
  rcases of_yields_absorbMerged hy with ⟨-, rfl, -⟩ | ⟨m, -, hbridge⟩
  · exact Registry.subset_foldl_extend _ _ h.mem
  · obtain ⟨input, w₁, hi, hw⟩ := of_yields_attach (of_yields_bridge hbridge)
    obtain ⟨e, rfl, hfresh, -, -, -⟩ := wired_of_yields hw
    have hmerged : (b.mergedOn branches m).Settled x :=
      ⟨b.subset_mergedOn branches m h.mem, h.apart⟩
    have hle : w.nextComponent ≤ w₁.nextComponent :=
      ((resolveInput_leaves _ _).of_yields hi).components
    exact (hmerged.wired (hfresh.ne_of_lt (Nat.lt_of_lt_of_le hlt hle))).mem

/-- The router that was appended, with its table, stands in the flow. -/
theorem Step.router_mem_of_yields
    (hold : ∀ x ∈ b.components, x.key.number < w.nextComponent)
    (hy : Yields ((Step.route plan mappings).assemble b) w b' w') :
    ∃ st w₁ branches w₂ router,
      Yields ((Step.route plan mappings).stage b) w st w₁ ∧
      YieldsAll st.builder.runBranch w₁ st.flows branches w₂ ∧
      .endpoint router ∈ b'.registry.components ∧
      w.nextComponent ≤ router.key.number ∧
      (Step.route plan mappings).Tables st.flows router.handler := by
  obtain ⟨st, w₁, branches, w₂, default, r, w₃, spec, b₁, w₄, hst, hbr, -, hrec,
    htables, -, ha, hend⟩ :=
    Step.tables_of_yields rfl hy
  have hle : w.nextComponent ≤ w₃.nextComponent :=
    Nat.le_trans (((Step.route plan mappings).stage_adds b).of_yields
      hst).components
      (Nat.le_trans (Builder.accrues_of_runBranches hbr).components
        ((b.reconcile_adds branches default).of_yields hrec).components)
  obtain ⟨router, made, hhandler, -, hnumbered, hcomponents, hcursor⟩ :=
    Builder.components_of_attach
      (by exact fun x hx => Nat.lt_of_lt_of_le (hold x hx) hle) ha
  rw [← hhandler] at htables
  have hmem : .endpoint router ∈ b₁.registry.components := by
    rw [hcomponents, Builder.chainedTo]
    simp
  obtain ⟨hge, hlt⟩ := hnumbered.mem (x := .endpoint router) (by simp)
  have hsettled : b₁.Settled (.endpoint router) := ⟨hmem, fun p hp => by
    rw [hcursor, Handler.producesReplies_of_isRouter htables.isRouter] at hp
    cases hp⟩
  exact ⟨st, w₁, branches, w₂, router, hst, hbr, hsettled.absorbMerged hlt hend,
    Nat.le_trans hle hge, htables⟩

end

/-- The option check of a router refuses for the reasons that are listed, and
for no others. A router that is refused fails with its reason whatever steps
its flows have and whatever builder it is called on; all that happened by then
is that its arguments were made, and behind that the builder is dropped. A
router that is not refused does what it does without the check. Where it
answers it stands in the flow with the table that was declared; its keys are
distinct, and the target for a key is the one that the table has for it. -/
theorem router_options_checked (plan : RouterPlan)
    (mappings : List (String × Destination)) :
    (∀ cause, plan.check mappings = .error cause ↔ plan.Refuses mappings cause) ∧
    (∀ cause, plan.Refuses mappings cause →
      ∀ others, AlikeMappings mappings others →
        ∀ b w₀ parts w, Yields (plan.make mappings) w₀ parts w →
          (∃ w', Stops ((Step.route plan others).assemble b) w₀ (.flow cause) w' ∧
            Yields b.discard w () w' ∧ w'.attached = w.attached) ∧
          ∀ left nested v, ¬ (Step.route plan others).Visits b w₀ left nested v) ∧
    ((∀ cause, ¬ plan.Refuses mappings cause) →
      ∀ b w₀ parts w, Yields (plan.make mappings) w₀ parts w →
        ((Step.route plan mappings).assemble b).outcome w₀ =
          (b.guarded (plan.unchecked mappings parts b)).outcome w) ∧
    ∀ b w b' w', Yields ((Step.route plan mappings).assemble b) w b' w' →
      (∀ x ∈ b.components, x.key.number < w.nextComponent) →
      ∃ st w₁ branches w₂ router r,
        Yields ((Step.route plan mappings).stage b) w st w₁ ∧
        YieldsAll st.builder.runBranch w₁ st.flows branches w₂ ∧
        .endpoint router ∈ b'.registry.components ∧
        w.nextComponent ≤ router.key.number ∧
        (Step.route plan mappings).Tables st.flows router.handler ∧
        router.handler.behaviour = .router r ∧ (r.mappings.map Prod.fst).Nodup ∧
        ∀ key target, r.targetFor? key = some target ↔
          (key, target) ∈ r.mappings := by
  refine ⟨fun _ => RouterPlan.check_eq_error_iff, ?_, ?_, ?_⟩
  · intro cause hrefuses others halike b w₀ parts w hm
    have hothers := halike.refuses hrefuses
    rw [halike.make_eq] at hm
    obtain ⟨w', hd⟩ := b.exists_discard w
    exact ⟨⟨w', hothers.stops hm hd, hd, Builder.attached_of_yields_discard hd⟩,
      hothers.not_visits⟩
  · intro hpasses b w₀ parts w hm
    exact RouterPlan.outcome_of_check (RouterPlan.check_eq_ok hpasses) hm
  · intro b w b' w' hy hold
    obtain ⟨st, w₁, branches, w₂, router, hst, hbr, hmem, hge, htables⟩ :=
      Step.router_mem_of_yields hold hy
    have hcheck : plan.check mappings = .ok () := by
      simp only [Step.stage, yields_bind, yields_ensure] at hst
      obtain ⟨_, _, -, _, _, ⟨hcheck, -⟩, -⟩ := hst
      exact hcheck
    have htables' := htables
    obtain ⟨hbehaviour, hkeys, -⟩ := htables'
    have hnodup := hkeys ▸ RouterPlan.nodup_of_check hcheck
    exact ⟨st, w₁, branches, w₂, router, _, hst, hbr, hmem, hge, htables,
      hbehaviour, hnodup, fun key target =>
        lookup_eq_some_iff_mem hnodup⟩

/-- A router with a prefix is refused for its flow, though its keys repeat as
well and its flow is exchanged for one that could never be assembled. Without
the prefix, and with distinct keys, it stands in the flow. -/
theorem router_options_checked_prefix :
    let orders : Channel := ⟨⟨0⟩, some "orders", .direct, [], false, none⟩
    let derived : RouterPlan := { strategy := .header "kind", lead := some "to-" }
    let repeated (steps : List Step) : List (String × Destination) :=
      [("a", .flow steps), ("a", .target (.named "log"))]
    let plan : RouterPlan := { strategy := .header "kind" }
    let mappings : List (String × Destination) :=
      [("a", .flow [.handle .bridge]), ("b", .target (.named "log"))]
    let conflict : FlowError :=
      .mutuallyExclusiveOptions "router" "prefix" "subflow mapping"
    ∃ b w parts w₁ made w₂ b' w',
      Yields (Start.channel orders).make (.start 1 1) b w ∧
      derived.Refuses (repeated [.handle .bridge]) conflict ∧
      AlikeMappings (repeated [.handle .bridge]) (repeated [.faulty .unsuitable]) ∧
      Yields (derived.make (repeated [.handle .bridge])) w parts w₁ ∧
      (∃ w',
        Stops ((Step.route derived (repeated [.faulty .unsuitable])).assemble b) w
          (.flow conflict) w' ∧
        w'.attached = w₁.attached) ∧
      (∀ cause, ¬ plan.Refuses mappings cause) ∧
      Yields (plan.make mappings) w made w₂ ∧
      ((Step.route plan mappings).assemble b).outcome w =
        (b.guarded (plan.unchecked mappings made b)).outcome w₂ ∧
      Yields ((Step.route plan mappings).assemble b) w b' w' ∧
      (∀ x ∈ b.components, x.key.number < w.nextComponent) ∧
      ∃ router r, .endpoint router ∈ b'.registry.components ∧
        router.handler.behaviour = .router r ∧
        r.targetFor? "b" = some (.named "log") := by
  intro orders derived repeated plan mappings conflict
  obtain ⟨⟨b, parts, made, b', n⟩, w', hy, hall⟩ := exists_yields (m := do
      let b ← (Start.channel orders).make
      let w ← get
      let parts ← derived.make (repeated [.handle .bridge])
      set w
      let made ← plan.make mappings
      set w
      let b' ← (Step.route plan mappings).assemble b
      return (b, parts, made, b', w.nextComponent))
    (f := fun (b, _, _, _, n) => (b.components.map fun x => x.key.number, n))
      (w := .start 1 1) (y := ([0], 1))
    (by decide +kernel)
  simp only [yields_bind, yields_get, yields_set, yields_pure, Prod.mk.injEq]
    at hy hall
  obtain ⟨_, _, hstart, _, _, ⟨rfl, rfl⟩, _, w₁, hm, _, _, rfl, _, w₂, hmade,
    _, w, rfl, _, _, hroute, ⟨rfl, rfl, rfl, rfl, rfl⟩, rfl⟩ := hy
  have halike :
      AlikeMappings (repeated [.handle .bridge]) (repeated [.faulty .unsuitable]) :=
    .cons ⟨rfl, .flow ..⟩ (.cons ⟨rfl, .target _⟩ .nil)
  have hrefuses : derived.Refuses (repeated [.handle .bridge]) conflict :=
    .leads ⟨.inl (by decide), "a", _, List.mem_cons_self⟩ (by decide)
  have hpasses : ∀ cause, ¬ plan.Refuses mappings cause := fun cause h => by
    have hcheck : plan.check mappings = .ok () := by decide +kernel
    rw [← RouterPlan.check_eq_error_iff, hcheck] at h
    cases h
  have hold : ∀ x ∈ b.components, x.key.number < w.nextComponent := by
    intro x hx
    have hx := List.mem_map_of_mem (f := fun x : Component => x.key.number) hx
    rw [hall.1, List.mem_singleton] at hx
    omega
  obtain ⟨-, hfail, -, -⟩ :=
    router_options_checked derived (repeated [.handle .bridge])
  obtain ⟨-, -, hsame, hsucceed⟩ := router_options_checked plan mappings
  obtain ⟨⟨w', hstops, -, hattached⟩, -⟩ :=
    hfail conflict hrefuses _ halike b w parts w₁ hm
  obtain ⟨st, _, _, _, router, r, -, -, hmem, -, htables, hr, -, hfor⟩ :=
    hsucceed b w b' _ hroute hold
  refine ⟨b, w, parts, w₁, made, w₂, b', _, hstart, hrefuses, halike, hm,
    ⟨w', hstops, hattached⟩, hpasses, hmade, hsame hpasses b w made w₂ hmade,
    hroute, hold, router, r, hmem, hr, (hfor _ _).2 ?_⟩
  obtain ⟨hr', hkeys, hlead⟩ := htables
  obtain rfl := Behaviour.router.inj (hr.symm.trans hr')
  generalize htargets : r.mappings.map Prod.snd = targets at hlead
  generalize st.flows = flows at hlead
  cases hlead with
  | flow hlead =>
      cases hlead with
      | target hnamed hlead =>
          cases hlead
          obtain ⟨rfl, -⟩ := yields_pure.1 hnamed
          rw [List.zip_of_prod hkeys htargets]
          simp [mappings]

end FlowAssembly
