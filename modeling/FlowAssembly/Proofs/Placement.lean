import FlowAssembly.Proofs.Drawing
import FlowAssembly.Proofs.Running

/-!
# The channels that a program places

Most channels of a flow are made while it is assembled. A caller may also
bring a channel of its own, and a step puts it in its place: it goes on
through it, starts a side flow at it, or fans out over it. The keys of these
channels can be read off the steps (`placed`), and a program that places no
channel twice gets by without ever sharing one.

Making the arguments of a step is entered in the account of keys: each channel
that comes of it was either placed by the step, or made.
-/

namespace FlowAssembly

open Assembly

/-- The key of the channel that a plan names, if it names one and makes none. -/
def ChannelPlan.placed : ChannelPlan → List ComponentKey
  | .existing c => [c.key]
  | .new .. | .faulty _ => []

/-- The channel that a flow goes on through, if the caller brought it. -/
def SourcePlan.placed : SourcePlan → List ComponentKey
  | .channel plan => plan.placed
  | .named _ | .fixedSubscriber _ => []

/-- The channel of a fan-out, if the caller brought it. -/
def FanOutPlan.placed (plan : FanOutPlan) : List ComponentKey :=
  plan.channel.toList.flatMap ChannelPlan.placed

namespace Step

/-- The channels of the caller's that a step itself places. -/
def ownPlaced : Step → List ComponentKey
  | .channel source => source.placed
  | .endpoint _ sides => sides.flatMap fun side => side.1.placed
  | .publishSubscribe plan _ => plan.placed
  | .scatterGather _ (.publish plan _) => plan.placed
  | _ => []

/-- The channels of the caller's that a step places, with all the flows that
it holds. -/
def placed (s : Step) : List ComponentKey :=
  s.ownPlaced ++ s.inner.flatMap ownPlaced

end Step

/-- The channels of the caller's that a program places. -/
def placed (steps : List Step) : List ComponentKey :=
  (stepsWithin steps).flatMap Step.ownPlaced

theorem placed_cons (s : Step) (rest : List Step) :
    placed (s :: rest) = s.placed ++ placed rest := by
  simp [placed, Step.placed, stepsWithin]

theorem Step.placed_eq (s : Step) :
    s.placed = s.ownPlaced ++ s.flows.flatMap FlowAssembly.placed := by
  rw [placed, inner_eq, List.flatMap_assoc]
  rfl

open Workshop

/-! ## Making channels -/

variable {w w' : Workshop}

theorem ChannelPlan.of_yields_make {plan : ChannelPlan} {c : Channel}
    (h : Yields plan.make w c w') :
    w.Spent plan.placed w' [c.key] := by
  match plan with
  | .existing channel =>
      obtain ⟨rfl, rfl⟩ := yields_pure.1 (by simpa only [make] using h)
      exact .refl _ _
  | .new kind id datatypes plans =>
      simp only [make, yields_bind, yields_explicitChannel] at h
      obtain ⟨interceptors, w₁, hi, c', w₂, ⟨rfl, rfl⟩, h⟩ := h
      have hmade : w.Spent [] { w₁ with nextComponent := w₁.nextComponent + 1 }
            [⟨w₁.nextComponent⟩] :=
        (((InterceptorPlan.makeAll_leaves plans).of_yields hi).spent []).trans
          (.next w₁)
      split at h
      · simp only [yields_bind, yields_pure] at h
        obtain ⟨_, _, ha, rfl, rfl⟩ := h
        obtain rfl := yields_forM_attach.1 ha
        exact ⟨hmade.count, hmade.supply⟩
      · obtain ⟨rfl, rfl⟩ := yields_pure.1 h
        exact hmade
  | .faulty cause =>
      rw [make] at h
      exact absurd h not_yields_throw

theorem SourcePlan.of_yields_make {plan : SourcePlan} {source : ChannelSource}
    (h : Yields plan.make w source w') :
    (∃ c, source = .channel c ∧ plan.landing = .bare ∧
      w.Spent plan.placed w' [c.key]) ∨
    ((∀ c, source ≠ .channel c) ∧ plan.landing = .unset ∧
      w.Spent plan.placed w' []) := by
  match plan with
  | .channel plan =>
      obtain ⟨c, hm, rfl⟩ := yields_map.1 (by simpa only [make] using h)
      exact .inl ⟨c, rfl, rfl, ChannelPlan.of_yields_make hm⟩
  | .named name =>
      obtain ⟨rfl, rfl⟩ := yields_pure.1 (by simpa only [make] using h)
      exact .inr ⟨by simp, rfl, .refl _ _⟩
  | .fixedSubscriber id =>
      obtain ⟨rfl, rfl⟩ := yields_pure.1 (by simpa only [make] using h)
      exact .inr ⟨by simp, rfl, .refl _ _⟩

theorem spent_makeSides {sides : List (ChannelPlan × List Step)}
    {seeds : List Channel}
    (h : YieldsAll (fun side : ChannelPlan × List Step => side.1.make) w sides
      seeds w') :
    w.Spent (sides.flatMap fun side => side.1.placed) w' (seeds.map Channel.key) ∧
    (seeds.zip (sides.map Prod.snd)).map Prod.snd = sides.map Prod.snd ∧
    (seeds.zip (sides.map Prod.snd)).map (fun flow => flow.1.key) =
      seeds.map Channel.key := by
  induction h with
  | nil w => exact ⟨.refl _ _, rfl, rfl⟩
  | @cons w w₁ w' side seed sides seeds hc _ ih =>
      obtain ⟨hspent, hsnd, hfst⟩ := ih
      exact ⟨(ChannelPlan.of_yields_make hc).both hspent, by simp [hsnd],
        by simp [hfst]⟩

/-- The channel of a fan-out is the one that the caller brought, or it is
made. -/
theorem spent_fanOut {plan : FanOutPlan} {given : Option Channel}
    (h : Yields (plan.channel.mapM ChannelPlan.make) w given w') :
    w.Spent plan.placed w' (given.toList.map Channel.key) := by
  obtain ⟨channel, _, _⟩ := plan
  cases channel with
  | none =>
      obtain ⟨rfl, rfl⟩ := yields_pure.1 h
      exact .refl _ _
  | some channel =>
      obtain ⟨c, hm, rfl⟩ := yields_map.1 h
      simpa [FanOutPlan.placed] using ChannelPlan.of_yields_make hm

theorem spent_fanOutChannel {plan : FanOutPlan} {given : Option Channel}
    {c : Channel} (h : Yields (Builder.fanOutChannel plan given) w c w') :
    w.Spent (given.toList.map Channel.key) w' [c.key] := by
  rcases Builder.of_yields_fanOutChannel h with ⟨rfl, rfl⟩ | ⟨rfl, hk, rfl⟩
  · exact .refl _ _
  · rw [hk]
    exact .next w

/-! ## The channels that branches start at -/

theorem Destination.of_yields_openUp {d : Destination} {opening : Opening}
    (h : Yields d.openUp w opening w') :
    (seededFlows [opening] [d]).map Prod.snd = d.flows ∧
      w.Spent [] w' ((seededFlows [opening] [d]).map fun flow => flow.1.key) := by
  match d with
  | .target plan =>
      obtain ⟨target, hm, rfl⟩ := yields_map.1 h
      exact ⟨rfl, (plan.make_leaves.of_yields hm).spent []⟩
  | .flow steps =>
      obtain ⟨c, hc, rfl⟩ := yields_map.1 h
      obtain ⟨rfl, rfl⟩ := yields_implicitChannel.1 hc
      exact ⟨rfl, .next w⟩

/-- The branches of a router are the flows that its keys lead into, and each
of them starts at a channel that was made for it. -/
theorem spent_openUp {destinations : List Destination} {openings : List Opening}
    (h : YieldsAll Destination.openUp w destinations openings w') :
    (seededFlows openings destinations).map Prod.snd =
      destinations.flatMap Destination.flows ∧
    w.Spent [] w' ((seededFlows openings destinations).map fun flow =>
      flow.1.key) := by
  induction h with
  | nil w => exact ⟨rfl, .refl _ _⟩
  | @cons w w₁ w' d opening destinations openings ho _ ih =>
      obtain ⟨hflow, hone⟩ := d.of_yields_openUp ho
      obtain ⟨hflows, hrest⟩ := ih
      rw [seededFlows_cons, List.map_append, List.map_append, List.flatMap_cons,
        hflow, hflows]
      exact ⟨rfl, hone.both hrest⟩

theorem Assembly.YieldsAll.map {α β γ δ : Type} {f : α → Assembly β}
    {g : γ → Assembly δ} {p : α → γ} {q : β → δ}
    (hf : ∀ {a b w w'}, Yields (f a) w b w' → Yields (g (p a)) w (q b) w')
    {as : List α} {bs : List β} (h : YieldsAll f w as bs w') :
    YieldsAll g w (as.map p) (bs.map q) w' := by
  induction h with
  | nil w => exact .nil w
  | cons hb _ ih => exact .cons (hf hb) ih

theorem RouterPlan.of_yields_make {plan : RouterPlan}
    {mappings : List (String × Destination)} {parts : RouterParts}
    (h : Yields (plan.make mappings) w parts w') :
    ∃ w₁ w₂, w.Supplied w₁ ∧
      YieldsAll Destination.openUp w₁ (mappings.map Prod.snd)
        (parts.openings.map Prod.snd) w₂ ∧
      w₂.Supplied w' := by
  simp only [make, yields_bind, yields_pure] at h
  obtain ⟨strategy, w₁, hs, openings, w₂, ho, default, _, hd, rfl, rfl⟩ := h
  refine ⟨w₁, w₂, plan.strategy.make_leaves.of_yields hs,
    (yieldsAll_of_mapM ho).map fun hy => ?_,
    (DefaultPlan.makeOptional_leaves plan.default).of_yields hd⟩
  simp only [yields_bind, yields_pure] at hy
  obtain ⟨opening, _, hy, rfl, rfl⟩ := hy
  exact hy

theorem RecipientsPlan.of_yields_make {plan : RecipientsPlan}
    {recipients : List (Option String × Destination)} {parts : RecipientParts}
    (h : Yields (plan.make recipients) w parts w') :
    ∃ w₁,
      YieldsAll Destination.openUp w (recipients.map Prod.snd)
        (parts.openings.map Prod.snd) w₁ ∧
      w₁.Supplied w' := by
  simp only [make, yields_bind, yields_pure] at h
  obtain ⟨openings, w₁, ho, default, _, hd, rfl, rfl⟩ := h
  refine ⟨w₁, (yieldsAll_of_mapM ho).map fun hy => ?_,
    (DefaultPlan.makeOptional_leaves plan.default).of_yields hd⟩
  simp only [yields_bind, yields_pure] at hy
  obtain ⟨opening, _, hy, selector, _, hp, rfl, rfl⟩ := hy
  obtain rfl := eq_of_yields_parseOptional hp
  exact hy

theorem spent_makeRouter {plan : RouterPlan}
    {mappings : List (String × Destination)} {parts : RouterParts}
    (h : Yields (plan.make mappings) w parts w') :
    (seededFlows (parts.openings.map Prod.snd) (mappings.map Prod.snd)).map
      Prod.snd = mappings.flatMap (fun mapping => mapping.2.flows) ∧
    w.Spent [] w'
      ((seededFlows (parts.openings.map Prod.snd) (mappings.map Prod.snd)).map
        fun flow => flow.1.key) := by
  obtain ⟨w₁, w₂, hbefore, ho, hafter⟩ := RouterPlan.of_yields_make h
  obtain ⟨hflows, hspent⟩ := spent_openUp ho
  exact ⟨hflows.trans (List.flatMap_map ..),
    (hbefore.spent []).trans (hspent.trans (hafter.spent _))⟩

theorem spent_makeRecipients {plan : RecipientsPlan}
    {recipients : List (Option String × Destination)} {parts : RecipientParts}
    (h : Yields (plan.make recipients) w parts w') :
    (seededFlows (parts.openings.map Prod.snd) (recipients.map Prod.snd)).map
      Prod.snd = recipients.flatMap (fun recipient => recipient.2.flows) ∧
    w.Spent [] w'
      ((seededFlows (parts.openings.map Prod.snd) (recipients.map Prod.snd)).map
        fun flow => flow.1.key) := by
  obtain ⟨w₁, ho, hafter⟩ := RecipientsPlan.of_yields_make h
  obtain ⟨hflows, hspent⟩ := spent_openUp ho
  exact ⟨hflows.trans (List.flatMap_map ..), hspent.trans (hafter.spent _)⟩

end FlowAssembly
