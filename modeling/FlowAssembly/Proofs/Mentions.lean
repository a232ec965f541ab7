import FlowAssembly.Proofs.Placement
import FlowAssembly.Proofs.Precedence

/-!
# The points that a program mentions

A caller puts channels and names of its own into a program, in many places: a
flow starts at one or goes on through it, a key or a recipient leads to it,
unmatched and refused messages go to it, a tap copies to it, or a handler
sends to it by itself. All these points can be read off the program
(`mentions`), where a channel comes with the targets of the taps that it has
already. A channel that a side flow starts at and that its handler sends to is
mentioned once: there the side flow is what the handler leads to.

Making the arguments of a step is entered in the account of points: each point
that comes of it was mentioned, or was made.
-/

namespace FlowAssembly

open Assembly Workshop

/-- The channel with the targets of its taps. -/
def Channel.mentions (taps : Interceptions) (c : Channel) : List Point :=
  .key c.key :: ((taps c.key).filterMap Interceptor.tapTarget?).map Target.point

/-- What a target of the caller's brings. -/
def Target.mentions (taps : Interceptions) : Target → List Point
  | .channel c => c.mentions taps
  | .named name => [.name name]

mutual

def ChannelPlan.mentions (taps : Interceptions) : ChannelPlan → List Point
  | .existing c => c.mentions taps
  | .new _ _ _ interceptors => InterceptorPlan.mentionsOfAll taps interceptors
  | .faulty _ => []

def TargetPlan.mentions (taps : Interceptions) : TargetPlan → List Point
  | .channel plan => plan.mentions taps
  | .named name => [.name name]

def InterceptorPlan.mentions (taps : Interceptions) : InterceptorPlan → List Point
  | .custom _ => []
  | .wireTap target _ _ => target.mentions taps

def InterceptorPlan.mentionsOfAll (taps : Interceptions) :
    List InterceptorPlan → List Point
  | [] => []
  | plan :: rest => plan.mentions taps ++ InterceptorPlan.mentionsOfAll taps rest

end

def SourcePlan.mentions (taps : Interceptions) : SourcePlan → List Point
  | .channel plan => plan.mentions taps
  | .named name => [.name name]
  | .fixedSubscriber _ => []

/-- Whether it is a channel with one of the keys. -/
def Target.isAmong (keys : List ComponentKey) : Target → Bool
  | .channel c => keys.contains c.key
  | .named _ => false

/-- Whether it is a channel of the caller's with one of the keys. -/
def TargetPlan.isAmong (keys : List ComponentKey) : TargetPlan → Bool
  | .channel (.existing c) => keys.contains c.key
  | _ => false

/-- What a handler sends to by itself, apart from the channels that its side
flows start at. -/
def HandlerPlan.mentions (taps : Interceptions) (starts : List ComponentKey) :
    HandlerPlan → List Point
  | .existing h =>
      h.routeTargets.flatMap fun t => if t.isAmong starts then []
        else t.mentions taps
  | .filter _ discard _ => discard.toList.map Point.name
  | .custom _ _ _ targets =>
      targets.flatMap fun t => if t.isAmong starts then [] else t.mentions taps
  | .bridge | .service _ | .transformer _ | .splitter .. | .aggregator ..
  | .enricher _ | .logger .. | .faulty _ =>
      []

def DefaultPlan.mentions (taps : Interceptions) : DefaultPlan → List Point
  | .parentFlow => []
  | .target plan => plan.mentions taps

/-- The target of a destination. A flow starts at a channel that is made for
it. -/
def Destination.mentions (taps : Interceptions) : Destination → List Point
  | .target plan => plan.mentions taps
  | .flow _ => []

def FanOutPlan.mentions (taps : Interceptions) (plan : FanOutPlan) : List Point :=
  plan.channel.toList.flatMap (ChannelPlan.mentions taps)

/-- The targets of a routing table. -/
def tableMentions (taps : Interceptions) (destinations : List Destination)
    (default : Option DefaultPlan) :
    List Point :=
  destinations.flatMap (Destination.mentions taps) ++
    default.toList.flatMap (DefaultPlan.mentions taps)

namespace Step

/-- The points that a step itself mentions. -/
def ownMentions (taps : Interceptions) : Step → List Point
  | .channel source => source.mentions taps
  | .endpoint plan sides =>
      plan.handler.mentions taps (sides.flatMap fun side => side.1.placed) ++
        sides.flatMap fun side => side.1.mentions taps
  | .wireTap _ destination => destination.mentions taps
  | .intercept plan => plan.mentions taps
  | .route plan mappings => tableMentions taps (mappings.map Prod.snd) plan.default
  | .routeToRecipients plan recipients =>
      tableMentions taps (recipients.map Prod.snd) plan.default
  | .publishSubscribe plan _ => plan.mentions taps
  | .scatterGather _ (.recipients plan recipients) =>
      tableMentions taps (recipients.map Prod.snd) plan.default
  | .scatterGather _ (.publish plan _) => plan.mentions taps
  | .withId _ | .withSession _ | .fresh | .faulty _ => []

/-- The points that a step mentions, with all the flows that it holds. -/
def mentions (taps : Interceptions) (s : Step) : List Point :=
  s.ownMentions taps ++ s.inner.flatMap (ownMentions taps)

end Step

/-- The points that a program mentions. -/
def mentions (taps : Interceptions) (steps : List Step) : List Point :=
  (stepsWithin steps).flatMap (Step.ownMentions taps)

theorem mentions_cons (taps : Interceptions) (s : Step) (rest : List Step) :
    mentions taps (s :: rest) = s.mentions taps ++ mentions taps rest := by
  simp [mentions, Step.mentions, stepsWithin]

theorem Step.mentions_eq (taps : Interceptions) (s : Step) :
    s.mentions taps = s.ownMentions taps ++
      s.flows.flatMap (FlowAssembly.mentions taps) := by
  rw [mentions, inner_eq, List.flatMap_assoc]
  rfl

/-- The channel or the name that a flow starts at. -/
def Start.mentions (taps : Interceptions) : Start → List Point
  | .channel c => c.mentions taps
  | .name text => [.name text]
  | .empty _ | .source _ => []

/-! ## Making the arguments of a step -/

section

variable {taps : Interceptions} {w w₁ w' : Workshop}

theorem Channel.charted_mentions (taps : Interceptions) (c : Channel) :
    (Component.channel c).Charted taps (c.mentions taps) := by
  refine ⟨List.mem_cons_self, fun link hl => ?_⟩
  obtain ⟨t, ht, rfl⟩ := List.mem_map.1 hl
  exact precedes_append (List.mem_singleton_self _) (List.mem_map_of_mem ht)

theorem Workshop.Places.both {mentioned mentioned' placed placed' : List Point}
    (h : w.Places mentioned placed placed w₁)
    (h' : w₁.Places mentioned' placed' placed' w') :
    w.Places (mentioned ++ mentioned') (placed ++ placed') (placed ++ placed') w' :=
  (h.mono (List.sublist_append_left _ _)).trans
    (h'.mono (List.sublist_append_right _ _))

mutual

theorem ChannelPlan.places_make {plan : ChannelPlan} {c : Channel} {w w' : Workshop}
    (hblank : taps.Blank w.nextComponent) (h : Yields plan.make w c w') :
    ∃ points, w.Places (plan.mentions taps) points points w' ∧
      (Component.channel c).Charted taps points := by
  match plan with
  | .existing channel =>
      obtain ⟨rfl, rfl⟩ := yields_pure.1 (by simpa only [ChannelPlan.make] using h)
      exact ⟨c.mentions taps, .idle rfl rfl, c.charted_mentions taps⟩
  | .new kind id datatypes plans =>
      simp only [ChannelPlan.make, yields_bind, yields_explicitChannel] at h
      obtain ⟨interceptors, w₁, hi, c', w₂, ⟨hc, hw⟩, h⟩ := h
      obtain ⟨points, hplaces, htargets⟩ := InterceptorPlan.places_makeAll hblank hi
      have hkey : c'.key = ⟨w₁.nextComponent⟩ := by rw [hc]
      have hcharted : (Component.channel c').Charted taps (.key c'.key :: points) :=
        Component.charted_channel (by rw [hkey]; exact hblank _ hplaces.le)
          List.mem_cons_self
      have hmade : w₁.Places [] [.key c'.key] (.key c'.key :: points) w₂ := by
        rw [hkey]
        exact .made (by rw [hw]) (by rw [hw]; rfl)
      have hplaced :=
        (hplaces.mono (List.sublist_cons_self (.key c'.key) points)).trans hmade
      rw [List.append_nil] at hplaced
      have hturned := hplaced.regroup fun p =>
        Nat.add_le_add_left
        (Nat.le_of_eq
          ((List.perm_append_singleton (.key c'.key) points).symm.count_eq p)) _
      rw [ChannelPlan.mentions]
      split at h
      · simp only [yields_bind, yields_pure] at h
        obtain ⟨_, w₃, ha, rfl, rfl⟩ := h
        have hattached : w₂.Places [] [] (.key c.key :: points) w' := by
          obtain rfl := yields_forM_attach.1 ha
          refine .attaching rfl rfl fun a ha t ht => ?_
          obtain ⟨i, hi, rfl⟩ := List.mem_map.1 ha
          exact precedes_append (List.mem_singleton_self _) (htargets i hi t ht)
        have hall := hturned.trans hattached
        rw [List.append_nil, List.append_nil] at hall
        exact ⟨_, hall, hcharted⟩
      · obtain ⟨rfl, rfl⟩ := yields_pure.1 h
        exact ⟨_, hturned, hcharted⟩
  | .faulty cause =>
      rw [ChannelPlan.make] at h
      exact absurd h not_yields_throw

theorem TargetPlan.places_make {plan : TargetPlan} {target : Target}
    {w w' : Workshop} (hblank : taps.Blank w.nextComponent)
    (h : Yields plan.make w target w') :
    ∃ points, w.Places (plan.mentions taps) points points w' ∧
      target.Charted taps points := by
  match plan with
  | .channel plan =>
      obtain ⟨c, hm, rfl⟩ := yields_map.1 (by simpa only [TargetPlan.make] using h)
      rw [TargetPlan.mentions]
      exact ChannelPlan.places_make hblank hm
  | .named name =>
      obtain ⟨rfl, rfl⟩ := yields_pure.1 (by simpa only [TargetPlan.make] using h)
      rw [TargetPlan.mentions]
      exact ⟨_, .idle rfl rfl, List.mem_singleton_self _⟩

theorem InterceptorPlan.places_make {plan : InterceptorPlan}
    {interceptor : Interceptor} {w w' : Workshop}
    (hblank : taps.Blank w.nextComponent) (h : Yields plan.make w interceptor w') :
    ∃ points, w.Places (plan.mentions taps) points points w' ∧
      ∀ t ∈ interceptor.tapTarget?, t.point ∈ points := by
  match plan with
  | .custom name =>
      obtain ⟨rfl, rfl⟩ :=
        yields_pure.1 (by simpa only [InterceptorPlan.make] using h)
      rw [InterceptorPlan.mentions]
      exact ⟨[], .idle rfl rfl, fun t ht => by cases ht⟩
  | .wireTap target selector timeout =>
      simp only [InterceptorPlan.make, yields_bind, yields_pure] at h
      obtain ⟨t, w₁, hm, _, _, hp, rfl, rfl⟩ := h
      obtain rfl := eq_of_yields_parseOptional hp
      obtain ⟨points, hplaces, ht⟩ := TargetPlan.places_make hblank hm
      rw [InterceptorPlan.mentions]
      refine ⟨points, hplaces, fun t' ht' => ?_⟩
      obtain rfl := Option.some.inj ht'
      exact ht.mem

theorem InterceptorPlan.places_makeAll {plans : List InterceptorPlan}
    {interceptors : List Interceptor} {w w' : Workshop}
    (hblank : taps.Blank w.nextComponent)
    (h : Yields (InterceptorPlan.makeAll plans) w interceptors w') :
    ∃ points, w.Places (InterceptorPlan.mentionsOfAll taps plans) points points w' ∧
      ∀ i ∈ interceptors, ∀ t ∈ i.tapTarget?, t.point ∈ points := by
  match plans with
  | [] =>
      obtain ⟨rfl, rfl⟩ :=
        yields_pure.1 (by simpa only [InterceptorPlan.makeAll] using h)
      rw [InterceptorPlan.mentionsOfAll]
      exact ⟨[], .idle rfl rfl, fun i hi => by cases hi⟩
  | plan :: rest =>
      simp only [InterceptorPlan.makeAll, yields_bind, yields_pure] at h
      obtain ⟨i, w₁, hi, others, _, ho, rfl, rfl⟩ := h
      obtain ⟨points, hplaces, hone⟩ := InterceptorPlan.places_make hblank hi
      obtain ⟨points', hplaces', hothers⟩ :=
        InterceptorPlan.places_makeAll (hblank.mono hplaces.le) ho
      rw [InterceptorPlan.mentionsOfAll]
      refine ⟨_, hplaces.both hplaces', fun j hj t ht => ?_⟩
      rcases List.mem_cons.1 hj with rfl | hj
      · exact List.mem_append_left _ (hone t ht)
      · exact List.mem_append_right _ (hothers j hj t ht)

end

/-- What is made of a list is charted in what its members were placed in. -/
theorem places_of_yieldsAll {α β : Type} {f : α → Assembly β} {own : α → List Point}
    {R : List Point → β → Prop}
    (hmono : ∀ {points points' b}, R points b → points.Sublist points' →
      R points' b)
    (hf : ∀ {a b w w'}, taps.Blank w.nextComponent → Yields (f a) w b w' →
      ∃ points, w.Places (own a) points points w' ∧ R points b)
    {as : List α} {bs : List β} (hblank : taps.Blank w.nextComponent)
    (h : YieldsAll f w as bs w') :
    ∃ points, w.Places (as.flatMap own) points points w' ∧
      ∀ b ∈ bs, R points b := by
  induction h with
  | nil w => exact ⟨[], .idle rfl rfl, fun b hb => by cases hb⟩
  | @cons w w₁ w' a b as bs hy _ ih =>
      obtain ⟨points, hplaces, hone⟩ := hf hblank hy
      obtain ⟨points', hplaces', hothers⟩ := ih (hblank.mono hplaces.le)
      refine ⟨_, hplaces.both hplaces', fun b' hb' => ?_⟩
      rcases List.mem_cons.1 hb' with rfl | hb'
      · exact hmono hone (List.sublist_append_left _ _)
      · exact hmono (hothers b' hb') (List.sublist_append_right _ _)

theorem SourcePlan.places_make {plan : SourcePlan} {source : ChannelSource}
    (hblank : taps.Blank w.nextComponent) (h : Yields plan.make w source w') :
    ∃ points, w.Places (plan.mentions taps) points points w' ∧
      ∀ target ∈ source.target?, target.Charted taps points := by
  match plan with
  | .channel plan =>
      obtain ⟨c, hm, rfl⟩ := yields_map.1 (by simpa only [make] using h)
      obtain ⟨points, hplaces, hc⟩ := ChannelPlan.places_make hblank hm
      refine ⟨points, hplaces, fun target ht => ?_⟩
      obtain rfl := Option.some.inj ht
      exact hc
  | .named name =>
      obtain ⟨rfl, rfl⟩ := yields_pure.1 (by simpa only [make] using h)
      refine ⟨_, .idle rfl rfl, fun target ht => ?_⟩
      obtain rfl := Option.some.inj ht
      exact List.mem_singleton_self _
  | .fixedSubscriber id =>
      obtain ⟨rfl, rfl⟩ := yields_pure.1 (by simpa only [make] using h)
      exact ⟨_, .idle rfl rfl, fun target ht => by cases ht⟩

theorem places_makeSides {sides : List (ChannelPlan × List Step)}
    {seeds : List Channel} (hblank : taps.Blank w.nextComponent)
    (h : YieldsAll (fun side : ChannelPlan × List Step => side.1.make) w sides
      seeds w') :
    ∃ points,
      w.Places (sides.flatMap fun side => side.1.mentions taps) points points w' ∧
      ∀ c ∈ seeds, (Component.channel c).Charted taps points :=
  places_of_yieldsAll (fun hc hs => hc.mono hs)
    (fun hblank hy => ChannelPlan.places_make hblank hy) hblank h

theorem Target.point_of_isAmong {keys : List ComponentKey} {target : Target}
    (h : target.isAmong keys = true) :
    ∃ k ∈ keys, target.point = .key k := by
  cases target with
  | channel c => exact ⟨c.key, List.contains_iff_mem.1 h, rfl⟩
  | named name => cases h

theorem Assembly.eq_of_yields_parse {text : String} {e : Expression}
    (h : Yields (parse text) w e w') : w' = w := by
  unfold parse at h
  split at h
  · exact (yields_pure.1 h).2
  · exact absurd h not_yields_fail

theorem ReleasePlan.eq_of_yields_make {plan : ReleasePlan} {release : Release}
    (h : Yields plan.make w release w') :
    w' = w := by
  match plan with
  | .sequenceComplete | .count _ => exact (yields_pure.1 h).2
  | .expression text =>
      obtain ⟨_, hp, -⟩ := yields_map.1 h
      exact eq_of_yields_parse hp
  | .faulty cause => exact absurd h not_yields_throw

theorem StrategyPlan.eq_of_yields_make {plan : StrategyPlan}
    {strategy : RouteStrategy} (h : Yields plan.make w strategy w') : w' = w := by
  match plan with
  | .header _ | .function _ _ => exact (yields_pure.1 h).2
  | .expression text =>
      obtain ⟨_, hp, -⟩ := yields_map.1 h
      exact eq_of_yields_parse hp

/-- A target that a side flow starts at is not mentioned once more. -/
theorem TargetPlan.places_makeAll {plans : List TargetPlan} {targets : List Target}
    (starts : List ComponentKey) (hblank : taps.Blank w.nextComponent)
    (h : YieldsAll TargetPlan.make w plans targets w') :
    ∃ points,
      w.Places (plans.flatMap fun t => if t.isAmong starts then []
        else t.mentions taps) points points w' ∧
      ∀ t ∈ targets, t.point ∈ points ∨ ∃ k ∈ starts, t.point = .key k := by
  refine places_of_yieldsAll (fun ht hs => ht.imp_left fun hm => hs.subset hm)
    (fun {plan t w w'} hblank hy => ?_) hblank h
  split
  · next ha =>
      match plan with
      | .channel (.existing c) =>
          simp only [make, ChannelPlan.make, yields_map, yields_pure] at hy
          obtain ⟨_, ⟨rfl, rfl⟩, rfl⟩ := hy
          exact ⟨[], .idle rfl rfl, .inr ⟨_, List.contains_iff_mem.1 ha, rfl⟩⟩
      | .channel (.new ..) | .channel (.faulty _) | .named _ => cases ha
  · next ha =>
      obtain ⟨points, hplaces, ht⟩ := TargetPlan.places_make hblank hy
      exact ⟨points, hplaces, .inl ht.mem⟩

/-- What a handler sends to by itself is mentioned, or a side flow starts
there. -/
theorem HandlerPlan.places_make {plan : HandlerPlan} {handler : Handler}
    (starts : List ComponentKey) (hblank : taps.Blank w.nextComponent)
    (h : Yields plan.make w handler w') :
    ∃ points, w.Places (plan.mentions taps starts) points points w' ∧
      ∀ t ∈ handler.routeTargets, t.point ∈ points ∨
        ∃ k ∈ starts, t.point = .key k := by
  match plan with
  | .existing given =>
      obtain ⟨rfl, rfl⟩ := yields_pure.1 (by simpa only [make] using h)
      refine ⟨_, .idle rfl rfl, fun t ht => ?_⟩
      by_cases ha : t.isAmong starts = true
      · exact .inr (t.point_of_isAmong ha)
      · refine .inl (List.mem_flatMap.2 ⟨t, ht, ?_⟩)
        rw [if_neg ha]
        cases t <;> exact List.mem_cons_self
  | .custom componentType producesReplies requiresReply targets =>
      simp only [make, yields_bind, yields_newHandler] at h
      obtain ⟨made, w₁, hm, rfl, rfl⟩ := h
      obtain ⟨points, hplaces, ht⟩ :=
        TargetPlan.places_makeAll starts hblank (yieldsAll_of_mapM hm)
      exact ⟨points, hplaces.congr rfl rfl, ht⟩
  | .filter selector discard throwOnRejection =>
      simp only [make, yields_bind, yields_newHandler] at h
      obtain ⟨_, _, hp, rfl, rfl⟩ := h
      obtain rfl := eq_of_yields_parse hp
      refine ⟨discard.toList.map Point.name, ?_, fun t ht => .inl ?_⟩
      · exact .idle rfl rfl
      · obtain ⟨name, hname, rfl⟩ := List.mem_map.1 ht
        exact List.mem_map_of_mem hname
  | .bridge | .service _ | .enricher _ =>
      obtain ⟨rfl, rfl⟩ := yields_newHandler.1 h
      exact ⟨[], .idle rfl rfl, fun t ht => by cases ht⟩
  | .transformer _ | .splitter _ _ | .logger _ _ _ =>
      simp only [make, yields_bind, yields_newHandler] at h
      obtain ⟨_, _, hp, rfl, rfl⟩ := h
      obtain rfl := eq_of_yields_parseOptional hp
      exact ⟨[], .idle rfl rfl, fun t ht => by cases ht⟩
  | .aggregator _ release _ _ _ =>
      simp only [make, yields_bind, yields_newHandler] at h
      obtain ⟨_, _, hp, _, _, hr, rfl, rfl⟩ := h
      obtain rfl := eq_of_yields_parseOptional hp
      obtain rfl := release.eq_of_yields_make hr
      exact ⟨[], .idle rfl rfl, fun t ht => by cases ht⟩
  | .faulty cause =>
      rw [make] at h
      exact absurd h not_yields_throw

/-! ## Routing tables and fan-outs -/

theorem DefaultPlan.places_make {plan : Option DefaultPlan}
    {default : Option DefaultOutput} (hblank : taps.Blank w.nextComponent)
    (h : Yields (makeOptional plan) w default w') :
    ∃ points,
      w.Places (plan.toList.flatMap (DefaultPlan.mentions taps)) points points w' ∧
      ∀ target, default = some (.target target) → target.point ∈ points := by
  match plan with
  | none =>
      obtain ⟨rfl, rfl⟩ := yields_pure.1 h
      exact ⟨[], .idle rfl rfl, fun t ht => by cases ht⟩
  | some .parentFlow =>
      simp only [makeOptional, make, yields_map, yields_pure] at h
      obtain ⟨_, ⟨rfl, rfl⟩, rfl⟩ := h
      exact ⟨[], .idle rfl rfl, fun t ht => by cases ht⟩
  | some (.target given) =>
      simp only [makeOptional, make, yields_map] at h
      obtain ⟨_, ⟨target, hm, rfl⟩, rfl⟩ := h
      obtain ⟨points, hplaces, ht⟩ := TargetPlan.places_make hblank hm
      rw [Option.toList_some, List.flatMap_singleton]
      refine ⟨points, hplaces, fun t ht' => ?_⟩
      obtain rfl : target = t := by simpa using ht'
      exact ht.mem

/-- The destinations were opened up: their targets are among the points that
were placed, and so are the channels that their flows start at, which were
made for them. -/
structure Workshop.OpensUp (taps : Interceptions) (w : Workshop)
    (mentioned : List Point) (openings : List Opening)
    (flows : List (Channel × List Step)) (points : List Point) (w' : Workshop) :
    Prop where
  places : w.Places mentioned (points ++ flows.map fun flow =>
    .key flow.1.key) points w'
  leads : ∀ opening ∈ openings, opening.toTarget.point ∈ points ∨
    ∃ flow ∈ flows, opening.toTarget.point = .key flow.1.key
  blank : ∀ flow ∈ flows, taps flow.1.key = []

theorem Destination.opensUp {destinations : List Destination}
    {openings : List Opening} (hblank : taps.Blank w.nextComponent)
    (h : YieldsAll openUp w destinations openings w') :
    ∃ points,
      w.OpensUp taps (destinations.flatMap (Destination.mentions taps)) openings
        (seededFlows openings destinations) points w' := by
  induction h with
  | nil w =>
      exact ⟨[],
        ⟨.idle rfl rfl, fun _ ho => absurd ho List.not_mem_nil,
          fun _ hf => absurd hf List.not_mem_nil⟩⟩
  | @cons w w₁ w' destination opening destinations openings hy _ ih =>
      cases destination with
      | target plan =>
          obtain ⟨target, hm, rfl⟩ := yields_map.1 hy
          obtain ⟨points, hplaces, ht⟩ := TargetPlan.places_make hblank hm
          obtain ⟨points', hplaces', hleads, hnone⟩ := ih (hblank.mono hplaces.le)
          refine ⟨points ++ points', ⟨?_, fun o ho => ?_, hnone⟩⟩
          · have hall :=
              (hplaces.mono (List.sublist_append_left points points')).trans
              (hplaces'.mono (List.sublist_append_right points points'))
            rwa [← List.append_assoc] at hall
          · rcases List.mem_cons.1 ho with rfl | ho
            · exact .inl (List.mem_append_left _ ht.mem)
            · exact (hleads o ho).imp_left fun hm => List.mem_append_right _ hm
      | flow steps =>
          obtain ⟨seed, hm, rfl⟩ := yields_map.1 hy
          obtain ⟨rfl, rfl⟩ := yields_implicitChannel.1 hm
          have hmade : w.Places [] [.key ⟨w.nextComponent⟩] [] { w with
              nextComponent := w.nextComponent + 1 } :=
            .made rfl rfl
          obtain ⟨points, hplaces, hleads, hnone⟩ := ih (hblank.mono hmade.le)
          refine ⟨points, ⟨?_, fun o ho => ?_, fun flow hf => ?_⟩⟩
          · refine ((hmade.mono (List.nil_sublist points)).trans hplaces).regroup
              fun p => ?_
            rw [seededFlows, List.map_cons]
            exact Nat.add_le_add_left (Nat.le_of_eq (List.perm_middle.count_eq p)) _
          · rcases List.mem_cons.1 ho with rfl | ho
            · exact .inr ⟨_, List.mem_cons_self, rfl⟩
            · obtain hm | ⟨flow, hf, hp⟩ := hleads o ho
              · exact .inl hm
              · exact .inr ⟨flow, List.mem_cons_of_mem _ hf, hp⟩
          · rcases List.mem_cons.1 hf with rfl | hf
            · exact hblank _ (Nat.le_refl _)
            · exact hnone flow hf

theorem Workshop.OpensUp.withDefault {mentioned points : List Point}
    {openings : List Opening} {flows : List (Channel × List Step)}
    {plan : Option DefaultPlan} {default : Option DefaultOutput}
    (h : w.OpensUp taps mentioned openings flows points w₁)
    (hblank : taps.Blank w.nextComponent)
    (hd : Yields (DefaultPlan.makeOptional plan) w₁ default w') :
    ∃ points,
      w.OpensUp taps (mentioned ++ plan.toList.flatMap (DefaultPlan.mentions taps))
        openings flows points w' ∧
      ∀ target, default = some (.target target) → target.point ∈ points := by
  obtain ⟨points', hplaces', hdefault⟩ :=
    DefaultPlan.places_make (hblank.mono h.places.le) hd
  refine ⟨points ++ points', ⟨?_, fun o ho => ?_, h.blank⟩,
    fun t ht => List.mem_append_right _ (hdefault t ht)⟩
  · refine ((h.places.mono (List.sublist_append_left _ _)).trans
      (hplaces'.mono (List.sublist_append_right _ _))).regroup fun p => ?_
    simp only [List.count_append]
    omega
  · exact (h.leads o ho).imp_left fun hm => List.mem_append_left _ hm

theorem RouterPlan.opensUp {plan : RouterPlan}
    {mappings : List (String × Destination)} {parts : RouterParts}
    (hblank : taps.Blank w.nextComponent)
    (h : Yields (plan.make mappings) w parts w') :
    ∃ points,
      w.OpensUp taps (tableMentions taps (mappings.map Prod.snd) plan.default)
        (parts.openings.map Prod.snd)
        (seededFlows (parts.openings.map Prod.snd) (mappings.map Prod.snd)) points
        w' ∧
      ∀ target, parts.default = some (.target target) → target.point ∈ points := by
  simp only [make, yields_bind, yields_pure] at h
  obtain ⟨strategy, _, hs, openings, w₂, ho, default, _, hd, rfl, rfl⟩ := h
  obtain rfl := plan.strategy.eq_of_yields_make hs
  have hopen :
      YieldsAll Destination.openUp _ (mappings.map Prod.snd)
        (openings.map Prod.snd) w₂ :=
    (yieldsAll_of_mapM ho).map fun hy => by
      simp only [yields_bind, yields_pure] at hy
      obtain ⟨opening, _, hy, rfl, rfl⟩ := hy
      exact hy
  obtain ⟨points, hpoints⟩ := Destination.opensUp hblank hopen
  exact hpoints.withDefault hblank hd

theorem RecipientsPlan.opensUp {plan : RecipientsPlan}
    {recipients : List (Option String × Destination)} {parts : RecipientParts}
    (hblank : taps.Blank w.nextComponent)
    (h : Yields (plan.make recipients) w parts w') :
    ∃ points,
      w.OpensUp taps (tableMentions taps (recipients.map Prod.snd) plan.default)
        (parts.openings.map Prod.snd)
        (seededFlows (parts.openings.map Prod.snd) (recipients.map Prod.snd))
        points w' ∧
      ∀ target, parts.default = some (.target target) → target.point ∈ points := by
  simp only [make, yields_bind, yields_pure] at h
  obtain ⟨openings, w₁, ho, default, _, hd, rfl, rfl⟩ := h
  have hopen : YieldsAll Destination.openUp w (recipients.map Prod.snd)
        (openings.map Prod.snd) w₁ :=
    (yieldsAll_of_mapM ho).map fun hy => by
      simp only [yields_bind, yields_pure] at hy
      obtain ⟨opening, _, hy, selector, _, hp, rfl, rfl⟩ := hy
      obtain rfl := eq_of_yields_parseOptional hp
      exact hy
  obtain ⟨points, hpoints⟩ := Destination.opensUp hblank hopen
  exact hpoints.withDefault hblank hd

theorem FanOutPlan.places_make {plan : FanOutPlan} {given : Option Channel}
    (hblank : taps.Blank w.nextComponent)
    (h : Yields (plan.channel.mapM ChannelPlan.make) w given w') :
    ∃ points, w.Places (plan.mentions taps) points points w' ∧
      ∀ c ∈ given, (Component.channel c).Charted taps points := by
  obtain ⟨channel, _, _⟩ := plan
  cases channel with
  | none =>
      obtain ⟨rfl, rfl⟩ := yields_pure.1 h
      exact ⟨[], .idle rfl rfl, fun c hc => by cases hc⟩
  | some channel =>
      obtain ⟨made, hm, rfl⟩ := yields_map.1 h
      rw [mentions, Option.toList_some, List.flatMap_singleton]
      obtain ⟨points, hplaces, hcharted⟩ := ChannelPlan.places_make hblank hm
      refine ⟨points, hplaces, fun c hc => ?_⟩
      obtain rfl := Option.some.inj hc
      exact hcharted

theorem places_fanOutChannel {plan : FanOutPlan} {given : Option Channel}
    {c : Channel} {points : List Point} (hblank : taps.Blank w.nextComponent)
    (hg : ∀ c ∈ given, (Component.channel c).Charted taps points)
    (h : Yields (Builder.fanOutChannel plan given) w c w') :
    ∃ more, w.Places [] more [] w' ∧
      (Component.channel c).Charted taps (points ++ more) := by
  cases given with
  | none =>
      obtain ⟨hmade, rfl⟩ := yields_explicitChannel.1 h
      have hkey : c.key = ⟨w.nextComponent⟩ := by rw [hmade]
      refine ⟨[.key ⟨w.nextComponent⟩], .made rfl rfl,
        Component.charted_channel ?_ ?_⟩
      · exact hkey ▸ hblank _ (Nat.le_refl _)
      · exact hkey ▸ List.mem_append_right _ (List.mem_singleton_self _)
  | some given =>
      obtain ⟨rfl, rfl⟩ := yields_pure.1 h
      exact ⟨[], .idle rfl rfl, (hg c rfl).mono (List.sublist_append_left _ _)⟩

end

end FlowAssembly
