import FlowAssembly.Proofs.Charting

/-!
# Programs put in order

Each kind of step puts the points that it deals with behind what is in order
already, and so does a program, by induction on how flows are nested in it.

Most steps put them in the order in which they come about: what was made ahead
of the step, the endpoint with all that it sends to behind it, the flows of
its branches, the links. Two do not. Branches that meet on a channel which one
of them ended on need that branch behind all the others (`charted_toBare`).
And a scatter-gather is assembled before its own endpoint is, which has to
come first, with the scatter channel and the branches in between and the
gather channel last (`charted_gathered`).

The account of points goes along with each step: whatever is put in order was
mentioned by the program, or was made.
-/

namespace FlowAssembly

open Assembly Workshop

variable {taps : Interceptions} {order points : List Point} {b b' : Builder}
  {w w₁ w' : Workshop}

/-! ## Taking branches over -/

namespace Builder.Charted

variable {branches : List Branch}

theorem absorb (h : b.Charted taps order)
    (hbr : ∀ br ∈ branches, ∀ x ∈ br.registry.components, x.Charted taps order) :
    (b.absorb branches).Charted taps order where
  components x hx := by
    rcases List.mem_append.1 ((b.condenses_absorb branches).subperm.subset hx)
      with hx | hx
    · exact h.components x hx
    · obtain ⟨br, hm, hx⟩ := List.mem_flatMap.1 hx
      exact hbr br hm x hx
  current := h.current
  pending := h.pending

theorem holding (h : b.Charted taps order)
    (hbr : ∀ br ∈ branches, ∀ x ∈ br.registry.components, x.Charted taps order) :
    (b.holding branches).Charted taps order where
  components x hx := by
    rcases List.mem_append.1 ((b.condenses_holding branches).subperm.subset hx)
      with hx | hx
    · exact h.components x hx
    · obtain ⟨br, hm, hx⟩ := List.mem_flatMap.1 hx
      exact hbr br hm x hx
  current := h.current
  pending := h.pending

theorem mergedOn {merge : Channel} (h : b.Charted taps order)
    (hp : b.cursor.pending = none)
    (hbr : ∀ br ∈ branches, ∀ x ∈ br.registry.components, x.Charted taps order)
    (hm : (Component.channel merge).Charted taps order) :
    (b.mergedOn branches merge).Charted taps order where
  components x hx := by
    have hx := (b.condenses_mergedOn branches merge).subperm.subset hx
    simp only [List.mem_append, List.mem_flatMap, List.mem_singleton] at hx
    rcases hx with (hx | ⟨br, hbr', hx⟩) | rfl
    · exact h.components x hx
    · exact hbr br hbr' x hx
    · exact hm
  current source hsource target ht := by
    obtain rfl := Option.some.inj hsource
    obtain rfl := Option.some.inj ht
    exact ⟨hm, hp⟩
  pending := h.pending

/-- Only the registry and the cursor matter. -/
theorem congr (h : b.Charted taps order) (hr : b'.registry = b.registry)
    (hd : b'.cursor.deferred = b.cursor.deferred)
    (hc : ∀ source ∈ b'.cursor.channel, ∀ target ∈ source.target?,
      target.Charted taps order ∧ b'.cursor.pending = none)
    (hp : ∀ output ∈ b'.cursor.pending, .key output.component ∈ order) :
    b'.Charted taps order where
  components x hx := by
    rw [components_eq, hr, hd, ← components_eq] at hx
    exact h.components x hx
  current := hc
  pending := hp

theorem post {c : Channel} (h : b.Charted taps order)
    (hc : (Component.channel c).Charted taps order) :
    Builder.Charted taps order { b with
      registry := b.registry.add (.channel c) } where
  components x hx := by
    rw [components_eq] at hx
    rcases List.mem_append.1 hx with hx | hx
    · rcases List.mem_append.1
        ((b.registry.condenses_add (.channel c)).subperm.subset hx) with hx | hx
      · exact h.components x (b.components_eq ▸ List.mem_append_left _ hx)
      · obtain rfl := List.mem_singleton.1 hx
        exact hc
    · exact h.components x (b.components_eq ▸ List.mem_append_right _ hx)
  current := h.current
  pending := h.pending

end Builder.Charted

/-! ## Where branches meet -/

section

variable {α β : Type} {f : α → Assembly β}

/-- The step that gave one of the answers, with those before it and behind
it. -/
theorem Assembly.YieldsAll.of_mem {as : List α} {bs : List β} {b : β}
    (h : YieldsAll f w as bs w') (hb : b ∈ bs) :
    ∃ as₁ a as₂ bs₁ bs₂ w₁ w₂, as = as₁ ++ a :: as₂ ∧ bs = bs₁ ++ b :: bs₂ ∧
      YieldsAll f w as₁ bs₁ w₁ ∧
      Yields (f a) w₁ b w₂ ∧ YieldsAll f w₂ as₂ bs₂ w' := by
  induction h with
  | nil w => cases hb
  | @cons w w₁ w' a b' as bs hy hrest ih =>
      rcases List.mem_cons.1 hb with rfl | hb
      · exact ⟨[], a, as, [], bs, w, w₁, rfl, rfl, .nil w, hy, hrest⟩
      · obtain ⟨as₁, a', as₂, bs₁, bs₂, u₁, u₂, rfl, rfl, h₁, h₂, h₃⟩ := ih hb
        exact ⟨a :: as₁, a', as₂, b' :: bs₁, bs₂, u₁, u₂, rfl, rfl,
          .cons hy h₁, h₂, h₃⟩

end

section

variable {flows : List (Channel × List Step)} {branches : List Branch}
  {default : Option DefaultOutput} {r : Builder.Reconciled}

/-- Unmatched messages go to a target that was declared, or to where the
branches meet. -/
theorem Builder.default_of_reconcile
    (h : Yields (b.reconcile branches default) w r w') :
    ∀ t ∈ r.defaultOutput, default = some (.target t) ∨
      ∃ m ∈ r.merge, t = .channel m := by
  intro t ht
  unfold reconcile at h
  split at h
  · simp only [yields_bind, yields_pure] at h
    obtain ⟨m, _, -, _, _, -, rfl, -⟩ := h
    dsimp only at ht
    split at ht
    · obtain rfl := Option.some.inj ht
      exact .inl rfl
    · obtain rfl := Option.some.inj ht
      exact .inr ⟨m, rfl, rfl⟩
    · cases ht
  · obtain ⟨rfl, -⟩ := yields_pure.1 h
    dsimp only at ht
    split at ht
    · obtain rfl := Option.some.inj ht
      exact .inl rfl
    · cases ht

/-- A branch that ended on the channel where the branches meet is left as it
is. -/
theorem Branch.same_of_converge {br br' : Branch} {merge : Channel}
    (hm : br.ending = .channel merge) (h : Yields (br.converge b merge) w br' w') :
    w' = w ∧ br'.registry = br.registry := by
  rcases of_yields_converge h
    with ⟨_, he, -⟩ | ⟨he, -⟩ | ⟨_, -, -, rfl, rfl⟩ | ⟨last, _, _, he, hne, -⟩
  · rw [hm] at he
    cases he
  · rw [hm] at he
    cases he
  · exact ⟨rfl, rfl⟩
  · rw [hm] at he
    obtain rfl := Ending.channel.inj he
    exact absurd rfl hne

/-- The channels that flows start at. -/
def starts (flows : List (Channel × List Step)) : List Point :=
  flows.map fun flow => .key flow.1.key

theorem charted_starts (hblank : ∀ flow ∈ flows, taps flow.1.key = []) :
    ∀ flow ∈ flows, (Component.channel flow.1).Charted taps (starts flows) :=
  fun flow hm => Component.charted_channel (hblank flow hm) (List.mem_map_of_mem hm)

/-- The flows were assembled and the ends of their branches dealt with, in one
part of the order, with the channel where they meet if there is one. -/
structure Workshop.Joins (taps : Interceptions) (w : Workshop)
    (flows : List (Channel × List Step)) (closed : List Branch)
    (merge : Option Channel) (part : List Point) (w' : Workshop) : Prop where
  places : w.Places (starts flows ++ flows.flatMap fun flow =>
    mentions taps flow.2) part part w'
  starts : starts flows ⊆ part
  branches : ∀ br ∈ closed, ∀ x ∈ br.registry.components, x.Charted taps part
  merge : ∀ m ∈ merge, (Component.channel m).Charted taps part

/-- Branches that converge on a new channel lead to it. -/
theorem charted_toNew {merge : Channel} {closed : List Branch}
    (hf : ∀ flow ∈ flows, Charts taps flow.2) (hblank : taps.Blank w.nextComponent)
    (hseeds : ∀ flow ∈ flows, taps flow.1.key = [])
    (hbr : YieldsAll b.runBranch w flows branches w₁)
    (hk : merge.key = ⟨w₁.nextComponent⟩)
    (hy : YieldsAll (fun br => br.converge b merge)
      { w₁ with nextComponent := w₁.nextComponent + 1 } branches closed w') :
    ∃ part, w.Joins taps flows closed (some merge) part w' := by
  obtain ⟨more, hplaces, hcharted⟩ :=
    charted_runBranches hf hblank (charted_starts hseeds) hbr
  have hmade : w₁.Places [] [.key merge.key] [] { w₁ with
      nextComponent := w₁.nextComponent + 1 } :=
    hk ▸ .made rfl rfl
  obtain ⟨links, hlinks, hclosed⟩ := charted_converge hcharted hy
  let all := starts flows ++ more ++ links ++ [Point.key merge.key]
  have hrun : w.Places _ more all w₁ :=
    hplaces.mono ((List.sublist_append_left _ links).trans
      (List.sublist_append_left _ _))
  have hrest := (hmade.trans hlinks).mono (List.nil_sublist all)
  refine ⟨all, (hrun.trans hrest).regroup fun p => ?_, fun p hp => ?_,
    hclosed all (List.Sublist.refl _), fun m hm => ?_⟩
  · simp only [all, List.count_append, List.count_nil]
    omega
  · simp only [all, List.mem_append]
    exact .inl (.inl (.inl hp))
  · obtain rfl := Option.some.inj hm
    exact Component.charted_channel (hk ▸ hblank _ hplaces.le)
      (List.mem_append_right _ (List.mem_singleton_self _))

/-- If branches converge on a channel that one of them ended on, then that
branch comes behind the others. -/
theorem charted_toBare {merge : Channel} {closed : List Branch} {br : Branch}
    (hf : ∀ flow ∈ flows, Charts taps flow.2) (hblank : taps.Blank w.nextComponent)
    (hseeds : ∀ flow ∈ flows, taps flow.1.key = [])
    (hbr : YieldsAll b.runBranch w flows branches w₁) (hm : br ∈ branches)
    (hend : br.ending = .channel merge)
    (hy : YieldsAll (fun br => br.converge b merge) w₁ branches closed w') :
    ∃ part, w.Joins taps flows closed (some merge) part w' := by
  obtain ⟨before, flow, after, branches₁, branches₂, u₁, u₂, rfl, rfl, hbefore,
    hone, hafter⟩ := hbr.of_mem hm
  obtain ⟨early, hfirst, hearly⟩ := charted_runBranches
    (fun flow hm => hf flow (by simp [hm])) hblank
    (charted_starts fun flow hm => hseeds flow (by simp [hm])) hbefore
  have hblank₁ := hblank.mono hfirst.le
  have hseed : (Component.channel flow.1).Charted taps [.key flow.1.key] :=
    Component.charted_channel (hseeds flow (by simp)) (List.mem_singleton_self _)
  obtain ⟨within, hown, hbranch⟩ :=
    charted_runBranch (hf flow (by simp)) hblank₁ hseed hone
  obtain ⟨late, hlast, hlate⟩ := charted_runBranches
    (fun flow hm => hf flow (by simp [hm])) (hblank₁.mono hown.le)
    (charted_starts fun flow hm => hseeds flow (by simp [hm])) hafter
  obtain ⟨closed₁, rest, v₁, rfl, hclosed₁, hrest⟩ := hy.of_append
  cases hrest with
  | @cons _ v₂ _ _ br' _ closed₂ hsame hclosed₂ =>
      obtain ⟨rfl, hregistry⟩ := Branch.same_of_converge hend hsame
      obtain ⟨links₁, hlinks₁, hends₁⟩ := charted_converge hearly hclosed₁
      obtain ⟨links₂, hlinks₂, hends₂⟩ := charted_converge hlate hclosed₂
      let first := starts before ++ early ++ links₁
      let second := starts after ++ late ++ links₂
      let own := [Point.key flow.1.key] ++ within
      have hmeet : [Point.key merge.key].Sublist own :=
        List.singleton_sublist.2 (hbranch.channel merge hend).key
      have hsub₁ : first.Sublist (first ++ second) := List.sublist_append_left _ _
      have hsub₂ : second.Sublist (first ++ second) := List.sublist_append_right _ _
      have hin : ∀ {part : List Point}, part.Sublist (first ++ second) →
          part.Sublist (first ++ second ++ own) :=
        fun hs => hs.trans (List.sublist_append_left _ _)
      have hrun :=
        ((hfirst.mono (hin ((List.sublist_append_left _ _).trans hsub₁))).trans
          (hown.mono (List.sublist_append_right (first ++ second) own))).trans
        (hlast.mono (hin ((List.sublist_append_left _ _).trans hsub₂)))
      have hrest :=
        (hlinks₁.trans hlinks₂).mono (List.nil_sublist (first ++ second ++ own))
      refine ⟨first ++ second ++ own, (hrun.trans hrest).regroup fun p => ?_,
        fun p hp => ?_, fun c hc x hx => ?_, fun m hm => ?_⟩
      · simp only [first, second, own, starts, List.count_append, List.count_nil,
          List.flatMap_append, List.flatMap_cons, List.map_append, List.map_cons,
          List.count_cons]
        omega
      · simp only [starts, List.map_append, List.map_cons, List.mem_append,
          List.mem_cons] at hp
        simp only [first, second, own, starts, List.mem_append, List.mem_singleton]
        tauto
      · rcases List.mem_append.1 hc with hc | hc
        · exact hends₁ _ (hsub₁.append hmeet) c hc x hx
        · rcases List.mem_cons.1 hc with rfl | hc
          · rw [hregistry] at hx
            exact (hbranch.components x hx).mono (List.sublist_append_right _ _)
          · exact hends₂ _ (hsub₂.append hmeet) c hc x hx
      · obtain rfl := Option.some.inj hm
        exact (hbranch.channel _ hend).mono (List.sublist_append_right _ _)

theorem charted_reconcile (hf : ∀ flow ∈ flows, Charts taps flow.2)
    (hblank : taps.Blank w.nextComponent)
    (hseeds : ∀ flow ∈ flows, taps flow.1.key = [])
    (hbr : YieldsAll b.runBranch w flows branches w₁)
    (hy : Yields (b.reconcile branches default) w₁ r w') :
    ∃ part, w.Joins taps flows r.branches r.merge part w' := by
  rcases Builder.of_yields_reconcile hy
    with ⟨merge, w₂, hm, hc, hmerge⟩ | ⟨-, hsame, hmerge, rfl⟩
  · rw [hmerge]
    rcases Builder.of_yields_mergeChannel hm with ⟨hfound, rfl⟩ | ⟨-, hk, rfl⟩
    · obtain ⟨br, hbr', hchannel⟩ := List.exists_of_findSome?_eq_some hfound
      refine charted_toBare hf hblank hseeds hbr hbr' ?_ hc
      unfold Branch.channel? at hchannel
      split at hchannel
      · next c hend => rw [hend, Option.some.inj hchannel]
      · cases hchannel
    · exact charted_toNew hf hblank hseeds hbr hk hc
  · obtain ⟨more, hplaces, hcharted⟩ :=
      charted_runBranches hf hblank (charted_starts hseeds) hbr
    rw [hmerge, hsame]
    refine ⟨starts flows ++ more, hplaces.regroup fun p => ?_,
      fun p hp => List.mem_append_left _ hp,
      fun br hm => (hcharted br hm).components, fun m hm => by cases hm⟩
    simp only [List.count_append]
    omega

/-- A router stands ahead of all that it leads to, and its branches ahead of
where they meet. -/
theorem charted_routed {mentioned points : List Point} {openings : List Opening}
    {spec : EndpointSpec} {b₁ : Builder} {w₀ w₂ w₃ : Workshop}
    (h : b.Charted taps order) (hblank : taps.Blank w₀.nextComponent)
    (hf : ∀ flow ∈ flows, Charts taps flow.2)
    (hopen : w₀.OpensUp taps mentioned openings flows points w)
    (hdefault : ∀ target, default = some (.target target) → target.point ∈ points)
    (hbr : YieldsAll b.runBranch w flows branches w₁)
    (hrec : Yields (b.reconcile branches default) w₁ r w₂)
    (hroutes : spec.handler.routeTargets = openings.map Opening.toTarget ++
      r.defaultOutput.toList)
    (hone : spec.handler.producesReplies = false)
    (ha : Yields (b.attach spec) { w₂ with nextHandler := w₂.nextHandler + 1 }
      b₁ w₃)
    (hy : Yields (b₁.absorbMerged r.branches r.merge) w₃ b' w') :
    ∃ more,
      w₀.Places (mentioned ++ flows.flatMap fun flow => mentions taps flow.2) more
        (order ++ more) w' ∧
      b'.Charted taps (order ++ more) := by
  have hblank₁ := hblank.mono hopen.places.le
  obtain ⟨part, hpart⟩ := charted_reconcile hf hblank₁ hopen.blank hbr hrec
  have hblank₂ := hblank₁.mono hpart.places.le
  obtain ⟨made, router, hattached, -, hpending, -, hcharted⟩ :=
    h.attach (by exact hblank₂) ha
  have hattached : w₂.Places [] (made ++ [.key router]) [] w₃ :=
    ⟨hattached.le, hattached.count, hattached.taps⟩
  let all := order ++ made ++ [Point.key router] ++ (points ++ part)
  have hroute : ∀ t ∈ spec.handler.routeTargets, t.point ∈ points ++ part := by
    intro t ht
    rw [hroutes] at ht
    rcases List.mem_append.1 ht with ht | ht
    · obtain ⟨opening, ho, rfl⟩ := List.mem_map.1 ht
      rcases hopen.leads opening ho with hm | ⟨flow, hflow, heq⟩
      · exact List.mem_append_left _ hm
      · exact heq ▸ List.mem_append_right _
          (hpart.starts (List.mem_map_of_mem hflow))
    · rcases Builder.default_of_reconcile hrec t (Option.mem_toList.1 ht)
        with hd | ⟨m, hm, rfl⟩
      · exact List.mem_append_left _ (hdefault t hd)
      · exact List.mem_append_right _ (hpart.merge m hm).key
  have hb₁ : b₁.Charted taps all :=
    hcharted all (List.sublist_append_left _ _) fun t ht =>
      precedes_append (List.mem_append_right _ (List.mem_singleton_self _))
        (hroute t ht)
  have hpoints : points.Sublist all :=
    (List.sublist_append_left points part).trans (List.sublist_append_right _ _)
  have hwithin : part.Sublist all :=
    (List.sublist_append_right points part).trans (List.sublist_append_right _ _)
  have hbranches : ∀ br ∈ r.branches, ∀ x ∈ br.registry.components,
      x.Charted taps all :=
    fun br hm x hx => (hpart.branches br hm x hx).mono hwithin
  have hplaced : ∀ bridge, w₃.Places [] bridge [] w' →
      w₀.Places (mentioned ++ flows.flatMap fun flow => mentions taps flow.2)
        (made ++ [.key router] ++ (points ++ part) ++ bridge)
        (order ++ (made ++ [.key router] ++ (points ++ part) ++ bridge)) w' := by
    intro bridge hbridge
    have hall :
        all.Sublist
          (order ++ (made ++ [.key router] ++ (points ++ part) ++ bridge)) := by
      simp only [all, ← List.append_assoc]
      exact List.sublist_append_left _ _
    have hrun :=
      ((hopen.places.mono (hpoints.trans hall)).trans
        (hpart.places.mono (hwithin.trans hall))).trans
      ((hattached.trans hbridge).mono (List.nil_sublist _))
    refine hrun.regroup fun p => ?_
    simp only [starts, List.count_append, List.count_nil]
    omega
  have heq : ∀ bridge,
      order ++ (made ++ [.key router] ++ (points ++ part) ++ bridge) =
      all ++ bridge := by
    intro bridge
    simp only [all, List.append_assoc]
  rcases Builder.of_yields_absorbMerged hy with ⟨-, rfl, rfl⟩ | ⟨m, hm, hbridge⟩
  · refine ⟨_, hplaced [] (.idle rfl rfl), ?_⟩
    rw [heq, List.append_nil]
    exact hb₁.absorb hbranches
  · have hmerged :=
      hb₁.mergedOn (hpending hone) hbranches ((hpart.merge m hm).mono hwithin)
    obtain ⟨bridge, hplaces, -, hcharted⟩ :=
      hmerged.bridge (hblank₂.mono hattached.le) hbridge
    exact ⟨_, hplaced bridge hplaces, heq bridge ▸ hcharted⟩

/-! ## Scatters -/

theorem charted_registerScatter {scattering : Scattering} {closed : List Branch}
    (h : b.Charted taps order) (hpending : b.cursor.pending = none)
    (hblank : taps.Blank w.nextComponent)
    (hscatter : (Component.channel scattering.channel).Charted taps order)
    (hy : Yields (b.registerScatter scattering closed) w b' w') :
    ∃ mid, w.Places [] mid [] w' ∧ b'.cursor.pending = none ∧
      ∀ rest,
        (∀ list ∈ scattering.list,
          ∀ t ∈ (Behaviour.recipientList list.1).routeTargets, t.point ∈ rest) →
        (∀ br ∈ closed, ∀ x ∈ br.registry.components,
          x.Charted taps (order ++ mid ++ rest)) →
        b'.Charted taps (order ++ mid ++ rest) := by
  have hposted := h.post hscatter
  unfold Builder.registerScatter at hy
  dsimp only at hy
  split at hy
  · next list id hl =>
      simp only [yields_bind, yields_newHandler, yields_pure] at hy
      obtain ⟨_, _, ⟨rfl, rfl⟩, b₁, _, ha, rfl, rfl⟩ := hy
      have hstanding : Builder.Charted taps order { b with
          registry := b.registry.add (.channel scattering.channel)
          cursor :=
            { b.cursor with channel := some (.channel scattering.channel) } } :=
        hposted.congr rfl rfl (fun source hs target ht => by
          obtain rfl := Option.some.inj hs
          obtain rfl := Option.some.inj ht
          exact ⟨hscatter, hpending⟩) h.pending
      obtain ⟨made, e, hplaces, -, hidle, -, hcharted⟩ :=
        hstanding.attach (by exact hblank) ha
      refine ⟨made ++ [.key e], ⟨hplaces.le, hplaces.count, hplaces.taps⟩,
        hidle rfl, fun rest hlist hclosed => ?_⟩
      refine (hcharted _ ?_ fun t ht => ?_).absorb hclosed
      · rw [← List.append_assoc]
        exact List.sublist_append_left _ _
      · rw [← List.append_assoc]
        exact precedes_append (List.mem_append_right _ (List.mem_singleton_self _))
          (hlist _ hl t ht)
  · next hl =>
      simp only [yields_bind, yields_pure] at hy
      obtain ⟨_, _, ⟨rfl, rfl⟩, rfl, rfl⟩ := hy
      refine ⟨[], .idle rfl rfl, hpending, fun rest _ hclosed => ?_⟩
      rw [List.append_nil] at hclosed ⊢
      exact (hposted.mono (List.sublist_append_left _ _)).absorb hclosed

/-- A scatter-gather stands ahead of its scatter channel, which stands ahead
of the list that reads it and of the branches. The gather channel with its
reader comes last. -/
theorem charted_gathered {plan : ScatterGatherPlan} {release : Release}
    {scattering : Scattering} {gather : Channel} {scatter within : List Point}
    (h : b.Charted taps order) (hblank : taps.Blank w.nextComponent)
    (hscatter : (Component.channel scattering.channel).Charted taps scatter)
    (hbr : ∀ br ∈ scattering.branches, br.Charted taps (scatter ++ within))
    (hlist : ∀ list ∈ scattering.list,
      ∀ t ∈ (Behaviour.recipientList list.1).routeTargets, t.point ∈ within ∨
        t.point = .key gather.key)
    (hgather : taps gather.key = [])
    (hy : Yields (b.finishScatterGather plan release scattering gather) w b' w') :
    ∃ more, w.Places (scatter ++ within ++ [.key gather.key]) more [] w' ∧
      (scatter ++ within).Sublist more ∧
      b'.Charted taps (order ++ more) := by
  simp only [Builder.finishScatterGather, Builder.converge, yields_bind,
    yields_newHandler, yields_pure] at hy
  obtain ⟨closed, w₁, hc, _, _, ⟨rfl, rfl⟩, _, _, ⟨rfl, rfl⟩, b₁, w₂, ha, b₂,
    w₃, hs, b₃, _, hg, rfl, rfl⟩ := hy
  obtain ⟨links, hlinks, hclosed⟩ := charted_converge hbr (yieldsAll_of_mapM hc)
  have hblank₁ := hblank.mono hlinks.le
  obtain ⟨made, e, hplaces₁, hnone, -, hown, hcharted⟩ :=
    h.attach (by exact hblank₁) ha
  have hb₁ : b₁.Charted taps (order ++ made ++ [.key e] ++ scatter) :=
    hcharted _ (List.sublist_append_left _ _) fun t ht => by
      obtain rfl := List.mem_singleton.1 ht
      exact precedes_append (List.mem_append_right _ (List.mem_singleton_self _))
        hscatter.key
  have hplaces₁ : w₁.Places [] (made ++ [.key e]) [] w₂ :=
    ⟨hplaces₁.le, hplaces₁.count, hplaces₁.taps⟩
  have hblank₂ := hblank₁.mono hplaces₁.le
  have hidle : Builder.Charted taps (order ++ made ++ [.key e] ++ scatter)
      { b₁ with cursor := { b₁.cursor with tail := none, pending := none } } :=
    hb₁.congr rfl rfl (fun source hs => by rw [hnone] at hs; cases hs)
      fun output ho => by
      cases ho
  obtain ⟨mid, hplaces₂, hpending, hregistered⟩ := charted_registerScatter hidle
    rfl hblank₂ (hscatter.mono (List.sublist_append_right _ _)) hs
  have hblank₃ := hblank₂.mono hplaces₂.le
  let rest := within ++ links ++ [Point.key gather.key]
  let all := order ++ made ++ [.key e] ++ scatter ++ mid ++ rest
  have hgathered : Point.key gather.key ∈ rest :=
    List.mem_append_right _ (List.mem_singleton_self _)
  have hb₂ : b₂.Charted taps all := by
    refine hregistered rest (fun list hl t ht => ?_) (hclosed _ ?_)
    · rcases hlist list hl t ht with hm | hm
      · exact List.mem_append_left _ (List.mem_append_left _ hm)
      · exact hm ▸ hgathered
    · rw [show scatter ++ within ++ links ++ [Point.key gather.key] =
        scatter ++ rest by
          simp only [rest, List.append_assoc]]
      exact ((List.sublist_append_right _ scatter).trans
        (List.sublist_append_left _ mid)).append (List.Sublist.refl _)
  have hgatherer : (Component.channel gather).Charted taps all :=
    Component.charted_channel hgather (List.mem_append_right _ hgathered)
  have hlast :
      Builder.Charted taps all (Builder.continueFrom
        { b₂ with registry := b₂.registry.add (.channel gather) }
        (.channel gather)) :=
    (hb₂.post hgatherer).congr rfl rfl (fun source hs target ht => by
      obtain rfl := Option.some.inj hs
      obtain rfl := Option.some.inj ht
      exact ⟨hgatherer, hpending⟩) hb₂.pending
  obtain ⟨made', reader, hplaces₃, -, -, -, hcharted₃⟩ := hlast.attach hblank₃ hg
  have hb₃ := hcharted₃ _ (List.Sublist.refl _) fun t ht => by cases ht
  refine ⟨made ++ [.key e] ++ scatter ++ mid ++ rest ++ made' ++ [.key reader],
    ?_, ?_, ?_⟩
  · have hrun := ((hlinks.trans hplaces₁).trans (hplaces₂.trans hplaces₃))
    refine hrun.regroup fun p => ?_
    simp only [rest, List.count_append, List.count_nil]
    omega
  · have hfront : scatter.Sublist (made ++ [.key e] ++ scatter ++ mid) :=
      (List.sublist_append_right _ scatter).trans (List.sublist_append_left _ mid)
    have hback : within.Sublist rest :=
      (List.sublist_append_left within links).trans (List.sublist_append_left _ _)
    exact (hfront.append hback).trans
      ((List.sublist_append_left _ made').trans (List.sublist_append_left _ _))
  · have hend :
        b₃.Charted taps
          (order ++
            (made ++ [.key e] ++ scatter ++ mid ++ rest ++ made' ++
              [.key reader])) := by
      simpa only [all, List.append_assoc] using hb₃
    refine hend.congr rfl rfl (fun source hs => by cases hs) fun output ho => ?_
    rw [hown output ho]
    simp

/-- The list of a scatter sends to its recipients, and unmatched messages to
the target that was declared or to the gather channel. -/
theorem Builder.target_of_scatterList {plan : RecipientsPlan}
    {parts : RecipientParts} {gather : Channel} :
    ∀ t ∈ (Behaviour.recipientList (scatterList plan parts gather)).routeTargets,
      (∃ opening ∈ parts.openings.map Prod.snd, t = opening.toTarget) ∨
      parts.default = some (.target t) ∨
      t = .channel gather := by
  intro t ht
  rcases List.mem_append.1 ht with ht | ht
  · obtain ⟨recipient, hr, rfl⟩ := List.mem_map.1 ht
    obtain ⟨⟨selector, opening⟩, ho, rfl⟩ := List.mem_map.1 hr
    exact .inl ⟨opening, List.mem_map_of_mem (f := Prod.snd) ho, rfl⟩
  · obtain ⟨output, ho, rfl⟩ := Option.map_eq_some_iff.1 (Option.mem_toList.1 ht)
    cases output with
    | target given => exact .inr (.inl ho)
    | parentFlow => exact .inr (.inr rfl)

end

/-! ## The kinds of steps -/

namespace Step

/-- The step puts whatever it deals with behind what is in order. -/
def Charts (taps : Interceptions) (s : Step) : Prop :=
  ∀ {b b' : Builder} {w w' : Workshop} {order : List Point},
    taps.Blank w.nextComponent → b.Charted taps order →
    Yields (s.assemble b) w b' w' →
    ∃ more, w.Places (s.mentions taps) more (order ++ more) w' ∧
      b'.Charted taps (order ++ more)

theorem charts_channel (plan : SourcePlan) : (Step.channel plan).Charts taps := by
  intro b b' w w' order hblank hb hy
  obtain ⟨source, w₁, hm, hy⟩ := of_yields_channel hy
  obtain ⟨points, hplaces, hsource⟩ := SourcePlan.places_make hblank hm
  obtain ⟨more, hmore, hcharted⟩ := hb.channel (hblank.mono hplaces.le) hsource hy
  rw [List.append_assoc] at hcharted
  refine ⟨more ++ points, ?_, hcharted⟩
  have hall :=
    (hplaces.mono
      ((List.sublist_append_right more points).trans
        (List.sublist_append_right order _))).trans
    (hmore.mono (List.nil_sublist (order ++ (more ++ points))))
  refine hall.regroup fun p => ?_
  simp only [mentions_eq, ownMentions, flows, List.flatMap_nil, List.count_append,
    List.count_nil]
  omega

theorem charts_intercept (plan : InterceptorPlan) :
    (Step.intercept plan).Charts taps := by
  intro b b' w w' order hblank hb hy
  obtain ⟨interceptor, w₁, hm, hy⟩ := of_yields_intercept hy
  obtain ⟨points, hplaces, htargets⟩ := InterceptorPlan.places_make hblank hm
  obtain ⟨c, w₂, ht, hw⟩ := Builder.of_yields_intercept hy
  obtain ⟨made, hmade, hcharted, hc⟩ := hb.tapPoint (hblank.mono hplaces.le) ht
  have hs : (order ++ made).Sublist (order ++ (made ++ points)) := by
    rw [← List.append_assoc]
    exact List.sublist_append_left _ _
  refine ⟨made ++ points, ?_, hcharted.mono hs⟩
  have htap : w₂.Places [] [] (order ++ (made ++ points)) w' := by
    rw [hw]
    refine .attaching rfl rfl fun a ha t ht => ?_
    obtain rfl := List.mem_singleton.1 ha
    rw [← List.append_assoc]
    exact precedes_append hc (htargets t ht)
  have hall :=
    ((hplaces.mono
        ((List.sublist_append_right made points).trans
          (List.sublist_append_right order _))).trans
      (hmade.mono (List.nil_sublist (order ++ (made ++ points))))).trans htap
  refine hall.regroup fun p => ?_
  simp only [mentions_eq, ownMentions, flows, List.flatMap_nil, List.count_append,
    List.count_nil]
  omega

theorem mem_starts_of_placed {sides : List (ChannelPlan × List Step)}
    {seeds : List Channel}
    (h : YieldsAll (fun side : ChannelPlan × List Step => side.1.make) w sides
      seeds w') :
    ∀ k ∈ sides.flatMap fun side => side.1.placed, ∃ c ∈ seeds, c.key = k := by
  induction h with
  | nil w => exact fun k hk => by cases hk
  | @cons w w₁ w' side seed sides seeds hc _ ih =>
      intro k hk
      rcases List.mem_append.1 hk with hk | hk
      · obtain ⟨plan, steps⟩ := side
        match plan with
        | .existing c =>
            simp only [ChannelPlan.make, yields_pure] at hc
            obtain ⟨rfl, -⟩ := hc
            exact ⟨seed, List.mem_cons_self, (List.mem_singleton.1 hk).symm⟩
        | .new .. | .faulty _ => cases hk
      · obtain ⟨c, hc, hkey⟩ := ih k hk
        exact ⟨c, List.mem_cons_of_mem _ hc, hkey⟩

theorem charts_endpoint {plan : EndpointPlan}
    {sides : List (ChannelPlan × List Step)}
    (hf : ∀ flow ∈ (Step.endpoint plan sides).flows,
      FlowAssembly.Charts taps flow) :
    (Step.endpoint plan sides).Charts taps := by
  intro b b' w w' order hblank hb hy
  rw [assemble, Builder.yields_guarded] at hy
  simp only [yields_bind, Builder.yields_ensureOpen, assembleSides_eq] at hy
  obtain ⟨handler, w₁, hm, seeds, w₂, hs, _, _, ⟨-, rfl⟩, input, w₃, hi, _, _,
    hp, branches, w₄, hbr, closed, w₅, hl, hw⟩ := hy
  obtain rfl := eq_of_yields_checkPoller hp
  have hs := yieldsAll_of_mapM hs
  obtain ⟨targets, htargets, hroutes⟩ :=
    HandlerPlan.places_make (sides.flatMap fun side => side.1.placed) hblank hm
  have hblank₁ := hblank.mono htargets.le
  obtain ⟨seeded, hseeded, hseeds⟩ := places_makeSides hblank₁ hs
  have hblank₂ := hblank₁.mono hseeded.le
  obtain ⟨made, hmade, hinput⟩ := hb.resolveInput hblank₂ hi
  have hflows :
      (seeds.zip (sides.map Prod.snd)).map Prod.snd = sides.map Prod.snd :=
    (spent_makeSides hs).2.1
  obtain ⟨within, hwithin, hbranches⟩ := charted_runBranches
    (fun flow hm =>
      hf flow.2 (by rw [flows, ← hflows]; exact List.mem_map_of_mem hm))
    (hblank₂.mono hmade.le) (fun flow hm => hseeds flow.1 (List.of_mem_zip hm).1)
    (yieldsAll_of_mapM hbr)
  obtain ⟨links, hlinks, hclosed⟩ :=
    charted_leaveOpen hbranches (yieldsAll_of_mapM hl)
  have hplain := Builder.plain_of_wire hw
  obtain ⟨e, rfl, hfresh, hhandler, hin, hnext⟩ := Builder.wired_of_yields hw
  have hplaced : w₅.Places [] [.key e.key] [] w' := hfresh.key ▸ .made hnext hplain
  let rest := targets ++ (seeded ++ within ++ links)
  let all := order ++ made ++ [Point.key e.key] ++ rest
  have hrest : rest.Sublist all := List.sublist_append_right _ _
  have htargets' : targets.Sublist all := (List.sublist_append_left _ _).trans hrest
  have hsides : (seeded ++ within ++ links).Sublist all :=
    (List.sublist_append_right _ _).trans hrest
  have hwithin' : (seeded ++ within).Sublist all :=
    (List.sublist_append_left _ links).trans hsides
  have heq : order ++ (made ++ [.key e.key] ++ rest) = all := by
    simp only [all, List.append_assoc]
  refine ⟨made ++ [.key e.key] ++ rest, ?_, ?_⟩
  · rw [heq]
    have hmaking := (htargets.mono htargets').trans
      (hseeded.mono ((List.sublist_append_left _ within).trans hwithin'))
    have hrun := (hmade.mono (List.nil_sublist all)).trans (hwithin.mono hwithin')
    have hrest := (hlinks.trans hplaced).mono (List.nil_sublist all)
    refine ((hmaking.trans hrun).trans hrest).regroup fun p => ?_
    have hsteps : (seeds.zip (sides.map Prod.snd)).flatMap (fun flow =>
        FlowAssembly.mentions taps flow.2) =
        (sides.map Prod.snd).flatMap (FlowAssembly.mentions taps) := by
      conv_rhs => rw [← hflows]
      rw [List.flatMap_map]
    simp only [mentions_eq, ownMentions, flows, hsteps, rest, List.count_append,
      List.count_nil]
    omega
  · rw [heq]
    refine hb.wired hinput hin hfresh.output (List.sublist_append_left _ _)
      (fun t ht => ?_) fun r hr x hx => ?_
    · refine precedes_append (List.mem_append_right _ (List.mem_singleton_self _))
        ?_
      rw [hhandler] at ht
      rcases hroutes t ht with hm | ⟨k, hk, hkey⟩
      · exact List.mem_append_left _ hm
      · obtain ⟨c, hc, rfl⟩ := mem_starts_of_placed hs k hk
        rw [hkey]
        exact List.mem_append_right _
          (List.mem_append_left _ (List.mem_append_left _ (hseeds c hc).key))
    · obtain ⟨br, hm, rfl⟩ := List.mem_map.1 hr
      exact (hclosed br hm x hx).mono hsides

theorem charts_wireTap {plan : TapPlan} {destination : Destination}
    (hf : ∀ flow ∈ (Step.wireTap plan destination).flows,
      FlowAssembly.Charts taps flow) :
    (Step.wireTap plan destination).Charts taps := by
  intro b b' w w' order hblank hb hy
  rw [assemble, Builder.yields_guarded] at hy
  simp only [yields_bind, Destination.assemble_eq] at hy
  obtain ⟨opening, w₁, ho, selector, _, hp, ⟨b₁, c⟩, w₂, ht, branches, w₃,
    hbr, hy⟩ := hy
  obtain rfl := eq_of_yields_parseOptional hp
  obtain ⟨points, hopen⟩ := Destination.opensUp hblank (.cons ho (.nil _))
  have hblank₁ := hblank.mono hopen.places.le
  obtain ⟨made, hmade, hcharted, hc⟩ := hb.tapPoint hblank₁ ht
  have hflows :
      (seededFlows [opening] [destination]).map Prod.snd = destination.flows :=
    (destination.of_yields_openUp ho).1
  obtain ⟨within, hwithin, hbranches⟩ := charted_runBranches
    (fun flow hm =>
      hf flow.2 (by rw [flows, ← hflows]; exact List.mem_map_of_mem hm))
    (hblank₁.mono hmade.le) (charted_starts hopen.blank) (yieldsAll_of_mapM hbr)
  obtain ⟨closed, w₄, hl, hw, rfl⟩ := Builder.of_yields_finishTap hy
  obtain ⟨links, hlinks, hclosed⟩ := charted_leaveOpen hbranches hl
  let part := starts (seededFlows [opening] [destination]) ++ within ++ links
  let all := order ++ made ++ (points ++ part)
  have hpoints : points.Sublist all :=
    (List.sublist_append_left _ _).trans (List.sublist_append_right _ _)
  have hpart : part.Sublist all :=
    (List.sublist_append_right _ _).trans (List.sublist_append_right _ _)
  have heq : order ++ (made ++ (points ++ part)) = all := by
    simp only [all, List.append_assoc]
  have htap : w₄.Places [] [] all w' := by
    rw [hw]
    refine .attaching rfl rfl fun a ha t ht => ?_
    obtain rfl := List.mem_singleton.1 ha
    obtain rfl := Option.some.inj ht
    refine precedes_append hc ?_
    rcases hopen.leads opening List.mem_cons_self with hm | ⟨flow, hflow, hkey⟩
    · exact List.mem_append_left _ hm
    · rw [hkey]
      exact List.mem_append_right _
        (List.mem_append_left _
          (List.mem_append_left _ (List.mem_map_of_mem hflow)))
  refine ⟨made ++ (points ++ part), ?_, ?_⟩
  · rw [heq]
    have hrun := (hopen.places.mono hpoints).trans
      ((hmade.mono (List.nil_sublist all)).trans
        (hwithin.mono ((List.sublist_append_left _ links).trans hpart)))
    refine (hrun.trans ((hlinks.mono (List.nil_sublist all)).trans htap)).regroup
      fun p => ?_
    have hsteps : (seededFlows [opening] [destination]).flatMap (fun flow =>
        FlowAssembly.mentions taps flow.2) =
        destination.flows.flatMap (FlowAssembly.mentions taps) := by
      rw [← hflows, List.flatMap_map]
    simp only [mentions_eq, ownMentions, flows, hsteps, part, starts,
      List.flatMap_cons, List.flatMap_nil, List.count_append, List.count_nil]
    omega
  · rw [heq]
    exact (hcharted.mono (List.sublist_append_left _ _)).holding fun br hm x hx =>
      (hclosed br hm x hx).mono hpart

theorem charts_route {plan : RouterPlan} {mappings : List (String × Destination)}
    (hf : ∀ flow ∈ (Step.route plan mappings).flows,
      FlowAssembly.Charts taps flow) :
    (Step.route plan mappings).Charts taps := by
  intro b b' w w' order hblank hb hy
  rw [assemble, Builder.yields_guarded] at hy
  simp only [yields_bind, yields_ensure, Builder.yields_ensureOpen,
    assembleMappings_eq, Builder.finishRoute, yields_newHandler] at hy
  obtain ⟨parts, w₁, hm, _, _, ⟨-, rfl⟩, _, _, ⟨-, rfl⟩, branches, w₂, hbr, r,
    w₃, hrec, _, _, ⟨rfl, rfl⟩, b₁, w₄, ha, hy⟩ := hy
  obtain ⟨points, hopen, hdefault⟩ := RouterPlan.opensUp hblank hm
  have hflows := (spent_makeRouter hm).1
  obtain ⟨more, hplaces, hcharted⟩ := charted_routed hb hblank
    (fun flow hm =>
      hf flow.2 (by rw [flows, ← hflows]; exact List.mem_map_of_mem hm)) hopen
    hdefault (yieldsAll_of_mapM hbr) hrec (by
      rw [List.map_map]
      exact congrArg (· ++ _) (List.map_map ..)) rfl ha hy
  rw [← List.flatMap_map, hflows] at hplaces
  exact ⟨more, by rw [mentions_eq]; exact hplaces, hcharted⟩

theorem charts_routeToRecipients {plan : RecipientsPlan}
    {recipients : List (Option String × Destination)}
    (hf : ∀ flow ∈ (Step.routeToRecipients plan recipients).flows,
      FlowAssembly.Charts taps flow) :
    (Step.routeToRecipients plan recipients).Charts taps := by
  intro b b' w w' order hblank hb hy
  rw [assemble, Builder.yields_guarded] at hy
  simp only [yields_bind, yields_ensure, Builder.yields_ensureOpen,
    assembleRecipients_eq, Builder.finishRecipients, yields_newHandler] at hy
  obtain ⟨parts, w₁, hm, _, _, ⟨-, rfl⟩, _, _, ⟨-, rfl⟩, branches, w₂, hbr, r,
    w₃, hrec, _, _, ⟨rfl, rfl⟩, b₁, w₄, ha, hy⟩ := hy
  obtain ⟨points, hopen, hdefault⟩ := RecipientsPlan.opensUp hblank hm
  have hflows := (spent_makeRecipients hm).1
  obtain ⟨more, hplaces, hcharted⟩ := charted_routed hb hblank
    (fun flow hm =>
      hf flow.2 (by rw [flows, ← hflows]; exact List.mem_map_of_mem hm)) hopen
    hdefault (yieldsAll_of_mapM hbr) hrec (by
      rw [List.map_map]
      exact congrArg (· ++ _) (List.map_map ..)) rfl ha hy
  rw [← List.flatMap_map, hflows] at hplaces
  exact ⟨more, by rw [mentions_eq]; exact hplaces, hcharted⟩

theorem charts_publishSubscribe {plan : FanOutPlan} {subscribers : List (List Step)}
    (hf : ∀ flow ∈ (Step.publishSubscribe plan subscribers).flows,
      FlowAssembly.Charts taps flow) :
    (Step.publishSubscribe plan subscribers).Charts taps := by
  intro b b' w w' order hblank hb hy
  obtain ⟨given, w₁, c, w₂, b₁, w₃, branches, w₄, hm, hc, ho, hbr, hw⟩ :=
    of_yields_publishSubscribe hy
  obtain ⟨closed, hl, rfl⟩ := Builder.of_yields_finishFanOut hw
  obtain ⟨points, hpoints, hgiven⟩ := FanOutPlan.places_make hblank hm
  obtain ⟨extra, hextra, hchannel⟩ :=
    places_fanOutChannel (hblank.mono hpoints.le) hgiven hc
  have hblank₂ := (hblank.mono hpoints.le).mono hextra.le
  -- if the channel is current already, it is in order twice: the account of
  -- points is what rules that out
  obtain ⟨bridge, hbridge, hb₁⟩ : ∃ bridge, w₂.Places [] bridge [] w₃ ∧
      b₁.Charted taps (order ++ bridge ++ (points ++ extra)) := by
    rcases Builder.of_yields_openFanOut ho with ⟨-, rfl, rfl⟩ | ⟨-, hopen⟩
    · refine ⟨[], .idle rfl rfl, hb.mono ?_⟩
      rw [List.append_nil]
      exact List.sublist_append_left _ _
    · have hsource : ∀ target ∈ (ChannelSource.channel c).target?,
          target.Charted taps (points ++ extra) := by
        intro target ht
        obtain rfl := Option.some.inj ht
        exact hchannel
      exact hb.channel hblank₂ hsource hopen
  let front := order ++ bridge ++ (points ++ extra)
  have hstand : (Component.channel c).Charted taps front :=
    hchannel.mono (List.sublist_append_right _ _)
  obtain ⟨within, hwithin, hbranches⟩ :=
    charted_runSubscribers hf (hblank₂.mono hbridge.le) hstand hbr
  obtain ⟨links, hlinks, hclosed⟩ := charted_leaveOpen hbranches hl
  have heq : order ++ (bridge ++ (points ++ extra) ++ within ++ links) = front ++
        within ++ links := by
    simp only [front, List.append_assoc]
  have hfront : front.Sublist (front ++ within ++ links) :=
    (List.sublist_append_left _ within).trans (List.sublist_append_left _ links)
  refine ⟨bridge ++ (points ++ extra) ++ within ++ links, ?_, ?_⟩
  · rw [heq]
    have hmaking :=
      (hpoints.mono
        ((List.sublist_append_left points extra).trans
          (List.sublist_append_right (order ++ bridge) _))).trans
      ((hextra.trans hbridge).mono (List.nil_sublist front))
    refine ((hmaking.mono hfront).trans
      ((hwithin.mono (List.sublist_append_left _ links)).trans
        (hlinks.mono (List.nil_sublist _)))).regroup fun p => ?_
    simp only [mentions_eq, ownMentions, flows, List.count_append, List.count_nil]
    omega
  · rw [heq]
    exact (hb₁.mono hfront).absorb hclosed

/-- The gather channel and the scatter channel are made for the step, and the
flows of its recipients start behind the scatter channel. -/
theorem charts_scatterRecipients {plan : ScatterGatherPlan} {list : RecipientsPlan}
    {recipients : List (Option String × Destination)}
    (hf : ∀ flow ∈ (Step.scatterGather plan (.recipients list recipients)).flows,
      FlowAssembly.Charts taps flow) :
    (Step.scatterGather plan (.recipients list recipients)).Charts taps := by
  intro b b' w w' order hblank hb hy
  rw [assemble, Builder.yields_guarded] at hy
  simp only [Scatter.make, Scatter.assemble, yields_bind, yields_ensure,
    Builder.yields_ensureOpen, yields_implicitChannel, yields_pure,
    assembleRecipients_eq] at hy
  obtain ⟨release, _, hr, _, _, ⟨parts, _, hm, rfl, rfl⟩, _, _, ⟨-, rfl⟩, _,
    w₁, ⟨-, rfl⟩, gather, _, ⟨rfl, rfl⟩, scattering, w₂,
    ⟨_, _, ⟨rfl, rfl⟩, branches, _, hbr, rfl, rfl⟩, hw⟩ := hy
  obtain rfl := plan.gather.release.eq_of_yields_make hr
  obtain ⟨points, hopen, hdefault⟩ := RecipientsPlan.opensUp hblank hm
  have hblank₁ := hblank.mono hopen.places.le
  have hflows := (spent_makeRecipients hm).1
  let heads := seededFlows (parts.openings.map Prod.snd) (recipients.map Prod.snd)
  have hgather : w₁.Places [] [.key ⟨w₁.nextComponent⟩] []
      { w₁ with nextComponent := w₁.nextComponent + 1 } := .made rfl rfl
  have hscatter : Workshop.Places { w₁ with nextComponent := w₁.nextComponent + 1 }
        [] [.key ⟨w₁.nextComponent + 1⟩] [] { w₁ with
          nextComponent := w₁.nextComponent + 1 + 1 } :=
    .made rfl rfl
  have hmade := hgather.trans hscatter
  obtain ⟨more, hwithin, hbranches⟩ := charted_runBranches
    (fun flow hm =>
      hf flow.2 (by rw [flows, ← hflows]; exact List.mem_map_of_mem hm))
    (hblank₁.mono hmade.le) (charted_starts hopen.blank) (yieldsAll_of_mapM hbr)
  let within := points ++ (starts heads ++ more)
  have hpart : (starts heads ++ more).Sublist within :=
    List.sublist_append_right _ _
  have hbehind : ∀ br ∈ branches,
      br.Charted taps ([.key ⟨w₁.nextComponent + 1⟩] ++ within) :=
    fun br hm =>
      (hbranches br hm).mono (hpart.trans (List.sublist_append_right _ _))
  obtain ⟨all, hplaces, hsub, hcharted⟩ := charted_gathered hb
    ((hblank₁.mono hmade.le).mono hwithin.le)
    (Component.charted_channel (hblank₁ _ (Nat.le_succ _))
      (List.mem_singleton_self _)) hbehind (fun answer ha t ht => by
        obtain rfl := Option.some.inj ha
        rcases Builder.target_of_scatterList t ht with ⟨opening, ho, rfl⟩ | hd | rfl
        · rcases hopen.leads opening ho with hm | ⟨flow, hflow, heq⟩
          · exact .inl (List.mem_append_left _ hm)
          · exact .inl
              (heq ▸ hpart.subset
                (List.mem_append_left _ (List.mem_map_of_mem hflow)))
        · exact .inl (List.mem_append_left _ (hdefault t hd))
        · exact .inr rfl) (hblank₁ _ (Nat.le_refl _)) hw
  have hin : within.Sublist (order ++ all) :=
    ((List.sublist_append_right _ _).trans hsub).trans
      (List.sublist_append_right _ _)
  refine ⟨all, ?_, hcharted⟩
  have hrun :=
    ((hopen.places.mono ((List.sublist_append_left points _).trans hin)).trans
      (hmade.mono (List.nil_sublist _))).trans (hwithin.mono (hpart.trans hin))
  refine (hrun.trans (hplaces.mono (List.nil_sublist _))).regroup fun p => ?_
  have hsteps : heads.flatMap (fun flow => FlowAssembly.mentions taps flow.2) =
      (recipients.flatMap fun recipient => recipient.2.flows).flatMap
        (FlowAssembly.mentions taps) := by
    rw [← hflows, List.flatMap_map]
  simp only [mentions_eq, ownMentions, flows, heads, ← hsteps, within, starts,
    List.count_append, List.count_nil]
  omega

/-- Subscribers all start at the scatter channel, which the caller may have
given. -/
theorem charts_scatterPublish {plan : ScatterGatherPlan} {fan : FanOutPlan}
    {subscribers : List (List Step)}
    (hf : ∀ flow ∈ (Step.scatterGather plan (.publish fan subscribers)).flows,
      FlowAssembly.Charts taps flow) :
    (Step.scatterGather plan (.publish fan subscribers)).Charts taps := by
  intro b b' w w' order hblank hb hy
  obtain ⟨release, _, given, w₁, gather, scattering, w₂, w₃, hr, hm, -, hkey,
    hlist, hc, hbr, hw⟩ :=
    of_yields_scatterPublish hy
  obtain rfl := plan.gather.release.eq_of_yields_make hr
  obtain ⟨points, hpoints, hgiven⟩ := FanOutPlan.places_make hblank hm
  have hblank₁ := hblank.mono hpoints.le
  have hgather : w₁.Places [] [.key gather.key] [] { w₁ with
      nextComponent := w₁.nextComponent + 1 } :=
    hkey ▸ .made rfl rfl
  obtain ⟨extra, hextra, hchannel⟩ :=
    places_fanOutChannel (hblank₁.mono hgather.le) hgiven hc
  have hmade := hgather.trans hextra
  have hblank₂ := hblank₁.mono hmade.le
  obtain ⟨within, hwithin, hbranches⟩ :=
    charted_runSubscribers hf hblank₂ hchannel hbr
  obtain ⟨all, hplaces, hsub, hcharted⟩ := charted_gathered hb
    (hblank₂.mono hwithin.le) hchannel hbranches
    (fun answer ha => by rw [hlist] at ha; cases ha)
    (hblank₁ _ (Nat.le_of_eq (by rw [hkey]))) hw
  have hin : (points ++ extra ++ within).Sublist (order ++ all) :=
    hsub.trans (List.sublist_append_right _ _)
  have hfront : points.Sublist (order ++ all) :=
    ((List.sublist_append_left points extra).trans
      (List.sublist_append_left _ within)).trans hin
  refine ⟨all, ?_, hcharted⟩
  have hrun := ((hpoints.mono hfront).trans (hmade.mono (List.nil_sublist _))).trans
    (hwithin.mono hin)
  refine (hrun.trans (hplaces.mono (List.nil_sublist _))).regroup fun p => ?_
  simp only [mentions_eq, ownMentions, flows, List.count_append, List.count_nil]
  omega

theorem charts_withId (id : String) : (Step.withId id).Charts taps := by
  intro b b' w w' order hblank hb hy
  refine ⟨[], ?_⟩
  rw [List.append_nil]
  rcases of_yields_withId hy with ⟨-, rfl, rfl⟩ | ⟨-, rfl, rfl⟩
  · exact ⟨.idle rfl rfl, hb⟩
  · exact ⟨.idle rfl rfl, hb.congr rfl rfl hb.current hb.pending⟩

theorem charts_withSession (session : SessionId) :
    (Step.withSession session).Charts taps := by
  intro b b' w w' order hblank hb hy
  refine ⟨[], ?_⟩
  rw [List.append_nil]
  rcases of_yields_withSession hy with ⟨-, rfl, rfl⟩ | ⟨-, rfl, claims, -, rfl⟩
  · exact ⟨.idle rfl rfl, hb⟩
  · exact ⟨.idle rfl rfl, hb.congr rfl rfl hb.current hb.pending⟩

theorem charts_fresh : Step.fresh.Charts taps := by
  intro b b' w w' order hblank hb hy
  refine ⟨[], ?_⟩
  obtain ⟨⟨_, _, rfl⟩, hnext, hplain⟩ := of_yields_fresh hy
  refine ⟨.idle hnext hplain, fun x hx => ?_, fun source hs => ?_,
    fun output ho => ?_⟩
  · cases hx
  · cases hs
  · cases ho

theorem charts_faulty (cause : Refusal) : (Step.faulty cause).Charts taps := by
  intro b b' w w' order hblank hb hy
  rw [assemble, Builder.yields_guarded] at hy
  exact absurd hy not_yields_throw

/-- Each step puts whatever it deals with behind what is in order, if its
flows do. -/
theorem charts {s : Step} (hf : ∀ flow ∈ s.flows, FlowAssembly.Charts taps flow) :
    s.Charts taps := by
  intro b b' w w' order hblank hb hy
  match s with
  | .channel plan => exact charts_channel plan hblank hb hy
  | .endpoint plan sides => exact charts_endpoint hf hblank hb hy
  | .wireTap plan destination => exact charts_wireTap hf hblank hb hy
  | .intercept plan => exact charts_intercept plan hblank hb hy
  | .route plan mappings => exact charts_route hf hblank hb hy
  | .routeToRecipients plan recipients =>
      exact charts_routeToRecipients hf hblank hb hy
  | .publishSubscribe plan subscribers =>
      exact charts_publishSubscribe hf hblank hb hy
  | .scatterGather plan (.recipients list recipients) =>
      exact charts_scatterRecipients hf hblank hb hy
  | .scatterGather plan (.publish fan subscribers) =>
      exact charts_scatterPublish hf hblank hb hy
  | .withId id => exact charts_withId id hblank hb hy
  | .withSession session => exact charts_withSession session hblank hb hy
  | .fresh => exact charts_fresh hblank hb hy
  | .faulty cause => exact charts_faulty cause hblank hb hy

end Step

/-! ## Programs -/

/-- So does each program. -/
theorem charts (steps : List Step) : Charts taps steps := by
  refine Step.flow_induction (P := fun s => ∀ flow ∈ s.flows, Charts taps flow)
    (Q := fun steps => Charts taps steps) ?step ?nil ?cons steps
  case step => exact fun s ih flow hm => ih flow hm
  case nil =>
    intro b b' w w' order _ hb hy
    obtain ⟨rfl, rfl⟩ := yields_pure.1 hy
    exact ⟨[], .idle rfl rfl, by rwa [List.append_nil]⟩
  case cons =>
    intro s rest hs hrest b b' w w' order hblank hb hy
    obtain ⟨b₁, w₁, hstep, hy⟩ := of_yields_assembleSteps_cons hy
    obtain ⟨more, hplaces, hb₁⟩ := Step.charts hs hblank hb hstep
    obtain ⟨more', hplaces', hcharted⟩ := hrest (hblank.mono hplaces.le) hb₁ hy
    rw [List.append_assoc] at hplaces' hcharted
    refine ⟨more ++ more', ?_, hcharted⟩
    rw [mentions_cons]
    refine (hplaces.mono ?_).trans hplaces'
    rw [← List.append_assoc]
    exact List.sublist_append_left _ _

end FlowAssembly
