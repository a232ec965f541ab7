import FlowAssembly.Proofs.InputChannel

/-!
# The order behind a router

A router is registered behind what its flow holds and behind the channel that
is made for it to read, if one is. The flows of taps that were held back
follow, and then the branches in declared order, each with the link that leads
its bare channel to where the branches meet. The channel that they meet on is
taken out of the branch that it stands in and comes last, with the bridge that
reads it.

Whatever shares a key with what stands there already is not registered again
(`Registry.additions`). Branches that use channels of their own share no keys,
with the flow or with one another, so they are all registered in full.
-/

namespace FlowAssembly

open Assembly

/-! ## Adding registries -/

namespace Registry

/-- What is new of the components where some keys are taken: of those with the
same key, the first one. -/
def additions : List ComponentKey → List Component → List Component
  | _, [] => []
  | taken, x :: rest =>
      if x.key ∈ taken then additions taken rest
      else x :: additions (taken ++ [x.key]) rest

variable {taken : List ComponentKey} {x : Component} {xs ys : List Component}
  {r : Registry}

theorem additions_append (taken : List ComponentKey) (xs ys : List Component) :
    additions taken (xs ++ ys) = additions taken xs ++
      additions (taken ++ (additions taken xs).map Component.key) ys := by
  induction xs generalizing taken with
  | nil => simp [additions]
  | cons x xs ih =>
      rw [List.cons_append, additions, additions]
      split
      · exact ih taken
      · rw [ih, List.map_cons, List.append_assoc]
        rfl

/-- Components with new keys, none of them twice, are all new. -/
theorem additions_eq_self (hn : (xs.map Component.key).Nodup)
    (h : ∀ x ∈ xs, x.key ∉ taken) :
    additions taken xs = xs := by
  induction xs generalizing taken with
  | nil => rfl
  | cons x xs ih =>
      rw [List.map_cons, List.nodup_cons] at hn
      rw [additions, if_neg (h x List.mem_cons_self), ih hn.2]
      intro y hy hmem
      rcases List.mem_append.1 hmem with hmem | hmem
      · exact h y (List.mem_cons_of_mem _ hy) hmem
      · exact hn.1 (List.mem_map.2 ⟨y, hy, List.mem_singleton.1 hmem⟩)

theorem additions_subset (taken : List ComponentKey) (xs : List Component) :
    additions taken xs ⊆ xs := by
  induction xs generalizing taken with
  | nil => exact List.Subset.refl _
  | cons x xs ih =>
      rw [additions]
      split
      · exact List.subset_cons_of_subset _ (ih taken)
      · exact List.cons_subset_cons _ (ih _)

theorem components_add_of_new (h : ∀ y ∈ r.components, y.key ≠ x.key) :
    (r.add x).components = r.components ++ [x] := by
  rw [components_add, if_neg]
  rw [contains_iff, List.mem_map]
  rintro ⟨y, hy, hkey⟩
  exact h y hy hkey

theorem components_extend_eq (r other : Registry) :
    (r.extend other).components = r.components ++
      additions (r.components.map Component.key) other.components := by
  have hentries : ∀ (entries : List Entry) (r : Registry),
      (entries.foldl (fun acc e => acc.register e.component e.name) r).components =
      r.components ++ additions (r.components.map Component.key)
        (entries.map Entry.component) := by
    intro entries
    induction entries with
    | nil => exact fun r => (List.append_nil _).symm
    | cons e entries ih =>
        intro r
        rw [List.foldl_cons, ih, components_register, List.map_cons, additions]
        by_cases hc : r.contains e.component.key = true
        · rw [if_pos hc, if_pos (contains_iff.1 hc)]
        · rw [if_neg hc, if_neg (fun hk => hc (contains_iff.2 hk)), List.map_append,
            List.append_assoc]
          rfl
  exact hentries other.entries r

theorem components_foldl_extend (others : List Registry) (r : Registry) :
    (others.foldl extend r).components = r.components ++
      additions (r.components.map Component.key) (others.flatMap components) := by
  induction others generalizing r with
  | nil => exact (List.append_nil _).symm
  | cons other others ih =>
      rw [List.foldl_cons, ih, components_extend_eq, List.flatMap_cons,
        additions_append, List.map_append, List.append_assoc]

/-- A component that stands in a registry is moved behind all others. -/
theorem components_relocateToEnd_of_mem (hx : x ∈ r.components) :
    (r.relocateToEnd x.key).components =
      (r.components.filter fun y => y.key ≠ x.key) ++ [x] := by
  rw [components_relocateToEnd]
  congr 1
  obtain ⟨before, after, heq⟩ := List.append_of_mem hx
  have hn := r.nodup_keys
  rw [heq, List.map_append, List.map_cons, List.nodup_append, List.nodup_cons] at hn
  obtain ⟨-, ⟨hafter, -⟩, hbefore⟩ := hn
  have hdrop : ∀ {ys : List Component}, x.key ∉ ys.map Component.key →
      (ys.filter fun y => y.key = x.key) = [] := by
    intro ys hnot
    refine List.filter_eq_nil_iff.2 fun y hy => ?_
    rw [decide_eq_true_eq]
    exact fun hkey => hnot (List.mem_map.2 ⟨y, hy, hkey⟩)
  rw [heq, List.filter_append,
    hdrop fun hm => hbefore _ hm _ List.mem_cons_self rfl, List.nil_append,
    List.filter_cons_of_pos (by simp), hdrop hafter]

end Registry

/-! ## Branches that end on a channel -/

theorem Branch.channel_mem_joined {br : Branch} {m : Channel}
    (h : .channel m ∈ br.registry.components) (merge : Option Channel) :
    .channel m ∈ br.joined merge := by
  unfold Branch.joined
  split
  · exact List.mem_map.2 ⟨_, h, Component.boundTo_channel ..⟩
  · exact h

namespace Builder

variable {b b' b₁ : Builder} {br : Branch} {flow : Channel × List Step}
  {m : Channel} {steps : List Step} {d : Desk} {w w' : Workshop}

/-- A flow that is given channels which stand nowhere yet stands on registered
channels all along. -/
theorem Seated.assembleSteps (hseated : b.Seated)
    (htidy : Tidy (fun _ => false) (· ∈ broughtBy steps) [{ builder := b }, d]
      w.nextComponent)
    (hapart : ∀ c ∈ broughtBy steps, ∀ x ∈ stock [{ builder := b }, d],
      x.key ≠ c.key)
    (hn : ((broughtBy steps).map Channel.key).Nodup)
    (hy : Yields (assembleSteps b steps) w b' w') : b'.Seated := by
  induction steps generalizing b w with
  | nil =>
      obtain ⟨rfl, -⟩ := yields_pure.1 hy
      exact hseated
  | cons s rest ih =>
      obtain ⟨b₁, w₁, hstep, hrest⟩ := of_yields_assembleSteps_cons hy
      rw [broughtBy_cons] at hapart hn htidy
      rw [List.map_append, List.nodup_append] at hn
      have hhere : Tidy (fun _ => false) (· ∈ s.brought) [{ builder := b },
          d] w.nextComponent :=
        { htidy with
          brought := fun c hc => htidy.brought c (List.mem_append_left _ hc) }
      have hpasses := Step.passes_answer (B := (· ∈ s.brought)) (d := d) (t := [])
        (fun c hc => hc) hstep
      have hafter := hhere.passes hpasses
      have hle := hhere.passes_le hpasses
      have hlater : ∀ c ∈ broughtBy rest, ∀ x ∈ stock [{ builder := b₁ }, d],
          x.key ≠ c.key := by
        intro c hc x hx hkey
        rcases hhere.stems hpasses hx with hold | ⟨c', hc', hkey'⟩ | hnew
        · obtain ⟨y, hy, hky⟩ := List.mem_map.1 hold
          exact hapart c (List.mem_append_right _ hc) y hy (hky.trans hkey)
        · exact hn.2.2 _ (List.mem_map_of_mem hc') _ (List.mem_map_of_mem hc)
            (hkey'.trans hkey)
        · rw [hkey] at hnew
          exact absurd (htidy.brought c (List.mem_append_right _ hc)).2.1
            (Nat.not_lt.2 hnew)
      refine ih (b := b₁) (w := w₁) ?_ ?_ hlater hn.2.1 hrest
      · by_cases hfresh : s.isFresh = true
        · have hs : s = .fresh := by
            cases s <;> first | rfl | cases hfresh
          subst hs
          obtain ⟨⟨_, _, rfl⟩, -⟩ := Step.of_yields_fresh hstep
          intro c hc
          cases hc
        · have hstock : b.components ⊆ stock [{ builder := b }, d] :=
            Tidy.subset_stock b [d]
          have hfinds : s.Finds b w := ⟨fun x hx => htidy.given x (hstock hx),
            fun c hc =>
              ⟨(hhere.brought c hc).2.1,
                fun x hx hkey =>
                  absurd hkey
                  (hapart c (List.mem_append_left _ hc) x (hstock hx))⟩⟩
          exact hseated.follows
            (Step.follows_of_yields hfinds (Bool.eq_false_iff.2 hfresh) hstep)
      · refine { hafter with
          brought := fun c hc => ⟨rfl, ?_,
              fun x hx hkey => absurd hkey (hlater c hc x hx)⟩ }
        exact Nat.lt_of_lt_of_le (htidy.brought c (List.mem_append_right _ hc)).2.1
          hle

/-- A bare channel that a branch ended on stands in it, if the branch is given
no channel twice. -/
theorem channel_of_runBranch
    (hgiven : ∀ k ∈ givenKeys flow, k.number < w.nextComponent)
    (hn : (givenKeys flow).Nodup) (h : Yields (b.runBranch flow) w br w')
    (hend : br.channel? = some m) : .channel m ∈ br.registry.components := by
  simp only [runBranch, yields_bind] at h
  obtain ⟨nested, w₁, hy, hinto⟩ := h
  obtain ⟨rfl, -⟩ := eq_toBranch hinto
  rw [givenKeys, List.nodup_cons] at hn
  have hseated : nested.Seated := by
    refine Seated.assembleSteps (b := b.branch flow.1) (d := b.blank) ?_
      (tidy_alone hgiven) ?_ hn.2 hy
    · rintro c ⟨⟩
      exact List.mem_cons_self
    · intro c hc x hx hkey
      rw [show [{ builder := b.branch flow.1 }, b.blank] = b.alone flow.1 from rfl,
        stock_alone] at hx
      rw [List.mem_singleton.1 hx] at hkey
      exact hn.1 (List.mem_map.2 ⟨c, hc, hkey.symm⟩)
  have hcurrent : nested.cursor.channel = some (.channel m) := by
    simp only [Branch.channel?, toBranch] at hend
    split at hend
    · next heq =>
        split at heq
        · cases heq
        · next hc =>
            cases heq
            cases hend
            exact hc
        · cases heq
    · cases hend
  exact nested.subset_flushDeferred (hseated m hcurrent)

theorem channels_of_runBranches {flows : List (Channel × List Step)}
    {branches : List Branch}
    (hgiven : ∀ k ∈ flows.flatMap givenKeys, k.number < w.nextComponent)
    (hn : (flows.flatMap givenKeys).Nodup)
    (h : YieldsAll b.runBranch w flows branches w') :
    ∀ br ∈ branches, ∀ m, br.channel? = some m →
      .channel m ∈ br.registry.components := by
  induction h with
  | nil w => exact fun br hbr => absurd hbr List.not_mem_nil
  | @cons w w₁ w' flow br flows branches hy hys ih =>
      simp only [List.flatMap_cons, List.forall_mem_append, List.nodup_append]
        at hgiven hn
      have hle := next_le_of_runBranch hgiven.1 hy
      exact List.forall_mem_cons.2 ⟨fun m => channel_of_runBranch hgiven.1 hn.1 hy,
        ih (fun k hk => Nat.lt_of_lt_of_le (hgiven.2 k hk) hle) hn.2.1⟩

/-! ## Behind the flow -/

/-- What an endpoint reads that is appended to a flow: what the flow stands
on, or else a new channel that is made for it. -/
inductive Inlet (b : Builder) (n : Nat) (e : Endpoint) : List Channel → Prop
  | stood {source : ChannelSource} : b.cursor.channel = some source →
      source.target? = some e.input → Inlet b n e []
  | made {c : Channel} : (∀ source ∈ b.cursor.channel, source.target? = none) →
      e.input = .channel c → n ≤ c.key.number → Inlet b n e [c]

/-- The chain of a flow with an endpoint at its end: what stood in the flow,
its pending output bound, then the channel that was made for the endpoint, if
one was, and the endpoint. -/
def chainedTo (b : Builder) (made : List Channel) (e : Endpoint) : List Component :=
  b.registry.components.map (b.bound e.input) ++
    (made.map Component.channel ++ [.endpoint e])

/-- What the flows of taps that were held back add behind the chain. -/
def tapsBehind (b : Builder) (made : List Channel) (e : Endpoint) :
    List Component :=
  Registry.additions ((b.chainedTo made e).map Component.key)
    (b.cursor.deferred.flatMap Registry.components)

variable {e : Endpoint} {made : List Channel} {branches : List Branch}

theorem keys_chainedTo (b : Builder) (made : List Channel) (e : Endpoint) :
    (b.chainedTo made e).map Component.key =
      b.registry.components.map Component.key ++
      (made.map Component.channel ++ [Component.endpoint e]).map Component.key := by
  rw [chainedTo, List.map_append, List.map_map]
  congr 1
  exact List.map_congr_left fun x _ => key_bound ..

/-- The flows of taps stand behind the chain in full, if nothing stands twice
in the flow and what it holds back. -/
theorem tapsBehind_eq (hn : (b.components.map Component.key).Nodup) {n n' : Nat}
    (hold : ∀ x ∈ b.components, x.key.number < n)
    (hnew : Numbered n (made.map Component.channel ++ [.endpoint e]) n') :
    b.tapsBehind made e = b.cursor.deferred.flatMap Registry.components := by
  rw [components_eq, List.map_append, List.nodup_append] at hn
  refine Registry.additions_eq_self hn.2.1 fun x hx hk => ?_
  rw [keys_chainedTo] at hk
  rcases List.mem_append.1 hk with hk | hk
  · exact hn.2.2 _ hk _ (List.mem_map_of_mem hx) rfl
  · obtain ⟨y, hy, hkey⟩ := List.mem_map.1 hk
    have hlt := hold x (by rw [components_eq]; exact List.mem_append_right _ hx)
    rw [← hkey] at hlt
    exact absurd (hnew.mem hy).1 (Nat.not_le.2 hlt)

/-- Behind an appended endpoint all keys are old ones, but for that of the
endpoint and of what was made for it. -/
theorem key_behind {x : Component}
    (hx : x ∈ b.chainedTo made e ++ b.tapsBehind made e) :
    (∃ y ∈ b.components, y.key = x.key) ∨
    x ∈ made.map Component.channel ++ [.endpoint e] := by
  rw [chainedTo, List.append_assoc, List.mem_append, List.mem_append] at hx
  rcases hx with hx | hx | hx
  · obtain ⟨y, hy, rfl⟩ := List.mem_map.1 hx
    exact .inl ⟨y, b.registry_subset_components hy, (key_bound ..).symm⟩
  · exact .inr hx
  · refine .inl ⟨x, ?_, rfl⟩
    rw [components_eq]
    exact List.mem_append_right _ (Registry.additions_subset _ _ hx)

theorem Inlet.mono {n n' : Nat} (h : b.Inlet n' e made) (hle : n ≤ n') :
    b.Inlet n e made := by
  cases h with
  | stood hc ht => exact .stood hc ht
  | made hc he hn => exact .made hc he (Nat.le_trans hle hn)

/-- What stands behind an endpoint that was appended: the chain, and then the
flows of taps. -/
theorem components_of_attach {spec : EndpointSpec}
    (hold : ∀ x ∈ b.components, x.key.number < w.nextComponent)
    (h : Yields (b.attach spec) w b' w') :
    ∃ e made, e.handler = spec.handler ∧ b.Inlet w.nextComponent e made ∧
      Numbered w.nextComponent (made.map Component.channel ++ [.endpoint e])
        w'.nextComponent ∧
      b'.registry.components = b.chainedTo made e ++ b.tapsBehind made e ∧
      b'.cursor =
        { channel := none
          tail := some ⟨e.label, e.handler.producesReplies⟩
          pending :=
            if e.handler.producesReplies then
              some { component := e.key, owner := e.label,
                     requiresReply := e.handler.requiresReply }
            else none
          deferred := [] } := by
  obtain ⟨input, w₁, hi, hw⟩ := of_yields_attach h
  obtain ⟨e, rfl, hfresh, hhandler, hinput, hnext⟩ := wired_of_yields hw
  have hinlet : b.Inlet w.nextComponent e input.made.toList := by
    rcases of_yields_resolveInput hi
      with ⟨c, hc, rfl, -⟩ | ⟨name, hc, rfl, -⟩ | ⟨c, hc, rfl, hk, -⟩
    · exact .stood hc (by rw [hinput]; rfl)
    · exact .stood hc (by rw [hinput]; rfl)
    · refine .made (fun source hsource => ?_) hinput (by rw [hk])
      rcases hc with ⟨id, hc⟩ | hc
      · obtain rfl := Option.some.inj (hc.symm.trans hsource)
        rfl
      · rw [hc] at hsource
        cases hsource
  have hnumbered :
      Numbered w.nextComponent (madeChannels input ++ [.endpoint e])
        w'.nextComponent := by
    rw [hnext]
    exact numbered_made hi hfresh
  refine ⟨e, input.made.toList, hhandler, hinlet, hnumbered, ?_, cursor_wired ..⟩
  -- All that is added to the chain has a new key.
  have hnew : ∀ y ∈ input.made.toList.map Component.channel ++ [.endpoint e],
      ∀ x ∈ b.registry.components, x.key ≠ y.key := by
    intro y hy x hx hkey
    have hlt := hold x (b.registry_subset_components hx)
    rw [hkey] at hlt
    exact absurd (hnumbered.mem hy).1 (Nat.not_le.2 hlt)
  have hplaced : (b.placed input []).registry.components =
      b.registry.components ++ input.made.toList.map Component.channel := by
    unfold placed
    dsimp only [placeSides]
    cases hm : input.made with
    | none => exact (List.append_nil _).symm
    | some c =>
        refine Registry.components_add_of_new fun x hx => hnew (.channel c) ?_ x hx
        rw [hm]
        exact List.mem_cons_self
  have hready : (b.ready input []).registry.components =
      b.registry.components.map (b.bound e.input) ++
        input.made.toList.map Component.channel := by
    have hbound : (b.placed input []).bound input.target = b.bound e.input := by
      unfold bound
      rw [cursor_placed, hinput]
    rw [ready_eq, components_bindPending, hplaced, hbound, List.map_append,
      List.map_map]
    congr 1
    exact List.map_congr_left fun c _ => bound_channel ..
  have hchain : ((b.ready input []).registry.add (.endpoint e)).components =
      b.chainedTo input.made.toList e := by
    rw [chainedTo, ← List.append_assoc, ← hready]
    refine Registry.components_add_of_new fun x hx hkey => ?_
    have hkeys := hnumbered.nodup_keys
    rw [hready, List.mem_append] at hx
    rcases hx with hx | hx
    · obtain ⟨y, hy, rfl⟩ := List.mem_map.1 hx
      rw [key_bound] at hkey
      exact hnew (.endpoint e) (List.mem_append_right _ List.mem_cons_self) y
        hy hkey
    · rw [List.map_append, List.nodup_append] at hkeys
      exact hkeys.2.2 _ (List.mem_map_of_mem hx) _
        (List.mem_map_of_mem List.mem_cons_self) hkey
  rw [registry_wired, Registry.components_foldl_extend, hchain, tapsBehind]

theorem components_absorb
    (hn : ((branches.flatMap fun br => br.registry.components).map
        Component.key).Nodup)
    (hapart : ∀ x ∈ branches.flatMap fun br => br.registry.components,
      ∀ y ∈ b.registry.components, y.key ≠ x.key) :
    (b.absorb branches).registry.components = b.registry.components ++
      branches.flatMap fun br => br.registry.components := by
  have hall : ((branches.map Branch.registry).flatMap Registry.components) =
      branches.flatMap fun br => br.registry.components := List.flatMap_map ..
  rw [absorb, Registry.components_foldl_extend, hall, Registry.additions_eq_self hn]
  intro x hx hk
  obtain ⟨y, hy, hkey⟩ := List.mem_map.1 hk
  exact hapart x hx y hy hkey

/-- The channel that branches meet on is taken out of where it stands, and
comes last. -/
theorem components_mergedOn
    (hm : ∀ x ∈ (b.absorb branches).registry.components, x.key = m.key →
      x = .channel m) :
    (b.mergedOn branches m).registry.components =
      ((b.absorb branches).registry.components.filter fun x => x.key ≠ m.key) ++
      [.channel m] := by
  have hmerged : (b.mergedOn branches m).registry =
      if (b.absorb branches).registry.contains m.key then
        (b.absorb branches).registry.relocateToEnd m.key
          else (b.absorb branches).registry.add (.channel m) := rfl
  rw [hmerged]
  split
  · next hc =>
      obtain ⟨x, hx, hkey⟩ := List.mem_map.1 (Registry.contains_iff.1 hc)
      obtain rfl := hm x hx hkey
      exact Registry.components_relocateToEnd_of_mem hx
  · next hc =>
      have hnot : ∀ x ∈ (b.absorb branches).registry.components, x.key ≠ m.key :=
        fun x hx hkey => hc (Registry.contains_iff.2 (List.mem_map.2 ⟨x, hx, hkey⟩))
      rw [Registry.components_add_of_new (x := .channel m) hnot,
        List.filter_eq_self.2 fun x hx => decide_eq_true (hnot x hx)]

/-- What a branch adds where branches meet: what stands in it, its pending
output led to the channel, and a link for the channel that it ended on, unless
that is the one. -/
def Linked (m : Channel) (br : Branch) (part : List Component) : Prop :=
  ∃ links : List Endpoint,
    part = br.joined (some m) ++ links.map Component.endpoint ∧
    List.Forall₂ (fun c link => link.Bridges c (some (.channel m)))
    (strays [br] m) links

/-- What stands behind a router and the flows of taps: its branches in order.
Where branches meet, the channel that they meet on is taken out of them and
follows with a bridge that reads it. -/
inductive Rear (branches : List Branch) (meets : Prop) (n : Nat) :
    List Component → Prop
  | apart : ¬ meets →
      Rear branches meets n (branches.flatMap fun br => br.registry.components)
  | merged {m : Channel} {fresh : List Channel} {parts : List (List Component)}
      {bridge : Endpoint} : meets → Chosen branches n m fresh →
      List.Forall₂ (Linked m) branches parts → bridge.Bridges m none →
      Rear branches meets n ((parts.flatten.filter fun x => x.key ≠ m.key) ++
        [.channel m, .endpoint bridge])

theorem keys_joined (branches : List Branch) (merge : Option Channel) :
    (branches.flatMap fun br => br.joined merge).map Component.key =
      (branches.flatMap fun br => br.registry.components).map Component.key := by
  have hstamps : _ = (branches.flatMap fun br => br.registry.components).map
        (Component.stamp fun _ => false) :=
    stamps_joined branches merge
  have hkeys := congrArg (List.map Prod.fst) hstamps
  rwa [List.map_map, List.map_map] at hkeys

/-- Each branch that converges gets a link for the channel that it ended on,
unless that is the one. -/
theorem links_of_converge {closed : List Branch}
    (hlt : ∀ x ∈ branches.flatMap fun br => br.registry.components,
      x.key.number < w.nextComponent)
    (h : YieldsAll (fun br => br.converge b m) w branches closed w') :
    List.Forall₂ (fun br br' => ∃ links : List Endpoint,
      br'.registry.components = br.joined (some m) ++ links.map Component.endpoint ∧
      List.Forall₂ (fun c link => link.Bridges c (some (.channel m)))
      (strays [br] m) links ∧ ∀ link ∈ links, w.nextComponent ≤ link.key.number)
      branches closed := by
  induction h with
  | nil w => exact .nil
  | @cons w w₁ w' br br' branches closed hy _ ih =>
      simp only [List.flatMap_cons, List.forall_mem_append] at hlt
      obtain ⟨links, hcomponents, hlinked, hn⟩ :=
        Branch.components_of_converge hlt.1 hy
      refine .cons ⟨links, hcomponents, hlinked,
        fun link hlink => (hn.mem (List.mem_map_of_mem hlink)).1⟩ ?_
      refine (ih fun x hx => Nat.lt_of_lt_of_le (hlt.2 x hx) hn.next_le).imp
        fun _ _ ⟨links, hc, hl, hge⟩ => ?_
      exact ⟨links, hc, hl,
        fun link hlink => Nat.le_trans hn.next_le (hge link hlink)⟩

theorem linked_of_converge {closed : List Branch}
    (hlt : ∀ x ∈ branches.flatMap fun br => br.registry.components,
      x.key.number < w.nextComponent)
    (h : YieldsAll (fun br => br.converge b m) w branches closed w') :
    List.Forall₂ (Linked m) branches (closed.map fun br =>
      br.registry.components) :=
  List.forall₂_map_right_iff.2
    ((links_of_converge hlt h).imp fun _ _ ⟨links, hc, hl, _⟩ => ⟨links, hc, hl⟩)

/-- Of the keys that some condition picks out, those that stood in one branch
only still do once the branches converged. -/
theorem nodup_filter_of_converge {closed : List Branch} (p : ComponentKey → Bool)
    (hn :
      (((branches.flatMap fun br => br.registry.components).map
          Component.key).filter p).Nodup)
    (hlt : ∀ x ∈ branches.flatMap fun br => br.registry.components,
      x.key.number < w.nextComponent)
    (h : YieldsAll (fun br => br.converge b m) w branches closed w') :
    (((closed.flatMap fun br => br.registry.components).map Component.key).filter
      p).Nodup := by
  obtain ⟨links, hclosed, -, hlinks⟩ := components_of_converge
    (fun br hbr x hx => hlt x (List.mem_flatMap.2 ⟨br, hbr, hx⟩)) h
  rw [((hclosed.map Component.key).filter p).nodup_iff, List.map_append,
    List.filter_append, keys_joined, List.nodup_append]
  refine ⟨hn, hlinks.nodup_keys.filter _, ?_⟩
  intro k hk k' hk' heq
  obtain ⟨x, hx, rfl⟩ := List.mem_map.1 (List.mem_filter.1 hk).1
  obtain ⟨link, hlink, rfl⟩ := List.mem_map.1 (List.mem_filter.1 hk').1
  have hbefore := hlt x hx
  rw [heq] at hbefore
  exact absurd (hlinks.mem hlink).1 (Nat.not_le.2 hbefore)

/-- Branches that converge share nothing still. -/
theorem nodup_of_converge {closed : List Branch}
    (hn : ((branches.flatMap fun br => br.registry.components).map
        Component.key).Nodup)
    (hlt : ∀ x ∈ branches.flatMap fun br => br.registry.components,
      x.key.number < w.nextComponent)
    (h : YieldsAll (fun br => br.converge b m) w branches closed w') :
    ((closed.flatMap fun br => br.registry.components).map
      Component.key).Nodup := by
  have hall :=
    nodup_filter_of_converge (fun _ => true) (by rwa [List.filter_true]) hlt h
  rwa [List.filter_true] at hall

/-- What branches hold once they converged has the key of what they held, or
it is a link. -/
theorem keys_of_converge {closed : List Branch}
    (hlt : ∀ x ∈ branches.flatMap fun br => br.registry.components,
      x.key.number < w.nextComponent)
    (h : YieldsAll (fun br => br.converge b m) w branches closed w') :
    (∀ x ∈ closed.flatMap fun br => br.registry.components,
      (∃ y ∈ branches.flatMap fun br => br.registry.components, y.key = x.key) ∨
      w.nextComponent ≤ x.key.number ∧ x.key.number < w'.nextComponent) ∧
    ∀ c, .channel c ∈ (branches.flatMap fun br => br.registry.components) →
      .channel c ∈ closed.flatMap fun br => br.registry.components := by
  obtain ⟨links, hclosed, -, hlinks⟩ := components_of_converge
    (fun br hbr x hx => hlt x (List.mem_flatMap.2 ⟨br, hbr, hx⟩)) h
  refine ⟨fun x hx => ?_, fun c hc => ?_⟩
  · rcases List.mem_append.1 (hclosed.subset hx) with hx | hx
    · have hkey := List.mem_map_of_mem (f := Component.key) hx
      rw [keys_joined] at hkey
      exact .inl (List.mem_map.1 hkey)
    · exact .inr (hlinks.mem hx)
  · obtain ⟨br, hbr, hc⟩ := List.mem_flatMap.1 hc
    exact hclosed.symm.subset
      (List.mem_append_left _
        (List.mem_flatMap.2 ⟨br, hbr, br.channel_mem_joined hc _⟩))

/-- The channel that branches meet on is that of one of them, or it is new, so
it stands nowhere in front of them, and nothing else in them has its key. -/
theorem Chosen.alone {front : List Component} {closed : List Branch}
    {fresh : List Channel} {n n₀ n₁ : Nat} (h : Chosen branches n m fresh)
    (hfresh : Numbered n (fresh.map Component.channel) n₀) (hle : n₀ ≤ n₁)
    (hlt : ∀ x ∈ branches.flatMap fun br => br.registry.components,
      x.key.number < n)
    (hends : ∀ br ∈ branches, ∀ m, br.channel? = some m →
      .channel m ∈ br.registry.components)
    (hn : ((closed.flatMap fun br => br.registry.components).map
        Component.key).Nodup)
    (hfrom : ∀ x ∈ closed.flatMap fun br => br.registry.components,
      (∃ y ∈ branches.flatMap fun br => br.registry.components, y.key = x.key) ∨
      n₀ ≤ x.key.number ∧ x.key.number < n₁)
    (hchannels : ∀ c,
      .channel c ∈ (branches.flatMap fun br => br.registry.components) →
      .channel c ∈ closed.flatMap fun br => br.registry.components)
    (hfront : ∀ y ∈ front,
      (∀ x ∈ branches.flatMap fun br => br.registry.components, y.key ≠ x.key) ∧
      (y.key.number < n ∨ n₁ ≤ y.key.number)) :
    m.key.number < n₀ ∧ (∀ x ∈ front, x.key ≠ m.key) ∧
    ∀ x ∈ closed.flatMap fun br => br.registry.components, x.key = m.key →
      x = .channel m := by
  cases h with
  | ended hfound =>
      obtain ⟨br, hbr, hc⟩ := List.exists_of_findSome?_eq_some hfound
      have hmem : .channel m ∈ branches.flatMap fun br => br.registry.components :=
        List.mem_flatMap.2 ⟨br, hbr, hends br hbr m hc⟩
      exact ⟨Nat.lt_of_lt_of_le (hlt _ hmem) hfresh.next_le,
        fun x hx => (hfront x hx).1 _ hmem,
        fun x hx hkey => List.inj_on_of_nodup_map hn hx (hchannels m hmem) hkey⟩
  | made hnone heq =>
      have hnumber : m.key.number = n := by rw [heq]
      have hnext : n₀ = n + 1 := hfresh.next
      refine ⟨by omega, fun x hx hkey => ?_, fun x hx hkey => ?_⟩
      · have hsides := (hfront x hx).2
        rw [hkey] at hsides
        omega
      · rcases hfrom x hx with ⟨y, hy, hyx⟩ | ⟨hge, -⟩
        · have hbefore := hlt y hy
          rw [hyx, hkey] at hbefore
          omega
        · rw [hkey] at hge
          omega

/-- Branches that share nothing, with the flow or with one another, are all
registered behind it. -/
theorem rear_of_yields {default : Option DefaultOutput} {r : Reconciled}
    {w₂ w₃ w₄ : Workshop}
    (hn : ((branches.flatMap fun br => br.registry.components).map
        Component.key).Nodup)
    (hlt : ∀ x ∈ branches.flatMap fun br => br.registry.components,
      x.key.number < w₂.nextComponent)
    (hends : ∀ br ∈ branches, ∀ m, br.channel? = some m →
      .channel m ∈ br.registry.components)
    (hrec : Yields (b.reconcile branches default) w₂ r w₃)
    (hbefore : ∀ y ∈ b₁.registry.components, y.key.number < w₄.nextComponent)
    (hfront : ∀ y ∈ b₁.registry.components,
      (∀ x ∈ branches.flatMap fun br => br.registry.components, y.key ≠ x.key) ∧
      (y.key.number < w₂.nextComponent ∨ w₃.nextComponent ≤ y.key.number))
    (hle : w₃.nextComponent ≤ w₄.nextComponent) (hp : b₁.cursor.pending = none)
    (hd : b₁.cursor.deferred = [])
    (hy : Yields (b₁.absorbMerged r.branches r.merge) w₄ b' w') :
    ∃ rear, b'.registry.components = b₁.registry.components ++ rear ∧
      Rear branches (default = some .parentFlow ∨
        branches.any Branch.isOpen = true) w₂.nextComponent rear := by
  rcases meets_of_reconcile hrec
    with ⟨hmeets, m, w₀, hm, hconverge, hrm, -⟩ | ⟨hmeets, hrb, hrm, rfl⟩
  · rw [hrm] at hy
    obtain ⟨hnone, -, -⟩ | ⟨_, ⟨⟩, hbridge⟩ := of_yields_absorbMerged hy
    · cases hnone
    obtain ⟨fresh, hchosen, hfresh⟩ := chosen_of_yields hm
    have hle₀ : w₂.nextComponent ≤ w₀.nextComponent := hfresh.next_le
    have hle₃ : w₀.nextComponent ≤ w₃.nextComponent :=
      ((b.converge_adds branches m).of_yields hconverge.mapM).components
    have hlt₀ : ∀ x ∈ branches.flatMap fun br => br.registry.components,
        x.key.number < w₀.nextComponent :=
      fun x hx => Nat.lt_of_lt_of_le (hlt x hx) hle₀
    have hnodup := nodup_of_converge hn hlt₀ hconverge
    obtain ⟨hfrom, hchannels⟩ := keys_of_converge hlt₀ hconverge
    obtain ⟨hmlt, halone, hsame⟩ :=
      hchosen.alone hfresh hle₃ hlt hends hnodup hfrom hchannels hfront
    have habsorbed : (b₁.absorb r.branches).registry.components =
        b₁.registry.components ++ r.branches.flatMap fun br =>
          br.registry.components := by
      refine components_absorb hnodup fun x hx y hy heq => ?_
      obtain ⟨hapart, hsides⟩ := hfront y hy
      rcases hfrom x hx with ⟨z, hz, hkey⟩ | hlink
      · exact hapart z hz (heq.trans hkey.symm)
      · rw [← heq] at hlink
        omega
    have hmerged : (b₁.mergedOn r.branches m).registry.components =
        b₁.registry.components ++
          ((r.branches.flatMap fun br => br.registry.components).filter fun x =>
            x.key ≠ m.key) ++ [.channel m] := by
      rw [components_mergedOn, habsorbed, List.filter_append,
        List.filter_eq_self.2 fun x hx => decide_eq_true (halone x hx)]
      rw [habsorbed, List.forall_mem_append]
      exact ⟨fun x hx hkey => absurd hkey (halone x hx), hsame⟩
    have hgiven : ∀ x ∈ (b₁.mergedOn r.branches m).registry.components,
        x.key.number < w₄.nextComponent := by
      rw [hmerged, List.forall_mem_append, List.forall_mem_append,
        List.forall_mem_singleton]
      refine ⟨⟨hbefore, fun x hx => ?_⟩,
        Nat.lt_of_lt_of_le hmlt (Nat.le_trans hle₃ hle)⟩
      exact Nat.lt_of_lt_of_le
        (lt_of_converge hlt₀ hconverge x (List.mem_filter.1 hx).1) hle
    obtain ⟨bridge, hreads, hcomponents, -, -⟩ :=
      components_of_bridge (b := b₁.mergedOn r.branches m) rfl hp hd hgiven hbridge
    refine ⟨_, ?_,
      .merged hmeets hchosen (linked_of_converge hlt₀ hconverge) hreads⟩
    rw [hcomponents, hmerged, ← List.flatMap_def]
    simp only [List.append_assoc, List.singleton_append]
  · rw [hrb, hrm] at hy
    obtain ⟨-, rfl, rfl⟩ | ⟨_, hsome, -⟩ := of_yields_absorbMerged hy
    · exact ⟨_, components_absorb hn fun x hx y hy => (hfront y hy).1 x hx,
        .apart hmeets⟩
    · cases hsome

end Builder

/-! ## Calls of routers -/

section

variable {s : Step} {b b' : Builder} {flows : List (Channel × List Step)}
  {branches : List Branch} {w w₁ w₂ w' : Workshop}

/-- Branches that are given channels which stand nowhere yet share nothing
with the flow. -/
theorem Step.Seeded.apart (h : s.Seeded w flows w₁) (hr : s.routes = true)
    (hold : ∀ x ∈ b.components, x.key.number < w.nextComponent)
    (hb : ∀ c ∈ s.brought, c.key.number < w.nextComponent)
    (hfree : ∀ c ∈ s.brought, ∀ x ∈ b.components, x.key ≠ c.key)
    (hbr : YieldsAll b.runBranch w₁ flows branches w₂) :
    ∀ x ∈ branches.flatMap fun br => br.registry.components, ∀ y ∈ b.components,
      y.key ≠ x.key := by
  intro x hx y hy heq
  have hlt := hold y hy
  rw [heq] at hlt
  rcases ((Builder.stems_of_runBranches (h.given hr hb) hbr).2 x hx).1 with hk | hge
  · rcases List.mem_append.1 ((h.perm hr).subset hk) with hk | hk
    · obtain ⟨flow, hf, hkey⟩ := List.mem_map.1 hk
      rw [← hkey] at hlt
      exact absurd (h.made flow hf).1 (Nat.not_le.2 hlt)
    · obtain ⟨c, hc, hkey⟩ := List.mem_map.1 hk
      exact hfree c hc y hy (heq.trans hkey.symm)
  · exact absurd (Nat.le_trans h.le hge) (Nat.not_le.2 hlt)

/-- A router whose branches are given channels of their own stands behind the
flow and the channel that it reads, if that is new. The flows of the taps
follow, and the branches in order, with the channel that they meet on and its
bridge at the end. Its table leads each key, or each recipient, to its target
or to the channel that its branch started at. -/
theorem router_order (hc : Called s b w) (hr : s.routes = true)
    (hn : (s.brought.map Channel.key).Nodup)
    (hfree : ∀ c ∈ s.brought, ∀ x ∈ b.components, x.key ≠ c.key)
    (hy : Yields (s.assemble b) w b' w') :
    ∃ st w₁ branches w₂ router made rear, Yields (s.stage b) w st w₁ ∧
      YieldsAll b.runBranch w₁ st.flows branches w₂ ∧
      s.Tables st.flows router.handler ∧
      b.Inlet w₂.nextComponent router made ∧
      b'.registry.components = b.chainedTo made router ++
        b.tapsBehind made router ++ rear ∧
      ((b.components.map Component.key).Nodup →
        b.tapsBehind made router = b.cursor.deferred.flatMap Registry.components) ∧
      Builder.Rear branches
        (s.fallsBack = true ∨ branches.any Branch.isOpen = true)
        w₂.nextComponent rear := by
  obtain ⟨st, w₁, branches, w₂, default, r, w₃, spec, b₁, w₄, hst, hbr, hdefault,
    hrec, htables, -, ha, hend⟩ :=
    Step.tables_of_yields hr hy
  obtain ⟨hsame, hseeded⟩ := Step.seeded_of_stage hr hst
  rw [hsame] at hbr
  have hold : ∀ x ∈ b.components, x.key.number < w.nextComponent := hc.given
  have hbefore : ∀ c ∈ s.brought, c.key.number < w.nextComponent := hc.given_brought
  have hgiven := hseeded.given hr hbefore
  have hdistinct := hseeded.nodup hr hbefore hn
  obtain ⟨hle, hstems⟩ := Builder.stems_of_runBranches hgiven hbr
  have hle₂ : w.nextComponent ≤ w₂.nextComponent := Nat.le_trans hseeded.le hle
  have hle₃ : w₂.nextComponent ≤ w₃.nextComponent :=
    ((b.reconcile_adds branches default).of_yields hrec).components
  have hgiven₃ : ∀ x ∈ b.components, x.key.number < w₃.nextComponent := fun x hx =>
    Nat.lt_of_lt_of_le (hold x hx) (Nat.le_trans hle₂ hle₃)
  obtain ⟨router, made, hhandler, hinlet, hnumbered, hcomponents, hcursor⟩ :=
    Builder.components_of_attach (by exact hgiven₃) ha
  rw [← hhandler] at htables
  have hapart := hseeded.apart hr hold hbefore hfree hbr
  have hbefore₄ : ∀ y ∈ b₁.registry.components, y.key.number < w₄.nextComponent :=
    fun y hy =>
      Builder.given_of_attach (by exact hgiven₃) ha y
        (b₁.registry_subset_components hy)
  have hfront : ∀ y ∈ b₁.registry.components,
      (∀ x ∈ branches.flatMap fun br => br.registry.components, y.key ≠ x.key) ∧
        (y.key.number < w₂.nextComponent ∨ w₃.nextComponent ≤ y.key.number) := by
    intro y hy
    rw [hcomponents] at hy
    rcases Builder.key_behind hy with ⟨z, hz, hkey⟩ | hnew
    · rw [← hkey]
      exact ⟨fun x hx => hapart x hx z hz,
        .inl (Nat.lt_of_lt_of_le (hold z hz) hle₂)⟩
    · obtain ⟨hge, -⟩ := hnumbered.mem hnew
      refine ⟨fun x hx heq => ?_, .inr hge⟩
      have hlt := (hstems x hx).2
      rw [← heq] at hlt
      exact absurd (Nat.le_trans hle₃ hge) (Nat.not_le.2 hlt)
  rw [Handler.producesReplies_of_isRouter htables.isRouter] at hcursor
  obtain ⟨rear, hrear, hrows⟩ := Builder.rear_of_yields
    (Builder.nodup_of_runBranches hgiven hdistinct hbr)
    (fun x hx => (hstems x hx).2)
    (Builder.channels_of_runBranches hgiven hdistinct hbr) hrec hbefore₄ hfront
    hnumbered.next_le (by rw [hcursor]; rfl) (by rw [hcursor]) hend
  rw [hdefault] at hrows
  refine ⟨st, w₁, branches, w₂, router, made, rear, hst, hbr, htables,
    hinlet.mono hle₃, ?_, fun hnodup => ?_, hrows⟩
  · rw [hrear, hcomponents]
  · exact Builder.tapsBehind_eq hnodup hgiven₃ hnumbered

/-- The flow of a tap is held back when a router has four destinations, one of
which is a name. Two of the branches end on channels: the first of these, with
the number 1, is where they meet, and the other gets a link, which is 11. -/
theorem router_order_behind_tap :
    let orders : Channel := ⟨⟨0⟩, some "orders", .direct, [], false, none⟩
    let one : Channel := ⟨⟨1⟩, some "one", .direct, [], false, none⟩
    let two : Channel := ⟨⟨2⟩, some "two", .direct, [], false, none⟩
    let onto (c : Channel) : List Step :=
      [.handle .bridge, .channel (.channel (.existing c))]
    let router : Step := .route { strategy := .header "kind" }
      [("reply", .flow [.handle .bridge]), ("log", .target (.named "log")),
        ("one", .flow (onto one)), ("two", .flow (onto two))]
    ∃ b₀ w₀ b w b' w' branches flows r made rear n,
      Yields (Start.channel orders).make (.start 3 1) b₀ w₀ ∧
      Yields ((Step.log .info none).assemble b₀) w₀ b w ∧ Called router b w ∧
      (router.brought.map Channel.key).Nodup ∧
      (∀ c ∈ router.brought, ∀ x ∈ b.components, x.key ≠ c.key) ∧
      Yields (router.assemble b) w b' w' ∧
      b'.registry.components.map (fun x => x.key.number) =
        [0, 12, 3, 4, 5, 8, 6, 9, 7, 10, 2, 11, 1, 13] ∧
      b'.registry.components = b.chainedTo made r ++
        b.cursor.deferred.flatMap Registry.components ++ rear ∧
      Builder.Rear branches
        (router.fallsBack = true ∨ branches.any Branch.isOpen = true) n rear ∧
      router.Tables flows r.handler := by
  intro orders one two onto router
  obtain ⟨⟨b, n, b'⟩, w', hy, hall⟩ := exists_yields (m := do
      let b ← (Start.channel orders).make
      let b ← (Step.log .info none).assemble b
      let w ← get
      let b' ← router.assemble b
      return (b, w.nextComponent, b'))
    (f := fun (b, n, b') => (b.components.map fun x => x.key.number, n,
      b'.registry.components.map fun x => x.key.number))
    (w := .start 3 1)
      (y := ([0, 3, 4], 5, [0, 12, 3, 4, 5, 8, 6, 9, 7, 10, 2, 11, 1, 13]))
      (by decide +kernel)
  simp only [yields_bind, yields_get, yields_pure, Prod.mk.injEq] at hy hall
  obtain ⟨b₀, w₀, hmake, _, w, htap, _, _, ⟨rfl, rfl⟩, _, _, hroute,
    ⟨rfl, rfl, rfl⟩, rfl⟩ := hy
  obtain ⟨hkeys, hnext, hrow⟩ := hall
  have hbrought : router.brought = [one, two] := by decide
  have htaps : (Step.log .info none).brought = [] := by decide
  have hfree : ∀ c ∈ router.brought, ∀ x ∈ b.components, x.key ≠ c.key := by
    have hapart : ∀ c ∈ [one, two], c.key.number ∉ [0, 3, 4] := by decide
    intro c hc x hx heq
    have hx := List.mem_map_of_mem (f := fun x : Component => x.key.number) hx
    rw [hkeys, heq] at hx
    rw [hbrought] at hc
    exact hapart c hc hx
  have hstart : Underway (fun _ => True) [] b₀ w₀ [.first b₀] :=
    .start (by simp [Start.brought, orders, Workshop.start]) hmake
  obtain ⟨history, hunderway, -⟩ :=
    hstart.exists_call rfl (fun c hc => by rw [htaps] at hc; cases hc) htap
  have hmade : ∀ c ∈ [one, two], c.key.number < 5 := by decide
  have hcalled : Called router b _ := .own hunderway fun c hc =>
    ⟨by rw [hnext]; rw [hbrought] at hc; exact hmade c hc,
      fun x hx heq => absurd heq (hfree c hc x hx)⟩
  have hdistinct : (router.brought.map Channel.key).Nodup := by
    rw [hbrought]
    decide
  have hnodup : (b.components.map Component.key).Nodup := by
    refine List.Nodup.of_map ComponentKey.number ?_
    rw [List.map_map]
    exact hkeys ▸ (by decide : [0, 3, 4].Nodup)
  obtain ⟨st, w₁, branches, w₂, r, made, rear, -, -, htables, -, hcomponents,
    hrest, hrear⟩ :=
    router_order hcalled rfl hdistinct hfree hroute
  rw [hrest hnodup] at hcomponents
  exact ⟨b₀, w₀, b, _, b', _, branches, st.flows, r, made, rear, w₂.nextComponent,
    hmake, htap, hcalled, hdistinct, hfree, hroute, hrow, hcomponents,
    hrear, htables⟩

end

end FlowAssembly
