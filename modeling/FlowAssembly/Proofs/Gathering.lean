import FlowAssembly.Proofs.Binding
import FlowAssembly.Proofs.Cyclicity
import FlowAssembly.Proofs.RouterOrder
import FlowAssembly.Proofs.Unawaited

/-!
# Scatter-gathers

A scatter-gather registers three endpoints of its own, each with the channel
that it reads ahead of it: the one that the flow goes on behind, the recipient
list of the scatter if it has one, and the gatherer. The branches stand in
between, and what is open in them leads to the channel that the gatherer
reads. Subscribers of a scatter all start at the scatter channel, which is
registered once, ahead of them.

The flow goes on behind the first of the three. Its output is pending,
whatever was attached after it, and the next call that appends something binds
it. The gatherer answers by a header of the message, so nothing waits for its
output.
-/

namespace FlowAssembly

open Assembly

/-! ## Registering in between -/

namespace Registry

variable {taken : List ComponentKey} {xs : List Component} {k : ComponentKey}

/-- Of components that share one key with what stands there, and no other with
that or with one another, all are new but those under that key. -/
theorem additions_eq_filter (hk : k ∈ taken)
    (hn : ((xs.map Component.key).filter fun k' => k' ≠ k).Nodup)
    (h : ∀ x ∈ xs, x.key ≠ k → x.key ∉ taken) :
    additions taken xs = xs.filter fun x => x.key ≠ k := by
  induction xs generalizing taken with
  | nil => rfl
  | cons x xs ih =>
      rw [additions]
      by_cases hx : x.key = k
      · rw [if_pos (hx ▸ hk), List.filter_cons_of_neg (by simp [hx])]
        rw [List.map_cons, List.filter_cons_of_neg (by simp [hx])] at hn
        exact ih hk hn fun y hy => h y (List.mem_cons_of_mem _ hy)
      · rw [if_neg (h x List.mem_cons_self hx),
          List.filter_cons_of_pos (by simp [hx])]
        rw [List.map_cons, List.filter_cons_of_pos (by simp [hx]), List.nodup_cons]
          at hn
        refine congrArg (x :: ·)
          (ih (List.mem_append_left _ hk) hn.2 fun y hy hyk hmem => ?_)
        rcases List.mem_append.1 hmem with hmem | hmem
        · exact h y (List.mem_cons_of_mem _ hy) hyk hmem
        · refine hn.1 (List.mem_filter.2 ⟨?_, by simpa using hx⟩)
          rw [← List.mem_singleton.1 hmem]
          exact List.mem_map_of_mem hy

end Registry

namespace Builder

variable {b b₁ b' : Builder} {branches closed : List Branch}
  {channel gather : Channel} {reader : Option Endpoint} {gatherer own : Endpoint}
  {n : Nat} {w w' : Workshop}

theorem components_posted (hc : ∀ x ∈ b.registry.components, x.key ≠ channel.key)
    (hr : ∀ e ∈ reader, ∀ x ∈ b.registry.components ++ [.channel channel],
      x.key ≠ e.key) :
    (b.posted channel reader).registry.components = b.registry.components ++
      .channel channel :: reader.toList.map Component.endpoint := by
  have hadd := Registry.components_add_of_new (x := .channel channel) hc
  cases reader with
  | none => exact hadd
  | some e =>
      have hread : ∀ x ∈ (b.registry.add (.channel channel)).components,
          x.key ≠ (Component.endpoint e).key := by
        rw [hadd]
        exact hr e rfl
      have hposted := Registry.components_add_of_new hread
      rw [hadd, List.append_assoc] at hposted
      exact hposted

/-- Branches that share one key with what stands in the flow, and no other
with that or with one another. -/
theorem components_absorb_apart {k : ComponentKey}
    (hk : k ∈ b.registry.components.map Component.key)
    (hn :
      (((closed.flatMap fun br => br.registry.components).map Component.key).filter
        fun k' => k' ≠ k).Nodup)
    (hapart : ∀ x ∈ closed.flatMap fun br => br.registry.components, x.key ≠ k →
      ∀ y ∈ b.registry.components, y.key ≠ x.key) :
    (b.absorb closed).registry.components = b.registry.components ++
      (closed.flatMap fun br => br.registry.components).filter fun x =>
        x.key ≠ k := by
  have hall : ((closed.map Branch.registry).flatMap Registry.components) =
      closed.flatMap fun br => br.registry.components := List.flatMap_map ..
  rw [absorb, Registry.components_foldl_extend, hall,
    Registry.additions_eq_filter hk hn]
  intro x hx hxk hmem
  obtain ⟨y, hy, hkey⟩ := List.mem_map.1 hmem
  exact hapart x hx hxk y hy hkey

/-- What a scatter-gather finds when its branches are assembled: all of it has
numbers below `n`, the branches share no more than the scatter channel with
one another and nothing with the flow, and the two channels stand nowhere
else. -/
structure Scattered (b : Builder) (branches : List Branch)
    (channel gather : Channel) (n : Nat) : Prop where
  old : ∀ x ∈ b.components, x.key.number < n
  held : ∀ x ∈ branches.flatMap fun br => br.registry.components, x.key.number < n
  once :
    (((branches.flatMap fun br => br.registry.components).map Component.key).filter
      fun k => k ≠ channel.key).Nodup
  apart : ∀ x ∈ branches.flatMap fun br => br.registry.components,
    ∀ y ∈ b.components, y.key ≠ x.key
  scatters : channel.key.number < n ∧ ∀ y ∈ b.components, y.key ≠ channel.key
  gathers : gather.key.number < n ∧ channel.key ≠ gather.key ∧
    (∀ y ∈ b.components, y.key ≠ gather.key) ∧
    ∀ x ∈ branches.flatMap fun br => br.registry.components, x.key ≠ gather.key

/-- The endpoint of a scatter-gather is attached: what stands in the flow then
did so before, or was made for the endpoint, with a number below `n`. -/
structure Fronted (b b₁ : Builder) (n₀ n : Nat) : Prop where
  le : n₀ ≤ n
  stems : ∀ x ∈ b₁.registry.components, (∃ y ∈ b.components, y.key = x.key) ∨
    n₀ ≤ x.key.number ∧ x.key.number < n

namespace Scattered

variable {n₀ n₁ : Nat}

theorem posted (h : b.Scattered branches channel gather n₀) (hf : b.Fronted b₁ n₁ n)
    (hle : n₀ ≤ n₁) (hreader : ∀ e ∈ reader, e.Fresh n) :
    (b₁.posted channel reader).registry.components = b₁.registry.components ++
      .channel channel :: reader.toList.map Component.endpoint := by
  have hchannel := h.scatters.1
  have hbehind := hf.le
  refine components_posted (fun x hx hkey => ?_) fun e he x hx hkey => ?_
  · rcases hf.stems x hx with ⟨y, hy, hk⟩ | ⟨hge, -⟩
    · exact h.scatters.2 y hy (hk.trans hkey)
    · rw [hkey] at hge
      omega
  · have hnumber : x.key.number = n := by rw [hkey, (hreader e he).key]
    rcases List.mem_append.1 hx with hx | hx
    · rcases hf.stems x hx with ⟨y, hy, hk⟩ | ⟨-, hlt⟩
      · have hold := h.old y hy
        rw [hk] at hold
        omega
      · omega
    · rw [List.mem_singleton.1 hx] at hnumber
      have hnumber : channel.key.number = n := hnumber
      omega

/-- What stands in front of the branches, besides the scatter channel, is not
in them. -/
theorem front_apart (h : b.Scattered branches channel gather w.nextComponent)
    (hf : b.Fronted b₁ w'.nextComponent n) (hreader : ∀ e ∈ reader, e.Fresh n)
    (hclosed : YieldsAll (fun br => br.converge b gather) w branches closed w') :
    ∀ x ∈ closed.flatMap fun br => br.registry.components, x.key ≠ channel.key →
      ∀ y ∈ b₁.registry.components ++ .channel channel ::
          reader.toList.map Component.endpoint, y.key ≠ x.key := by
  obtain ⟨hfrom, -⟩ := keys_of_converge h.held hclosed
  have hlt := lt_of_converge h.held hclosed
  have hbehind := hf.le
  intro x hx hne y hy heq
  have hbefore := hlt x hx
  rcases List.mem_append.1 hy with hy | hy
  · rcases hf.stems y hy with ⟨y', hy', hk⟩ | ⟨hge, -⟩
    · rcases hfrom x hx with ⟨z, hz, hkey⟩ | ⟨hge, -⟩
      · exact h.apart z hz y' hy' ((hk.trans heq).trans hkey.symm)
      · have hold := h.old y' hy'
        rw [hk, heq] at hold
        omega
    · rw [heq] at hge
      omega
  · rcases List.mem_cons.1 hy with rfl | hy
    · exact hne heq.symm
    · obtain ⟨e, he, rfl⟩ := List.mem_map.1 hy
      have hnumber : x.key.number = n := by
        rw [← heq, show (Component.endpoint e).key = e.key from rfl,
          (hreader e (Option.mem_toList.1 he)).key]
      omega

/-- The gather channel stands nowhere before it is registered, and the
gatherer has a later number than all that does. -/
theorem gather_apart (h : b.Scattered branches channel gather w.nextComponent)
    (hf : b.Fronted b₁ w'.nextComponent n) (hreader : ∀ e ∈ reader, e.Fresh n)
    (hclosed : YieldsAll (fun br => br.converge b gather) w branches closed w') :
    ∀ x ∈ b₁.registry.components ++ .channel channel ::
        reader.toList.map Component.endpoint ++ closed.flatMap fun br =>
          br.registry.components, x.key ≠ gather.key ∧
      x.key.number < n + reader.toList.length := by
  obtain ⟨hfrom, -⟩ := keys_of_converge h.held hclosed
  obtain ⟨hlt, hne, hfree, hbranches⟩ := h.gathers
  have hchannel := h.scatters.1
  have hle : w.nextComponent ≤ w'.nextComponent :=
    ((b.converge_adds branches gather).of_yields hclosed.mapM).components
  have hbehind := hf.le
  have hnew : ∀ k : ComponentKey, w.nextComponent ≤ k.number → k ≠ gather.key :=
    fun k hk heq => by
      rw [heq] at hk
      omega
  intro x hx
  rcases List.mem_append.1 hx with hx | hx
  · rcases List.mem_append.1 hx with hx | hx
    · rcases hf.stems x hx with ⟨y, hy, hk⟩ | ⟨hge, hx⟩
      · have hold := h.old y hy
        rw [hk] at hold
        exact ⟨fun hkey => hfree y hy (hk.trans hkey), by omega⟩
      · exact ⟨hnew _ (by omega), by omega⟩
    · rcases List.mem_cons.1 hx with rfl | hx
      · exact ⟨hne, by
          rw [show (Component.channel channel).key = channel.key from rfl]; omega⟩
      · obtain ⟨e, he, rfl⟩ := List.mem_map.1 hx
        have hnumber : (Component.endpoint e).key.number = n := by
          rw [show (Component.endpoint e).key = e.key from rfl,
            (hreader e (Option.mem_toList.1 he)).key]
        have hpos := List.length_pos_of_mem he
        exact ⟨hnew _ (by omega), by omega⟩
  · have hbefore := lt_of_converge h.held hclosed x hx
    refine ⟨?_, by omega⟩
    rcases hfrom x hx with ⟨y, hy, hk⟩ | ⟨hge, -⟩
    · exact fun hkey => hbranches y hy (hk.trans hkey)
    · exact hnew _ hge

/-- Behind its endpoint a scatter-gather registers the scatter channel and
what reads it, the branches without that channel, and the gather channel with
the gatherer. -/
theorem row (h : b.Scattered branches channel gather w.nextComponent)
    (hclosed : YieldsAll (fun br => br.converge b gather) w branches closed w')
    (hf : b.Fronted b₁ w'.nextComponent n) (hreader : ∀ e ∈ reader, e.Fresh n)
    (hgatherer : gatherer.Fresh (n + reader.toList.length)) :
    (((b₁.posted channel reader).absorb closed).posted gather
      (some gatherer)).registry.components = b₁.registry.components ++
      (.channel channel :: reader.toList.map Component.endpoint) ++
      ((closed.flatMap fun br => br.registry.components).filter fun x =>
        x.key ≠ channel.key) ++ [.channel gather, .endpoint gatherer] := by
  have hle : w.nextComponent ≤ w'.nextComponent :=
    ((b.converge_adds branches gather).of_yields hclosed.mapM).components
  have hposted := h.posted hf hle hreader
  have hgather := h.gather_apart hf hreader hclosed
  have habsorbed : ((b₁.posted channel reader).absorb closed).registry.components =
      b₁.registry.components ++
        (.channel channel :: reader.toList.map Component.endpoint) ++
        (closed.flatMap fun br => br.registry.components).filter fun x =>
          x.key ≠ channel.key := by
    rw [← hposted]
    refine components_absorb_apart ?_
      (nodup_filter_of_converge _ h.once h.held hclosed) ?_
    · rw [hposted]
      exact List.mem_map.2
        ⟨.channel channel, List.mem_append_right _ List.mem_cons_self, rfl⟩
    · rw [hposted]
      exact h.front_apart hf hreader hclosed
  have hbefore :
      ∀ x ∈ ((b₁.posted channel reader).absorb closed).registry.components,
        x.key ≠ gather.key ∧ x.key.number < n + reader.toList.length := by
    rw [habsorbed]
    refine fun x hx => hgather x ?_
    rcases List.mem_append.1 hx with hx | hx
    · exact List.mem_append_left _ hx
    · exact List.mem_append_right _ (List.mem_filter.1 hx).1
  rw [components_posted (fun x hx => (hbefore x hx).1), habsorbed]
  · rfl
  · rintro e ⟨⟩ x hx hkey
    have hnumber : x.key.number = n + reader.toList.length := by
      rw [hkey, hgatherer.key]
    have hlt : gather.key.number < n + reader.toList.length := by
      have hbehind := hf.le
      have hlt := h.gathers.1
      omega
    rcases List.mem_append.1 hx with hx | hx
    · exact absurd hnumber (Nat.ne_of_lt (hbefore x hx).2)
    · rw [List.mem_singleton.1 hx] at hnumber
      exact absurd hnumber (Nat.ne_of_lt hlt)

end Scattered

end Builder

/-! ## What a scatter-gather is assembled from -/

/-- How a message gets from the scatter channel to the flows: by a list of
recipients that reads the channel, and whose unmatched messages go to the
gather channel if they are to go on in the parent flow; or each of the flows
starts at the channel. -/
inductive Scatter.Feeds (channel gather : Channel)
    (flows : List (Channel × List Step)) :
    Scatter → Option Endpoint → Prop
  | recipients {plan : RecipientsPlan}
      {members : List (Option String × Destination)} {e : Endpoint} :
      e.input = .channel channel →
      Step.Tables flows (.routeToRecipients plan members) e.handler →
      (plan.default.any DefaultPlan.isParentFlow = true →
        e.handler.defaultOutput? = some (.channel gather)) →
      Feeds channel gather flows (.recipients plan members) (some e)
  | publish {plan : FanOutPlan} {subscribers : List (List Step)} :
      flows = subscribers.map (fun steps => (channel, steps)) →
      Feeds channel gather flows (.publish plan subscribers) none

/-- The flows of a scatter-gather with the channels that they start at, and
the two channels of its own. What is given to the flows or scattered to is
brought or new, nothing is given twice but the scatter channel, and the gather
channel is given to none of them. -/
structure Step.Scatters (s : Step) (w : Workshop)
    (flows : List (Channel × List Step)) (channel gather : Channel)
    (w₁ : Workshop) : Prop where
  le : w.nextComponent ≤ w₁.nextComponent
  steps : flows.map Prod.snd = s.flows
  stems : ∀ k ∈ channel.key :: flows.flatMap Builder.givenKeys,
    (k ∈ s.brought.map Channel.key ∨ w.nextComponent ≤ k.number) ∧
    k.number < w₁.nextComponent
  distinct :
    ((flows.flatMap Builder.givenKeys).filter fun k => k ≠ channel.key).Nodup
  gathers : w.nextComponent ≤ gather.key.number ∧
    gather.key.number < w₁.nextComponent ∧
    gather.key ∉ channel.key :: flows.flatMap Builder.givenKeys

section

variable {plan : ScatterGatherPlan} {scatter : Scatter} {b b' : Builder}
  {st : Stage} {w w₁ w' : Workshop}

theorem FanOutPlan.brought_or_made {plan : FanOutPlan} {given : Option Channel}
    {c : Channel} {w₂ w₃ : Workshop}
    (hg : Yields (plan.channel.mapM ChannelPlan.make) w given w₁)
    (hle : w₁.nextComponent ≤ w₂.nextComponent)
    (hc : Yields (Builder.fanOutChannel plan given) w₂ c w₃) :
    c ∈ plan.brought ∨ w.nextComponent ≤ c.key.number ∧
    c.key.number < w₃.nextComponent ∧
    (c.key.number < w₁.nextComponent ∨ w₂.nextComponent ≤ c.key.number) := by
  have hle₁ := ((optional_make_leaves plan.channel).of_yields hg).components
  rcases Builder.of_yields_fanOutChannel hc with ⟨rfl, rfl⟩ | ⟨rfl, hkey, rfl⟩
  · obtain ⟨channel, _, _⟩ := plan
    cases channel with
    | none => cases (yields_pure.1 hg).1
    | some channel =>
        obtain ⟨_, hm, heq⟩ := yields_map.1 hg
        cases heq
        rcases ChannelPlan.brought_or_made hm with hc | ⟨hge, hlt⟩
        · exact .inl (by simpa [FanOutPlan.brought] using hc)
        · exact .inr ⟨hge, Nat.lt_of_lt_of_le hlt hle, .inl hlt⟩
  · rw [hkey]
    exact .inr ⟨Nat.le_trans hle₁ hle, Nat.lt_succ_self _, .inr (Nat.le_refl _)⟩

theorem Step.scatters_recipients {list : RecipientsPlan}
    {members : List (Option String × Destination)} {parts : RecipientParts}
    {channel gather : Channel} {w₂ : Workshop}
    (hb : ∀ c ∈ (Step.scatterGather plan (.recipients list members)).brought,
      c.key.number < w.nextComponent)
    (hn : ((Step.scatterGather plan (.recipients list members)).brought.map
        Channel.key).Nodup)
    (hle : w.nextComponent ≤ w₁.nextComponent)
    (hm : Yields (list.make members) w₁ parts w₂)
    (hg : gather.key = ⟨w₂.nextComponent⟩)
    (hc : channel.key = ⟨w₂.nextComponent + 1⟩)
    (hw : w'.nextComponent = w₂.nextComponent + 1 + 1) :
    (Step.scatterGather plan (.recipients list members)).Scatters w
      (seededFlows (parts.openings.map Prod.snd) (members.map Prod.snd)) channel
      gather w' := by
  obtain ⟨hsteps, hspent⟩ := spent_makeRecipients hm
  obtain ⟨hdistinct, hmade⟩ := Workshop.made_of_spent hspent
  have hle₂ := ((list.make_leaves members).of_yields hm).components
  have hflows : (Step.scatterGather plan (.recipients list members)).brought =
      ((seededFlows (parts.openings.map Prod.snd) (members.map Prod.snd)).map
        Prod.snd).flatMap broughtBy := by
    rw [brought_eq, hsteps]
    rfl
  have hperm := Builder.perm_givenKeys
    (seededFlows (parts.openings.map Prod.snd) (members.map Prod.snd))
  rw [← hflows] at hperm
  have hgiven :
      ∀ k ∈
          (seededFlows (parts.openings.map Prod.snd) (members.map Prod.snd)).flatMap
          Builder.givenKeys,
        (k ∈ (Step.scatterGather plan (.recipients list members)).brought.map
          Channel.key ∨ w.nextComponent ≤ k.number) ∧
        k.number < w₂.nextComponent := by
    intro k hk
    rcases List.mem_append.1 (hperm.subset hk) with hk | hk
    · obtain ⟨hge, hlt⟩ := hmade k hk
      exact ⟨.inr (Nat.le_trans hle hge), hlt⟩
    · obtain ⟨c, hc, rfl⟩ := List.mem_map.1 hk
      have hlt := hb c hc
      exact ⟨.inl hk, by omega⟩
  refine ⟨by omega, hsteps, ?_, ?_, ?_, ?_, ?_⟩
  · refine List.forall_mem_cons.2 ⟨⟨.inr ?_, ?_⟩, fun k hk => ⟨(hgiven k hk).1, ?_⟩⟩
    · rw [hc]
      exact Nat.le_succ_of_le (Nat.le_trans hle hle₂)
    · rw [hc, hw]
      exact Nat.lt_succ_self _
    · have hlt := (hgiven k hk).2
      omega
  · refine List.Nodup.filter _
      ((hperm.nodup_iff).2 (List.nodup_append.2 ⟨hdistinct, hn, ?_⟩))
    intro k hk k' hk' heq
    obtain ⟨c, hc, rfl⟩ := List.mem_map.1 hk'
    have hge := (hmade k hk).1
    have hlt := hb c hc
    rw [heq] at hge
    omega
  · rw [hg]
    exact Nat.le_trans hle hle₂
  · rw [hg, hw]
    exact Nat.lt_succ_of_lt (Nat.lt_succ_self _)
  · rw [hg, hc]
    intro hk
    rcases List.mem_cons.1 hk with heq | hk
    · exact absurd (congrArg ComponentKey.number heq)
        (Nat.ne_of_lt (Nat.lt_succ_self _))
    · exact absurd (hgiven _ hk).2 (Nat.lt_irrefl _)

theorem Step.scatters_publish {fan : FanOutPlan} {subscribers : List (List Step)}
    {given : Option Channel} {channel gather : Channel} {w₂ w₃ : Workshop}
    (hb : ∀ c ∈ (Step.scatterGather plan (.publish fan subscribers)).brought,
      c.key.number < w.nextComponent)
    (hn : ((Step.scatterGather plan (.publish fan subscribers)).brought.map
        Channel.key).Nodup)
    (hle : w.nextComponent ≤ w₁.nextComponent)
    (hm : Yields (fan.channel.mapM ChannelPlan.make) w₁ given w₂)
    (hg : gather.key = ⟨w₂.nextComponent⟩)
    (hw : w₃.nextComponent = w₂.nextComponent + 1)
    (hc : Yields (Builder.fanOutChannel fan given) w₃ channel w') :
    (Step.scatterGather plan (.publish fan subscribers)).Scatters w
      (subscribers.map fun steps => (channel, steps)) channel gather w' := by
  have hle₂ := ((optional_make_leaves fan.channel).of_yields hm).components
  have hle₃ := ((Builder.fanOutChannel_leaves fan given).of_yields hc).components
  have hsteps : (subscribers.map fun steps => (channel, steps)).map Prod.snd =
      subscribers := by
    rw [List.map_map]
    exact List.map_id _
  have hchannel :
      (channel.key ∈
        (Step.scatterGather plan (.publish fan subscribers)).brought.map
        Channel.key ∨ w.nextComponent ≤ channel.key.number) ∧
      channel.key.number < w'.nextComponent ∧ channel.key ≠ gather.key := by
    have hgather : gather.key.number = w₂.nextComponent := by rw [hg]
    rcases fan.brought_or_made hm (by omega) hc with hmem | ⟨hge, hlt, hsides⟩
    · have hmem :
          channel ∈ (Step.scatterGather plan (.publish fan subscribers)).brought :=
        List.mem_append_left _ hmem
      have hlt := hb channel hmem
      refine ⟨.inl (List.mem_map_of_mem hmem), by omega, fun heq => ?_⟩
      rw [heq] at hlt
      omega
    · refine ⟨.inr (by omega), hlt, fun heq => ?_⟩
      rw [heq] at hsides
      omega
  have hbrought : ∀ k ∈ (subscribers.flatMap broughtBy).map Channel.key,
      k ∈ (Step.scatterGather plan (.publish fan subscribers)).brought.map
        Channel.key := by
    rw [brought_eq, List.map_append]
    exact fun k hk => List.mem_append_right _ hk
  have hperm :=
    Builder.perm_givenKeys (subscribers.map fun steps => (channel, steps))
  rw [hsteps] at hperm
  have hstarts :
      ∀ k ∈ (subscribers.map fun steps => (channel, steps)).map fun flow =>
        flow.1.key, k = channel.key := by
    intro k hk
    simp only [List.map_map, List.mem_map, Function.comp_apply] at hk
    obtain ⟨_, -, rfl⟩ := hk
    rfl
  have hgiven :
      ∀ k ∈ (subscribers.map fun steps =>
          (channel, steps)).flatMap Builder.givenKeys, k = channel.key ∨
        k ∈ (Step.scatterGather plan (.publish fan subscribers)).brought.map
          Channel.key := by
    intro k hk
    exact (List.mem_append.1 (hperm.subset hk)).imp (hstarts k) (hbrought k)
  have hplaced :
      ∀ k ∈ (Step.scatterGather plan (.publish fan subscribers)).brought.map
          Channel.key, k.number < w.nextComponent := by
    intro k hk
    obtain ⟨c, hc, rfl⟩ := List.mem_map.1 hk
    exact hb c hc
  refine ⟨by omega, hsteps, ?_, ?_, ?_, ?_, ?_⟩
  · refine List.forall_mem_cons.2 ⟨⟨hchannel.1, hchannel.2.1⟩, fun k hk => ?_⟩
    rcases hgiven k hk with rfl | hk
    · exact ⟨hchannel.1, hchannel.2.1⟩
    · have hlt := hplaced k hk
      exact ⟨.inl hk, by omega⟩
  · have hnone :
        (((subscribers.map fun steps => (channel, steps)).map fun flow =>
            flow.1.key).filter fun k => k ≠ channel.key) = [] :=
      List.filter_eq_nil_iff.2 fun k hk => by simp [hstarts k hk]
    rw [(hperm.filter _).nodup_iff, List.filter_append, hnone, List.nil_append]
    rw [brought_eq, List.map_append] at hn
    exact (List.nodup_append.1 hn).2.1.filter _
  · rw [hg]
    exact Nat.le_trans hle hle₂
  · rw [hg]
    have hlt : w₂.nextComponent < w'.nextComponent := by omega
    exact hlt
  · intro hk
    have hgather : gather.key.number = w₂.nextComponent := by rw [hg]
    rcases List.mem_cons.1 hk with heq | hk
    · exact hchannel.2.2 heq.symm
    · rcases hgiven _ hk with heq | hk
      · exact hchannel.2.2 heq.symm
      · have hlt := hplaced _ hk
        omega

/-- Up to its flows a scatter-gather has made its two channels, and the
channels that its flows start at. -/
theorem Step.scatters_of_stage
    (h : Yields ((Step.scatterGather plan scatter).stage b) w st w₁)
    (hb : ∀ c ∈ (Step.scatterGather plan scatter).brought,
      c.key.number < w.nextComponent)
    (hn : ((Step.scatterGather plan scatter).brought.map Channel.key).Nodup) :
    ∃ (release : Release) (scattering : Scattering) (gather : Channel),
      st.builder = b ∧
      (plan.wait b.config).isZero = false ∧
      (∀ branches,
        st.close branches = b.finishScatterGather plan release { scattering with
          branches := branches } gather) ∧
      (Step.scatterGather plan scatter).Scatters w st.flows scattering.channel
        gather w₁ ∧
      ∀ reader : Option Endpoint, (reader = none ↔ scattering.list = none) →
        (∀ e ∈ reader,
          (∃ list id, scattering.list = some (list, id) ∧
            e.handler.behaviour = .recipientList list) ∧
          e.input = .channel scattering.channel) →
        scatter.Feeds scattering.channel gather st.flows reader := by
  have hwait : plan.check b.config scatter = .ok () →
      (plan.wait b.config).isZero = false := by
    intro hcheck
    unfold ScatterGatherPlan.check at hcheck
    split at hcheck
    · cases hcheck
    · next hzero => exact Bool.eq_false_iff.2 hzero
  cases scatter with
  | recipients list members =>
      simp only [stage, Scatter.make, Scatter.seed, yields_bind, yields_pure,
        yields_ensure, yields_implicitChannel, Builder.yields_ensureOpen] at h
      obtain ⟨release, w₂, hr, _, _, ⟨parts, w₃, hm, rfl, rfl⟩, _, _, ⟨hcheck, rfl⟩,
        _, _, ⟨-, rfl⟩, gather, _, ⟨rfl, rfl⟩, _, _,
        ⟨channel, _, ⟨rfl, rfl⟩, rfl, rfl⟩, rfl, rfl⟩ := h
      have hle := (plan.gather.release.make_leaves.of_yields hr).components
      refine ⟨release, _, _, rfl, hwait hcheck, fun _ => rfl,
        scatters_recipients hb hn hle hm rfl rfl rfl, fun reader hnone hreads => ?_⟩
      cases reader with
      | none => cases hnone.1 rfl
      | some e =>
          obtain ⟨⟨_, _, heq, hbehaviour⟩, hinput⟩ := hreads e rfl
          cases heq
          refine .recipients hinput (list.tables_of_yields_make hm hbehaviour rfl)
            fun hdefault => ?_
          simp only [RecipientsPlan.make, yields_bind, yields_pure] at hm
          obtain ⟨_, _, -, default, _, hd, rfl, -⟩ := hm
          rw [Handler.defaultOutput?, hbehaviour, Builder.scatterList,
            (DefaultPlan.parentFlow_iff hd).2 hdefault]
          rfl
  | publish fan subscribers =>
      simp only [stage, Scatter.make, Scatter.seed, yields_bind, yields_pure,
        yields_ensure, yields_implicitChannel, Builder.yields_ensureOpen] at h
      obtain ⟨release, w₂, hr, _, _, ⟨given, w₃, hm, rfl, rfl⟩, _, _, ⟨hcheck, rfl⟩,
        _, _, ⟨-, rfl⟩, gather, _, ⟨rfl, rfl⟩, _, _, ⟨channel, _, hc, rfl, rfl⟩,
        rfl, rfl⟩ := h
      have hle := (plan.gather.release.make_leaves.of_yields hr).components
      refine ⟨release, _, _, rfl, hwait hcheck, fun _ => rfl,
        scatters_publish hb hn hle hm rfl rfl hc, fun reader hnone hreads => ?_⟩
      obtain rfl := hnone.2 rfl
      exact .publish rfl

/-- What a scatter-gather finds when its branches are assembled, if each
channel of the caller's is used once. -/
theorem Step.Scatters.scattered {s : Step} {flows : List (Channel × List Step)}
    {branches : List Branch} {channel gather : Channel} {w₂ : Workshop}
    (h : s.Scatters w flows channel gather w₁)
    (hold : ∀ x ∈ b.components, x.key.number < w.nextComponent)
    (hfree : ∀ c ∈ s.brought, ∀ x ∈ b.components, x.key ≠ c.key)
    (hbr : YieldsAll b.runBranch w₁ flows branches w₂) :
    b.Scattered branches channel gather w₂.nextComponent := by
  obtain ⟨hchannel, hgiven⟩ := List.forall_mem_cons.1 h.stems
  have hgiven₁ : ∀ k ∈ flows.flatMap Builder.givenKeys,
      k.number < w₁.nextComponent :=
    fun k hk => (hgiven k hk).2
  obtain ⟨hle, hstems⟩ := Builder.stems_of_runBranches hgiven₁ hbr
  obtain ⟨hge, hlt, hnot⟩ := h.gathers
  have hle₁ := h.le
  have hapart : ∀ k, k ∈ s.brought.map Channel.key ∨ w.nextComponent ≤ k.number →
      ∀ y ∈ b.components, y.key ≠ k := by
    rintro k (hk | hk) y hy rfl
    · obtain ⟨c, hc, hkey⟩ := List.mem_map.1 hk
      exact hfree c hc y hy hkey.symm
    · exact absurd (hold y hy) (Nat.not_lt.2 hk)
  refine ⟨fun x hx => ?_, fun x hx => (hstems x hx).2,
    Builder.nodup_filter_of_runBranches _ hgiven₁ h.distinct hbr,
    fun x hx => hapart _ ?_, ⟨by omega, hapart _ hchannel.1⟩, by omega, ?_,
    hapart _ (.inr hge), fun x hx hkey => ?_⟩
  · have hlt := hold x hx
    omega
  · rcases (hstems x hx).1 with hk | hk
    · exact (hgiven _ hk).1
    · exact .inr (by omega)
  · exact fun heq => hnot (heq ▸ List.mem_cons_self)
  · rcases (hstems x hx).1 with hk | hk
    · exact hnot (List.mem_cons_of_mem _ (hkey ▸ hk))
    · rw [hkey] at hk
      omega

/-! ## Open ends -/

/-- What is open at the end of the branch leads to the channel by what stands
among the components: a pending output is bound to it, and a bare channel has
a bridge that leads there. -/
def Branch.LeadsTo (br : Branch) (m : Channel) (xs : List Component) : Prop :=
  match br.ending with
  | .pending output =>
      ∃ x ∈ xs, x.key = output.component ∧ x.output? = some (.channel m)
  | .channel c => ∃ link, .endpoint link ∈ xs ∧ link.Bridges c (some (.channel m))
  | .closed => True

theorem Branch.LeadsTo.mono {br : Branch} {m : Channel} {xs ys : List Component}
    (hs : xs ⊆ ys) (h : br.LeadsTo m xs) :
    br.LeadsTo m ys := by
  unfold LeadsTo at h ⊢
  split
  · next he =>
      rw [he] at h
      obtain ⟨x, hx, hkey, hout⟩ := h
      exact ⟨x, hs hx, hkey, hout⟩
  · next he =>
      rw [he] at h
      obtain ⟨link, hlink, hbridges⟩ := h
      exact ⟨link, hs hlink, hbridges⟩
  · trivial

/-- A branch that ended on another channel than the gather channel gets one
link. -/
theorem Branch.strays_of_ne {br : Branch} {m : Channel}
    (h : ∀ c, br.channel? = some c → c.key ≠ m.key) :
    strays [br] m = br.channel?.toList := by
  unfold strays
  cases hc : br.channel? with
  | none => simp [hc]
  | some c => simp [hc, h c hc]

/-- Whatever is open in the branches leads to the gather channel once they
have converged, also when the scatter channel is left out. -/
theorem Builder.Scattered.leadsTo {branches closed : List Branch}
    {channel gather : Channel} {n : Nat}
    (h : b.Scattered branches channel gather w.nextComponent)
    (hsound : ∀ br ∈ branches, br.Sound)
    (hmade : ∀ x ∈ branches.flatMap fun br => br.registry.components,
      x.isWorker = true → n ≤ x.key.number)
    (hn : channel.key.number < n)
    (hclosed : YieldsAll (fun br => br.converge b gather) w branches closed w') :
    ∀ br ∈ branches, strays [br] gather = br.channel?.toList ∧
      br.LeadsTo gather
        ((closed.flatMap fun br => br.registry.components).filter fun x =>
          x.key ≠ channel.key) := by
  intro br hbr
  have hends : ∀ c, br.ending = .channel c → c.key ≠ gather.key := by
    intro c hc heq
    obtain ⟨x, hx, hkey⟩ := List.mem_map.1 ((hsound br hbr).bare c hc)
    exact h.gathers.2.2.2 x (List.mem_flatMap.2 ⟨br, hbr, hx⟩) (hkey.trans heq)
  have hstrays : strays [br] gather = br.channel?.toList :=
    Branch.strays_of_ne fun c hc => hends c (by
      unfold Branch.channel? at hc
      split at hc
      · next heq =>
          cases hc
          exact heq
      · cases hc)
  refine ⟨hstrays, ?_⟩
  obtain ⟨br', hbr', links, hcomponents, hlinked, hlinks⟩ : ∃ br' ∈ closed,
    ∃ links : List Endpoint, br'.registry.components =
      br.joined (some gather) ++ links.map Component.endpoint ∧
      List.Forall₂ (fun c link => link.Bridges c (some (.channel gather)))
      (strays [br] gather) links ∧
      ∀ link ∈ links, w.nextComponent ≤ link.key.number :=
    exists_of_forall₂ (Builder.links_of_converge h.held hclosed) hbr
  have hhere : ∀ x ∈ br'.registry.components, x.key ≠ channel.key →
      x ∈ (closed.flatMap fun br => br.registry.components).filter fun x =>
        x.key ≠ channel.key :=
    fun x hx hne =>
      List.mem_filter.2 ⟨List.mem_flatMap.2 ⟨br', hbr', hx⟩, decide_eq_true hne⟩
  rw [hcomponents] at hhere
  unfold Branch.LeadsTo
  split
  · next output he =>
      obtain ⟨x, hx, -, hkey, -, hout⟩ :=
        Branch.exists_of_pending (hsound br hbr) he gather
      refine ⟨x, hhere x (List.mem_append_left _ hx) fun heq => ?_, hkey, hout⟩
      obtain ⟨y, hy, hbelongs⟩ := (hsound br hbr).awaited output he
      have hge := hmade y (List.mem_flatMap.2 ⟨br, hbr, hy⟩)
        (Component.isWorker_of_replies hbelongs.replies)
      rw [hbelongs.key, ← hkey, heq] at hge
      exact absurd hn (Nat.not_lt.2 hge)
  · next c he =>
      have hchannel : br.channel?.toList = [c] := by rw [Branch.channel?, he]; rfl
      rw [hstrays, hchannel] at hlinked
      cases hlinked with
      | @cons _ link _ rest hbridges _ =>
          refine ⟨link,
            hhere _ (List.mem_append_right _ List.mem_cons_self) fun heq => ?_,
            hbridges⟩
          have hge := hlinks link List.mem_cons_self
          rw [show link.key = channel.key from heq] at hge
          exact absurd h.scatters.1 (Nat.not_lt.2 hge)
  · trivial

/-! ## Calls of scatter-gathers -/

/-- What a scatter-gather has made of a flow and its branches. In front stand
the flow, the endpoint that it goes on behind with the channel that was made
for that to read, if one was, and the flows of taps. Then come the scatter
channel with its reader, the branches in order but without that channel, and
the gather channel with the gatherer. All that is open in the branches leads
to the gather channel, and the endpoint is what the flow goes on behind. -/
structure Builder.Gathered (b : Builder) (branches : List Branch) (n : Nat)
    (own : Endpoint) (channel : Channel) (reader : Option Endpoint)
    (gather : Channel) (gatherer : Endpoint) (b' : Builder) : Prop where
  order : ∃ made parts, b.Inlet n own made ∧
    List.Forall₂ (Builder.Linked gather) branches parts ∧
    ((b.components.map Component.key).Nodup →
      b.tapsBehind made own = b.cursor.deferred.flatMap Registry.components) ∧
    b'.registry.components = b.chainedTo made own ++ b.tapsBehind made own ++
      (.channel channel :: reader.toList.map Component.endpoint) ++
      (parts.flatten.filter fun x => x.key ≠ channel.key) ++ [.channel gather,
        .endpoint gatherer]
  /-- Each branch that ended on a bare channel gets one link. -/
  strays : ∀ br ∈ branches, strays [br] gather = br.channel?.toList
  leads : ∀ br ∈ branches, br.LeadsTo gather b'.registry.components
  gathers : gatherer.input = .channel gather ∧ gatherer.output = none ∧
    n ≤ gatherer.key.number
  cursor : b'.cursor =
    { channel := none
      tail := some ⟨own.label, true⟩
      pending :=
        some { component := own.key, owner := own.label,
               requiresReply := own.handler.requiresReply }
      deferred := [] }

theorem Step.gathered_of_called (hc : Called (.scatterGather plan scatter) b w)
    (hn : ((Step.scatterGather plan scatter).brought.map Channel.key).Nodup)
    (hfree : ∀ c ∈ (Step.scatterGather plan scatter).brought,
      ∀ x ∈ b.components, x.key ≠ c.key)
    (hy : Yields ((Step.scatterGather plan scatter).assemble b) w b' w') :
    ∃ st w₁ branches w₂ own channel reader gather gatherer,
      Yields ((Step.scatterGather plan scatter).stage b) w st w₁ ∧
      st.flows.map Prod.snd = (Step.scatterGather plan scatter).flows ∧
      YieldsAll b.runBranch w₁ st.flows branches w₂ ∧
      b.Gathered branches w₂.nextComponent own channel reader gather gatherer b' ∧
      scatter.Feeds channel gather st.flows reader ∧
      own.handler.Gathers channel gather gatherer.handler (plan.wait b.config) ∧
      (plan.wait b.config).isZero = false := by
  have hold : ∀ x ∈ b.components, x.key.number < w.nextComponent := hc.given
  have hbefore : ∀ c ∈ (Step.scatterGather plan scatter).brought,
      c.key.number < w.nextComponent := hc.given_brought
  obtain ⟨st, w₁, branches, w₂, w₃, hst, hbr, hclose, hattach⟩ := Step.of_yields hy
  obtain ⟨release, scattering, gather, hsame, hwait, hcloses, hscatters, hfeeds⟩ :=
    scatters_of_stage hst hbefore hn
  obtain rfl : w' = w₃ := (yields_attach_iff rfl hst).1 hattach
  rw [hsame] at hbr
  rw [hcloses branches] at hclose
  have hscattered := hscatters.scattered hold hfree hbr
  obtain ⟨hchannel, hgiven⟩ := List.forall_mem_cons.1 hscatters.stems
  have hgiven₁ : ∀ k ∈ st.flows.flatMap Builder.givenKeys,
      k.number < w₁.nextComponent :=
    fun k hk => (hgiven k hk).2
  obtain ⟨closed, w₄, spec, b₁, w₅, reader, gatherer, hclosed, hgathers, ha,
    hnone, hreads, hfresh, hinput, rfl, -⟩ :=
    Builder.gathered_of_yields hclose
  have hclosed : YieldsAll (fun br => br.converge b gather) w₂ branches closed w₄ :=
    hclosed
  have hle₄ : w₂.nextComponent ≤ w₄.nextComponent :=
    ((b.converge_adds branches gather).of_yields hclosed.mapM).components
  have hold₄ : ∀ x ∈ b.components, x.key.number < w₄.nextComponent := fun x hx =>
    Nat.lt_of_lt_of_le (hscattered.old x hx) hle₄
  obtain ⟨own, made, hhandler, hinlet, hnumbered, hcomponents, hcursor⟩ :=
    Builder.components_of_attach (by exact hold₄) ha
  have hnumbered :
      Numbered w₄.nextComponent (made.map Component.channel ++ [.endpoint own])
        w₅.nextComponent :=
    hnumbered
  rw [← hhandler] at hgathers
  rw [hgathers.producesReplies] at hcursor
  have hfronted : b.Fronted b₁ w₄.nextComponent w₅.nextComponent := by
    refine ⟨hnumbered.next_le, fun x hx => ?_⟩
    rw [hcomponents] at hx
    exact (Builder.key_behind hx).imp_right hnumbered.mem
  have hreader : ∀ e ∈ reader, e.Fresh w₅.nextComponent :=
    fun e he => (hreads e he).1
  have hrow := hscattered.row hclosed hfronted hreader hfresh
  have hleads := hscattered.leadsTo (Builder.sound_of_runBranches hgiven₁ hbr)
    (Builder.made_of_runBranches hgiven₁ hbr) hchannel.2 hclosed
  refine ⟨st, w₁, branches, w₂, own, scattering.channel, reader, gather, gatherer,
    hst, hscatters.steps, hbr,
    ⟨⟨made, closed.map fun br => br.registry.components, hinlet.mono hle₄,
        Builder.linked_of_converge hscattered.held hclosed, ?_, ?_⟩,
      fun br hbr => (hleads br hbr).1, fun br hbr => ?_,
      ⟨hinput, hfresh.output, ?_⟩, hcursor⟩, hfeeds reader hnone fun e he =>
        (hreads e he).2, hgathers, hwait⟩
  · exact fun hnodup => Builder.tapsBehind_eq hnodup hold₄ hnumbered
  · rw [hrow, hcomponents, ← List.flatMap_def]
  · refine Branch.LeadsTo.mono ?_ (hleads br hbr).2
    rw [hrow]
    exact fun x hx => List.mem_append_left _ (List.mem_append_right _ hx)
  · have hle₅ := hfronted.le
    rw [hfresh.key]
    have hge : w₂.nextComponent ≤ w₅.nextComponent + reader.toList.length := by
      omega
    exact hge

theorem Called.given_of_yields {s : Step} (hc : Called s b w)
    (hfresh : s.isFresh = false) (hy : Yields (s.assemble b) w b' w') :
    ∀ x ∈ b'.components, x.key.number < w'.nextComponent := by
  obtain ⟨B, ds, hbrought, htidy⟩ := hc.tidy
  have hflows : ∀ flow ∈ s.flows, LeadsWithin B flow :=
    fun flow hm => leadsWithin flow fun c hc => hbrought c (by
      rw [Step.brought_eq]
      exact List.mem_append_right _ (List.mem_flatMap.2 ⟨flow, hm, hc⟩))
  have hafter :=
    htidy.passes (Step.turns (t := ds) hbrought hflows hfresh hy).passes
  exact hafter.given_builder

/-- A scatter-gather whose flows are given channels of their own is registered
in order, all that is open in its branches leads to the gather channel, and
its endpoint knows the two channels and the handler that gathers, and waits
for some time. Whatever the flow does next binds the output of the endpoint,
and the output of the gatherer stays unset in each graph that the flow is
finished as. -/
theorem scatter_gathered (hc : Called (.scatterGather plan scatter) b w)
    (hn : ((Step.scatterGather plan scatter).brought.map Channel.key).Nodup)
    (hfree : ∀ c ∈ (Step.scatterGather plan scatter).brought,
      ∀ x ∈ b.components, x.key ≠ c.key)
    (hy : Yields ((Step.scatterGather plan scatter).assemble b) w b' w') :
    ∃ st w₁ branches w₂ own channel reader gather gatherer,
      Yields ((Step.scatterGather plan scatter).stage b) w st w₁ ∧
      st.flows.map Prod.snd = (Step.scatterGather plan scatter).flows ∧
      YieldsAll b.runBranch w₁ st.flows branches w₂ ∧
      b.Gathered branches w₂.nextComponent own channel reader gather gatherer b' ∧
      scatter.Feeds channel gather st.flows reader ∧
      own.handler.Gathers channel gather gatherer.handler (plan.wait b.config) ∧
      (plan.wait b.config).isZero = false ∧
      (∀ {s : Step} {b₁ b₂ : Builder} {v v' : Workshop}, b'.Lingers w' b₁ v →
        s.appends b₁ = true → (∀ c ∈ s.brought, b₁.Knows v c) →
        Yields (s.assemble b₁) v b₂ v' → b₂.HandsOn own.key) ∧
      ∀ g, (Step.scatterGather plan scatter).Concludes b w g →
        ∀ e ∈ g.endpoints, e.key = gatherer.key → e.output = none := by
  obtain ⟨st, w₁, branches, w₂, own, channel, reader, gather, gatherer, hst,
    hsteps, hbr, hgathered, hfeeds, hgathers, hwait⟩ :=
      Step.gathered_of_called hc hn hfree hy
  have hcursor := hgathered.cursor
  obtain ⟨made, parts, -, -, -, hrow⟩ := hgathered.order
  have hmem : .endpoint own ∈ b'.registry.components := by
    rw [hrow]
    simp [Builder.chainedTo]
  have hlast : .endpoint gatherer ∈ b'.registry.components := by
    rw [hrow]
    simp
  have hapart : own.key ≠ gatherer.key := by
    have hkeys := b'.registry.nodup_keys
    rw [hrow, List.map_append, List.nodup_append] at hkeys
    refine hkeys.2.2 _ (List.mem_map_of_mem (a := .endpoint own) ?_) _
      (List.mem_map_of_mem (a := .endpoint gatherer) ?_)
    · simp [Builder.chainedTo]
    · simp
  refine ⟨st, w₁, branches, w₂, own, channel, reader, gather, gatherer, hst,
    hsteps, hbr, hgathered, hfeeds, hgathers, hwait,
    fun hlingers happends hknown hnext => ?_, fun g hg => ?_⟩
  · refine hlingers.handsOn
      (p := { component := own.key, owner := own.label,
              requiresReply := own.handler.requiresReply })
      ⟨by rw [hcursor]; rfl, _, hmem, rfl, rfl⟩ (hc.given_of_yields rfl hy) ?_
      hknown happends hnext
    rw [hcursor]
    rintro _ ⟨⟩
  · refine hg.unset hy hlast hgathered.gathers.2.1 ?_
    rw [hcursor]
    rintro output ⟨⟩
    exact hapart

/-- The flow of a tap is held back when a scatter-gather has three recipients,
one of which is a name, and unmatched messages go on in the flow. The second
flow ends on the channel with the number 1, whose link is 11. The flow is
renamed before a bridge reads what the scatter-gather answers. -/
theorem scatter_gathered_behind_tap :
    let orders : Channel := ⟨⟨0⟩, some "orders", .direct, [], false, none⟩
    let one : Channel := ⟨⟨1⟩, some "one", .direct, [], false, none⟩
    let members : List (Option String × Destination) :=
      [(none, .flow [.handle .bridge]), (none, .target (.named "log")),
        (none, .flow [.handle .bridge, .channel (.channel (.existing one))])]
    let call : Step :=
      .scatterGather {} (.recipients { default := some .parentFlow } members)
    ∃ b₀ w₀ b w b' w' b₁ w₁ b₂ w₂ g v branches n own channel reader gather gatherer
        flows,
      Yields (Start.channel orders).make (.start 3 1) b₀ w₀ ∧
      Yields ((Step.log .info none).assemble b₀) w₀ b w ∧ Called call b w ∧
      (call.brought.map Channel.key).Nodup ∧
      (∀ c ∈ call.brought, ∀ x ∈ b.components, x.key ≠ c.key) ∧
      Yields (call.assemble b) w b' w' ∧
      Yields ((Step.withId "renamed").assemble b') w' b₁ w₁ ∧
      Yields ((Step.handle .bridge).assemble b₁) w₁ b₂ w₂ ∧
      Yields b₂.finish w₂ g v ∧
      b'.registry.components.map (fun x => x.key.number) =
        [0, 12, 3, 4, 8, 13, 5, 9, 6, 10, 1, 11, 7, 14] ∧
      b.Gathered branches n own channel reader gather gatherer b' ∧
      Scatter.Feeds channel gather flows
        (.recipients { default := some .parentFlow } members) reader ∧
      own.handler.Gathers channel gather gatherer.handler b.config.gatherTimeout ∧
      b.config.gatherTimeout.isZero = false ∧ b₂.HandsOn own.key ∧
      call.Concludes b w g ∧
      ∀ e ∈ g.endpoints, e.key = gatherer.key → e.output = none := by
  intro orders one members call
  obtain ⟨⟨b, n, b'⟩, v, hy, hall⟩ := exists_yields (m := do
      let b ← (Start.channel orders).make
      let b ← (Step.log .info none).assemble b
      let w ← get
      let b' ← call.assemble b
      let b₁ ← (Step.withId "renamed").assemble b'
      let b₂ ← (Step.handle .bridge).assemble b₁
      let _ ← b₂.finish
      return (b, w.nextComponent, b'))
    (f := fun (b, n, b') => (b.components.map fun x => x.key.number, n,
      b'.registry.components.map fun x => x.key.number))
    (w := .start 3 1)
      (y := ([0, 3, 4], 5, [0, 12, 3, 4, 8, 13, 5, 9, 6, 10, 1, 11, 7, 14]))
      (by decide +kernel)
  simp only [yields_bind, yields_get, yields_pure, Prod.mk.injEq] at hy hall
  obtain ⟨b₀, w₀, hmake, _, _, htap, _, w, ⟨rfl, rfl⟩, _, w', hcall, b₁, w₁,
    hrename, b₂, w₂, hnext, g, v, hfinish, ⟨rfl, rfl, rfl⟩, rfl⟩ := hy
  obtain ⟨hkeys, hnumber, hrow⟩ := hall
  have hbrought : call.brought = [one] := by decide
  have hnothing : ∀ {s : Step} {b : Builder} {w : Workshop}, s.brought = [] →
      ∀ c ∈ s.brought, b.Knows w c := by
    intro s b w hs c hc
    rw [hs] at hc
    cases hc
  have hfree : ∀ c ∈ call.brought, ∀ x ∈ b.components, x.key ≠ c.key := by
    have hapart : ∀ c ∈ [one], c.key.number ∉ [0, 3, 4] := by decide
    intro c hc x hx heq
    have hx := List.mem_map_of_mem (f := fun x : Component => x.key.number) hx
    rw [hkeys, heq] at hx
    rw [hbrought] at hc
    exact hapart c hc hx
  have hstart : Underway (fun _ => True) [] b₀ w₀ [.first b₀] :=
    .start (by simp [Start.brought, orders, Workshop.start]) hmake
  obtain ⟨history, hunderway, -⟩ :=
    hstart.exists_call rfl (fun c hc => ⟨trivial, hnothing (by decide) c hc⟩) htap
  have hmade : ∀ c ∈ [one], c.key.number < 5 := by decide
  have hknown : ∀ c ∈ call.brought, b.Knows w c := fun c hc =>
    ⟨by rw [hnumber]; rw [hbrought] at hc; exact hmade c hc,
      fun x hx heq => absurd heq (hfree c hc x hx)⟩
  have hcalled : Called call b w := .own hunderway hknown
  have hdistinct : (call.brought.map Channel.key).Nodup := by
    rw [hbrought]
    decide
  have hconcludes : call.Concludes b w g := .own hunderway rfl hknown hcall
    (.call rfl (hnothing (by decide)) hrename
      (.call rfl (hnothing (by decide)) hnext (.finish hfinish)))
  obtain ⟨st, v₁, branches, v₂, own, channel, reader, gather, gatherer, -, -,
    -, hgathered, hfeeds, hgathers, hwait, hbinds, hunset⟩ :=
      scatter_gathered hcalled hdistinct hfree hcall
  exact ⟨b₀, w₀, b, w, b', w', b₁, w₁, b₂, w₂, g, v, branches, _, own, channel,
    reader, gather, gatherer, st.flows, hmake, htap, hcalled, hdistinct, hfree,
    hcall, hrename, hnext, hfinish, hrow, hgathered, hfeeds, hgathers, hwait,
    hbinds (.call rfl rfl hrename (.here b₁ w₁)) rfl (hnothing (by decide)) hnext,
    hconcludes, hunset g hconcludes⟩

end

end FlowAssembly
