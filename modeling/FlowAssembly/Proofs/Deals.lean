import FlowAssembly.Proofs.Turns
import Mathlib.Algebra.Order.Group.Multiset
import Mathlib.Tactic.Abel

/-!
# Deals

What a turn does with the components of its desk: it may set one output, in
the part of the stock where that component stands; it may register what lay
ready; and there may be something new. Nothing else comes or goes, so a
property that these three keep is kept by every turn.
-/

namespace FlowAssembly

namespace Component

variable {own : Channel → Bool}

/-- What becomes of a component when an output is set. -/
def settled : Option (PendingOutput × Target) → Component → Component
  | some (output, target) => boundTo output.component target
  | none => id

@[simp]
theorem key_settled (o : Option (PendingOutput × Target)) (x : Component) :
    (x.settled o).key = x.key := by
  cases o with
  | none => rfl
  | some binding => exact key_boundTo ..

@[simp]
theorem stamp_settled (o : Option (PendingOutput × Target)) (x : Component) :
    (x.settled o).stamp own = x.stamp own := by
  cases o with
  | none => rfl
  | some binding => exact stamp_boundTo ..

theorem settled_eq_or (o : Option (PendingOutput × Target)) (x : Component) :
    x.settled o = x ∨ ∃ target, x.settled o = x.withOutput target := by
  cases o with
  | none => exact .inl rfl
  | some binding =>
      by_cases hk : x.key = binding.1.component
      · exact .inr ⟨binding.2, if_pos hk⟩
      · exact .inl (boundTo_of_ne hk binding.2)

@[simp]
theorem settled_channel (o : Option (PendingOutput × Target)) (c : Channel) :
    (Component.channel c).settled o = .channel c := by
  cases o with
  | none => rfl
  | some binding => exact boundTo_channel ..

end Component

/-- What setting the pending output of a builder comes to. -/
def Builder.binding (b : Builder) (target : Target) :
    Option (PendingOutput × Target) :=
  b.cursor.pending.map fun output => (output, target)

theorem Builder.bound_eq (b : Builder) (target : Target) :
    b.bound target = Component.settled (b.binding target) := by
  unfold bound binding
  cases b.cursor.pending <;> rfl

/-- What may come to a desk: nothing, a component with the next key, or a copy
of a channel. -/
inductive Newcomer (brought : Channel → Prop) (d : Desk) (n : Nat) :
    Option Component → Nat → Prop
  | none {n' : Nat} : n ≤ n' → Newcomer brought d n none n'
  | made {x : Component} : x.key = ⟨n⟩ → x.output? = none →
      Newcomer brought d n (some x) (n + 1)
  | copy {c : Channel} : d.Lends brought c →
      Newcomer brought d n (some (.channel c)) n

/-- An account of one turn. -/
structure Deal where
  /-- The output that is set, and what it is set to. -/
  bound : Option (PendingOutput × Target) := none
  /-- Where the output is set. -/
  part : List Component := []
  rest : List Component
  /-- What lay ready and is registered. -/
  used : List Component := []
  /-- What is registered or lies ready, and was not there before. -/
  new : Option Component := none

/-- The account is true of a turn at a desk. -/
structure Deal.Explains (deal : Deal) (brought : Channel → Prop) (d : Desk)
    (n : Nat) (d' : Desk) (n' : Nat) :
    Prop where
  split : d.registered.Perm (deal.part ++ deal.rest)
  registered :
    Condenses (deal.part.map (Component.settled deal.bound) ++ deal.rest ++
      deal.used) d'.registered
  loose : (deal.used ++ d'.loose).Subperm (d.loose ++ deal.new.toList)
  bound : ∀ binding ∈ deal.bound, d.builder.cursor.pending = some binding.1 ∧
    d.builder.registry.components ⊆ deal.part ∨
    ∃ br ∈ d.branches, br.ending = .pending binding.1 ∧
      br.registry.components ⊆ deal.part
  new : Newcomer brought d n deal.new n'

/-- The keys on a desk behind a turn are those before it and those of what was
registered. -/
theorem Deal.Explains.mem_keys {deal : Deal} {brought : Channel → Prop}
    {d d' : Desk} {n n' : Nat} (h : deal.Explains brought d n d' n')
    {k : ComponentKey} :
    k ∈ d'.registered.map Component.key ↔
      k ∈ d.registered.map Component.key ∨ k ∈ deal.used.map Component.key := by
  rw [h.registered.mem_keys_iff, (h.split.map Component.key).mem_iff]
  simp only [List.map_append, List.map_map, Function.comp_def,
    Component.key_settled, List.mem_append]

/-- The channel that branches meet on stands in one of them, if it is not a
new one. -/
def Desk.Meets (d : Desk) : Prop :=
  ∀ m ∈ d.merge, m.isNew = false → m.channel.key ∈ d.branched.map Component.key

namespace Desk

variable {brought : Channel → Prop} {d d' : Desk} {used : List Component}
  {new : Option Component} {b' : Builder} {n n' : Nat}

/-- Where no output is set. -/
theorem explains_kept (hr : Condenses (d.registered ++ used) d'.registered)
    (hl : (used ++ d'.loose).Subperm (d.loose ++ new.toList))
    (hn : Newcomer brought d n new n') :
    Deal.Explains { rest := d.registered, used, new } brought d n d' n' where
  split := .refl _
  registered := hr
  loose := hl
  bound := nofun
  new := hn

/-- Where nothing is registered either. -/
theorem explains_same (hr : Condenses d.registered d'.registered)
    (hl : d'.loose.Subperm d.loose) (hn : n ≤ n') :
    Deal.Explains { rest := d.registered } brought d n d' n' :=
  explains_kept (by simpa using hr) (by simpa using hl) (.none hn)

theorem explains_append {b : Builder} {branches : List Branch}
    {channels rest : List Channel} {merge : Option Meeting} {s : ChannelSource}
    (hp : (channels.map Component.channel).Perm
      (Builder.sourceChannels s ++ rest.map Component.channel)) :
    Deal.Explains
      { bound := s.target?.bind b.binding
        part := b.registry.components
        rest := b.cursor.deferred.flatMap Registry.components ++
          branches.flatMap fun br => br.registry.components
        used := Builder.sourceChannels s }
      brought ⟨b, branches, channels, merge⟩ n ⟨b.appended s, branches, rest,
        merge⟩ n where
  split := by
    simp only [registered, branched, Builder.components_eq, List.append_assoc]
    exact .refl _
  registered := by
    have hbound : b.boundBy s = Component.settled (s.target?.bind b.binding) := by
      unfold Builder.boundBy
      cases s.target? with
      | none => rfl
      | some target => exact b.bound_eq target
    have hchannels : (Builder.sourceChannels s).map (b.boundBy s) =
        Builder.sourceChannels s := by
      rw [hbound]
      cases s <;> simp [Builder.sourceChannels]
    have h := (b.condenses_appended s).append_right
      (branches.flatMap fun br => br.registry.components)
    rw [List.map_append, hchannels, hbound] at h
    refine h.perm_left ?_
    rw [← Multiset.coe_eq_coe]
    simp only [← Multiset.coe_add]
    abel
  loose := by
    refine (List.Perm.subperm ?_)
    simp only [Desk.loose, List.append_nil, Option.toList_none]
    rw [← List.append_assoc]
    exact hp.symm.append_right _
  bound binding hb := by
    obtain ⟨target, -, hb⟩ := Option.bind_eq_some_iff.1 hb
    obtain ⟨output, hpending, rfl⟩ := Option.map_eq_some_iff.1 hb
    exact .inl ⟨hpending, List.Subset.refl _⟩
  new := .none (Nat.le_refl n)

theorem explains_attach {b : Builder} {sides kept : List Branch}
    {channels rest : List Channel} {merge : Option Meeting} {e : Endpoint}
    {input : ResolvedInput}
    (hr : Reads e.handler b.cursor.channel channels input rest) (he : e.Fresh n) :
    Deal.Explains
      { bound := b.binding input.target
        part := b.registry.components ++ sides.flatMap fun br =>
          br.registry.components
        rest := b.cursor.deferred.flatMap Registry.components ++
          kept.flatMap fun br => br.registry.components
        used := Builder.madeChannels input ++ [.endpoint e]
        new := some (.endpoint e) }
      brought ⟨b, sides ++ kept, channels, merge⟩ n
      ⟨b.wired input (sides.map Branch.registry) e, kept, rest, merge⟩ (n + 1) where
  split := by
    simp only [registered, branched, Builder.components_eq, List.flatMap_append]
    rw [← Multiset.coe_eq_coe]
    simp only [← Multiset.coe_add]
    abel
  registered := by
    have hmade : (Builder.madeChannels input).map (b.bound input.target) =
        Builder.madeChannels input := by
      simp [Builder.madeChannels]
    have h := (b.condenses_wired input (sides.map Branch.registry) e).append_right
      (kept.flatMap fun br => br.registry.components)
    rw [List.map_append, hmade, List.flatMap_map, b.bound_eq] at h
    refine h.perm_left ?_
    rw [← Multiset.coe_eq_coe]
    simp only [← Multiset.coe_add]
    abel
  loose := by
    have hchannels : (channels.map Component.channel).Perm
        (Builder.madeChannels input ++ rest.map Component.channel) := by
      generalize b.cursor.channel = current at hr
      cases hr with
      | channel | named => exact .refl _
      | marker _ hp | none hp => exact hp.map Component.channel
    refine List.Perm.subperm ?_
    simp only [Desk.loose, Option.toList_some]
    refine List.Perm.trans ?_
      ((hchannels.symm.append_right _).append_right [.endpoint e])
    rw [← Multiset.coe_eq_coe]
    simp only [← Multiset.coe_add]
    abel
  bound binding hb := by
    obtain ⟨output, hpending, rfl⟩ := Option.map_eq_some_iff.1 hb
    exact .inl ⟨hpending, List.subset_append_left _ _⟩
  new := .made he.key he.output

theorem explains_link {b : Builder} {done todo : List Branch} {br : Branch}
    {channels : List Channel} {merge : Option Meeting} {e : Endpoint}
    (ending : Ending) (he : e.Fresh n) :
    Deal.Explains
      { rest := (Desk.mk b (done ++ br :: todo) channels merge).registered
        used := [.endpoint e]
        new := some (.endpoint e) }
      brought ⟨b, done ++ br :: todo, channels, merge⟩ n
      ⟨b, done ++ ⟨br.registry.add (.endpoint e), ending⟩ :: todo, channels, merge⟩
        (n + 1) := by
  refine explains_kept ?_ List.perm_append_comm.subperm (.made he.key he.output)
  have h := br.registry.condenses_add (.endpoint e)
  have hall :=
    ((Condenses.refl
        (b.components ++ done.flatMap fun br => br.registry.components)).append
      h).append_right (todo.flatMap fun br => br.registry.components)
  simp only [registered, branched, List.flatMap_append, List.flatMap_cons]
  refine hall.perm ?_ (by simp)
  rw [← Multiset.coe_eq_coe]
  simp only [← Multiset.coe_add]
  abel

theorem explains_bind {b : Builder} {done todo : List Branch} {br : Branch}
    {channels : List Channel} {merge : Option Meeting} {output : PendingOutput}
    (target : Target) (hp : br.ending = .pending output) :
    Deal.Explains
      { bound := some (output, target)
        part := br.registry.components
        rest := b.components ++ (done ++ todo).flatMap fun br =>
          br.registry.components }
      brought ⟨b, done ++ br :: todo, channels, merge⟩ n
      ⟨b, done ++ ⟨br.registry.bindOutput output.component target, .closed⟩ :: todo,
        channels, merge⟩ n where
  split := by
    simp only [registered, branched, List.flatMap_append, List.flatMap_cons]
    rw [← Multiset.coe_eq_coe]
    simp only [← Multiset.coe_add]
    abel
  registered := by
    refine .of_perm ?_
    have hbound : (br.registry.bindOutput output.component target).components =
        br.registry.components.map (Component.settled (some (output, target))) :=
      Registry.components_bindOutput ..
    simp only [registered, branched, List.flatMap_append, List.flatMap_cons, hbound]
    rw [← Multiset.coe_eq_coe]
    simp only [← Multiset.coe_add, Multiset.coe_nil]
    abel
  loose := by
    rw [Option.toList_none, List.append_nil]
    exact List.Subperm.refl _
  bound binding hb := by
    cases hb
    exact .inr ⟨br, by simp, hp, List.Subset.refl _⟩
  new := .none (Nat.le_refl n)

theorem explains_post {b : Builder} {branches : List Branch}
    {channels rest : List Channel} {merge : Option Meeting} {c : Channel}
    {reader : Option Endpoint} (hp : channels.Perm (c :: rest))
    (he : ∀ e ∈ reader, e.Fresh n) :
    Deal.Explains
      { rest := (Desk.mk b branches channels merge).registered
        used := [.channel c] ++ reader.toList.map Component.endpoint
        new := reader.map Component.endpoint }
      brought ⟨b, branches, channels, merge⟩ n
        ⟨b.posted c reader, branches, rest, merge⟩
      (n + reader.toList.length) := by
  refine explains_kept ?_ ?_ ?_
  · have h := (b.condenses_posted c reader).append_right
      (branches.flatMap fun br => br.registry.components)
    refine h.perm_left ?_
    simp only [registered, branched]
    rw [← Multiset.coe_eq_coe]
    simp only [← Multiset.coe_add]
    abel
  · refine List.Perm.subperm ?_
    have hchannels :
        (channels.map Component.channel).Perm ([.channel c] ++
          rest.map Component.channel) :=
      hp.map Component.channel
    have hreader : (reader.map Component.endpoint).toList =
        reader.toList.map Component.endpoint := by
      cases reader <;> rfl
    rw [hreader]
    simp only [Desk.loose]
    refine List.Perm.trans ?_ ((hchannels.symm.append_right _).append_right _)
    rw [← Multiset.coe_eq_coe]
    simp only [← Multiset.coe_add]
    abel
  · cases reader with
    | none => exact .none (Nat.le_refl n)
    | some e => exact .made (he e rfl).key (he e rfl).output

/-- The channel that the branches met on is in one of them, or it lay ready. -/
theorem explains_merge {b : Builder} {branches : List Branch}
    {channels : List Channel} {m : Meeting} {e : Endpoint}
    (hm : (Desk.mk b branches channels (some m)).Meets) (he : e.Fresh n)
    (hpending : b.cursor.pending = none) :
    Deal.Explains
      { rest := (Desk.mk b branches channels (some m)).registered
        used := m.components ++ [.endpoint e]
        new := some (.endpoint e) }
      brought ⟨b, branches, channels, some m⟩ n
      ⟨(b.mergedOn branches m.channel).wired ⟨.channel m.channel, none⟩ [] e,
        [], channels, none⟩ (n + 1) := by
  have hstood :
      Condenses
        (b.components ++ (branches.flatMap fun br => br.registry.components) ++
          m.components) (b.mergedOn branches m.channel).components := by
    unfold Meeting.components
    split
    · exact b.condenses_mergedOn branches m.channel
    · next hold =>
        rw [List.append_nil]
        exact Builder.condenses_mergedOn_of_mem (hm m rfl (by simpa using hold))
  have hwired :=
    (b.mergedOn branches m.channel).condenses_wired ⟨.channel m.channel, none⟩ [] e
  have hbound :
      (b.mergedOn branches m.channel).bound (.channel m.channel) = id := by
    rw [Builder.bound_eq]
    show Component.settled (Option.map _ b.cursor.pending) = id
    rw [hpending]
    rfl
  rw [hbound, List.map_id, List.flatMap_nil, Builder.madeChannels, List.append_nil]
    at hwired
  refine explains_kept ?_ ?_ (.made he.key he.output)
  · simp only [registered, branched, List.flatMap_nil, List.append_nil]
    rw [← List.append_assoc]
    refine ((hstood.append_right [.endpoint e]).trans ?_)
    refine hwired.perm_left ?_
    rw [Builder.components_eq, ← Multiset.coe_eq_coe]
    simp only [← Multiset.coe_add, Option.toList_none, List.map_nil,
      Multiset.coe_nil]
    abel
  · refine List.Perm.subperm ?_
    simp only [Desk.loose, Option.toList_some, Option.toList_none, List.flatMap_nil,
      List.flatMap_cons, List.append_nil]
    rw [← Multiset.coe_eq_coe]
    simp only [← Multiset.coe_add]
    abel

theorem explains_tend {b : Builder} {done todo : List Branch} {br br' : Branch}
    {channels : List Channel} {merge : Option Meeting}
    (h : Tends merge n br br' n') :
    ∃ deal : Deal,
      deal.Explains brought ⟨b, done ++ br :: todo, channels, merge⟩ n ⟨b,
        done ++ br' :: todo, channels, merge⟩ n' := by
  have hsame : br'.registry = br.registry → n' = n →
      Deal.Explains
        { rest := (Desk.mk b (done ++ br :: todo) channels merge).registered }
        brought ⟨b, done ++ br :: todo, channels, merge⟩ n ⟨b, done ++ br' :: todo,
          channels, merge⟩ n' := by
    rintro hr rfl
    refine explains_same (.of_perm (.of_eq ?_)) (List.Subperm.refl _)
      (Nat.le_refl _)
    simp only [registered, branched, List.flatMap_append, List.flatMap_cons, hr]
  cases h with
  | link _ _ he => exact ⟨_, explains_link _ he⟩
  | bind hp => exact ⟨_, explains_bind _ hp⟩
  | leave | meet => exact ⟨_, hsame rfl rfl⟩

theorem condenses_stow (h : Stows d.builder d.branches b') :
    Condenses d.registered b'.components := by
  cases h with
  | absorb => exact d.builder.condenses_absorb d.branches
  | hold => exact d.builder.condenses_holding d.branches

end Desk

/-- There is an account of every turn at a desk. -/
theorem Work.explains {brought : Channel → Prop} {d d' : Desk} {link : Option Link}
    {n n' : Nat} (h : Work brought d n link d' n') (hm : d.Meets) :
    ∃ deal : Deal, deal.Explains brought d n d' n' := by
  have hsame : ∀ {d d' : Desk} {n n' : Nat}, d.registered = d'.registered →
      d'.loose.Perm d.loose → n ≤ n' →
      ∃ deal : Deal, deal.Explains brought d n d' n' :=
    fun hr hl hn => ⟨_, Desk.explains_same (hr ▸ Condenses.refl _) hl.subperm hn⟩
  obtain ⟨b, branches, channels, merge⟩ := d
  cases h with
  | idle hr hc hn =>
      refine hsame ?_ (.refl _) hn
      rw [Desk.registered, Desk.registered, Builder.components_congr hr hc]
      rfl
  | @take c _ _ hc =>
      refine ⟨{ rest := _, new := some (.channel c) }, Desk.explains_kept ?_ ?_ ?_⟩
      · rw [List.append_nil]
        exact .refl _
      · refine List.Perm.subperm ?_
        simp only [Desk.loose, List.map_append, Option.toList_some, List.nil_append]
        rw [← Multiset.coe_eq_coe]
        simp only [← Multiset.coe_add]
        exact add_right_comm _ _ _
      · rcases hc with ⟨hk, rfl⟩ | ⟨hl, rfl⟩
        · exact .made hk rfl
        · exact .copy hl
  | shed hp =>
      refine ⟨_, Desk.explains_same (.refl _) ?_ (Nat.le_refl _)⟩
      have hsub := (List.sublist_cons_self _ _).subperm.trans
        (hp.map Component.channel).symm.subperm
      exact hsub.append (List.Subperm.refl _)
  | append _ _ hp => exact ⟨_, Desk.explains_append hp⟩
  | attach _ hd _ _ hr _ he =>
      obtain rfl : branches = _ := hd
      exact ⟨_, Desk.explains_attach hr he⟩
  | tend hd h =>
      obtain rfl : branches = _ := hd
      exact Desk.explains_tend h
  | meetReady _ hnone hp =>
      obtain rfl : merge = none := hnone
      refine hsame rfl ?_ (Nat.le_refl _)
      have hchannels := hp.map Component.channel
      simpa [Desk.loose, Meeting.components]
        using List.perm_append_comm.trans hchannels.symm
  | meetBare _ hnone =>
      obtain rfl : merge = none := hnone
      exact hsame rfl (by simp [Desk.loose, Meeting.components]) (Nat.le_refl _)
  | part hsome =>
      obtain rfl : merge = _ := hsome
      refine hsame rfl ?_ (Nat.le_refl _)
      simpa [Desk.loose, Meeting.components]
        using (List.perm_append_singleton _ _).symm
  | stow _ hnone hs =>
      refine ⟨_, Desk.explains_same ?_ (List.Subperm.refl _) (Nat.le_refl _)⟩
      simpa [Desk.registered, Desk.branched] using Desk.condenses_stow
        (d := ⟨b, branches, channels, merge⟩) hs
  | merge hsome _ _ hpending _ _ he =>
      obtain rfl : merge = _ := hsome
      exact ⟨_, Desk.explains_merge hm he hpending⟩
  | post _ hp he => exact ⟨_, Desk.explains_post hp fun e hm => (he e hm).1⟩

end FlowAssembly
