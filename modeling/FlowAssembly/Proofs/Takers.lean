import FlowAssembly.Proofs.Consumers
import FlowAssembly.Proofs.Gathering

/-!
# Who takes what a channel carries

An endpoint that reads a channel takes what it carries, and as long as a flow
or a branch stands on the channel its next endpoint will. The number of these
*takers* is what a call keeps, if it does not use the channel itself: an
endpoint that is attached takes the place of the flow that stood on the
channel, a link that of the branch that ended on it, and the bridge behind a
channel that branches meet on that of the branch that it comes of.

Counting is safe since nothing that reads is lost or doubled when registries
are added to one another: what a builder and its branches hold condenses into
what it holds afterwards, and no worker among the parts shares its key.
-/

namespace FlowAssembly

open Assembly

/-! ## Counting -/

/-- Whether it is an endpoint that reads the channel with the key. -/
def Component.reads (k : ComponentKey) : Component → Bool
  | .endpoint e => e.inputKey? = some k
  | .channel _ | .source _ => false

/-- How many of the components read the channel with the key. -/
def readers (k : ComponentKey) (xs : List Component) : Nat :=
  xs.countP (Component.reads k)

/-- How many stand on the channel with the key. -/
def standers (k : ComponentKey) (opened : List Channel) : Nat :=
  opened.countP fun c => c.key = k

section

variable {k : ComponentKey} {parts whole xs ys : List Component}
  {links : List Endpoint} {opened : List Channel}

theorem Component.isWorker_of_reads {x : Component} (h : x.reads k = true) :
    x.isWorker = true := by
  cases x with
  | endpoint e => rfl
  | channel | source => cases h

@[simp]
theorem Component.reads_withOutput (target : Target) (x : Component) :
    (x.withOutput target).reads k = x.reads k := by
  cases x <;> rfl

/-- Where no channel is marked, workers are. -/
theorem Component.marked_false (x : Component) :
    x.marked (fun _ => false) = x.isWorker := by
  cases x <;> rfl

theorem Component.reads_boundTo (key : ComponentKey) (target : Target)
    (x : Component) :
    (x.boundTo key target).reads k = x.reads k := by
  unfold boundTo
  split
  · exact reads_withOutput target x
  · rfl

theorem Builder.reads_bound (b : Builder) (target : Target) (x : Component) :
    (b.bound target x).reads k = x.reads k := by
  unfold bound
  cases b.cursor.pending with
  | some pending => exact Component.reads_boundTo ..
  | none => rfl

theorem readers_append (k : ComponentKey) (xs ys : List Component) :
    readers k (xs ++ ys) = readers k xs + readers k ys := List.countP_append

theorem standers_append (k : ComponentKey) (xs ys : List Channel) :
    standers k (xs ++ ys) = standers k xs + standers k ys := List.countP_append

theorem readers_map {f : Component → Component}
    (hf : ∀ x, (f x).reads k = x.reads k) (xs : List Component) :
    readers k (xs.map f) = readers k xs := by
  rw [readers, List.countP_map]
  exact List.countP_congr fun x _ => by rw [Function.comp_apply, hf]

theorem readers_perm (h : xs.Perm ys) : readers k xs = readers k ys := h.countP_eq _

theorem readers_channels (k : ComponentKey) (channels : List Channel) :
    readers k (channels.map Component.channel) = 0 := by
  rw [readers, List.countP_map, List.countP_eq_zero]
  exact fun _ _ => Bool.false_ne_true

/-- Bridges that read each a channel are as many readers as there are
channels. -/
theorem readers_links {output : Option Target}
    (h : List.Forall₂ (fun c link => link.Bridges c output) opened links) :
    readers k (links.map Component.endpoint) = standers k opened := by
  induction h with
  | nil => rfl
  | @cons c link opened links hbridges _ ih =>
      have hkey : link.inputKey? = some c.key := by
        rw [Endpoint.inputKey?, hbridges.input]; rfl
      rw [readers, standers, List.map_cons, List.countP_cons, List.countP_cons,
        ← readers, ih, standers]
      simp [Component.reads, hkey]

theorem standers_eq_zero (h : ∀ c ∈ opened, c.key ≠ k) : standers k opened = 0 :=
  List.countP_eq_zero.2 fun c hc heq => h c hc (of_decide_eq_true heq)

theorem standers_pos {c : Channel} (h : c ∈ opened) : 0 < standers c.key opened :=
  List.countP_pos_iff.2 ⟨c, h, decide_eq_true rfl⟩

/-- Nothing that reads is lost or doubled where parts become a whole. -/
theorem Condenses.readers (h : Condenses parts whole)
    (hc : Clear (fun _ => false) parts) (k : ComponentKey) :
    readers k whole = readers k parts := by
  refine Nat.le_antisymm (h.subperm.countP_le _) ?_
  have hnodup : (parts.filter (Component.reads k)).Nodup := by
    refine ((List.pairwise_map.1 hc).filter _).imp_of_mem
      fun {x y} hx _ hapart heq => ?_
    exact hapart
      (.inl
        (Component.marked_of_isWorker
          (Component.isWorker_of_reads (List.mem_filter.1 hx).2)))
      (congrArg Component.key heq)
  have hsub : parts.filter (Component.reads k) ⊆ whole.filter (Component.reads k) :=
    fun x hx => by
      obtain ⟨hx, hreads⟩ := List.mem_filter.1 hx
      exact List.mem_filter.2
        ⟨(h.mem_iff hc
            (Component.marked_of_isWorker (Component.isWorker_of_reads hreads))).2
            hx, hreads⟩
  rw [FlowAssembly.readers, FlowAssembly.readers, List.countP_eq_length_filter,
    List.countP_eq_length_filter]
  exact (hnodup.subperm hsub).length_le

/-- Condensing leaves things clear. -/
theorem Condenses.clear {own : Channel → Bool} (h : Condenses parts whole)
    (hc : Clear own parts) : Clear own whole :=
  hc.of_subperm (subperm_map h.subperm _)

/-- What stands apart from older things by its numbers, or is known to share
its key with no worker among them. -/
theorem Clear.behind {n : Nat} (h : Clear (fun _ => false) xs)
    (h' : Clear (fun _ => false) ys) (hold : ∀ x ∈ xs, x.key.number < n)
    (hnew : ∀ y ∈ ys, n ≤ y.key.number ∨ y.isWorker = false ∧
      ∀ x ∈ xs, x.key = y.key → x.isWorker = false) :
    Clear (fun _ => false) (xs ++ ys) := by
  refine append_iff.2 ⟨h, h', fun x hx y hy hmark heq => ?_⟩
  rw [Component.marked_false, Component.marked_false] at hmark
  have hlt := hold x hx
  rcases hnew y hy with hge | ⟨hidle, hspared⟩
  · rw [heq] at hlt
    exact absurd hge (Nat.not_le.2 hlt)
  · rw [hidle, hspared x hx heq] at hmark
    exact hmark.elim Bool.false_ne_true Bool.false_ne_true

/-- What leaves the stamps as they are leaves things clear. -/
theorem Clear.map {own : Channel → Bool} {f : Component → Component}
    (h : Clear own (xs ++ ys)) (hf : ∀ x, (f x).stamp own = x.stamp own) :
    Clear own (xs.map f ++ ys) := by
  refine h.of_subperm (List.Perm.of_eq ?_).subperm
  rw [List.map_append, List.map_append, List.map_map]
  exact congrArg (· ++ _) (List.map_congr_left fun x _ => hf x)

theorem Builder.stamp_bound {own : Channel → Bool} (b : Builder) (target : Target)
    (x : Component) :
    (b.bound target x).stamp own = x.stamp own := by
  rw [bound_eq]
  exact Component.stamp_settled _ x

end

/-- The key is none of those that were given out from one number up to the
other. -/
def ComponentKey.Outside (k : ComponentKey) (n n' : Nat) : Prop :=
  k.number < n ∨ n' ≤ k.number

namespace ComponentKey.Outside

variable {k c : ComponentKey} {n n₁ n' : Nat}

theorem ne (h : k.Outside n n') (hge : n ≤ c.number) (hlt : c.number < n') :
    c ≠ k := by
  rintro rfl
  rcases h with h | h <;> omega

theorem sub {m m' : Nat} (h : k.Outside n n') (hle : n ≤ m) (hle' : m' ≤ n') :
    k.Outside m m' := by
  rcases h with h | h
  · exact .inl (Nat.lt_of_lt_of_le h hle)
  · exact .inr (Nat.le_trans hle' h)

end ComponentKey.Outside

/-! ## Builders and branches -/

/-- The takers of a flow: what it holds that reads the channel, and the flow
itself if it stands on it. -/
def Builder.takers (b : Builder) (k : ComponentKey) : Nat :=
  readers k b.components + standers k b.opened

/-- The takers of branches. -/
def branchTakers (k : ComponentKey) (branches : List Branch) : Nat :=
  readers k (branches.flatMap fun br => br.registry.components) + standers k
    (branches.flatMap Branch.opened)

/-- Nothing that works shares its key in the flow, and the numbers from `n` on
are free. -/
structure Builder.Neat (b : Builder) (n : Nat) : Prop where
  clear : Clear (fun _ => false) b.components
  given : ∀ x ∈ b.components, x.key.number < n

section

variable {b b' b₁ : Builder} {br : Branch} {branches closed : List Branch}
  {c m : Channel} {k : ComponentKey} {e : Endpoint} {input : ResolvedInput}
  {source : ChannelSource} {spec : EndpointSpec} {n n' : Nat} {w w' : Workshop}

theorem branchTakers_cons (k : ComponentKey) (br : Branch)
    (branches : List Branch) :
    branchTakers k (br :: branches) = branchTakers k [br] +
      branchTakers k branches := by
  simp only [branchTakers, List.flatMap_cons, List.flatMap_nil, List.append_nil,
    readers_append, standers_append]
  omega

theorem branchTakers_append (k : ComponentKey) (branches others : List Branch) :
    branchTakers k (branches ++ others) = branchTakers k branches +
      branchTakers k others := by
  simp only [branchTakers, List.flatMap_append, readers_append, standers_append]
  omega

theorem Branch.opened_eq (br : Branch) : br.opened = br.channel?.toList := by
  unfold opened channel?
  cases br.ending <;> rfl

theorem opened_of_branches (branches : List Branch) :
    branches.flatMap Branch.opened = branches.filterMap Branch.channel? := by
  induction branches with
  | nil => rfl
  | cons br branches ih =>
      rw [List.flatMap_cons, ih, Branch.opened_eq, List.filterMap_cons]
      cases br.channel? <;> rfl

/-- Branches of which none is open stand on nothing. -/
theorem opened_of_shut (h : ¬ branches.any Branch.isOpen = true) :
    branches.flatMap Branch.opened = [] := by
  refine List.flatMap_eq_nil_iff.2 fun br hbr => ?_
  have hclosed : ¬ br.isOpen = true :=
    fun hopen => h (List.any_eq_true.2 ⟨br, hbr, hopen⟩)
  unfold Branch.isOpen at hclosed
  unfold Branch.opened
  split
  · next he => simp [he] at hclosed
  · rfl

namespace Builder

theorem opened_of_none (h : b.cursor.channel = none) : b.opened = [] := by
  rw [opened, h]

theorem standers_opened (b : Builder) (k : ComponentKey) :
    standers k b.opened = if b.currentKey? = some k then 1 else 0 := by
  unfold opened currentKey?
  cases b.cursor.channel with
  | none => rfl
  | some source => cases source <;> simp [standers, List.countP_singleton]

theorem Neat.mono (h : b.Neat n) (hle : n ≤ n') : b.Neat n' :=
  ⟨h.clear, fun x hx => Nat.lt_of_lt_of_le (h.given x hx) hle⟩

theorem Neat.spares_of_new (h : b.Neat n) (hk : n ≤ k.number) : b.Spares k := by
  intro x hx heq
  have hlt := h.given x hx
  rw [heq] at hlt
  exact absurd hk (Nat.not_le.2 hlt)

theorem channel_appended_opened (b : Builder) (source : ChannelSource) :
    (b.appended source).opened.map Component.channel = sourceChannels source := by
  unfold opened
  rw [channel_appended]
  cases source <;> rfl

/-! ## One operation after the other -/

/-- Where a flow stands on nothing it takes up what it goes on through, and
nothing else changes hands. -/
theorem takers_appended (hb : b.Neat n) (hnone : b.cursor.channel = none)
    (hs : ∀ c, source = .channel c → b.Spares c.key ∧ c.key.number < n) :
    (b.appended source).Neat n ∧
    ∀ k,
      (b.appended source).takers k = b.takers k +
        standers k (b.appended source).opened := by
  have hcondenses := b.condenses_appended source
  have hbound : b.boundBy source = id ∨
      ∃ target, b.boundBy source = b.bound target := by
    unfold boundBy
    cases source.target? with
    | some target => exact .inr ⟨target, rfl⟩
    | none => exact .inl rfl
  have hstamp : ∀ x,
      (b.boundBy source x).stamp (fun _ => false) = x.stamp (fun _ => false) := by
    rcases hbound with h | ⟨target, h⟩ <;> rw [h]
    · exact fun _ => rfl
    · exact b.stamp_bound target
  have hreads : ∀ k x, (b.boundBy source x).reads k = x.reads k := by
    intro k
    rcases hbound with h | ⟨target, h⟩ <;> rw [h]
    · exact fun _ => rfl
    · exact b.reads_bound target
  have hsource : ∀ x ∈ sourceChannels source, ∃ c, source = .channel c ∧
      x = .channel c := by
    intro x hx
    cases source with
    | channel c => exact ⟨c, rfl, List.mem_singleton.1 hx⟩
    | named | fixedSubscriber => cases hx
  have hclear : Clear (fun _ => false) (b.components ++ sourceChannels source) := by
    refine hb.clear.behind (n := n) ?_ hb.given fun x hx => ?_
    · cases source with
      | channel c => exact List.pairwise_singleton _ _
      | named | fixedSubscriber => exact List.Pairwise.nil
    · obtain ⟨c, hc, rfl⟩ := hsource x hx
      exact .inr ⟨rfl, (hs c hc).1⟩
  have hperm :
      (b.registry.components ++ sourceChannels source ++
          b.cursor.deferred.flatMap Registry.components).Perm
        (b.components ++ sourceChannels source) := by
    rw [components_eq, List.append_assoc, List.append_assoc]
    exact List.perm_append_comm.append_left _
  have hparts :
      Clear (fun _ => false)
        ((b.registry.components ++ sourceChannels source).map (b.boundBy source) ++
          b.cursor.deferred.flatMap Registry.components) :=
    Clear.map (hclear.of_subperm (hperm.map _).subperm) hstamp
  refine ⟨⟨hcondenses.clear hparts, fun x hx => ?_⟩, fun k => ?_⟩
  · rcases List.mem_append.1 (hcondenses.subperm.subset hx) with hx | hx
    · obtain ⟨y, hy, rfl⟩ := List.mem_map.1 hx
      have hkey : (b.boundBy source y).key = y.key := congrArg Prod.fst (hstamp y)
      rw [hkey]
      rcases List.mem_append.1 hy with hy | hy
      · exact hb.given y (b.registry_subset_components hy)
      · obtain ⟨c, hc, rfl⟩ := hsource y hy
        exact (hs c hc).2
    · exact hb.given x (by rw [components_eq]; exact List.mem_append_right _ hx)
  · have hnothing : readers k (sourceChannels source) = 0 := by
      rw [← channel_appended_opened b]
      exact readers_channels k _
    rw [takers, hcondenses.readers hparts, readers_append, readers_map (hreads k),
      takers, opened_of_none hnone]
    rw [readers_append, hnothing, components_eq, readers_append]
    simp [standers]

/-- A channel that is made for an endpoint is no worker, and is given a new
number. -/
theorem mem_madeChannels {handler : Handler}
    (h : Yields (resolveInput b.cursor.channel handler) w input w') :
    ∀ y ∈ madeChannels input, y.isWorker = false ∧ w.nextComponent ≤ y.key.number ∧
      y.key.number < w'.nextComponent := by
  rcases of_yields_resolveInput h
    with ⟨c, -, rfl, -⟩ | ⟨name, -, rfl, -⟩ | ⟨c, -, rfl, hkey, rfl⟩
  · exact fun y hy => absurd hy List.not_mem_nil
  · exact fun y hy => absurd hy List.not_mem_nil
  · intro y hy
    rw [List.mem_singleton.1 hy]
    have hnumber : c.key.number = w.nextComponent := by rw [hkey]
    exact ⟨rfl, Nat.le_of_eq hnumber.symm,
      Nat.lt_of_le_of_lt (Nat.le_of_eq hnumber) (Nat.lt_succ_self _)⟩

theorem clear_madeChannels (input : ResolvedInput) :
    Clear (fun _ => false) (madeChannels input) := by
  unfold madeChannels
  cases input.made <;> simp [Clear]

/-- What an endpoint reads is the channel that the flow stands on, and no
other that was there. -/
theorem reads_resolved {handler : Handler}
    (hk : k.Outside w.nextComponent w'.nextComponent)
    (h : Yields (resolveInput b.cursor.channel handler) w input w')
    (hinput : e.input = input.target) :
    readers k [.endpoint e] = standers k b.opened := by
  have hreads : readers k [.endpoint e] = if e.inputKey? = some k then 1
        else 0 := by
    simp [readers, Component.reads, List.countP_singleton]
  rw [hreads, standers_opened]
  congr 1
  rcases of_yields_resolveInput h
    with ⟨c, hc, rfl, -⟩ | ⟨name, hc, rfl, -⟩ | ⟨c, hc, rfl, hkey, rfl⟩
  · rw [Endpoint.inputKey?, hinput, currentKey?, hc]
    rfl
  · rw [Endpoint.inputKey?, hinput, currentKey?, hc]
    rfl
  · have hne : c.key ≠ k :=
      hk.ne (by rw [hkey]) (by rw [hkey]; exact Nat.lt_succ_self _)
    have hnone : b.currentKey? = none := by
      unfold currentKey?
      rcases hc with ⟨id, hc⟩ | hc <;> rw [hc]
    rw [hnone, Endpoint.inputKey?, hinput]
    simp [Target.channel?, hne]

/-- The parts that an endpoint is put together of share no keys that count,
whatever is bound. -/
theorem clear_bound {sides : List Registry}
    (hclear : Clear (fun _ => false)
      (b.components ++ sides.flatMap Registry.components ++
        madeChannels input ++ [.endpoint e])) :
    Clear (fun _ => false)
      ((b.registry.components ++ sides.flatMap Registry.components ++
          madeChannels input).map (b.bound input.target) ++ [.endpoint e] ++
        b.cursor.deferred.flatMap Registry.components) := by
  have hperm :
      (b.components ++ sides.flatMap Registry.components ++
          madeChannels input ++ [Component.endpoint e]).Perm
        (b.registry.components ++ sides.flatMap Registry.components ++
          madeChannels input ++
          ([Component.endpoint e] ++
            b.cursor.deferred.flatMap Registry.components)) := by
    rw [components_eq, ← Multiset.coe_eq_coe]
    simp only [← Multiset.coe_add]
    abel
  rw [List.append_assoc]
  exact Clear.map (hclear.of_subperm (hperm.symm.map _).subperm) (b.stamp_bound _)

/-- An endpoint takes the place of the flow that stood on what it reads, and
brings along what its sides hold. -/
theorem takers_wired {sides : List Registry}
    (hclear : Clear (fun _ => false)
      (b.components ++ sides.flatMap Registry.components ++
        madeChannels input ++ [.endpoint e])) :
    Clear (fun _ => false) (b.wired input sides e).components ∧
    ∀ k, readers k [.endpoint e] = standers k b.opened →
      (b.wired input sides e).takers k = b.takers k +
        readers k (sides.flatMap Registry.components) := by
  have hcondenses := b.condenses_wired input sides e
  have hparts := clear_bound hclear
  have hopened : (b.wired input sides e).opened = [] :=
    opened_of_none (by rw [cursor_wired])
  refine ⟨hcondenses.clear hparts, fun k hreads => ?_⟩
  rw [takers, hopened, hcondenses.readers hparts, readers_append, readers_append,
    readers_map (b.reads_bound _), hreads]
  rw [readers_append, readers_append, madeChannels, readers_channels, takers,
    components_eq, readers_append]
  simp only [standers, List.countP_nil]
  omega

/-- What is attached finds the numbers free that it is given, so it shares its
keys with nothing. -/
theorem wired_of_attach (hb : b.Neat w.nextComponent)
    (h : Yields (b.attach spec) w b' w') :
    ∃ input w₁ e, Yields (resolveInput b.cursor.channel spec.handler) w input w₁ ∧
      b' = b.wired input [] e ∧
      e.input = input.target ∧ w₁.nextComponent ≤ w'.nextComponent ∧
      Clear (fun _ => false) (b.components ++ [].flatMap Registry.components ++
        madeChannels input ++ [.endpoint e]) := by
  obtain ⟨input, w₁, hi, hw⟩ := of_yields_attach h
  obtain ⟨e, rfl, hfresh, -, hinput, hnext⟩ := wired_of_yields hw
  have hnew :
      Numbered w.nextComponent (madeChannels input ++ [.endpoint e])
        w'.nextComponent := by
    rw [hnext]
    exact numbered_made hi hfresh
  refine ⟨input, w₁, e, hi, rfl, hinput, by omega, ?_⟩
  rw [List.flatMap_nil, List.append_nil, List.append_assoc]
  exact hb.clear.numbered hb.given hnew

/-- Attaching an endpoint leaves nothing behind that would stand on a
channel. -/
theorem takers_attach (hb : b.Neat w.nextComponent)
    (h : Yields (b.attach spec) w b' w') :
    b'.Neat w'.nextComponent ∧ b'.cursor.channel = none ∧
    ∀ k, k.Outside w.nextComponent w'.nextComponent → b'.takers k = b.takers k := by
  have hgiven := given_of_attach hb.given h
  obtain ⟨input, w₁, e, hi, rfl, hinput, hle, hclear⟩ := wired_of_attach hb h
  obtain ⟨hclear, htakers⟩ := takers_wired hclear
  refine ⟨⟨hclear, hgiven⟩, by rw [cursor_wired], fun k hk => ?_⟩
  exact htakers k (reads_resolved (hk.sub (Nat.le_refl _) hle) hi hinput)

theorem Spares.appended (hspares : b.Spares k) : (b.appended source).Spares k := by
  intro x hx hkey
  rcases List.mem_append.1 ((b.condenses_appended source).subperm.subset hx)
    with hx | hx
  · obtain ⟨y, hy, rfl⟩ := List.mem_map.1 hx
    have hstays : (b.boundBy source y).key = y.key ∧
        (b.boundBy source y).isWorker = y.isWorker := by
      unfold boundBy
      cases source.target? with
      | none => exact ⟨rfl, rfl⟩
      | some target =>
          have hstamp : (b.bound target y).stamp (fun _ => false) = y.stamp fun _ =>
              false :=
            b.stamp_bound target y
          simp only [Component.stamp, Component.marked_false, Prod.mk.injEq]
            at hstamp
          exact hstamp
    rw [hstays.2]
    rw [hstays.1] at hkey
    rcases List.mem_append.1 hy with hy | hy
    · exact hspares y (b.registry_subset_components hy) hkey
    · cases source with
      | channel c => rw [List.mem_singleton.1 hy]; rfl
      | named | fixedSubscriber => cases hy
  · exact hspares x (by rw [components_eq]; exact List.mem_append_right _ hx) hkey

theorem Spares.channel (hspares : b.Spares k) (hold : k.number < w.nextComponent)
    (h : Yields (b.channel source) w b' w') : b'.Spares k := by
  obtain ⟨b₁, hb₁, rfl⟩ := of_yields_channel h
  rcases hb₁ with ⟨-, hbridge⟩ | ⟨-, rfl, -⟩
  · exact (hspares.attach (by exact hold) (of_yields_bridge hbridge)).appended
  · exact hspares.appended

/-- Going on through a channel makes the flow one more taker of it, and the
bridge in between takes what the flow stood on. -/
theorem takers_channel (hb : b.Neat w.nextComponent)
    (hs : ∀ c, source = .channel c → b.Spares c.key ∧
      c.key.number < w.nextComponent)
    (h : Yields (b.channel source) w b' w') :
    b'.Neat w'.nextComponent ∧ b'.cursor.channel = some source ∧
    ∀ k, k.Outside w.nextComponent w'.nextComponent →
      b'.takers k = b.takers k + standers k b'.opened := by
  obtain ⟨b₁, hb₁, rfl⟩ := of_yields_channel h
  rcases hb₁ with ⟨-, hbridge⟩ | ⟨hnone, rfl, rfl⟩
  · have hattach := of_yields_bridge hbridge
    have hstart :
        b.Neat (Workshop.nextComponent
          { w with nextHandler := w.nextHandler + 1 }) :=
      hb
    obtain ⟨hneat, hnone, htakers⟩ := takers_attach hstart hattach
    have hle : w.nextComponent ≤ w'.nextComponent :=
      ((b.attach_adds _).of_yields hattach).components
    have hspared : ∀ c, source = .channel c → b₁.Spares c.key ∧
        c.key.number < w'.nextComponent :=
      fun c hc =>
        ⟨(hs c hc).1.attach (by exact (hs c hc).2) hattach,
          Nat.lt_of_lt_of_le (hs c hc).2 hle⟩
    obtain ⟨hneat, happended⟩ := takers_appended hneat hnone hspared
    exact ⟨hneat, channel_appended .., fun k hk => by rw [happended, htakers k hk]⟩
  · obtain ⟨hneat, happended⟩ := takers_appended hb hnone hs
    exact ⟨hneat, channel_appended .., fun k _ => happended k⟩

/-- A tap point is what the flow stands on, or a new channel that it stands on
from then on. -/
theorem takers_tapPoint {attempted : String} (hb : b.Neat w.nextComponent)
    (h : Yields (b.tapPoint attempted) w (b', c) w') :
    b'.Neat w'.nextComponent ∧ (∀ k, b.Spares k → b'.Spares k) ∧
    ∀ k, k.Outside w.nextComponent w'.nextComponent → b'.takers k = b.takers k := by
  rcases of_yields_tapPoint h with ⟨-, rfl, rfl⟩ | ⟨hnone, rfl, hkey, rfl⟩
  · exact ⟨hb, fun _ hk => hk, fun _ _ => rfl⟩
  · have hspared : ∀ d, ChannelSource.channel c = .channel d →
        b.Spares d.key ∧
        d.key.number < Workshop.nextComponent { w with
          nextComponent := w.nextComponent + 1 } := by
      rintro _ ⟨⟩
      exact ⟨hb.spares_of_new (by rw [hkey]),
        by rw [hkey]; exact Nat.lt_succ_self _⟩
    obtain ⟨hneat, htakers⟩ :=
      takers_appended (hb.mono (Nat.le_succ _)) hnone hspared
    refine ⟨hneat, fun k hk => hk.appended, fun k hk => ?_⟩
    have hne : c.key ≠ k :=
      hk.ne (by rw [hkey]) (by rw [hkey]; exact Nat.lt_succ_self _)
    have hnot : standers k (b.appended (.channel c)).opened = 0 := by
      refine standers_eq_zero fun d hd => ?_
      rw [opened, channel_appended] at hd
      rwa [List.mem_singleton.1 hd]
    rw [htakers, hnot, Nat.add_zero]

theorem takers_openFanOut (hb : b.Neat w.nextComponent) (hc : b.Spares c.key)
    (hlt : c.key.number < w.nextComponent) (h : Yields (b.openFanOut c) w b' w') :
    b'.Neat w'.nextComponent ∧ b'.currentKey? = some c.key ∧
    (∀ k, b.Spares k → k.number < w.nextComponent → b'.Spares k) ∧
    ∀ k, k.Outside w.nextComponent w'.nextComponent →
      b'.takers k = b.takers k + if c.key = k ∧ b.currentKey? ≠ some k then 1
        else 0 := by
  rcases of_yields_openFanOut h with ⟨hcurrent, rfl, rfl⟩ | ⟨hother, h⟩
  · refine ⟨hb, hcurrent, fun _ hk _ => hk, fun k _ => ?_⟩
    rw [if_neg, Nat.add_zero]
    rintro ⟨rfl, hne⟩
    exact hne hcurrent
  · obtain ⟨hneat, hcurrent, htakers⟩ :=
      takers_channel hb (by rintro _ ⟨⟩; exact ⟨hc, hlt⟩) h
    refine ⟨hneat, by rw [currentKey?, hcurrent],
      fun k hk hold => hk.channel hold h, fun k hk => ?_⟩
    rw [htakers k hk, standers_opened, currentKey?, hcurrent]
    congr 1
    by_cases hkey : c.key = k
    · subst hkey
      rw [if_pos rfl, if_pos ⟨rfl, hother⟩]
    · rw [if_neg (fun heq => hkey (Option.some.inj heq)),
        if_neg (fun hand => hkey hand.1)]

/-! ## Branches beside a flow -/

/-- Nothing that works shares its key in a branch. -/
theorem clear_of_runBranch {flow : Channel × List Step}
    (hgiven : ∀ k ∈ givenKeys flow, k.number < w.nextComponent)
    (h : Yields (b.runBranch flow) w br w') :
    Clear (fun _ => false) br.registry.components := by
  obtain ⟨nested, rfl, hpasses⟩ := passes_alone h
  have hclear := ((tidy_alone hgiven).passes hpasses).clear
  rw [stock_cons, Tidy.components_plain] at hclear
  exact (nested.condenses_flushDeferred).clear (Clear.append_iff.1 hclear).1

theorem clear_of_runBranches {flows : List (Channel × List Step)}
    (hgiven : ∀ k ∈ flows.flatMap givenKeys, k.number < w.nextComponent)
    (h : YieldsAll b.runBranch w flows branches w') :
    Clear (fun _ => false) (branches.flatMap fun br => br.registry.components) := by
  induction h with
  | nil w => exact List.Pairwise.nil
  | @cons w w₁ w' flow br flows branches hy hys ih =>
      simp only [List.flatMap_cons, List.forall_mem_append] at hgiven ⊢
      have hle := next_le_of_runBranch hgiven.1 hy
      have hgiven' : ∀ k ∈ flows.flatMap givenKeys, k.number < w₁.nextComponent :=
        fun k hk => Nat.lt_of_lt_of_le (hgiven.2 k hk) hle
      -- Workers are made in the branch that they stand in, so they have the
      -- key of nothing in a later or earlier one.
      refine (clear_of_runBranch hgiven.1 hy).behind (ih hgiven')
        (fun x hx => (stems_of_runBranch hgiven.1 hy hx).2) fun y hy' => ?_
      rcases ((stems_of_runBranches hgiven' hys).2 y hy').1 with hk | hk
      · refine .inr ⟨Bool.eq_false_iff.2 fun hworker => ?_,
          fun x hx heq => Bool.eq_false_iff.2 fun hworker => ?_⟩
        · exact absurd (hgiven' _ hk)
            (Nat.not_lt.2 (made_of_runBranches hgiven' hys y hy' hworker))
        · have hmade := made_of_runBranch hgiven.1 hy hx hworker
          rw [heq] at hmade
          exact absurd (hgiven.2 _ hk) (Nat.not_lt.2 hmade)
      · exact .inl hk

/-- Branches of flows that are given no worker of the flow lie ready beside
it. -/
theorem Neat.beside {d : Builder} {flows : List (Channel × List Step)}
    (hb : b.Neat w.nextComponent)
    (hgiven : ∀ k ∈ flows.flatMap givenKeys, b.Spares k ∧
      k.number < w.nextComponent)
    (h : YieldsAll d.runBranch w flows branches w') :
    b.Beside branches w'.nextComponent := by
  have hbefore : ∀ k ∈ flows.flatMap givenKeys, k.number < w.nextComponent :=
    fun k hk => (hgiven k hk).2
  obtain ⟨hle, hstems⟩ := stems_of_runBranches hbefore h
  refine ⟨hb.clear.behind (clear_of_runBranches hbefore h) hb.given fun y hy => ?_,
    fun x hx => ?_, sound_of_runBranches hbefore h⟩
  · rcases (hstems y hy).1 with hk | hk
    · refine .inr ⟨Bool.eq_false_iff.2 fun hworker => ?_, (hgiven _ hk).1⟩
      exact absurd (hbefore _ hk)
        (Nat.not_lt.2 (made_of_runBranches hbefore h y hy hworker))
    · exact .inl hk
  · rcases List.mem_append.1 hx with hx | hx
    · exact Nat.lt_of_lt_of_le (hb.given x hx) hle
    · exact (hstems x hx).2

end Builder

/-- A branch that is left open and stands on a channel gets a bridge that
reads it. -/
theorem Branch.components_of_leaveOpen {br' : Branch}
    (hlt : ∀ x ∈ br.registry.components, x.key.number < w.nextComponent)
    (h : Yields (br.leaveOpen b) w br' w') :
    ∃ links : List Endpoint,
      br'.registry.components = br.registry.components ++
        links.map Component.endpoint ∧
      List.Forall₂ (fun c link => link.Bridges c none) br.opened links ∧
      Numbered w.nextComponent (links.map Component.endpoint) w'.nextComponent := by
  rcases of_yields_leaveOpen h with ⟨hnone, rfl, rfl⟩ | ⟨last, key, he, ha⟩
  · refine ⟨[], (List.append_nil _).symm, ?_, .nil _⟩
    rw [opened_eq, hnone]
    exact .nil
  · obtain ⟨e, rfl, -, hfresh, hbridge, hinput, hnext⟩ := linked_of_yields ha
    refine ⟨[e], Registry.components_add_of_new fun x hx =>
      hfresh.ne_of_lt (hlt x hx), ?_, ?_⟩
    · rw [opened, he]
      exact .cons ⟨hbridge, hinput, hfresh.output⟩ .nil
    · rw [hnext]
      exact .one hfresh.key

/-- Where branches are left open their bridges take their places. -/
theorem takers_leaveOpen
    (hlt : ∀ x ∈ branches.flatMap fun br => br.registry.components,
      x.key.number < w.nextComponent)
    (h : YieldsAll (fun br => br.leaveOpen b) w branches closed w') :
    ∃ links : List Endpoint,
      (closed.flatMap fun br => br.registry.components).Perm
        ((branches.flatMap fun br => br.registry.components) ++
          links.map Component.endpoint) ∧
      Numbered w.nextComponent (links.map Component.endpoint) w'.nextComponent ∧
      List.Forall₂ (fun br br' =>
        ∀ k, readers k br'.registry.components = branchTakers k [br])
        branches closed := by
  induction h with
  | nil w => exact ⟨[], .refl _, .nil _, .nil⟩
  | @cons w w₁ w' br br' branches closed hy _ ih =>
      simp only [List.flatMap_cons, List.forall_mem_append] at hlt ⊢
      obtain ⟨links, hcomponents, hlinks, hn⟩ :=
        Branch.components_of_leaveOpen hlt.1 hy
      obtain ⟨more, hrest, hn', hall⟩ :=
        ih fun x hx => Nat.lt_of_lt_of_le (hlt.2 x hx) hn.next_le
      refine ⟨links ++ more, ?_, ?_, .cons (fun k => ?_) hall⟩
      · rw [hcomponents, List.map_append]
        refine (hrest.append_left _).trans ?_
        rw [← Multiset.coe_eq_coe]
        simp only [← Multiset.coe_add]
        abel
      · rw [List.map_append]
        exact hn.append hn'
      · rw [hcomponents, readers_append, readers_links hlinks]
        simp [branchTakers]

theorem readers_of_forall₂
    (h : List.Forall₂
      (fun br br' => ∀ k, readers k br'.registry.components = branchTakers k [br])
      branches closed) :
    readers k (closed.flatMap fun br => br.registry.components) =
      branchTakers k branches := by
  induction h with
  | nil => rfl
  | @cons br br' branches closed hhere _ ih =>
      rw [List.flatMap_cons, readers_append, hhere, ih,
        branchTakers_cons k br branches]

/-- A branch whose pending output leads somewhere reads what it read. -/
theorem Branch.readers_joined (br : Branch) (merge : Option Channel) :
    readers k (br.joined merge) = readers k br.registry.components := by
  unfold joined
  split
  · exact readers_map (fun x => Component.reads_boundTo _ _ x) _
  · rfl

theorem readers_joined (branches : List Branch) (merge : Option Channel) :
    readers k (branches.flatMap fun br => br.joined merge) =
      readers k (branches.flatMap fun br => br.registry.components) := by
  induction branches with
  | nil => rfl
  | cons br branches ih =>
      rw [List.flatMap_cons, List.flatMap_cons, readers_append, readers_append,
        ih, br.readers_joined]

theorem standers_strays (branches : List Branch) (m : Channel) :
    standers k (strays branches m) = if m.key = k then 0
      else standers k (branches.flatMap Branch.opened) := by
  rw [opened_of_branches, strays]
  split
  · next hk =>
      refine standers_eq_zero fun c hc heq => ?_
      have hne : c.key ≠ m.key := by simpa using (List.mem_filter.1 hc).2
      exact hne (heq.trans hk.symm)
  · next hk =>
      rw [standers, standers, List.countP_filter]
      refine List.countP_congr fun c _ => ?_
      rw [Bool.and_eq_true, decide_eq_true_eq, decide_eq_true_eq,
        and_iff_left_iff_imp]
      rintro rfl heq
      exact hk heq.symm

/-- Branches that converge hold as many readers as they had takers, but for
those that stood on the channel itself. -/
theorem takers_converge
    (hlt : ∀ x ∈ branches.flatMap fun br => br.registry.components,
      x.key.number < w.nextComponent)
    (h : YieldsAll (fun br => br.converge b m) w branches closed w') :
    ∃ links : List Endpoint,
      (closed.flatMap fun br => br.registry.components).Perm
        ((branches.flatMap fun br => br.joined (some m)) ++
          links.map Component.endpoint) ∧
      Numbered w.nextComponent (links.map Component.endpoint) w'.nextComponent ∧
      ∀ k, readers k (closed.flatMap fun br => br.registry.components) +
          (if m.key = k then standers k (branches.flatMap Branch.opened) else 0) =
          branchTakers k branches := by
  obtain ⟨links, hclosed, hlinks, hn⟩ := components_of_converge
    (fun br hbr x hx => hlt x (List.mem_flatMap.2 ⟨br, hbr, hx⟩)) h
  refine ⟨links, hclosed, hn, fun k => ?_⟩
  rw [readers_perm hclosed, readers_append, readers_joined, readers_links hlinks,
    standers_strays, branchTakers]
  split <;> omega

namespace Builder

/-- Branches that are left open are taken over, or held back, with all that
takes something in them. -/
theorem Beside.leaveOpen (hb : b.Beside branches w.nextComponent)
    (h : YieldsAll (fun br => br.leaveOpen b₁) w branches closed w') :
    Clear (fun _ => false) (b.components ++ closed.flatMap fun br =>
      br.registry.components) ∧
    (∀ x ∈ b.components ++ closed.flatMap fun br => br.registry.components,
      x.key.number < w'.nextComponent) ∧
    ∀ k, readers k (closed.flatMap fun br => br.registry.components) =
        branchTakers k branches := by
  obtain ⟨links, hclosed, hn, hall⟩ :=
    takers_leaveOpen (fun x hx => hb.free x (List.mem_append_right _ hx)) h
  have hperm :
      (b.components ++ closed.flatMap fun br => br.registry.components).Perm
        (b.components ++ (branches.flatMap fun br => br.registry.components) ++
          links.map Component.endpoint) := by
    rw [List.append_assoc]
    exact hclosed.append_left _
  refine ⟨(hb.clear.numbered hb.free hn).of_subperm (hperm.map _).subperm,
    fun x hx => ?_, fun k => readers_of_forall₂ hall⟩
  rcases List.mem_append.1 (hperm.subset hx) with hx | hx
  · exact Nat.lt_of_lt_of_le (hb.free x hx) hn.next_le
  · exact (hn.mem hx).2

theorem takers_absorb
    (hclear : Clear (fun _ => false)
      (b.components ++ closed.flatMap fun br => br.registry.components))
    (hgiven : ∀ x ∈ b.components ++ closed.flatMap fun br => br.registry.components,
      x.key.number < n) :
    (b.absorb closed).Neat n ∧
    ∀ k,
      (b.absorb closed).takers k = b.takers k +
        readers k (closed.flatMap fun br => br.registry.components) := by
  have hcondenses := b.condenses_absorb closed
  refine ⟨⟨hcondenses.clear hclear,
      fun x hx => hgiven x (hcondenses.subperm.subset hx)⟩, fun k => ?_⟩
  have hopened : (b.absorb closed).opened = b.opened := rfl
  rw [takers, hcondenses.readers hclear, readers_append, hopened, takers]
  omega

theorem takers_holding
    (hclear : Clear (fun _ => false)
      (b.components ++ closed.flatMap fun br => br.registry.components))
    (hgiven : ∀ x ∈ b.components ++ closed.flatMap fun br => br.registry.components,
      x.key.number < n) :
    (b.holding closed).Neat n ∧
    ∀ k,
      (b.holding closed).takers k = b.takers k +
        readers k (closed.flatMap fun br => br.registry.components) := by
  have hcondenses := b.condenses_holding closed
  refine ⟨⟨hcondenses.clear hclear,
      fun x hx => hgiven x (hcondenses.subperm.subset hx)⟩, fun k => ?_⟩
  have hopened : (b.holding closed).opened = b.opened := rfl
  rw [takers, hcondenses.readers hclear, readers_append, hopened, takers]
  omega

theorem Beside.neat (hb : b.Beside branches n) : b.Neat n :=
  ⟨(Clear.append_iff.1 hb.clear).1,
    fun x hx => hb.free x (List.mem_append_left _ hx)⟩

/-- In front of what follows stand the flow with the endpoint and the branches
with their links. -/
theorem Attached.condenses_front {made : List Channel} {links : List Endpoint}
    {merge : Option Channel} (h : b.Attached n e made b₁ n')
    (hclosed : (closed.flatMap fun br => br.registry.components).Perm
      ((branches.flatMap fun br => br.joined merge) ++
        links.map Component.endpoint)) :
    Condenses (b.boundTo e.input ++ (branches.flatMap fun br => br.joined merge) ++
      (links.map Component.endpoint ++
        (made.map Component.channel ++ [.endpoint e])))
      (b₁.components ++ closed.flatMap fun br => br.registry.components) := by
  refine (h.condenses.append (.of_perm hclosed)).perm_left ?_
  rw [← Multiset.coe_eq_coe]
  simp only [← Multiset.coe_add]
  abel

/-- Behind what was attached stand the branches, which share no keys that
count with it. -/
theorem Attached.front {made : List Channel} {links : List Endpoint}
    {merge : Option Channel} (h : b.Attached n₁ e made b₁ n')
    (hb : b.Beside branches n)
    (hclosed : (closed.flatMap fun br => br.registry.components).Perm
      ((branches.flatMap fun br => br.joined merge) ++
        links.map Component.endpoint))
    (hlinks : Numbered n (links.map Component.endpoint) n₁) :
    Clear (fun _ => false) (b₁.components ++ closed.flatMap fun br =>
      br.registry.components) ∧
    ∀ x ∈ b₁.components ++ closed.flatMap fun br => br.registry.components,
      x.key.number < n' := by
  have hfront := h.condenses_front hclosed
  have hnew := hlinks.append h.numbered
  refine ⟨hfront.clear (hb.clear_joined hnew), fun x hx => ?_⟩
  rcases List.mem_append.1 (hfront.subperm.subset hx) with hx | hx
  · exact Nat.lt_of_lt_of_le (hb.free_joined x hx) hnew.next_le
  · exact (hnew.mem hx).2

/-- The channel that branches meet on is one that a branch stands on, or it is
new. -/
theorem Chosen.standers_eq {fresh : List Channel} (h : Chosen branches n m fresh)
    (hfresh : Numbered n (fresh.map Component.channel) n') (hk : m.key.Outside n n')
    (hone : standers m.key (branches.flatMap Branch.opened) ≤ 1) :
    standers m.key (branches.flatMap Branch.opened) = 1 := by
  cases h with
  | ended hfound =>
      obtain ⟨br, hbr, hc⟩ := List.exists_of_findSome?_eq_some hfound
      refine Nat.le_antisymm hone (standers_pos (opened_of_branches branches ▸ ?_))
      exact List.mem_filterMap.2 ⟨br, hbr, hc⟩
  | made _ heq =>
      have hnumber :=
        hfresh.mem (List.mem_map_of_mem (f := Component.channel) List.mem_cons_self)
      exact absurd rfl (hk.ne hnumber.1 hnumber.2)

/-- A flow that stands on the channel that its branches met on takes it in
place of the branch that it comes of. -/
theorem takers_mergedOn {w₀ w₁ w₂ : Workshop}
    (hb : b.Beside branches w.nextComponent)
    (hm : Yields (mergeChannel branches) w m w₀)
    (hconverge : YieldsAll (fun br => br.converge b m) w₀ branches closed w₁)
    (ha : Yields (b.attach spec) { w₁ with nextHandler := w₁.nextHandler + 1 }
      b₁ w₂) :
    (b₁.mergedOn closed m).Neat w₂.nextComponent ∧
    ∀ k, k.Outside w.nextComponent w₂.nextComponent →
      standers k (branches.flatMap Branch.opened) ≤ 1 →
      (b₁.mergedOn closed m).takers k = b.takers k + branchTakers k branches := by
  obtain ⟨fresh, hchosen, hfresh⟩ := chosen_of_yields hm
  obtain ⟨links, hclosed, hlinks, hconverged⟩ := takers_converge (fun x hx =>
    Nat.lt_of_lt_of_le (hb.free x (List.mem_append_right _ hx))
      hfresh.next_le) hconverge
  have hle : w.nextComponent ≤ w₁.nextComponent :=
    Nat.le_trans hfresh.next_le hlinks.next_le
  obtain ⟨-, hnone, htakers⟩ := takers_attach (hb.neat.mono (by exact hle)) ha
  obtain ⟨router, made, -, hattached⟩ := attached_of_yields ha
  -- All that stands behind the router comes of the flow and its branches, or
  -- is new.
  have hnew := (hfresh.append hlinks).append hattached.numbered
  have hall :
      Condenses (b.boundTo router.input ++
        (branches.flatMap fun br => br.joined (some m)) ++
        (fresh.map Component.channel ++ links.map Component.endpoint ++
          (made.map Component.channel ++ [.endpoint router])))
        (b₁.components ++ (closed.flatMap fun br => br.registry.components) ++
          fresh.map Component.channel) := by
    refine ((hattached.condenses_front hclosed).append_right _).perm_left ?_
    rw [← Multiset.coe_eq_coe]
    simp only [← Multiset.coe_add]
    abel
  have hclear := hall.clear (hb.clear_joined hnew)
  have hmerged : Condenses _ (b₁.mergedOn closed m).components :=
    hchosen.condenses hb.sound hclosed
  refine ⟨⟨hmerged.clear hclear, fun x hx => ?_⟩, fun k hk hone => ?_⟩
  · rcases List.mem_append.1 (hall.subperm.subset (hmerged.subperm.subset hx))
      with hx | hx
    · exact Nat.lt_of_lt_of_le (hb.free_joined x hx) hnew.next_le
    · exact (hnew.mem hx).2
  · have hbefore := htakers k (hk.sub hle (Nat.le_refl _))
    have hclosing := hconverged k
    have hcurrent : (b₁.mergedOn closed m).opened = [m] := rfl
    have hstands : standers k [m] = if m.key = k then 1 else 0 := by
      simp [standers, List.countP_singleton]
    rw [takers, opened_of_none hnone] at hbefore
    rw [takers, hmerged.readers hclear, readers_append, readers_append,
      readers_channels, hcurrent, hstands]
    simp only [standers, List.countP_nil] at hbefore
    split at hclosing
    · next hkey =>
        subst hkey
        rw [hchosen.standers_eq hfresh
          (hk.sub (Nat.le_refl _)
            (Nat.le_trans hlinks.next_le hattached.numbered.next_le)) hone]
          at hclosing
        rw [if_pos rfl]
        omega
    · next hkey =>
        rw [if_neg hkey]
        omega

/-- Branches of which none is open are taken over with all that reads
something in them. -/
theorem takers_unmerged (hb : b.Beside branches w.nextComponent)
    (hshut : ¬ branches.any Branch.isOpen = true)
    (ha : Yields (b.attach spec) { w with nextHandler := w.nextHandler + 1 }
      b₁ w') :
    (b₁.absorb branches).Neat w'.nextComponent ∧
    (b₁.absorb branches).cursor.channel = none ∧
    ∀ k, k.Outside w.nextComponent w'.nextComponent →
      (b₁.absorb branches).takers k = b.takers k + branchTakers k branches := by
  obtain ⟨-, hnone, htakers⟩ :=
    takers_attach (hb.neat.mono (by exact Nat.le_refl w.nextComponent)) ha
  obtain ⟨router, made, -, hattached⟩ := attached_of_yields ha
  have hjoined : (branches.flatMap fun br => br.registry.components).Perm
        ((branches.flatMap fun br => br.joined none) ++ ([] : List Endpoint).map
          Component.endpoint) := by
    simp [Branch.joined_none]
  obtain ⟨hclear, hgiven⟩ := hattached.front hb hjoined (.nil _)
  obtain ⟨hneat, habsorbed⟩ := takers_absorb hclear hgiven
  refine ⟨hneat, hnone, fun k hk => ?_⟩
  have hreaders : branchTakers k branches = readers k (branches.flatMap fun br =>
      br.registry.components) := by
    rw [branchTakers, opened_of_shut hshut]
    rfl
  rw [habsorbed, htakers k hk, hreaders]

/-- A router takes nothing but in the place of its branches, with the bridge
behind it if they meet. -/
theorem takers_routedTo {fallsBack : Bool} (hb : b.Beside branches w.nextComponent)
    (h : b.RoutedTo fallsBack branches w b' w') :
    b'.Neat w'.nextComponent ∧ b'.cursor.channel = none ∧
    ∀ k, k.Outside w.nextComponent w'.nextComponent →
      standers k (branches.flatMap Branch.opened) ≤ 1 →
      b'.takers k = b.takers k + branchTakers k branches := by
  obtain ⟨default, r, w₁, spec, b₁, w₂, -, hr, -, -, ha, hy⟩ := h
  have hle₁ : w.nextComponent ≤ w₁.nextComponent :=
    ((b.reconcile_adds branches default).of_yields hr).components
  have hle₂ : w₁.nextComponent ≤ w₂.nextComponent :=
    ((b.attach_adds spec).of_yields ha).components
  rcases meets_of_reconcile hr
    with ⟨-, m, w₀, hm, hconverge, hrm, -⟩ | ⟨hmeet, hrb, hrm, rfl⟩
  · rw [hrm] at hy
    obtain ⟨hnot, -, -⟩ | ⟨_, ⟨⟩, hbridge⟩ := of_yields_absorbMerged hy
    · cases hnot
    obtain ⟨hneat, hmerged⟩ := takers_mergedOn hb hm hconverge ha
    have hattach := of_yields_bridge hbridge
    have hstart :
        (b₁.mergedOn r.branches m).Neat (Workshop.nextComponent
          { w₂ with nextHandler := w₂.nextHandler + 1 }) :=
      hneat
    have hle₃ : w₂.nextComponent ≤ w'.nextComponent :=
      ((Builder.attach_adds (b₁.mergedOn r.branches m) _).of_yields
        hattach).components
    obtain ⟨hneat', hnone', htakers'⟩ := takers_attach hstart hattach
    refine ⟨hneat', hnone', fun k hk hone => ?_⟩
    rw [htakers' k (hk.sub (Nat.le_trans hle₁ hle₂) (Nat.le_refl _)),
      hmerged k (hk.sub (Nat.le_refl _) hle₃) hone]
  · rw [hrb, hrm] at hy
    obtain ⟨-, rfl, rfl⟩ | ⟨_, hsome, -⟩ := of_yields_absorbMerged hy
    · obtain ⟨hneat, hnone, htakers⟩ :=
        takers_unmerged hb (fun hany => hmeet (.inr hany)) ha
      exact ⟨hneat, hnone, fun k hk _ => htakers k hk⟩
    · cases hsome

/-- A channel that no worker of the flow or of its branches shares its key
with, and that has a number below `n`. -/
def Beside.Leaves (b : Builder) (branches : List Branch) (n : Nat) (c : Channel) :
    Prop :=
  c.key.number < n ∧
    ∀ x ∈ b.components ++ branches.flatMap fun br => br.registry.components,
      x.key = c.key → x.isWorker = false

/-- A channel that was left alone is left alone by what is attached, and by
the links of the branches. -/
theorem Attached.leaves {made : List Channel} {links : List Endpoint}
    {merge : Option Channel} (h : b.Attached n₁ e made b₁ n')
    (hclosed : (closed.flatMap fun br => br.registry.components).Perm
      ((branches.flatMap fun br => br.joined merge) ++
        links.map Component.endpoint))
    (hlinks : Numbered n (links.map Component.endpoint) n₁)
    (hc : Beside.Leaves b branches n c) :
    Beside.Leaves b₁ closed n' c := by
  have hnew := hlinks.append h.numbered
  refine ⟨Nat.lt_of_lt_of_le hc.1 hnew.next_le, fun x hx hkey => ?_⟩
  rcases List.mem_append.1 ((h.condenses_front hclosed).subperm.subset hx)
    with hx | hx
  · have hstamp := List.mem_map_of_mem (f := Component.stamp fun _ => false) hx
    rw [Beside.stamps] at hstamp
    obtain ⟨y, hy, hst⟩ := List.mem_map.1 hstamp
    simp only [Component.stamp, Component.marked_false, Prod.mk.injEq] at hst
    rw [← hst.2]
    exact hc.2 y hy (hst.1.trans hkey)
  · have hge := (hnew.mem hx).1
    rw [hkey] at hge
    exact absurd hc.1 (Nat.not_lt.2 hge)

/-- A scatter-gather comes to hold its branches, its two channels, and the
endpoints that read them. -/
theorem condenses_gathered (b : Builder) (closed : List Branch)
    (scatter gather : Channel) (reader : Option Endpoint) (gatherer : Endpoint) :
    Condenses
      (((b.components ++ closed.flatMap fun br => br.registry.components) ++
          [.channel scatter, .channel gather]) ++
        (reader.toList.map Component.endpoint ++ [.endpoint gatherer]))
      (((b.posted scatter reader).absorb closed).posted gather
        (some gatherer)).components := by
  have hposted :=
    ((b.condenses_posted scatter reader).append_right
      (closed.flatMap fun br => br.registry.components)).trans
    (condenses_absorb _ closed)
  refine Condenses.perm_left
    (((hposted.append_right [.channel gather]).append_right
        [.endpoint gatherer]).trans (condenses_posted _ gather (some gatherer))) ?_
  rw [← Multiset.coe_eq_coe]
  simp only [← Multiset.coe_add, ← Multiset.cons_coe, ← Multiset.singleton_add,
    Multiset.coe_nil]
  abel

/-- Two channels that were left alone may stand beside the flow and its
branches. -/
theorem Beside.Leaves.pair {c' : Channel}
    (hclear : Clear (fun _ => false)
      (b.components ++ branches.flatMap fun br => br.registry.components))
    (hlt : ∀ x ∈ b.components ++ branches.flatMap fun br => br.registry.components,
      x.key.number < n)
    (hc : Beside.Leaves b branches n c) (hc' : Beside.Leaves b branches n c') :
    Clear (fun _ => false)
      ((b.components ++ branches.flatMap fun br => br.registry.components) ++
        [.channel c, .channel c']) ∧
    ∀ x ∈ (b.components ++ branches.flatMap fun br => br.registry.components) ++
        [Component.channel c, .channel c'], x.key.number < n := by
  constructor
  · refine hclear.behind (n := n) ?_ hlt fun y hy => .inr ?_
    · simp [Clear, Component.stamp, Component.marked, Unshared]
    · rcases List.mem_pair.1 hy with rfl | rfl
      · exact ⟨rfl, hc.2⟩
      · exact ⟨rfl, hc'.2⟩
  · intro x hx
    rcases List.mem_append.1 hx with hx | hx
    · exact hlt x hx
    · rcases List.mem_pair.1 hx with rfl | rfl
      · exact hc.1
      · exact hc'.1

/-- A scatter-gather reads its two channels itself, and takes nothing else but
in the place of its branches. -/
theorem takers_gathered {plan : ScatterGatherPlan} {release : Release}
    {scattering : Scattering} {gather : Channel}
    (hb : b.Beside scattering.branches w.nextComponent)
    (hs : ∀ c ∈ [scattering.channel, gather],
      Beside.Leaves b scattering.branches w.nextComponent c)
    (h : Yields (b.finishScatterGather plan release scattering gather) w b' w') :
    b'.Neat w'.nextComponent ∧ b'.cursor.channel = none ∧
    ∀ k, k.Outside w.nextComponent w'.nextComponent →
      scattering.channel.key ≠ k → gather.key ≠ k →
      b'.takers k = b.takers k + branchTakers k scattering.branches := by
  obtain ⟨closed, w₁, spec, b₁, w₂, reader, gatherer, hconverge, -, ha, -, hreads,
    hfresh, hinput, rfl, hnext⟩ :=
    gathered_of_yields h
  obtain ⟨links, hclosed, hlinks, hconverged⟩ :=
    takers_converge (fun x hx => hb.free x (List.mem_append_right _ hx)) hconverge
  have hle₁ : w.nextComponent ≤ w₁.nextComponent := hlinks.next_le
  obtain ⟨-, hnone, htakers⟩ := takers_attach (hb.neat.mono (by exact hle₁)) ha
  obtain ⟨own, made, -, hattached⟩ := attached_of_yields ha
  obtain ⟨hclearFront, hlt⟩ := hattached.front hb hclosed hlinks
  -- The two channels share their keys with no worker, and the endpoints that
  -- read them are new.
  obtain ⟨hchannels, hgiven⟩ := Beside.Leaves.pair hclearFront hlt
    (hattached.leaves hclosed hlinks (hs _ List.mem_cons_self))
    (hattached.leaves hclosed hlinks
      (hs _ (List.mem_cons_of_mem _ List.mem_cons_self)))
  have hread :
      Numbered w₂.nextComponent (reader.toList.map Component.endpoint ++
        [.endpoint gatherer]) w'.nextComponent := by
    rw [hnext]
    cases reader with
    | none => exact .one hfresh.key
    | some e =>
        exact (Numbered.one (x := .endpoint e) (hreads e rfl).1.key).append
          (.one (x := .endpoint gatherer) hfresh.key)
  have hclear := hchannels.numbered hgiven hread
  have hwhole :=
    b₁.condenses_gathered closed scattering.channel gather reader gatherer
  refine ⟨⟨hwhole.clear hclear, fun x hx => ?_⟩, hnone,
    fun k hk hscatter hgather => ?_⟩
  · rcases List.mem_append.1 (hwhole.subperm.subset hx) with hx | hx
    · exact Nat.lt_of_lt_of_le (hgiven x hx) hread.next_le
    · exact (hread.mem hx).2
  · have hopened :
        (((b₁.posted scattering.channel reader).absorb closed).posted gather
          (some gatherer)).opened = [] :=
      opened_of_none hnone
    have hothers : ∀ e ∈ reader.toList ++ [gatherer], e.inputKey? ≠ some k := by
      intro e he
      rcases List.mem_append.1 he with he | he
      · rw [Endpoint.inputKey?, (hreads e (Option.mem_toList.1 he)).2.2]
        simpa [Target.channel?] using hscatter
      · rw [List.mem_singleton.1 he, Endpoint.inputKey?, hinput]
        simpa [Target.channel?] using hgather
    have hnot :
        readers k (reader.toList.map Component.endpoint ++ [.endpoint gatherer]) =
        0 := by
      rw [← List.map_singleton, ← List.map_append, readers, List.countP_map,
        List.countP_eq_zero]
      intro e he
      simpa [Component.reads] using hothers e he
    have hpair :
        readers k [Component.channel scattering.channel, .channel gather] = 0 :=
      readers_channels k [_, _]
    have hbefore := htakers k (hk.sub hle₁ (by omega))
    have hclosing := hconverged k
    rw [takers, opened_of_none hnone] at hbefore
    rw [if_neg hgather] at hclosing
    rw [takers, hopened, hwhole.readers hclear, readers_append, readers_append,
      readers_append, hnot, hpair]
    omega

/-- A branch holds what its builder held, and stands on what that stood on: a
flow that waits for an output stands on no channel. -/
theorem takers_toBranch (hb : b.Neat n) (hs : b.Sound) (k : ComponentKey) :
    branchTakers k [b.toBranch] = b.takers k := by
  have hopened : b.toBranch.opened = b.opened := by
    unfold Branch.opened opened toBranch
    cases hp : b.cursor.pending with
    | none =>
        cases b.cursor.channel with
        | none => rfl
        | some source => cases source <;> rfl
    | some output =>
        have hunbound := hs.unbound (by rw [hp]; exact nofun)
        cases hc : b.cursor.channel with
        | none => rfl
        | some source =>
            cases source with
            | channel c => cases hunbound _ hc
            | named | fixedSubscriber => rfl
  have hreaders := b.condenses_flushDeferred.readers hb.clear k
  simp only [branchTakers, List.flatMap_cons, List.flatMap_nil, List.append_nil,
    hopened, takers]
  exact congrArg (· + _) hreaders

/-- A branch that starts is one taker of the channel that it starts at. -/
theorem takers_branch (b : Builder) (c : Channel) (k : ComponentKey) :
    (b.branch c).takers k = standers k [c] := by
  rw [takers, Tidy.components_branch]
  exact Nat.zero_add _

end Builder

end

end FlowAssembly
