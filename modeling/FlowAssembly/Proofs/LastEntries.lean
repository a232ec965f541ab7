import FlowAssembly.Proofs.Handover

/-!
# What registries end on

A flow that stands on no channel of its registry ends on what was attached
last, an endpoint. Where several registries become one, the last entry of the
last of them may have been registered before, and then it stays where it was.
That happens to channels only: an endpoint shares its key with nothing, so a
registry that is added and ends on an endpoint is ended on by the whole
(`Registry.endsIn_foldl_extend`). What is left are the places where a channel
is moved to the end: it is the channel that the flow stands on, or an endpoint
follows that reads it.

So a builder is *upright* from one call to the next: what it ends on is no
channel, or it is the channel that it stands on (`Step.upright_of_stages`).
Within a call that need not be so. A scatter-gather has the channel that it
scatters to registered behind its endpoint, and nothing of that is current.
-/

namespace FlowAssembly

open Assembly

/-- The list ends on a component with the property. It may also be empty, if
`void` holds. -/
def EndsIn (void : Prop) (p : Component → Prop) (cs : List Component) : Prop :=
  void ∧ cs = [] ∨ ∃ front x, cs = front ++ [x] ∧ p x

/-- Whether a registry may end on it where nothing is current: it is an
endpoint, or in the main flow the source. -/
def Component.caps (main : Bool) : Component → Bool
  | .endpoint _ => true
  | .source _ => main
  | .channel _ => false

/-- The registry ends on an endpoint. It may also be empty, if `void` holds. -/
def Registry.Capped (void : Prop) (r : Registry) : Prop :=
  void ∧ r.components = [] ∨ ∃ e, r.last? = some (.endpoint e)

section

variable {main : Bool} {void hollow : Prop} {p q : Component → Prop} {x : Component}
  {cs xs ys : List Component}

namespace EndsIn

theorem concat (front : List Component) (h : p x) : EndsIn void p (front ++ [x]) :=
  .inr ⟨front, x, rfl, h⟩

theorem mono (h : EndsIn void p cs) (hv : void → hollow) (hp : ∀ x, p x → q x) :
    EndsIn hollow q cs :=
  h.imp (And.imp_left hv) fun ⟨front, x, heq, hx⟩ => ⟨front, x, heq, hp x hx⟩

theorem append (h : EndsIn void p xs) (h' : EndsIn hollow p ys) :
    EndsIn void p (xs ++ ys) := by
  rcases h' with ⟨-, rfl⟩ | ⟨front, x, rfl, hx⟩
  · rwa [List.append_nil]
  · rw [← List.append_assoc]
    exact concat _ hx

theorem map {f : Component → Component} (h : EndsIn void p cs)
    (hf : ∀ x, p x → q (f x)) :
    EndsIn void q (cs.map f) := by
  rcases h with ⟨hv, rfl⟩ | ⟨front, x, rfl, hx⟩
  · exact .inl ⟨hv, rfl⟩
  · rw [List.map_append]
    exact concat _ (hf x hx)

theorem flatMap {others : List Registry}
    (h : ∀ r ∈ others, EndsIn void p r.components) :
    EndsIn True p (others.flatMap Registry.components) := by
  induction others with
  | nil => exact .inl ⟨trivial, rfl⟩
  | cons r others ih =>
      rw [List.forall_mem_cons] at h
      exact (h.1.mono (fun _ => trivial) fun _ hx => hx).append (ih h.2)

end EndsIn

theorem Component.isWorker_of_caps (h : x.caps main = true) :
    x.isWorker = true := by
  cases x with
  | channel => cases h
  | endpoint | source => rfl

theorem Component.caps_of_endpoint (h : x.caps false = true) :
    x.caps main = true := by
  cases x with
  | endpoint => rfl
  | channel | source => cases h

theorem Component.caps_settled (binding : Option (PendingOutput × Target))
    (x : Component) :
    (x.settled binding).caps main = x.caps main := by
  cases binding with
  | none => rfl
  | some binding =>
      show (x.boundTo _ _).caps main = _
      unfold boundTo
      split
      · cases x <;> rfl
      · rfl

/-! ## Registries -/

namespace Registry

variable {r : Registry} {others : List Registry} {trailing : Option ComponentKey}

theorem capped_iff : r.Capped void ↔
      EndsIn void (fun x => x.caps false = true) r.components := by
  rw [Capped, last?_eq]
  refine or_congr_right ⟨?_, ?_⟩
  · rintro ⟨e, he⟩
    obtain ⟨front, heq⟩ := List.getLast?_eq_some_iff.1 he
    exact ⟨front, _, heq, rfl⟩
  · rintro ⟨front, x, heq, hx⟩
    cases x with
    | endpoint e => exact ⟨e, by rw [heq, List.getLast?_concat]⟩
    | channel | source => cases hx

theorem Capped.mono (h : r.Capped void) (hv : void → hollow) : r.Capped hollow :=
  h.imp_left (And.imp_left hv)

/-- What works shares its key with nothing, so the last of what is added is
registered behind all the rest. -/
theorem endsIn_foldl_extend (hr : EndsIn void p r.components)
    (ho : ∀ other ∈ others, other.Capped hollow)
    (hp : ∀ x, x.caps false = true → p x)
    (hclear : Clear (fun _ => false) (r.components ++ others.flatMap components)) :
    EndsIn void p (others.foldl extend r).components := by
  rw [components_foldl_extend]
  rcases EndsIn.flatMap fun other hother => capped_iff.1 (ho other hother)
    with ⟨-, hnil⟩ | ⟨front, x, heq, hx⟩
  · rw [hnil, additions, List.append_nil]
    exact hr
  · rw [heq, ← List.append_assoc] at hclear
    have hapart : x.key ∉ r.components.map Component.key ++
        (additions (r.components.map Component.key) front).map Component.key := by
      rw [← List.map_append, List.mem_map]
      rintro ⟨y, hy, hkey⟩
      have hstood : y ∈ r.components ++ front := by
        rcases List.mem_append.1 hy with hy | hy
        · exact List.mem_append_left _ hy
        · exact List.mem_append_right _ (additions_subset _ _ hy)
      exact (Clear.append_iff.1 hclear).2.2 y hstood x (List.mem_singleton_self x)
        (.inr (Component.marked_of_isWorker (Component.isWorker_of_caps hx))) hkey
    rw [heq, additions_append, additions, if_neg hapart, additions,
      ← List.append_assoc]
    exact .concat _ (hp x hx)

/-- A channel that stood last comes last again. -/
theorem endsIn_extendBefore (hr : EndsIn void p r.components)
    (ho : ∀ other ∈ others, other.Capped hollow)
    (hp : ∀ x, x.caps false = true → p x) (ht : ∀ x, trailing = some x.key → p x)
    (hclear : Clear (fun _ => false) (r.components ++ others.flatMap components)) :
    EndsIn void p (r.extendBefore trailing others).components := by
  unfold extendBefore
  dsimp only
  split
  · next key hkey =>
      obtain ⟨rfl, hends⟩ := Option.filter_eq_some_iff.1 hkey
      obtain ⟨x, hx, rfl⟩ : ∃ x ∈ r.components, x.key = key := by
        rw [endsWith, decide_eq_true_eq, last?_eq] at hends
        obtain ⟨x, hx, rfl⟩ := Option.map_eq_some_iff.1 hends
        exact ⟨x, List.mem_of_getLast? hx, rfl⟩
      rw [components_relocateToEnd_of_mem (subset_foldl_extend others r hx)]
      exact .concat _ (ht x rfl)
  · exact endsIn_foldl_extend hr ho hp hclear

end Registry

theorem forall_of_forall₂ {α β : Type} {R : α → β → Prop} {Q : β → Prop}
    {as : List α} {bs : List β} (h : List.Forall₂ R as bs)
    (hQ : ∀ a ∈ as, ∀ b, R a b → Q b) : ∀ b ∈ bs, Q b := by
  induction h with
  | nil => exact fun _ hm => absurd hm List.not_mem_nil
  | cons hab _ ih =>
      rw [List.forall_mem_cons] at hQ ⊢
      exact ⟨hQ.1 _ hab, ih hQ.2⟩

/-! ## Builders -/

variable {b b' b₁ : Builder} {br br' : Branch} {branches closed : List Branch}
  {c : Channel} {e : Endpoint} {input : ResolvedInput} {source : ChannelSource}
  {spec : EndpointSpec} {tapped flows : List (List Step)} {w w' : Workshop}

/-- Of the flows that were tapped the builder holds the last ones back, in
order. What it has of each ends on an endpoint; it may also be empty, if that
flow started afresh. -/
def Builder.KeepsBack (tapped : List (List Step)) (b : Builder) : Prop :=
  ∃ kept, kept <:+ tapped ∧
    List.Forall₂ (fun steps r => r.Capped (restarts steps = true)) kept
    b.cursor.deferred

/-- A flow as it is between two calls: what it ends on is no channel, or it is
the channel that the flow stands on. Where it stands on something it has no
tail, and what it holds back is what was tapped last. -/
structure Builder.Upright (main : Bool) (void : Prop) (tapped : List (List Step))
    (b : Builder) : Prop where
  last : EndsIn void (fun x => x.caps main = true ∨
    b.currentKey? = some x.key) b.registry.components
  tailless : b.cursor.channel ≠ none → b.cursor.tail = none
  held : b.KeepsBack tapped

/-- What a branch ends on is an endpoint, or the channel that the branch ended
on. -/
def Branch.Upright (void : Prop) (br : Branch) : Prop :=
  EndsIn void (fun x => x.caps false = true ∨
    ∃ c, br.ending = .channel c ∧ c.key = x.key) br.registry.components

namespace Builder

theorem currentKey_of_none (h : b.cursor.channel = none) :
    b.currentKey? = none := by
  rw [currentKey?, h]

theorem caps_bound (b : Builder) (target : Target) (x : Component) :
    (b.bound target x).caps main = x.caps main := by
  rw [bound_eq]
  exact Component.caps_settled _ x

namespace KeepsBack

theorem of_nil (h : b.cursor.deferred = []) : b.KeepsBack tapped :=
  ⟨[], List.nil_suffix, h ▸ .nil⟩

theorem mono (h : b.KeepsBack tapped) (hs : tapped <:+ flows) :
    b.KeepsBack flows := by
  obtain ⟨kept, hkept, hall⟩ := h
  exact ⟨kept, hkept.trans hs, hall⟩

theorem congr (h : b.KeepsBack tapped)
    (hd : b'.cursor.deferred = b.cursor.deferred) : b'.KeepsBack tapped := by
  obtain ⟨kept, hkept, hall⟩ := h
  exact ⟨kept, hkept, hd ▸ hall⟩

theorem capped (h : b.KeepsBack tapped) :
    ∀ r ∈ b.cursor.deferred, r.Capped True := by
  obtain ⟨kept, -, hall⟩ := h
  exact forall_of_forall₂ hall fun _ _ _ hr => hr.mono fun _ => trivial

/-- More flows are tapped, and what comes of them is held back too. -/
theorem holding (h : b.KeepsBack tapped)
    (hclosed : List.Forall₂
      (fun steps br => br.registry.Capped (restarts steps = true)) flows closed) :
    (b.holding closed).KeepsBack (tapped ++ flows) := by
  obtain ⟨kept, ⟨front, rfl⟩, hall⟩ := h
  refine ⟨kept ++ flows, ⟨front, (List.append_assoc ..).symm⟩,
    List.rel_append hall ?_⟩
  exact List.forall₂_map_right_iff.2 hclosed

end KeepsBack

namespace Upright

theorem mono {void' : Prop} (h : b.Upright main void tapped) (hv : void → void')
    (hs : tapped <:+ flows) :
    b.Upright main void' flows :=
  ⟨h.last.mono hv fun _ hx => hx, h.tailless, h.held.mono hs⟩

/-- Where nothing is current or held back, all that counts is what comes
last. -/
theorem of_caps
    (hlast : EndsIn void (fun x => x.caps main = true) b.registry.components)
    (hnone : b.cursor.channel = none) (hheld : b.cursor.deferred = []) :
    b.Upright main void tapped where
  last := hlast.mono id fun _ hx => .inl hx
  tailless hne := absurd hnone hne
  held := .of_nil hheld

theorem caps (h : b.Upright main void tapped) (hnone : b.cursor.channel = none) :
    EndsIn void (fun x => x.caps main = true) b.registry.components := by
  refine h.last.mono id fun x hx => hx.resolve_right ?_
  rw [currentKey_of_none hnone]
  exact nofun

/-- The flows that were held back come to stand behind all but a channel that
the flow stands on. -/
theorem flushed
    (hlast : EndsIn void (fun x => x.caps main = true ∨ b.currentKey? = some x.key)
      b.registry.components)
    (hheld : ∀ r ∈ b.cursor.deferred, r.Capped hollow)
    (hclear : Clear (fun _ => false) b.components) :
    EndsIn void (fun x => x.caps main = true ∨
      b.currentKey? = some x.key) b.flushDeferred.registry.components := by
  unfold flushDeferred
  split
  · exact hlast
  · exact Registry.endsIn_extendBefore hlast hheld
      (fun _ hx => .inl (Component.caps_of_endpoint hx)) (fun _ => .inr) hclear

end Upright

/-- An endpoint comes to stand last, or one of a flow that was held back
does. -/
theorem upright_wired {sides : List Registry}
    (hheld : ∀ r ∈ b.cursor.deferred, r.Capped hollow)
    (hclear : Clear (fun _ => false)
      (b.components ++ sides.flatMap Registry.components ++
        madeChannels input ++ [.endpoint e])) :
    (b.wired input sides e).Upright main False tapped := by
  have hparts := clear_bound hclear
  have hready := b.condenses_ready input sides
  have hcursor : (b.ready input sides).cursor.deferred = b.cursor.deferred ∧
      (b.ready input sides).cursor.channel = none := by
    rw [ready_eq, deferred_bindPending, channel_bindPending, cursor_placed]
    exact ⟨rfl, rfl⟩
  have hnew : ∀ x ∈ (b.ready input sides).registry.components,
      x.key ≠ (Component.endpoint e).key := by
    intro x hx
    exact (Clear.append_iff.1 (Clear.append_iff.1 hparts).1).2.2 x
      (hready.subperm.subset hx) _ (List.mem_singleton_self _) (.inr rfl)
  refine .of_caps ?_ (by rw [cursor_wired]) (by rw [cursor_wired])
  let behind : Builder :=
    { b.ready input sides with
      registry := (b.ready input sides).registry.add (.endpoint e) }
  have hregistry : behind.registry.components =
      (b.ready input sides).registry.components ++ [.endpoint e] :=
    Registry.components_add_of_new hnew
  have hbehind : Clear (fun _ => false) behind.components := by
    refine Condenses.clear ?_ hparts
    rw [components_eq, hregistry, ← hcursor.1]
    exact (hready.append_right _).append_right _
  have hlast :
      EndsIn False (fun x => x.caps main = true ∨ behind.currentKey? = some x.key)
      behind.registry.components := hregistry ▸ .concat _ (.inl rfl)
  have hflushed := Upright.flushed hlast (hcursor.1 ▸ hheld) hbehind
  refine hflushed.mono id fun x hx => hx.resolve_right ?_
  rw [currentKey_of_none (b := behind) hcursor.2]
  exact nofun

theorem deferred_appended (b : Builder) (source : ChannelSource) :
    (b.appended source).cursor.deferred = b.cursor.deferred := by
  cases source with
  | channel c =>
      exact deferred_bindPending { b with registry := b.registry.add (.channel c) }
        (.channel c)
  | named name => exact deferred_bindPending b (.named name)
  | fixedSubscriber => rfl

/-- A channel that is appended comes to stand last, unless it is registered
already. -/
theorem Upright.appended (h : b.Upright main void tapped)
    (hnone : b.cursor.channel = none) (source : ChannelSource) :
    (b.appended source).Upright main void tapped := by
  have hcaps := h.caps hnone
  refine ⟨?_, fun _ => rfl, h.held.congr (b.deferred_appended source)⟩
  cases source with
  | channel c =>
      have hregistry : (b.appended (.channel c)).registry.components =
          (b.registry.add (.channel c)).components.map (b.bound (.channel c)) :=
        components_bindPending { b with registry := b.registry.add (.channel c) }
          (.channel c)
      rw [hregistry, Registry.components_add]
      split
      · exact hcaps.map fun x hx => .inl (by rwa [caps_bound])
      · rw [List.map_append]
        refine .concat _ (.inr ?_)
        rw [bound_channel, currentKey?, channel_appended]
        rfl
  | named name =>
      have hregistry : (b.appended (.named name)).registry.components =
          b.registry.components.map (b.bound (.named name)) :=
        components_bindPending b (.named name)
      rw [hregistry]
      exact hcaps.map fun x hx => .inl (by rwa [caps_bound])
  | fixedSubscriber => exact hcaps.mono id fun _ hx => .inl hx

theorem Upright.attach (h : b.Upright main void tapped)
    (hb : b.Neat w.nextComponent) (hy : Yields (b.attach spec) w b' w') :
    b'.Upright main False tapped := by
  obtain ⟨input, w₁, e, -, rfl, -, -, hclear⟩ := wired_of_attach hb hy
  exact upright_wired h.held.capped hclear

theorem Upright.bridge (h : b.Upright main void tapped)
    (hb : b.Neat w.nextComponent) (hy : Yields b.bridge w b' w') :
    b'.Upright main False tapped :=
  h.attach (w := { w with nextHandler := w.nextHandler + 1 }) hb
    (of_yields_bridge hy)

theorem Upright.channel (h : b.Upright main void tapped)
    (hb : b.Neat w.nextComponent) (hy : Yields (b.channel source) w b' w') :
    b'.Upright main void tapped := by
  obtain ⟨b₁, hb₁, rfl⟩ := of_yields_channel hy
  rcases hb₁ with ⟨-, hbridge⟩ | ⟨hnone, rfl, -⟩
  · have hattach := of_yields_bridge hbridge
    have hnone : b₁.cursor.channel = none := by
      obtain ⟨input, _, -, hw⟩ := of_yields_attach hattach
      obtain ⟨e, rfl, -⟩ := wired_of_yields hw
      rw [cursor_wired]
    exact ((h.bridge hb hbridge).mono False.elim (List.suffix_refl _)).appended
      hnone source
  · exact h.appended hnone source

theorem Upright.tapPoint {attempted : String} (h : b.Upright main void tapped)
    (hy : Yields (b.tapPoint attempted) w (b', c) w') :
    b'.Upright main void tapped := by
  rcases of_yields_tapPoint hy with ⟨-, rfl, -⟩ | ⟨hnone, rfl, -, -⟩
  · exact h
  · exact h.appended hnone _

theorem Upright.openFanOut (h : b.Upright main void tapped)
    (hb : b.Neat w.nextComponent) (hy : Yields (b.openFanOut c) w b' w') :
    b'.Upright main void tapped := by
  rcases of_yields_openFanOut hy with ⟨-, rfl, -⟩ | ⟨-, hy⟩
  · exact h
  · exact h.channel hb hy

theorem Upright.absorb (h : b.Upright main void tapped)
    (hclosed : ∀ br ∈ closed, br.registry.Capped True)
    (hclear : Clear (fun _ => false)
      (b.components ++ closed.flatMap fun br => br.registry.components)) :
    (b.absorb closed).Upright main void tapped where
  last := by
    refine Registry.endsIn_foldl_extend h.last (List.forall_mem_map.2 hclosed)
      (fun _ hx => .inl (Component.caps_of_endpoint hx)) (hclear.of_subperm ?_)
    rw [List.flatMap_map, components_eq, List.append_assoc]
    exact (((List.sublist_append_right _ _).append_left _).map _).subperm
  tailless := h.tailless
  held := h.held

theorem Upright.holding (h : b.Upright main void tapped)
    (hclosed : List.Forall₂
      (fun steps br => br.registry.Capped (restarts steps = true)) flows closed) :
    (b.holding closed).Upright main void (tapped ++ flows) where
  last := h.last
  tailless := h.tailless
  held := h.held.holding hclosed

/-- A builder that a branch starts with stands on the channel that is
registered. -/
theorem upright_branch (b : Builder) (c : Channel) :
    (b.branch c).Upright main False tapped where
  last := .concat [] (.inr rfl)
  tailless _ := rfl
  held := .of_nil rfl

theorem upright_blank (hr : b.registry = .empty) (hc : b.cursor = {}) :
    b.Upright main True tapped :=
  .of_caps (.inl ⟨trivial, by rw [hr]; rfl⟩) (by rw [hc]) (by rw [hc])

/-! ## Branches -/

/-- A branch ends on the channel that its builder stood on: where an output is
pending that was none. -/
theorem Upright.toBranch (h : b.Upright false void tapped) (hs : b.Sound)
    (hclear : Clear (fun _ => false) b.components) : b.toBranch.Upright void := by
  refine (Upright.flushed h.last h.held.capped hclear).mono id fun x hx =>
    hx.imp_right fun hkey => ?_
  obtain ⟨c, hc, hkey⟩ : ∃ c, b.cursor.channel = some (.channel c) ∧
    c.key = x.key := by
    unfold currentKey? at hkey
    split at hkey
    · next c hc => exact ⟨c, hc, Option.some.inj hkey⟩
    · cases hkey
  have hp : b.cursor.pending = none := by
    by_contra hne
    cases hs.unbound hne _ hc
  refine ⟨c, ?_, hkey⟩
  unfold Builder.toBranch
  rw [hp, hc]

end Builder

namespace Branch

theorem Upright.capped (h : br.Upright void) (hnone : br.channel? = none) :
    br.registry.Capped void := by
  refine Registry.capped_iff.2 (EndsIn.mono h id fun x hx => hx.resolve_right ?_)
  rintro ⟨c, hc, -⟩
  rw [channel?, hc] at hnone
  cases hnone

/-- A branch that is left open ends on an endpoint, since a channel that it
ended on is read by a bridge. -/
theorem Upright.leaveOpen (h : br.Upright void)
    (hlt : ∀ x ∈ br.registry.components, x.key.number < w.nextComponent)
    (hy : Yields (br.leaveOpen b) w br' w') : br'.registry.Capped void := by
  rcases of_yields_leaveOpen hy with ⟨hnone, -, rfl⟩ | ⟨last, key, -, ha⟩
  · exact h.capped hnone
  · obtain ⟨e, rfl, -, hfresh, -⟩ := linked_of_yields ha
    refine Registry.capped_iff.2 ?_
    rw [Registry.components_add_of_new (x := .endpoint e) fun x hx =>
      hfresh.ne_of_lt (hlt x hx)]
    exact .concat _ rfl

end Branch

/-- Branches that are left open hand back registries that end on endpoints. -/
theorem capped_of_leaveOpen {flows : List (Channel × List Step)}
    {hollow : Channel × List Step → Prop}
    (h : List.Forall₂ (fun flow br => br.Upright (hollow flow)) flows branches)
    (hlt : ∀ x ∈ branches.flatMap fun br => br.registry.components,
      x.key.number < w.nextComponent)
    (hys : YieldsAll (fun br => br.leaveOpen b) w branches closed w') :
    List.Forall₂ (fun flow br => br.registry.Capped (hollow flow))
      flows closed := by
  induction h generalizing w closed with
  | nil =>
      cases hys
      exact .nil
  | @cons flow br flows branches hhere hrest ih =>
      obtain ⟨br', closed, w₁, rfl, hy, hys⟩ := hys.of_cons
      simp only [List.flatMap_cons, List.forall_mem_append] at hlt
      obtain ⟨links, -, -, hn⟩ := Branch.components_of_leaveOpen hlt.1 hy
      exact .cons (hhere.leaveOpen hlt.1 hy)
        (ih (fun x hx => Nat.lt_of_lt_of_le (hlt.2 x hx) hn.next_le) hys)

namespace Builder

/-- A flow goes on behind the bridge that comes last, and a router that is a
dead end has only closed branches behind it. -/
theorem upright_routedTo {fallsBack : Bool} (h : b.Upright main void tapped)
    (hb : b.Beside branches w.nextComponent)
    (hbr : ∀ br ∈ branches, br.Upright True)
    (hy : b.RoutedTo fallsBack branches w b' w') :
    b'.Upright main False tapped := by
  obtain ⟨router, -, -, hmet⟩ := hy.outcome hb
  by_cases hmeets : branches.any Branch.isOpen = true ∨ fallsBack = true
  · obtain ⟨m, links, bridge, hconverges, -⟩ := hmet hmeets
    have hcapped : b'.registry.Capped False := .inr ⟨bridge, hconverges.last⟩
    refine .of_caps (EndsIn.mono (Registry.capped_iff.1 hcapped) id fun _ =>
      Component.caps_of_endpoint) ?_ ?_
    · rw [hconverges.cursor]
    · rw [hconverges.cursor]
  · obtain ⟨default, r, w₁, spec, b₁, w₂, hdefault, hr, -, -, ha, hy⟩ := hy
    rcases meets_of_reconcile hr with ⟨hmeet, -⟩ | ⟨-, hrb, hrm, rfl⟩
    · exact absurd (hmeet.symm.imp_right hdefault.1) hmeets
    · rw [hrb, hrm] at hy
      obtain ⟨-, rfl, -⟩ | ⟨_, hsome, -⟩ := of_yields_absorbMerged hy
      · have hattach : b₁.Upright main False tapped :=
          h.attach (by exact hb.neat) ha
        obtain ⟨own, made, -, hattached⟩ := attached_of_yields ha
        have hjoined :
            (branches.flatMap fun br => br.registry.components).Perm
              ((branches.flatMap fun br => br.joined none) ++
                ([] : List Endpoint).map Component.endpoint) := by
          simp [Branch.joined_none]
        refine hattach.absorb (fun br hm => (hbr br hm).capped ?_)
          (hattached.front hb hjoined (.nil _)).1
        have hclosed : ¬ br.isOpen = true :=
          fun hopen => hmeets (.inl (List.any_eq_true.2 ⟨br, hm, hopen⟩))
        have hending : br.ending = .closed := by simpa [Branch.isOpen] using hclosed
        rw [Branch.channel?, hending]
      · cases hsome

/-- A scatter-gather registers the endpoint that gathers at the end, though
the flow goes on behind its own. -/
theorem upright_gathered {plan : ScatterGatherPlan} {release : Release}
    {scattering : Scattering} {gather : Channel}
    (hb : b.Beside scattering.branches w.nextComponent)
    (hs : ∀ c ∈ [scattering.channel, gather], c.key.number < w.nextComponent)
    (hy : Yields (b.finishScatterGather plan release scattering gather) w b' w') :
    b'.Upright main False tapped := by
  obtain ⟨closed, w₁, spec, b₁, w₂, reader, gatherer, hconverge, -, ha, -, hreads,
    hfresh, -, rfl, -⟩ :=
    gathered_of_yields hy
  obtain ⟨links, hclosed, hlinks, -⟩ :=
    takers_converge (fun x hx => hb.free x (List.mem_append_right _ hx)) hconverge
  obtain ⟨own, made, -, hattached⟩ := attached_of_yields ha
  have hle : w.nextComponent ≤ w₂.nextComponent :=
    (hlinks.append hattached.numbered).next_le
  have hgiven := (hattached.front hb hclosed hlinks).2
  have hcursor : b₁.cursor.channel = none ∧ b₁.cursor.deferred = [] := by
    rw [hattached.cursor]
    exact ⟨rfl, rfl⟩
  have hposted :=
    ((b₁.condenses_posted scattering.channel reader).append_right
      (closed.flatMap fun br => br.registry.components)).trans
    (condenses_absorb _ closed)
  have hlt :
      ∀ x ∈
          (((b₁.posted scattering.channel reader).absorb closed).registry.add
            (.channel gather)).components,
        x.key.number < w₂.nextComponent + reader.toList.length := by
    intro x hx
    have hold : ∀ c ∈ [scattering.channel, gather],
        (Component.channel c).key.number < w₂.nextComponent +
          reader.toList.length :=
      fun c hc => Nat.lt_of_lt_of_le (hs c hc) (Nat.le_add_right_of_le hle)
    rcases List.mem_append.1 ((Registry.condenses_add _ _).subperm.subset hx)
      with hx | hx
    · have hx := hposted.subperm.subset (registry_subset_components _ hx)
      simp only [List.mem_append, List.mem_singleton, List.mem_map] at hx
      rcases hx with ((hx | rfl) | ⟨e, he, rfl⟩) | hx
      · exact Nat.lt_add_right _ (hgiven x (List.mem_append_left _ hx))
      · exact hold _ List.mem_cons_self
      · have hread := hreads e (Option.mem_toList.1 he)
        rw [Option.mem_toList.1 he, show (Component.endpoint e).key = e.key
            from rfl, hread.1.key]
        exact Nat.lt_succ_self _
      · exact Nat.lt_add_right _ (hgiven x (List.mem_append_right _ hx))
    · rw [List.mem_singleton.1 hx]
      exact hold _ (List.mem_cons_of_mem _ List.mem_cons_self)
  refine .of_caps ?_ hcursor.1 hcursor.2
  show EndsIn False _
        (((((b₁.posted scattering.channel reader).absorb closed).registry.add
            (.channel gather)).add (.endpoint gatherer)).components)
  rw [Registry.components_add_of_new (x := .endpoint gatherer) fun x hx =>
    hfresh.ne_of_lt (hlt x hx)]
  exact .concat _ rfl

end Builder

end

/-! ## Calls -/

section

variable {B : Channel → Prop} {main : Bool} {void : Prop}
  {tapped : List (List Step)} {s : Step} {b b' : Builder} {branches : List Branch}
  {st : Stage} {d : Desk} {ds : List Desk} {w w₁ w₂ w₃ w' : Workshop}

/-- The flows that a call taps. -/
def Step.tapFlows : Step → List (List Step)
  | .wireTap _ destination => destination.flows
  | _ => []

/-- Where its flows are upright, a call leaves its builder so. A tap adds its
flow to those that were tapped. -/
theorem Step.upright_of_stages
    (htidy : Tidy (fun _ => false) B ({ builder := b } :: ds) w.nextComponent)
    (hb : ∀ c ∈ s.brought, B c) (hfresh : s.isFresh = false)
    (h : b.Upright main void tapped) (hst : Yields (s.stage b) w st w₁)
    (hbr : YieldsAll st.builder.runBranch w₁ st.flows branches w₂)
    (hclose : Yields (st.close branches) w₂ b' w₃)
    (hflows : List.Forall₂ (fun flow br => br.Upright (restarts flow.2 = true))
      st.flows branches) :
    b'.Upright main void (tapped ++ s.tapFlows) := by
  have hupright : ∀ br ∈ branches, br.Upright True :=
    forall_of_forall₂ hflows fun _ _ _ hbr =>
      EndsIn.mono hbr (fun _ => trivial) fun _ hx => hx
  have hlt := lt_of_branches htidy hb hst hbr
  -- Most calls tap no flow.
  have hgrown : tapped <:+ tapped ++ [] := by simp
  cases s with
  | channel plan =>
      simp only [stage, yields_bind, yields_pure] at hst
      obtain ⟨source, _, hm, rfl, rfl⟩ := hst
      obtain rfl := YieldsAll.eq_nil hbr
      cases hbr
      have hneat := htidy.neat.mono (plan.make_leaves.of_yields hm).components
      exact (h.channel hneat hclose).mono id hgrown
  | endpoint plan sides =>
      obtain ⟨handler, w₀, input, closed, e, -, -, -, rfl, hclear, -⟩ :=
        wired_of_stages htidy hb hst hbr hclose
      exact (Builder.upright_wired h.held.capped hclear).mono False.elim hgrown
  | wireTap plan destination =>
      simp only [stage, yields_bind, yields_pure] at hst
      obtain ⟨opening, w₄, ho, selector, _, hp, ⟨b₁, c⟩, w₅, ht, rfl, rfl⟩ := hst
      obtain ⟨closed, w₆, hopen, hheld⟩ := yields_bind.1 hclose
      obtain ⟨rfl, -⟩ := yields_pure.1 hheld
      have hcapped := capped_of_leaveOpen hflows hlt.2 (yieldsAll_of_mapM hopen)
      refine (h.tapPoint ht).holding ?_
      rw [tapFlows, ← (destination.of_yields_openUp ho).1]
      exact List.forall₂_map_left_iff.2 hcapped
  | intercept plan =>
      simp only [stage, yields_bind, yields_pure] at hst
      obtain ⟨interceptor, _, hm, ⟨b₁, c⟩, _, ht, rfl, rfl⟩ := hst
      obtain ⟨rfl, -⟩ := yields_pure.1 hclose
      exact (h.tapPoint ht).mono id hgrown
  | route | routeToRecipients =>
      obtain ⟨hsame, hrouted⟩ := routedTo_of_stages rfl hst hbr hclose
      rw [hsame] at hbr
      have hbeside := (htidy.neat.mono (next_le_of_stage hst)).beside
        (given_of_stage htidy hb hst) hbr
      exact (Builder.upright_routedTo h hbeside hupright hrouted).mono
        False.elim hgrown
  | publishSubscribe plan subscribers =>
      obtain ⟨c, closed, -, -, -, hfans, -⟩ :=
        fansOut_of_stages htidy hb hst hbr hclose
      have hcapped := capped_of_leaveOpen hflows hlt.2 hfans.closes
      have hopened : st.builder.Upright main void tapped := by
        simp only [stage, yields_bind, yields_pure] at hst
        obtain ⟨given, w₄, hg, c, w₅, hc, b₁, _, hopen, rfl, rfl⟩ := hst
        have hle₄ := ((optional_make_leaves plan.channel).of_yields hg).components
        have hle₅ :=
          ((Builder.fanOutChannel_leaves plan given).of_yields hc).components
        exact h.openFanOut (htidy.neat.mono (Nat.le_trans hle₄ hle₅)) hopen
      have hend : ∀ br ∈ closed, br.registry.Capped True :=
        forall_of_forall₂ hcapped fun _ _ _ hbr => hbr.mono fun _ => trivial
      rw [hfans.absorbs]
      exact (hopened.absorb hend hfans.clear).mono id hgrown
  | scatterGather plan scatter =>
      have hspared := spares_brought htidy hb
      have hle := next_le_of_stage hst
      have hbeside := (htidy.neat.mono hle).beside (given_of_stage htidy hb hst) hbr
      obtain ⟨release, scattering, gather, hsame, hcloses, hchannel, -, hgather⟩ :=
        scatter_of_stage hst
      rw [hcloses branches] at hclose
      refine (Builder.upright_gathered (by exact hbeside)
        (fun c hc => ?_) hclose).mono False.elim hgrown
      refine Nat.lt_of_lt_of_le ?_ hlt.1
      rcases List.mem_cons.1 hc with rfl | hc
      · rcases hchannel with hmem | ⟨-, hnew⟩
        · exact Nat.lt_of_lt_of_le
            (hspared _ (List.mem_map_of_mem (List.mem_append_left _ hmem))).2 hle
        · exact hnew
      · rw [List.mem_singleton.1 hc]
        exact hgather
  | withId id =>
      obtain ⟨rfl, -⟩ := yields_pure.1 hst
      have hclose : Yields (b.withId id) w₂ b' w₃ := hclose
      rcases of_yields_withId (by rwa [assemble, Builder.yields_guarded])
        with ⟨-, rfl, -⟩ | ⟨-, rfl, -⟩
      · exact h.mono (fun hv => hv) hgrown
      · exact ⟨h.last, h.tailless, h.held.mono hgrown⟩
  | withSession session =>
      obtain ⟨rfl, -⟩ := yields_pure.1 hst
      have hclose : Yields (b.withSession session) w₂ b' w₃ := hclose
      rcases of_yields_withSession (by rwa [assemble, Builder.yields_guarded])
        with ⟨-, rfl, -⟩ | ⟨-, rfl, -⟩
      · exact h.mono id hgrown
      · exact ⟨h.last, h.tailless, h.held.mono hgrown⟩
  | fresh => cases hfresh
  | faulty => exact absurd hst not_yields_throw

/-! ## Flows -/

/-- The steps of a flow leave its builder upright. Nothing need be registered
in it any more where it started afresh. -/
def KeepsUpright (steps : List Step) : Prop :=
  ∀ {B : Channel → Prop} {void : Prop} {tapped : List (List Step)} {b b' : Builder}
    {d : Desk} {ds : List Desk} {w w' : Workshop},
    Tidy (fun _ => false) B ({ builder := b } :: d :: ds) w.nextComponent →
    (∀ c ∈ broughtBy steps, B c) → b.Upright false void tapped →
    Yields (assembleSteps b steps) w b' w' →
    b'.Upright false (void ∨ restarts steps = true)
    (tapped ++ steps.flatMap Step.tapFlows)

theorem Builder.upright_runBranch {flow : Channel × List Step} {br : Branch}
    (h : KeepsUpright flow.2)
    (hgiven : ∀ k ∈ givenKeys flow, k.number < w.nextComponent)
    (hy : Yields (b.runBranch flow) w br w') :
    br.Upright (restarts flow.2 = true) := by
  have htidy := tidy_alone (b := b) hgiven
  simp only [runBranch, yields_bind] at hy
  obtain ⟨nested, w₁, hsteps, hinto⟩ := hy
  obtain ⟨rfl, -⟩ := eq_toBranch hinto
  have hafter :=
    htidy.passes (LeadsWithin.passes (leadsWithin flow.2 fun c hc => hc) hsteps)
  have hstart : (b.branch flow.1).Upright false False [] :=
    b.upright_branch flow.1
  have hnested := h htidy (fun c hc => hc) hstart hsteps
  exact (hnested.mono (Or.resolve_left · id) (List.suffix_refl _)).toBranch
    (hafter.sound _ List.mem_cons_self).builder hafter.neat.clear

theorem Builder.upright_runBranches {flows : List (Channel × List Step)}
    (h : ∀ flow ∈ flows, KeepsUpright flow.2)
    (hgiven : ∀ k ∈ flows.flatMap givenKeys, k.number < w.nextComponent)
    (hys : YieldsAll b.runBranch w flows branches w') :
    List.Forall₂ (fun flow br => br.Upright (restarts flow.2 = true)) flows
      branches := by
  induction hys with
  | nil w => exact .nil
  | @cons w w₁ w' flow br flows branches hy hys ih =>
      simp only [List.forall_mem_cons, List.flatMap_cons, List.forall_mem_append]
        at h hgiven
      have hle := next_le_of_runBranch hgiven.1 hy
      exact .cons (upright_runBranch h.1 hgiven.1 hy)
        (ih h.2 fun k hk => Nat.lt_of_lt_of_le (hgiven.2 k hk) hle)

/-- A fresh start has nothing registered. -/
theorem Step.upright_fresh (hy : Yields (Step.fresh.assemble b) w b' w') :
    b'.Upright main True tapped := by
  obtain ⟨⟨_, _, rfl⟩, -⟩ := of_yields_fresh hy
  exact Builder.upright_blank rfl rfl

theorem Step.upright_of_keeps
    (htidy : Tidy (fun _ => false) B ({ builder := b } :: ds) w.nextComponent)
    (hb : ∀ c ∈ s.brought, B c) (h : b.Upright main void tapped)
    (hflows : ∀ flow ∈ s.flows, KeepsUpright flow)
    (hy : Yields (s.assemble b) w b' w') :
    b'.Upright main (void ∨ s.isFresh = true) (tapped ++ s.tapFlows) := by
  cases hfresh : s.isFresh with
  | false =>
      obtain ⟨st, w₁, branches, w₂, w₃, hst, hbr, hclose, -⟩ := of_yields hy
      refine (upright_of_stages htidy hb hfresh h hst hbr hclose ?_).mono .inl
        (List.suffix_refl _)
      exact Builder.upright_runBranches
        (fun flow hm => hflows _ (flow_mem_of_stage hst hm))
        (fun k hk => (given_of_stage htidy hb hst k hk).2) hbr
  | true =>
      obtain rfl := eq_fresh hfresh
      exact (upright_fresh hy).mono (fun _ => .inr rfl) (List.suffix_refl _)

theorem keepsUpright (steps : List Step) : KeepsUpright steps := by
  refine Step.flow_induction (P := fun s => ∀ flow ∈ s.flows, KeepsUpright flow)
    (Q := KeepsUpright) ?step ?nil ?cons steps
  case step => exact fun _ ih => ih
  case nil =>
    intro B void tapped b b' d ds w w' _ _ h hy
    obtain ⟨rfl, -⟩ := yields_pure.1 hy
    exact h.mono .inl (by simp)
  case cons =>
    intro s rest hs hrest B void tapped b b' d ds w w' htidy hb h hy
    rw [broughtBy_cons] at hb
    obtain ⟨b₁, w₁, hstep, hy⟩ := of_yields_assembleSteps_cons hy
    have hbs : ∀ c ∈ s.brought, B c := fun c hc => hb c (List.mem_append_left _ hc)
    have hafter := htidy.passes (Step.passes_answer (d := d) (t := ds) hbs hstep)
    have hnext := Step.upright_of_keeps htidy hbs h hs hstep
    refine (hrest hafter (fun c hc => hb c (List.mem_append_right _ hc)) hnext
      hy).mono (fun hv => ?_) (by simp)
    rw [restarts, List.any_cons, Bool.or_eq_true]
    exact or_assoc.1 hv

/-- A call leaves its builder upright, and a tap adds its flow to those that
were tapped. -/
theorem Step.upright
    (htidy : Tidy (fun _ => false) B ({ builder := b } :: ds) w.nextComponent)
    (hb : ∀ c ∈ s.brought, B c) (h : b.Upright main void tapped)
    (hy : Yields (s.assemble b) w b' w') :
    b'.Upright main (void ∨ s.isFresh = true) (tapped ++ s.tapFlows) :=
  upright_of_keeps htidy hb h (fun flow _ => keepsUpright flow) hy

end

end FlowAssembly
