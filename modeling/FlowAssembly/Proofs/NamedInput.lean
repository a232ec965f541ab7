import FlowAssembly.Proofs.Binding
import FlowAssembly.Proofs.FlowInput

/-!
# The input channel of a flow that reads a name

A flow that starts from a name has no channel of its own to begin with. As
long as none is registered the flow is blank: it stands on a name or on a
marker, or an output is pending. The call that brings the first channel takes
it into the chain of the flow: the flow stands on it afterwards, or what was
pending writes to it, or what is pending reads it. From then on the flow is
headed by that channel.

A call that attaches an endpoint with flows of its own to the name brings
their channels and none for the chain. They come to stand first in a flow that
has no other, so such a call is left out here. A scatter-gather over
recipients is not: its scatter channel stands ahead of all that its recipients
register, and its own recipient list reads it. A flow that ends on its first
channel while the flows of taps are held back is left out too: they are placed
ahead of it.
-/

namespace FlowAssembly

open Assembly

namespace Builder

variable {b b₁ b' : Builder} {c : Channel} {e : Endpoint} {w w' : Workshop}

/-! ## Blank flows -/

/-- No channel is registered, and the flow stands on a name or on a marker, or
something is pending unless nothing may follow. -/
structure Blank (b : Builder) : Prop where
  input : b.input = none
  marks : ∀ m ∈ b.registry.marks, m.isChannel = false
  deferred : b.cursor.deferred = []
  current : ∀ c, b.cursor.channel ≠ some (.channel c)
  awaits : b.Open → (∀ name, b.cursor.channel ≠ some (.named name)) →
    b.cursor.pending ≠ none

/-- The output of the component is bound to the channel. -/
def Writes (b : Builder) (k : ComponentKey) (c : Channel) : Prop :=
  ∃ x, b.Settled x ∧ x.key = k ∧ x.output? = some (.channel c)

/-- The flow was given its first channel where an output was pending. -/
def Opened (b b' : Builder) : Prop :=
  ∃ c, ∃ p ∈ b.cursor.pending, b'.Headed (fun _ d => d = c) ∧
    b'.Writes p.component c

theorem Opened.extends (h : b.Opened b₁) (hx : b₁.Extends b') : b.Opened b' := by
  obtain ⟨c, p, hp, hheaded, x, hx', hkey, hout⟩ := h
  exact ⟨c, p, hp, hheaded.extends hx, x, hx.settled x hx', hkey, hout⟩

theorem Blank.pending (h : b.Blank) (hopen : b.Open)
    (hcurrent : (∃ id, b.cursor.channel = some (.fixedSubscriber id)) ∨
      b.cursor.channel = none) :
    ∃ p, p ∈ b.cursor.pending := by
  refine Option.ne_none_iff_exists'.1 (h.awaits hopen fun name hname => ?_)
  rcases hcurrent with ⟨id, hcurrent⟩ | hcurrent
  · rw [hname] at hcurrent
    cases hcurrent
  · rw [hname] at hcurrent
    cases hcurrent

/-- A key that no worker has is not that of anything in a blank flow. -/
theorem Blank.not_mem_keys (h : b.Blank) {k : ComponentKey} (hs : b.Spares k) :
    k ∉ Mark.keys b.registry.marks := by
  intro hk
  obtain ⟨m, hm, rfl⟩ := List.mem_map.1 hk
  obtain ⟨x, hx, rfl⟩ := List.mem_map.1 hm
  have hworker := hs x (b.registry_subset_components hx) (Component.key_mark x).symm
  have hchannel := h.marks _ (List.mem_map_of_mem hx)
  cases x with
  | channel => cases hchannel
  | endpoint | source => cases hworker

theorem Blank.mem_add_channel (h : b.Blank) (hs : b.Spares c.key) :
    .channel c ∈ (b.registry.add (.channel c)).components := by
  refine Registry.mem_add fun x hx hk => h.not_mem_keys hs ?_
  rw [Registry.keys_marks]
  exact List.mem_map.2 ⟨x, hx, hk⟩

theorem Blank.firstChannel (h : b.Blank) : b.firstChannel? = none := by
  rw [firstChannel?, List.findSome?_eq_none_iff]
  intro x hx
  have hchannel := h.marks _ (List.mem_map_of_mem hx)
  cases x with
  | channel => cases hchannel
  | endpoint | source => rfl

/-- An endpoint that reads a name brings no channel. -/
theorem Blank.wired (h : b.Blank) (name : String) (e : Endpoint) :
    (b.wired ⟨.named name, none⟩ [] e).Blank where
  input := (b.input_wired _ _ _).1.trans h.input
  marks := by
    rw [registry_wired, h.deferred, List.foldl_nil]
    intro m hm
    obtain ⟨x, hx, rfl⟩ := List.mem_map.1 hm
    rcases List.mem_append.1 ((Registry.condenses_add _ _).subperm.subset hx)
      with hx | hx
    · have hmark : x.mark ∈ (b.ready ⟨.named name, none⟩ []).registry.marks :=
        List.mem_map_of_mem hx
      rw [marks_ready] at hmark
      exact h.marks _ hmark
    · rw [List.mem_singleton.1 hx]
      rfl
  deferred := by rw [cursor_wired]
  current c hc := by
    rw [cursor_wired] at hc
    cases hc
  awaits hopen _ hnone := by
    rw [Open, cursor_wired] at hopen
    rw [cursor_wired] at hnone
    dsimp only at hopen hnone
    rw [if_pos (hopen rfl _ rfl)] at hnone
    cases hnone

/-- What is pending writes to what the next endpoint reads. -/
theorem writes_wired (hsound : b.Sound) {p : PendingOutput}
    (hp : p ∈ b.cursor.pending) {input : ResolvedInput} {sides : List Registry}
    (hinput : input.target = .channel c)
    (hfresh : ∀ x ∈ b.registry.components, x.key ≠ e.key) :
    (b.wired input sides e).Writes p.component c := by
  obtain ⟨x, hx, hkey, hreplies, -⟩ := hsound.awaited p hp
  have hsends : (b.wired input sides e).Sends p.component input.target :=
    sends_wired hp hx hkey (Component.isWorker_of_replies hreplies) hfresh
  rw [hinput] at hsends
  exact hsends

/-- An endpoint that is attached where an output is pending reads the first
channel of a blank flow. -/
theorem Blank.opened_wired (h : b.Blank) (hsound : b.Sound) {p : PendingOutput}
    (hp : p ∈ b.cursor.pending) {sides : List Registry}
    (hreads : e.input = .channel c) (hne : c.key ≠ e.key)
    (hfresh : ∀ x ∈ b.registry.components, x.key ≠ c.key ∧ x.key ≠ e.key)
    (hsides : ∀ x ∈ sides.flatMap Registry.components, x.key ≠ c.key) :
    b.Opened (b.wired ⟨.channel c, some c⟩ sides e) := by
  refine ⟨c, p, hp, ?_, writes_wired hsound hp rfl fun x hx => (hfresh x hx).2⟩
  have hplaced :
      .channel c ∈ (b.placed ⟨.channel c, some c⟩ sides).registry.components := by
    refine Registry.mem_add fun x hx => ?_
    rcases List.mem_append.1
      ((condenses_placeSides { b with cursor := { b.cursor with channel := none } }
          _ sides).subperm.subset hx) with hx | hx
    · exact (hfresh x hx).1
    · exact hsides x hx
  have hmem :
      .channel c ∈ (b.wired ⟨.channel c, some c⟩ sides e).registry.components := by
    rw [registry_wired, ready_eq]
    exact Registry.subset_foldl_extend _ _
      (Registry.subset_add _ _ (channel_mem_bindPending hplaced))
  have hinput := (b.input_wired ⟨.channel c, some c⟩ sides e).1
  by_cases hnil : sides = []
  · subst hnil
    obtain ⟨more, hmore⟩ : b.registry.marks ++ [.channel c.key] <+:
        (b.wired ⟨.channel c, some c⟩ [] e).registry.marks := by
      rw [registry_wired, h.deferred, List.foldl_nil]
      refine List.IsPrefix.trans ?_ (Registry.marks_add _ _)
      have hadd : ((b.registry.add (.channel c)).marks) = b.registry.marks ++
            [.channel c.key] := by
        refine Registry.marks_add_of_not_mem fun hk => ?_
        rw [Registry.keys_marks] at hk
        obtain ⟨x, hx, hkey⟩ := List.mem_map.1 hk
        exact (hfresh x hx).1 hkey
      rw [marks_ready, ← hadd]
      exact List.prefix_rfl
    have hfirst :
        First (b.wired ⟨.channel c, some c⟩ [] e) b.registry.marks c more :=
      ⟨by rw [← hmore, List.append_assoc]; rfl, h.marks, hmem⟩
    have hread :
        .endpoint e ∈ (b.wired ⟨.channel c, some c⟩ [] e).registry.components := by
      refine mem_wired fun x hx => ?_
      rw [List.flatMap_nil, List.append_nil] at hx
      rcases List.mem_append.1 hx with hx | hx
      · exact (hfresh x hx).2
      · rw [List.mem_singleton.1 hx]
        exact hne
    refine .first (hinput.trans h.input) hfirst rfl
      (.inr (List.mem_filterMap.2 ⟨_, List.mem_map_of_mem hread, ?_⟩))
    rw [Component.mark, Mark.reads?, hreads]
    rfl
  · have hnone :
        firstChannel? { b with cursor := { b.cursor with channel := none } } =
        none :=
      h.firstChannel
    rw [input_placeSides _ hnil, hnone, h.input] at hinput
    exact .pinned (l := []) hinput hmem rfl

/-- Where branches meet, the first channel stays what it is. -/
theorem Opened.mergedOn (h : b.Opened b₁) (branches : List Branch) {m : Channel}
    (hm : b₁.Spares m.key) (hnone : b₁.cursor.channel = none) :
    b.Opened (b₁.mergedOn branches m) := by
  obtain ⟨c, p, hp, hheaded, x, hx, hkey, hout⟩ := h
  exact ⟨c, p, hp, hheaded.mergedOn (fun _ h => h) hnone hm, x,
    ⟨b₁.subset_mergedOn branches m hx.mem, hx.apart⟩, hkey, hout⟩

/-- Attaching an endpoint to a blank flow leaves it blank if the flow stands
on a name, and brings its first channel otherwise. -/
theorem Blank.attach (h : b.Blank) (hsound : b.Sound) (hopen : b.Open)
    (hgiven : ∀ x ∈ b.registry.components, x.key.number < w.nextComponent)
    {spec : EndpointSpec} (hy : Yields (b.attach spec) w b' w') :
    (b'.Blank ∧ ∃ name, b.cursor.channel = some (.named name)) ∨ b.Opened b' := by
  obtain ⟨input, w₁, hi, hw⟩ := of_yields_attach hy
  obtain ⟨e, rfl, hfresh, -, hreads, -⟩ := wired_of_yields hw
  rcases of_yields_resolveInput hi
    with ⟨c, hcurrent, -⟩ | ⟨name, hcurrent, rfl, -⟩ | ⟨c, hcurrent, rfl, hkey, rfl⟩
  · exact absurd hcurrent (h.current c)
  · exact .inl ⟨h.wired name e, name, hcurrent⟩
  · obtain ⟨p, hp⟩ := h.pending hopen hcurrent
    have hlt : c.key.number < w.nextComponent + 1 := by
      rw [hkey]
      exact Nat.lt_succ_self _
    refine .inr
      (h.opened_wired hsound hp hreads (hfresh.ne_of_lt hlt)
        (fun x hx => ⟨?_, ?_⟩) fun x hx => absurd hx List.not_mem_nil)
    · intro heq
      have hbefore := hgiven x hx
      rw [heq, hkey] at hbefore
      exact Nat.lt_irrefl _ hbefore
    · exact hfresh.ne_of_lt (Nat.lt_succ_of_lt (hgiven x hx))

/-- An endpoint that replies, attached to a blank flow that stands on a name, is
what is pending behind it. -/
theorem Blank.attach_named (h : b.Blank) {name : String}
    (hname : b.cursor.channel = some (.named name))
    (hgiven : ∀ x ∈ b.registry.components, x.key.number < w.nextComponent)
    {spec : EndpointSpec} (hreplies : spec.handler.producesReplies = true)
    (hy : Yields (b.attach spec) w b' w') :
    b'.Blank ∧ ∃ p ∈ b'.cursor.pending, ∃ own : Endpoint,
      .endpoint own ∈ b'.registry.components ∧ own.key = p.component ∧
      own.handler = spec.handler := by
  obtain ⟨input, w₁, hi, hw⟩ := of_yields_attach hy
  obtain ⟨own, rfl, hfresh, hhandler, -⟩ := wired_of_yields hw
  rcases of_yields_resolveInput hi
    with ⟨c, hcurrent, -⟩ | ⟨_, -, rfl, rfl⟩ | ⟨_, hcurrent, -⟩
  · exact absurd hcurrent (h.current c)
  · refine ⟨h.wired _ own, ⟨own.key, own.label, own.handler.requiresReply⟩, ?_, own,
      ?_, rfl, hhandler⟩
    · rw [cursor_wired]
      exact if_pos (hhandler ▸ hreplies)
    · refine mem_wired fun x hx => ?_
      simp only [madeChannels, Option.toList_none, List.map_nil, List.flatMap_nil,
        List.append_nil] at hx
      exact hfresh.ne_of_lt (hgiven x hx)
  · rw [hname] at hcurrent
    rcases hcurrent with ⟨_, hcurrent⟩ | hcurrent <;> cases hcurrent

/-- Appending a channel where a blank flow stands on nothing makes it the
first one. -/
theorem Blank.appended (h : b.Blank) (hopen : b.Open)
    (hnone : b.cursor.channel = none) {source : ChannelSource}
    (hs : ∀ c, source = .channel c → b.Spares c.key) :
    (b.appended source).Blank ∨
      ∃ c, source = .channel c ∧ (b.appended source).Headed fun _ d => d = c := by
  cases source with
  | channel c =>
      have hmarks : (b.appended (.channel c)).registry.marks = b.registry.marks ++
            [.channel c.key] :=
        (marks_bindPending { b with registry := b.registry.add (.channel c) }
          _).trans (Registry.marks_add_of_not_mem (h.not_mem_keys (hs c rfl)))
      have hadd : .channel c ∈ (b.registry.add (.channel c)).components :=
        h.mem_add_channel (hs c rfl)
      have hfirst : (b.appended (.channel c)).First b.registry.marks c [] :=
        ⟨hmarks, h.marks,
          channel_mem_bindPending
            (b := { b with registry := b.registry.add (.channel c) }) hadd⟩
      have hinput :=
        input_bindPending { b with registry := b.registry.add (.channel c) }
        (.channel c)
      exact .inr
        ⟨c, rfl, .first (hinput.1.trans h.input) hfirst rfl
            (.inl (currentKey?_eq_some.2 ⟨c, rfl, rfl⟩))⟩
  | named name =>
      refine .inl ⟨(b.input_bindPending (.named name)).1.trans h.input, ?_, ?_,
        nofun, fun _ hnot => absurd rfl (hnot name)⟩
      · rw [show (b.appended (.named name)).registry.marks = b.registry.marks
          from marks_bindPending b _]
        exact h.marks
      · exact (deferred_bindPending b (.named name)).trans h.deferred
  | fixedSubscriber id =>
      obtain ⟨p, hp⟩ := h.pending hopen (.inr hnone)
      exact .inl ⟨h.input, h.marks, h.deferred, nofun,
        fun _ _ => Option.ne_none_iff_exists'.2 ⟨p, hp⟩⟩

/-! ## The first channel of the chain -/

/-- The call took the channel into the chain of the flow: the flow stands on
it, or what was pending writes to it, or what is pending reads it, or scatters
over it to the recipient list that reads it. -/
inductive TakesIn (b b' : Builder) (c : Channel) : Prop
  | stands : b'.cursor.channel = some (.channel c) → TakesIn b b' c
  | writes {p : PendingOutput} {x : Component} : p ∈ b.cursor.pending →
      x ∈ b'.registry.components → x.key = p.component →
      x.output? = some (.channel c) → TakesIn b b' c
  | reads {p : PendingOutput} {e : Endpoint} : p ∈ b'.cursor.pending →
      .endpoint e ∈ b'.registry.components → e.key = p.component →
      e.input = .channel c → TakesIn b b' c
  | scatters {p : PendingOutput} {own e gatherer : Endpoint} {gather : Channel}
      {timeout : Duration} {list : RecipientList} : p ∈ b'.cursor.pending →
      .endpoint own ∈ b'.registry.components → own.key = p.component →
      own.handler.Gathers c gather gatherer.handler timeout →
      .endpoint e ∈ b'.registry.components →
      e.handler.behaviour = .recipientList list → e.input = .channel c →
      TakesIn b b' c

theorem TakesIn.mono (h : b.TakesIn b₁ c)
    (hc : b'.cursor.channel = b₁.cursor.channel)
    (hp : b'.cursor.pending = b₁.cursor.pending)
    (hs : b₁.registry.components ⊆ b'.registry.components) :
    b.TakesIn b' c := by
  cases h with
  | stands hstands => exact .stands (hc.trans hstands)
  | writes hpending hx hkey hout => exact .writes hpending (hs hx) hkey hout
  | reads hpending he hkey hin => exact .reads (hp ▸ hpending) (hs he) hkey hin
  | scatters hpending hown hkey hgathers he hlist hin =>
      exact .scatters (hp ▸ hpending) (hs hown) hkey hgathers (hs he) hlist hin

theorem Headed.imp {P Q : List ComponentKey → Channel → Prop} (h : b.Headed P)
    (himp : ∀ l c, P l c → Q l c) :
    b.Headed Q := by
  cases h with
  | first hnone hfirst hp hread => exact .first hnone hfirst (himp _ _ hp) hread
  | pinned hsome hmem hp => exact .pinned hsome hmem (himp _ _ hp)
  | astray hastray => exact .astray hastray

/-- The call left the flow blank, or it took into the chain the channel that
heads the flow now. -/
def Begins (b b' : Builder) : Prop :=
  b'.Blank ∨ b'.Headed fun _ c => b.TakesIn b' c

theorem Opened.begins (h : b.Opened b') : b.Begins b' := by
  obtain ⟨c, p, hp, hheaded, x, hx, hkey, hout⟩ := h
  exact .inr (hheaded.imp fun _ d hd => hd ▸ .writes hp hx.mem hkey hout)

/-- A flow that stands on a channel is not blank, and what is put behind that
changes nothing. -/
theorem Begins.behind (h : b.Begins b₁)
    (hcurrent : b₁.cursor.channel = some (.channel c)) (hx : b₁.Extends b')
    (hc : b'.cursor.channel = b₁.cursor.channel)
    (hp : b'.cursor.pending = b₁.cursor.pending)
    (hs : b₁.registry.components ⊆ b'.registry.components) : b.Begins b' := by
  rcases h with hblank | hheaded
  · exact absurd hcurrent (hblank.current c)
  · exact .inr ((hheaded.imp fun _ _ ht => ht.mono hc hp hs).extends hx)

/-! ## Operations -/

theorem Blank.begins_appended (h : b.Blank) (hopen : b.Open)
    (hnone : b.cursor.channel = none) {source : ChannelSource}
    (hs : ∀ c, source = .channel c → b.Spares c.key) :
    b.Begins (b.appended source) := by
  rcases h.appended hopen hnone hs with hblank | ⟨c, rfl, hheaded⟩
  · exact .inl hblank
  · exact .inr (hheaded.imp fun _ d hd => hd ▸ .stands (channel_appended b _))

theorem Blank.begins_channel (h : b.Blank) (hsound : b.Sound)
    (hgiven : ∀ x ∈ b.components, x.key.number < w.nextComponent)
    {source : ChannelSource} (hs : ∀ c, source = .channel c → b.Knows w c)
    (hy : Yields (b.channel source) w b' w') :
    b.Begins b' ∧ b'.cursor.channel = some source := by
  have hopen := open_of_yields_channel hy
  obtain ⟨b₁, hb, rfl⟩ := of_yields_channel hy
  refine ⟨?_, channel_appended b₁ source⟩
  rcases hb with ⟨-, hb⟩ | ⟨hnone, rfl, -⟩
  · obtain ⟨-, hnone, hopen₁⟩ :=
      leads_bridge (B := fun _ => False) (d := { builder := b }) (t := []) hopen hb
    have hknows : ∀ c, source = .channel c → b₁.Knows w' c := fun c hc =>
      Knows.attach (w := { w with nextHandler := w.nextHandler + 1 })
        ⟨(hs c hc).made, (hs c hc).same⟩ (of_yields_bridge hb)
    rcases h.attach (w := { w with nextHandler := w.nextHandler + 1 }) hsound hopen
      (fun x hx => hgiven x (b.registry_subset_components hx)) (of_yields_bridge hb)
      with ⟨hblank, -⟩ | hopened
    · rcases hblank.appended hopen₁ hnone (fun c hc => (hknows c hc).spares)
        with hblank | ⟨c, rfl, hheaded⟩
      · exact .inl hblank
      · exact .inr (hheaded.imp fun _ d hd => hd ▸ .stands (channel_appended b₁ _))
    · exact (hopened.extends
        (extends_appended (currentKey?_of_none hnone) fun c hc x hx hk =>
          (hknows c hc).same x (b₁.registry_subset_components hx) hk)).begins
  · exact h.begins_appended hopen hnone fun c hc => (hs c hc).spares

theorem Blank.begins_tapPoint (h : b.Blank)
    (hgiven : ∀ x ∈ b.components, x.key.number < w.nextComponent)
    {attempted : String} (hy : Yields (b.tapPoint attempted) w (b', c) w') :
    b.Begins b' ∧ b'.cursor.channel = some (.channel c) := by
  have hopen : b.Open := by
    rw [tapPoint, yields_bind] at hy
    obtain ⟨_, _, ho, -⟩ := hy
    exact fun _ => (yields_ensureOpen.1 ho).1
  rcases of_yields_tapPoint hy with ⟨hcurrent, -⟩ | ⟨hnone, rfl, hkey, -⟩
  · exact absurd hcurrent (h.current c)
  · refine ⟨h.begins_appended hopen hnone ?_, channel_appended b _⟩
    rintro _ ⟨⟩
    exact spares_of_new hgiven (Nat.le_of_eq (by rw [hkey]))

/-- Where nothing is branched off, the channel behind a router that reads a
name is the first one. -/
theorem Blank.headed_mergedOn (h : b.Blank) {m : Channel} (hm : b.Spares m.key) :
    (b.mergedOn [] m).Headed fun _ d => d = m := by
  have hmerged : (b.mergedOn [] m).registry = b.registry.add (.channel m) := by
    have hnot : (b.absorb []).registry.contains m.key = false :=
      Bool.eq_false_iff.2 fun hk =>
        h.not_mem_keys hm (Registry.contains_iff_marks.1 hk)
    unfold mergedOn
    dsimp only [continueFrom]
    rw [hnot]
    rfl
  have hfirst : (b.mergedOn [] m).First b.registry.marks m [] := by
    refine ⟨?_, h.marks, ?_⟩
    · rw [hmerged]
      exact Registry.marks_add_of_not_mem (h.not_mem_keys hm)
    · rw [hmerged]
      exact h.mem_add_channel hm
  exact .first h.input hfirst rfl (.inl (currentKey?_eq_some.2 ⟨m, rfl, rfl⟩))

theorem mem_posted (hfresh : ∀ x ∈ b.registry.components, x.key ≠ e.key)
    (hne : c.key ≠ e.key) :
    .endpoint e ∈ (b.posted c (some e)).registry.components := by
  refine Registry.mem_add fun x hx => ?_
  rcases List.mem_append.1 ((Registry.condenses_add _ _).subperm.subset hx)
    with hx | hx
  · exact hfresh x hx
  · rw [List.mem_singleton.1 hx]
    exact hne

/-- The channel of a recipient list that is registered behind a blank flow is
the first one. -/
theorem Blank.headed_posted (h : b.Blank) (hc : b.Spares c.key)
    (hreads : e.input = .channel c)
    (hfresh : ∀ x ∈ b.registry.components, x.key ≠ e.key) (hne : c.key ≠ e.key) :
    (b.posted c (some e)).Headed fun _ d => d = c := by
  have hnew : c.key ∉ Mark.keys b.registry.marks := h.not_mem_keys hc
  have hadded : .channel c ∈ (b.registry.add (.channel c)).components :=
    h.mem_add_channel hc
  have hread : .endpoint e ∈ (b.posted c (some e)).registry.components :=
    mem_posted hfresh hne
  obtain ⟨more, hmore⟩ : b.registry.marks ++ [.channel c.key] <+:
      (b.posted c (some e)).registry.marks := by
    have hadd : (b.registry.add (.channel c)).marks = b.registry.marks ++
          [.channel c.key] :=
      Registry.marks_add_of_not_mem hnew
    rw [← hadd]
    exact Registry.marks_add _ _
  have hfirst : (b.posted c (some e)).First b.registry.marks c more := by
    refine ⟨?_, h.marks, Registry.subset_add _ _ hadded⟩
    rw [← hmore, List.append_assoc]
    rfl
  refine .first h.input hfirst rfl (.inr ?_)
  refine List.mem_filterMap.2 ⟨_, List.mem_map_of_mem hread, ?_⟩
  rw [Component.mark, Mark.reads?, hreads]
  rfl

end Builder

/-! ## Calls -/

namespace Step

/-- Whether the call is there to attach an endpoint. -/
def attaches : Step → Bool
  | .endpoint .. | .route .. | .routeToRecipients .. | .scatterGather .. => true
  | _ => false

/-- Whether the call attaches an endpoint that has flows of its own, or a
scatter-gather that publishes to subscribers: what is published is read in
their flows only. -/
def nests (s : Step) : Bool :=
  match s with
  | .endpoint .. | .route .. | .routeToRecipients .. => !s.flows.isEmpty
  | .scatterGather _ (.publish ..) => true
  | _ => false

variable {s : Step} {b b' : Builder} {w w' : Workshop}

theorem begins_channel {plan : SourcePlan} (h : b.Blank) (hsound : b.Sound)
    (hf : (Step.channel plan).Finds b w)
    (hy : Yields ((Step.channel plan).assemble b) w b' w') : b.Begins b' := by
  obtain ⟨source, w₁, hm, hy⟩ := of_yields_channel hy
  exact (h.begins_channel hsound
    (hf.later (plan.make_leaves.of_yields hm).components) (hf.knows_source hm) hy).1

theorem begins_wireTap {plan : TapPlan} {destination : Destination} (h : b.Blank)
    (hf : (Step.wireTap plan destination).Finds b w)
    (hy : Yields ((Step.wireTap plan destination).assemble b) w b' w') :
    b.Begins b' := by
  obtain ⟨opening, w₁, b₁, c, w₂, flow, w₃, tap, ho, ht, -, hy⟩ :=
    of_yields_wireTap hy
  obtain ⟨closed, _, -, -, rfl⟩ := Builder.of_yields_finishTap hy
  obtain ⟨hbegins, hcurrent⟩ := h.begins_tapPoint
    (hf.later (destination.openUp_leaves.of_yields ho).components) ht
  exact hbegins.behind hcurrent (b₁.extends_holding closed) rfl rfl
    (List.Subset.refl _)

theorem begins_intercept {plan : InterceptorPlan} (h : b.Blank)
    (hf : (Step.intercept plan).Finds b w)
    (hy : Yields ((Step.intercept plan).assemble b) w b' w') : b.Begins b' := by
  obtain ⟨interceptor, w₁, hm, hy⟩ := of_yields_intercept hy
  obtain ⟨c, _, ht, -⟩ := Builder.of_yields_intercept hy
  exact (h.begins_tapPoint (hf.later (plan.make_leaves.of_yields hm).components)
    ht).1

theorem begins_publishSubscribe {plan : FanOutPlan} {subscribers : List (List Step)}
    (h : b.Blank) (hsound : b.Sound)
    (hf : (Step.publishSubscribe plan subscribers).Finds b w)
    (hy : Yields ((Step.publishSubscribe plan subscribers).assemble b) w b' w') :
    b.Begins b' := by
  obtain ⟨given, w₁, c, w₂, b₁, w₃, branches, w₄, hg, hc, hopen, -, hy⟩ :=
    of_yields_publishSubscribe hy
  obtain ⟨closed, -, rfl⟩ := Builder.of_yields_finishFanOut hy
  obtain ⟨hle, hknows⟩ := hf.knows_fanOut hg hc
  rcases Builder.of_yields_openFanOut hopen with ⟨hcurrent, rfl, -⟩ | ⟨-, hopen⟩
  · obtain ⟨d, hd, -⟩ := Builder.currentKey?_eq_some.1 hcurrent
    exact absurd hd (h.current d)
  · obtain ⟨hbegins, hcurrent⟩ :=
      h.begins_channel hsound (hf.later hle) (by rintro _ ⟨⟩; exact hknows) hopen
    exact hbegins.behind hcurrent (b₁.extends_absorb closed) rfl rfl
      (Registry.subset_foldl_extend _ _)

theorem open_of_yields (ha : s.attaches = true)
    (hy : Yields (s.assemble b) w b' w') : b.Open := by
  obtain ⟨st, w₁, -, -, -, hst, -⟩ := of_yields hy
  cases s with
  | channel | wireTap | intercept | publishSubscribe | withId | withSession
  | fresh | faulty =>
      cases ha
  | endpoint plan sides =>
      simp only [stage, yields_bind, Builder.yields_ensureOpen] at hst
      obtain ⟨_, _, -, _, _, -, _, _, ⟨hopen, -⟩, -⟩ := hst
      exact fun _ => hopen
  | route plan mappings =>
      simp only [stage, yields_bind, Builder.yields_ensureOpen] at hst
      obtain ⟨_, _, -, _, _, -, _, _, ⟨hopen, -⟩, -⟩ := hst
      exact fun _ => hopen
  | routeToRecipients plan recipients =>
      simp only [stage, yields_bind, Builder.yields_ensureOpen] at hst
      obtain ⟨_, _, -, _, _, -, _, _, ⟨hopen, -⟩, -⟩ := hst
      exact fun _ => hopen
  | scatterGather plan scatter =>
      simp only [stage, yields_bind, Builder.yields_ensureOpen] at hst
      obtain ⟨_, _, -, _, _, -, _, _, -, _, _, ⟨hopen, -⟩, -⟩ := hst
      exact fun _ => hopen

theorem begins_endpoint {plan : EndpointPlan}
    {sides : List (ChannelPlan × List Step)} (h : b.Blank) (hsound : b.Sound)
    (hf : (Step.endpoint plan sides).Finds b w)
    (hnested : sides ≠ [] → ∀ name, b.cursor.channel ≠ some (.named name))
    (hy : Yields ((Step.endpoint plan sides).assemble b) w b' w') :
    b.Begins b' := by
  have hopen := open_of_yields (s := .endpoint plan sides) rfl hy
  obtain ⟨handler, w₁, seeds, w₂, spec, input, w₃, branches, w₄, closed, w₅,
    hm, hs, hi, hbr, hclosed, hy⟩ :=
    of_yields_endpoint hy
  obtain ⟨e, rfl, hfresh, -, hreads, -⟩ := Builder.wired_of_yields hy
  have hle₁ : w.nextComponent ≤ w₁.nextComponent :=
    (plan.handler.make_leaves.of_yields hm).components
  have hle₂ : w₁.nextComponent ≤ w₂.nextComponent :=
    (supplied_of_yieldsAll (fun side => side.1.make_leaves) hs).components
  have hle₄ : w₃.nextComponent ≤ w₄.nextComponent :=
    (Builder.accrues_of_runBranches hbr).components
  have hle₅ : w₄.nextComponent ≤ w₅.nextComponent :=
    ((b.leaveOpen_adds branches).of_yields hclosed.mapM).components
  rcases of_yields_resolveInput hi
    with ⟨c, hcurrent, -⟩ | ⟨name, hcurrent, rfl, -⟩ | ⟨c, hcurrent, rfl, hkey, rfl⟩
  · exact absurd hcurrent (h.current c)
  · -- An endpoint that reads the name has no sides here.
    obtain rfl : sides = [] :=
      Decidable.by_contra fun hne => hnested hne name hcurrent
    obtain rfl : seeds = [] := YieldsAll.eq_nil hs
    obtain rfl : branches = [] := YieldsAll.eq_nil hbr
    obtain rfl : closed = [] := YieldsAll.eq_nil hclosed
    exact .inl (h.wired name e)
  · obtain ⟨p, hp⟩ := h.pending hopen hcurrent
    -- The channel is made behind all that the sides are given and ahead of
    -- all that they make.
    have hgiven := hf.given_of_sides hle₁ hs
    have hne : ∀ k : ComponentKey, k.number < w₂.nextComponent ∨
        w₂.nextComponent + 1 ≤ k.number → k ≠ c.key := by
      rintro k hnumber rfl
      have hsame := congrArg ComponentKey.number hkey
      dsimp only at hsame
      omega
    have hkeys : ∀ x ∈ b.registry.components, x.key.number < w₂.nextComponent :=
      fun x hx =>
        hf.later (Nat.le_trans hle₁ hle₂) x (b.registry_subset_components hx)
    dsimp only at hle₄
    have hlt : w₂.nextComponent < w₅.nextComponent := Nat.le_trans hle₄ hle₅
    refine (h.opened_wired hsound hp hreads
      (hfresh.ne_of_lt (by rw [hkey]; exact hlt))
      (fun x hx =>
        ⟨hne _ (.inl (hkeys x hx)),
          hfresh.ne_of_lt (Nat.lt_trans (hkeys x hx) hlt)⟩) fun x hx => ?_).begins
    · rw [List.flatMap_map] at hx
      rcases Builder.stems_of_leaveOpen hclosed x hx with hbranch | hge
      · obtain ⟨y, hy, hsame⟩ := List.mem_map.1 hbranch
        have hstems :=
          ((Builder.stems_of_runBranches
              (fun k hk => Nat.lt_succ_of_lt (hgiven k hk)) hbr).2 y hy).1
        rw [hsame] at hstems
        exact hne _ (hstems.imp_left (hgiven _))
      · exact hne _ (.inr (Nat.le_trans hle₄ hge))

theorem begins_routed (h : b.Blank) (hsound : b.Sound) (hf : s.Finds b w)
    (hr : s.routes = true)
    (hnested : s.flows ≠ [] → ∀ name, b.cursor.channel ≠ some (.named name))
    (hy : Yields (s.assemble b) w b' w') : b.Begins b' := by
  have ha : s.attaches = true := by
    cases s with
    | route | routeToRecipients => rfl
    | channel | endpoint | wireTap | intercept | publishSubscribe | scatterGather
    | withId | withSession | fresh
    | faulty => cases hr
  have hopen := open_of_yields ha hy
  obtain ⟨spec, w₁, b₁, w₂, branches, hle, ha, hnil, hb⟩ :=
    routed_of_yields hf hr hy
  have hgiven : ∀ x ∈ b.registry.components, x.key.number < w₁.nextComponent :=
    fun x hx => hf.later hle x (b.registry_subset_components hx)
  have hnone := (Builder.extends_attach hgiven ha).2
  rcases h.attach hsound hopen hgiven ha with ⟨hblank, name, hname⟩ | hopened
  · obtain rfl : branches = [] :=
      hnil (Decidable.by_contra fun hne => hnested hne name hname)
    rcases hb with rfl | ⟨m, e, hspares, hreplies, hreads, hfresh, rfl⟩
    · exact .inl hblank
    · have hextends :
          (b₁.mergedOn [] m).Extends ((b₁.mergedOn [] m).wired
            ⟨.channel m, none⟩ [] e) :=
        Builder.extends_wired hreads (fun c hc => by cases hc; rfl) hfresh
      refine .inr
        (((hblank.headed_mergedOn hspares).extends hextends).imp fun _ d hd => ?_)
      rw [hd]
      refine .reads (p := ⟨e.key, e.label, e.handler.requiresReply⟩) ?_
        (Builder.mem_wired fun x hx => ?_) rfl hreads
      · rw [Builder.cursor_wired]
        exact if_pos hreplies
      · simp only [Builder.madeChannels, Option.toList_none, List.map_nil,
          List.flatMap_nil, List.append_nil] at hx
        exact hfresh x hx
  · rcases hb with rfl | ⟨m, e, hspares, -, hreads, hfresh, rfl⟩
    · exact (hopened.extends (b₁.extends_absorb branches)).begins
    · exact ((hopened.mergedOn branches hspares hnone).extends
        (Builder.extends_wired hreads (fun c hc => by cases hc; rfl) hfresh)).begins

/-- A scatter-gather over recipients that is attached to a name brings its
scatter channel as the first one of a blank flow. -/
theorem begins_scatterRecipients {plan : ScatterGatherPlan} {list : RecipientsPlan}
    {recipients : List (Option String × Destination)} {name : String} (h : b.Blank)
    (hf : (Step.scatterGather plan (.recipients list recipients)).Finds b w)
    (hname : b.cursor.channel = some (.named name))
    (hy : Yields
      ((Step.scatterGather plan (.recipients list recipients)).assemble b) w
      b' w') :
    b.Begins b' := by
  obtain ⟨release, w₁, parts, w₂, gather, scattering, w₃, hrelease, hparts, -,
    hkey, hlist, hbr, hy⟩ :=
    of_yields_scatterRecipients hy
  obtain ⟨branches, w₄, spec, b₁, w₅, reader, gatherer, hconverge, hgathers,
    ha, hnone, hreader, -, -, rfl, -⟩ := Builder.gathered_of_yields hy
  -- The scatter channel is newer than all that stands in the flow, and older
  -- than the endpoints.
  have hle₁ : w.nextComponent ≤ w₁.nextComponent :=
    (plan.gather.release.make_leaves.of_yields hrelease).components
  have hle₂ : w₁.nextComponent ≤ w₂.nextComponent :=
    ((list.make_leaves recipients).of_yields hparts).components
  have hle₃ : w₂.nextComponent + 1 + 1 ≤ w₃.nextComponent :=
    (Builder.accrues_of_runBranches hbr).components
  have hle₄ : w₃.nextComponent ≤ w₄.nextComponent :=
    ((b.converge_adds scattering.branches gather).of_yields
      hconverge.mapM).components
  have hle₅ : w₄.nextComponent ≤ w₅.nextComponent :=
    ((b.attach_adds spec).of_yields ha).components
  have hnumber : scattering.channel.key.number = w₂.nextComponent + 1 := by
    rw [hkey]
  have hspares : b₁.Spares scattering.channel.key := by
    refine (hf.spares_of_puts (.inr ?_)).attach ?_ ha
    · omega
    · dsimp only
      omega
  obtain ⟨e, rfl⟩ : ∃ e, reader = some e :=
    Option.ne_none_iff_exists'.1 fun hr => hlist (hnone.1 hr)
  obtain ⟨hfresh, ⟨members, _, -, hbehaviour⟩, hreads⟩ := hreader e rfl
  have hlater : ∀ x ∈ b.components, x.key.number < w₄.nextComponent :=
    hf.later (by omega)
  obtain ⟨hblank, p, hp, own, hown, hpkey, hhandler⟩ := h.attach_named hname
    (by exact fun x hx => hlater x (b.registry_subset_components hx))
    hgathers.producesReplies ha
  have hgiven : ∀ x ∈ b₁.components, x.key.number < w₅.nextComponent :=
    Builder.given_of_attach (by exact hlater) ha
  have hapart : ∀ x ∈ b₁.registry.components, x.key ≠ e.key :=
    fun x hx => hfresh.ne_of_lt (hgiven x (b₁.registry_subset_components hx))
  have hne : scattering.channel.key ≠ e.key := hfresh.ne_of_lt (by omega)
  have hheaded := hblank.headed_posted hspares hreads hapart hne
  have hextends :=
    (Builder.extends_absorb (b₁.posted scattering.channel (some e)) branches).trans
    (Builder.extends_posted _ gather (some gatherer))
  have hsub := List.Subset.trans
    (Registry.subset_foldl_extend (branches.map Branch.registry)
      (b₁.posted scattering.channel (some e)).registry)
    (((b₁.posted scattering.channel (some e)).absorb branches).subset_posted gather
      (some gatherer))
  have hposted := b₁.subset_posted scattering.channel (some e)
  refine .inr ((hheaded.extends hextends).imp fun _ d hd => ?_)
  rw [hd]
  exact .scatters hp (hsub (hposted hown)) hpkey (hhandler ▸ hgathers)
    (hsub (Builder.mem_posted hapart hne)) hbehaviour hreads

theorem begins_scatterGather {plan : ScatterGatherPlan} {scatter : Scatter}
    (h : b.Blank) (hsound : b.Sound)
    (hf : (Step.scatterGather plan scatter).Finds b w)
    (hnested : (Step.scatterGather plan scatter).nests = true →
      ∀ name, b.cursor.channel ≠ some (.named name))
    (hy : Yields ((Step.scatterGather plan scatter).assemble b) w b' w') :
    b.Begins b' := by
  have hopen := open_of_yields (s := .scatterGather plan scatter) rfl hy
  obtain ⟨spec, w₁, b₁, w₂, hle, ha, hextends, -⟩ := scattered_of_yields hy
  rcases h.attach hsound hopen
    (fun x hx => hf.later hle x (b.registry_subset_components hx)) ha with
      ⟨-, name, hname⟩ | hopened
  · cases scatter with
    | recipients list members => exact begins_scatterRecipients h hf hname hy
    | publish fan subscribers => exact absurd hname (hnested rfl name)
  · exact (hopened.extends hextends).begins

/-- A call on a blank flow leaves it blank, or the channel that heads the flow
behind it was taken in by the call. -/
theorem begins_of_yields (h : b.Blank) (hsound : b.Sound) (hf : s.Finds b w)
    (hfresh : s.isFresh = false)
    (hnested : s.nests = true → ∀ name, b.cursor.channel ≠ some (.named name))
    (hy : Yields (s.assemble b) w b' w') :
    b.Begins b' := by
  have hflows : s.flows ≠ [] → (!s.flows.isEmpty) = true := fun hne => by
    rw [Bool.not_eq_true', List.isEmpty_eq_false_iff]
    exact hne
  cases s with
  | channel => exact begins_channel h hsound hf hy
  | endpoint plan sides =>
      refine begins_endpoint h hsound hf
        (fun hne => hnested (hflows fun hnil => hne (List.map_eq_nil_iff.1 hnil)))
        hy
  | wireTap => exact begins_wireTap h hf hy
  | intercept => exact begins_intercept h hf hy
  | route | routeToRecipients =>
      exact begins_routed h hsound hf rfl (fun hne => hnested (hflows hne)) hy
  | publishSubscribe => exact begins_publishSubscribe h hsound hf hy
  | scatterGather => exact begins_scatterGather h hsound hf hnested hy
  | withId =>
      rcases of_yields_withId hy with ⟨-, rfl, -⟩ | ⟨-, rfl, -⟩
      · exact .inl h
      · exact .inl ⟨h.input, h.marks, h.deferred, h.current, h.awaits⟩
  | withSession =>
      rcases of_yields_withSession hy with ⟨-, rfl, -⟩ | ⟨-, rfl, -⟩
      · exact .inl h
      · exact .inl ⟨h.input, h.marks, h.deferred, h.current, h.awaits⟩
  | fresh => cases hfresh
  | faulty cause =>
      rw [assemble, Builder.yields_guarded] at hy
      exact absurd hy not_yields_throw

/-- A call that nests flows is made on a name only where a channel of the flow
is registered. -/
def Covered (s : Step) (b : Builder) : Prop :=
  s.nests = true → b.firstChannel? = none →
    ∀ name, b.cursor.channel ≠ some (.named name)

end Step

/-! ## Flows that start from a name -/

variable {name : String} {calls : List (Builder × Builder)} {b : Builder}
  {w w' : Workshop} {g : FlowGraph}

/-- The flow ends on its first channel, one of the caller's that stands last,
while the flows of taps are held back. -/
def Builder.EndsTapped (b : Builder) : Prop :=
  b.input = none ∧ b.cursor.deferred ≠ [] ∧
    ∃ d, b.cursor.channel = some (.channel d) ∧ d.implicit = false ∧
      b.firstChannel?.map Channel.key = some d.key ∧
      b.registry.endsWith d.key = true

theorem Builder.blank_of_make (hy : Yields (Start.make (.name name)) w b w') :
    b.Blank := by
  simp only [Start.make, Builder.fromChannelName, Builder.new, Builder.withConfig,
    yields_bind, yields_newFlowId, yields_newSession, yields_pure] at hy
  obtain ⟨_, _, ⟨_, _, ⟨rfl, rfl⟩, _, _, ⟨rfl, rfl⟩, rfl, rfl⟩, rfl, rfl⟩ := hy
  exact ⟨rfl, fun _ hm => absurd hm List.not_mem_nil, rfl,
    fun _ hc => (by cases hc), fun _ hnot => absurd rfl (hnot name)⟩

/-- A flow that starts from a name is blank, or it is headed by a channel that
one of its calls took into its chain. -/
theorem Evolves.begun (h : Evolves (.name name) Step.Covered calls b w) :
    b.Blank ∨ b.Headed fun _ c => ∃ call ∈ calls, call.1.TakesIn call.2 c := by
  induction h with
  | start _ hy => exact .inl (Builder.blank_of_make hy)
  | @call calls s b b' w w' h hfresh hcovered hk hy ih =>
      rcases ih with hblank | hheaded
      · have hsound := (h.tidy.sound _ List.mem_cons_self).builder
        rcases Step.begins_of_yields hblank hsound (h.finds hk) hfresh
          (fun hn => hcovered hn hblank.firstChannel) hy with hblank | hheaded
        · exact .inl hblank
        · exact .inr
            (hheaded.imp fun _ c ht =>
              ⟨(b, b'), List.mem_append_right _ List.mem_cons_self, ht⟩)
      · have hf := Step.follows_of_yields (h.finds hk) hfresh hy
        refine .inr
          ((hheaded.follows (fun _ hp => hp) h.seated
              (fun _ => (h.finds hk).spares_of_puts) hf).imp ?_)
        rintro _ c ⟨call, hcall, ht⟩
        exact ⟨call, List.mem_append_left _ hcall, ht⟩
  | meanwhile _ _ ih => exact ih

theorem Builder.Blank.inputChannel (h : b.Blank) :
    b.flushDeferred.toGraph.inputChannel =
      .error (.noInputChannel b.flushDeferred.toGraph.flowId) := by
  have hflushed : b.flushDeferred = b := by
    unfold flushDeferred
    rw [h.deferred]
  have hnone : b.toGraph.channels.head? = none := by
    rw [FlowGraph.channels, components_toGraph, List.head?_filterMap]
    exact h.firstChannel
  have hinput : b.toGraph.input = none := h.input
  rw [hflushed, FlowGraph.inputChannel, hinput, hnone]
  rfl

/-- A flow that starts from a name answers with a channel that a call took
into its chain, or it has no input channel, unless a call that `nests` was
made on the name where no channel stood, or the flow ends on its first channel
ahead of held-back taps. -/
theorem inputChannel_of_name (h : Evolves (.name name) Step.Covered calls b w)
    (hend : ¬ b.EndsTapped) (hy : Yields b.finish w g w') :
    (∃ c, g.inputChannel = .ok c ∧ ∃ call ∈ calls, call.1.TakesIn call.2 c) ∨
    g.inputChannel = .error (.noInputChannel g.flowId) := by
  obtain ⟨b', w₁, hclose, -, hvalid, rfl⟩ := Builder.closed_of_yields_finish hy
  obtain ⟨hextends, hclosed⟩ := Builder.extends_closeImplicit h.given hclose
  rcases h.begun with hblank | hheaded
  · right
    rcases Builder.of_yields_closeImplicit hclose with ⟨rfl, -⟩ | ⟨c, hc, -⟩
    · exact hblank.inputChannel
    · exact absurd hc (hblank.current c)
  · left
    have hf : b.Follows (fun _ => False) b' := .behind hextends
    obtain ⟨l, c, htaken, hinput, -⟩ := (hheaded.extends hextends).inputChannel
      (fun _ hp => hp) (h.seated.follows hf)
      (fun before c hnone hfirst _ hcurrent => by
        obtain ⟨d, hd, hkey⟩ := Builder.currentKey?_eq_some.1 hcurrent
        rcases hclosed with ⟨rfl, hexplicit⟩ | hclosed
        · by_contra hne
          refine hend ⟨hnone, hne, d, hd, hexplicit d hd, ?_, ?_⟩
          · rw [hfirst.firstChannel, hkey]
            rfl
          · rw [Registry.endsWith_iff, hfirst.marks]
            exact ⟨.channel c.key, List.getLast?_concat, hkey.symm⟩
        · rw [hclosed] at hd
          cases hd) hvalid
    exact ⟨c, hinput, htaken⟩

/-- The chain of the flow goes on from a name by a channel that is made for
its second endpoint, and then a router has branches. -/
theorem inputChannel_of_name_routed :
    let first : List Step :=
      [.handle .bridge, .handle (.custom "gateway" true true [])]
    let router : Step := .route { strategy := .header "kind" }
      [("a", .flow [.handle .bridge]), ("b", .flow [])]
    ∃ b₀ w₀ b₁ w₁ calls b w g w', Yields (Start.name "in").make (.start 1 1) b₀ w₀ ∧
      Yields (assembleSteps b₀ first) w₀ b₁ w₁ ∧
      Yields (router.assemble b₁) w₁ b w ∧
      Evolves (.name "in") Step.Covered calls b w ∧ ¬ b.EndsTapped ∧
      Yields b.finish w g w' ∧
      ∃ c, g.inputChannel = .ok c ∧
        ∃ call ∈ calls, call.1.TakesIn call.2 c := by
  intro first router
  obtain ⟨⟨b₁, b, g⟩, w', hy, hall⟩ := exists_yields (m := do
      let b ← (Start.name "in").make
      let b₁ ← assembleSteps b first
      let b ← router.assemble b₁
      return (b₁, b, ← b.finish))
    (f := fun (b₁, b, g) =>
      (b₁.firstChannel?.isSome, b.cursor.channel, g.inputChannel.toOption.isSome))
    (w := .start 1 1) (y := (true, none, true)) (by decide +kernel)
  simp only [yields_bind, yields_pure, Prod.mk.injEq] at hy hall
  obtain ⟨b₀, w₀, hmake, _, w₁, hfirst, _, w₂, hroute, _, _, hfinish,
    ⟨rfl, rfl, rfl⟩, rfl⟩ := hy
  obtain ⟨hchannel, hcurrent, hinput⟩ := hall
  have hstart : Evolves (.name "in") Step.Covered [] b₀ w₀ :=
    .start (by simp [Start.brought]) hmake
  have hplain : ∀ s ∈ first, s.nests = false := by decide
  obtain ⟨calls, h⟩ := hstart.exists_steps (by decide)
    (fun s hs b hn => by rw [hplain s hs] at hn; cases hn) hfirst
  have hbrought : router.brought = [] := by decide
  have hcovered : router.Covered b₁ := fun _ hnone => by
    rw [hnone] at hchannel
    cases hchannel
  have hrouted := h.call rfl hcovered (by simp [hbrought]) hroute
  have hend : ¬ b.EndsTapped := by
    rintro ⟨-, -, d, hd, -⟩
    rw [hcurrent] at hd
    cases hd
  refine ⟨b₀, w₀, b₁, w₁, _, b, w₂, g, w', hmake, hfirst, hroute, hrouted,
    hend, hfinish, ?_⟩
  rcases inputChannel_of_name hrouted hend hfinish with htaken | hnone
  · exact htaken
  · rw [hnone] at hinput
    cases hinput

/-- An endpoint that reads the name has a side flow, and what answers is the
channel that the side flow starts at: the call did not take it into the chain,
which has no channel at all. -/
theorem inputChannel_of_side :
    let side : Step := .endpoint { handler := .bridge }
      [(.new .direct (some "side") [] [], [.handle .bridge])]
    ∃ b₀ w₀ b w g w', Yields (Start.name "in").make (.start 1 1) b₀ w₀ ∧
      Yields (side.assemble b₀) w₀ b w ∧
      Evolves (.name "in") (fun _ _ => True) [(b₀, b)] b w ∧
      Yields b.finish w g w' ∧
      ∃ c, g.inputChannel = .ok c ∧ c.id = some "side" ∧ ¬ b₀.TakesIn b c := by
  intro side
  obtain ⟨⟨b₀, b, g⟩, w', hy, hall⟩ := exists_yields (m := do
      let b₀ ← (Start.name "in").make
      let b ← side.assemble b₀
      return (b₀, b, ← b.finish))
    (f := fun (b₀, b, g) => (b₀.cursor.pending.isNone && b.cursor.channel.isNone,
      (b.registry.components.filterMap Component.endpoint?).filterMap (fun e =>
        if b.cursor.pending.any fun p => p.component = e.key then
          some (e.input, e.handler.componentType)
        else none),
      g.inputChannel.toOption.map Channel.id))
    (w := .start 1 1) (y := (true, [(.named "in", "bridge")], some (some "side")))
    (by decide +kernel)
  simp only [yields_bind, yields_pure, Prod.mk.injEq, Bool.and_eq_true,
    Option.isNone_iff_eq_none] at hy hall
  obtain ⟨_, w₀, hmake, _, w₁, hside, _, _, hfinish, ⟨rfl, rfl, rfl⟩, rfl⟩ := hy
  obtain ⟨⟨hpending, hcurrent⟩, hreads, hinput⟩ := hall
  have hstart : Evolves (.name "in") (fun _ _ => True) [] b₀ w₀ :=
    .start (by simp [Start.brought]) hmake
  have hbrought : side.brought = [] := by decide
  obtain ⟨c, hc, hid⟩ : ∃ c, g.inputChannel = .ok c ∧ c.id = some "side" := by
    cases h : g.inputChannel with
    | ok c =>
        rw [h] at hinput
        exact ⟨c, rfl, Option.some.inj hinput⟩
    | error cause =>
        rw [h] at hinput
        cases hinput
  -- What is pending is the bridge that reads the name.
  have hread : ∀ p e, p ∈ b.cursor.pending → .endpoint e ∈ b.registry.components →
      e.key = p.component →
      e.input = .named "in" ∧ e.handler.componentType = "bridge" := by
    intro p e hp he hkey
    rw [← Prod.mk.injEq, ← List.mem_singleton, ← hreads, List.mem_filterMap]
    refine ⟨e, List.mem_filterMap.2 ⟨_, he, rfl⟩, ?_⟩
    rw [hp]
    simp [hkey]
  refine ⟨b₀, w₀, b, w₁, g, w', hmake, hside,
    hstart.call rfl trivial (by simp [hbrought]) hside, hfinish, c, hc, hid,
    fun htaken => ?_⟩
  cases htaken with
  | stands hstands =>
      rw [hcurrent] at hstands
      cases hstands
  | writes hp =>
      rw [hpending] at hp
      cases hp
  | @reads p e hp he hkey hin =>
      rw [(hread p e hp he hkey).1] at hin
      cases hin
  | @scatters p own _ _ _ _ _ hp hown hkey hgathers =>
      obtain ⟨aggregator, errorChannel, -, hbehaviour⟩ := hgathers
      have htype := (hread p own hp hown hkey).2
      rw [Handler.componentType, hbehaviour] at htype
      simp [Behaviour.componentType] at htype

end FlowAssembly
