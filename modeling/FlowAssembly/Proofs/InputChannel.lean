import FlowAssembly.Graph.Descriptor
import FlowAssembly.Proofs.Extension

/-!
# The channel that a flow reads from

A finished flow is asked for its input channel. What answers is the channel
that was remembered when side flows went ahead of it, or else whatever channel
stands first. So the answer depends on what stands first in the end, and that
can change: the first channel moves if branches meet on it, and so does a
channel at the end when held-back taps are placed.

A flow is `Headed` by the channels that have a property if its input is
remembered and has it, or the channel that stands first has it and is read.
The third case is that some endpoint stands ahead of the channel that it
reads; then nothing that follows puts the two in order again, and the flow is
refused. A channel that is read can only be moved behind its reader, so a
headed flow stays headed.
-/

namespace FlowAssembly

open Assembly

/-! ## Endpoints ahead of what they read -/

namespace Mark

variable {l l' before after : List Mark} {e k j : ComponentKey}

/-- The endpoint stands in the list and reads the channel, which does not
stand ahead of it. -/
def Astray (e k : ComponentKey) (l : List Mark) : Prop :=
  ∃ before after, l = before ++ .endpoint e (some k) :: after ∧ k ∉ keys before

theorem Astray.misplaced (h : Astray e k l) : misplaced l = true := by
  obtain ⟨before, after, rfl, hk⟩ := h
  rw [Mark.misplaced, misplacedFrom_append, misplacedFrom, reads?]
  simp [hk]

theorem Astray.mem (h : Astray e k l) : .endpoint e (some k) ∈ l := by
  obtain ⟨before, after, rfl, -⟩ := h
  exact List.mem_append_right _ List.mem_cons_self

theorem Astray.mono (h : Astray e k l) (hl : l <+: l') : Astray e k l' := by
  obtain ⟨before, after, rfl, hk⟩ := h
  obtain ⟨more, rfl⟩ := hl
  exact ⟨before, after ++ more, by simp, hk⟩

/-- The list with one component moved behind all others. -/
def relocated (l : List Mark) (j : ComponentKey) : List Mark :=
  (l.filter fun m => m.key ≠ j) ++ l.filter fun m => m.key = j

theorem keys_filter_subset (p : Mark → Bool) (l : List Mark) :
    keys (l.filter p) ⊆ keys l :=
  (List.filter_sublist.map key).subset

/-- Moving another component to the end does not bring the two in order. -/
theorem Astray.relocate (h : Astray e k l) (hj : j ≠ e) :
    Astray e k (relocated l j) := by
  obtain ⟨before, after, rfl, hk⟩ := h
  refine ⟨before.filter fun m => m.key ≠ j,
    (after.filter fun m => m.key ≠ j) ++
      (before ++ .endpoint e (some k) :: after).filter fun m => m.key = j, ?_,
    fun hm => hk (keys_filter_subset _ _ hm)⟩
  rw [relocated, List.filter_append, List.filter_cons_of_pos (by simp [hj.symm])]
  simp

/-- Moving another component keeps what stands ahead of a channel ahead of it,
as far as it is not moved. -/
theorem relocated_of_ne (h : j ≠ k) :
    relocated (before ++ .channel k :: after) j =
      before.filter (fun m => m.key ≠ j) ++ .channel k ::
      ((after.filter fun m => m.key ≠ j) ++ (before ++ .channel k :: after).filter
        fun m => m.key = j) := by
  rw [relocated, List.filter_append, List.filter_cons_of_pos (by simp [h.symm]),
    List.append_assoc, List.cons_append]

/-- A channel that is moved behind its reader is not ahead of it any more. -/
theorem astray_relocated (hn : (keys l).Nodup) (hc : .channel k ∈ l)
    (hk : k ∈ reads l) :
    ∃ e, Astray e k (relocated l k) := by
  obtain ⟨m, hm, hreads⟩ := List.mem_filterMap.1 hk
  obtain ⟨e, rfl⟩ : ∃ e, m = .endpoint e (some k) := by
    cases m with
    | endpoint e reads => exact ⟨e, by rw [show reads = some k from hreads]⟩
    | channel | source => cases hreads
  have hne : e ≠ k := by
    rintro rfl
    have hsame := List.inj_on_of_nodup_map hn hm hc rfl
    cases hsame
  obtain ⟨before, after, hsplit⟩ := List.append_of_mem (List.mem_filter.2
    ⟨hm, decide_eq_true hne⟩ : .endpoint e (some k) ∈ l.filter fun m => m.key ≠ k)
  refine ⟨e, before, after ++ l.filter fun m => m.key = k,
    by rw [relocated, hsplit]; simp, fun hkeys => ?_⟩
  obtain ⟨other, hother, hkey⟩ := List.mem_map.1 hkeys
  have hfilter : other ∈ l.filter fun m => m.key ≠ k := by
    rw [hsplit]
    exact List.mem_append_left _ hother
  exact of_decide_eq_true (List.mem_filter.1 hfilter).2 hkey

end Mark

namespace Registry

theorem marks_relocated (r : Registry) (k : ComponentKey) :
    (r.relocateToEnd k).marks = Mark.relocated r.marks k :=
  r.marks_relocateToEnd k

/-- The two are not put in order when a channel that stood last is kept
there. -/
theorem astray_extendBefore {r : Registry} {e k : ComponentKey}
    {trailing : Option ComponentKey} (h : Mark.Astray e k r.marks)
    (ht : ∀ j ∈ trailing, j ≠ e) (others : List Registry) :
    Mark.Astray e k (r.extendBefore trailing others).marks := by
  have hextended := h.mono (marks_prefix_foldl_extend others r)
  unfold extendBefore
  dsimp only
  split
  · next j hj =>
      rw [marks_relocated]
      exact hextended.relocate (ht j (Option.filter_eq_some_iff.1 hj).1)
  · exact hextended

/-- A key that a registry has is that of one of its components only. -/
theorem endpoint_ne_channel {r : Registry} {e k : ComponentKey}
    {reads : Option ComponentKey} (he : .endpoint e reads ∈ r.marks)
    (hk : .channel k ∈ r.marks) : k ≠ e := by
  rintro rfl
  have hsame := List.inj_on_of_nodup_map r.nodup_keys_marks he hk rfl
  cases hsame

end Registry

/-! ## Headed flows -/

namespace Builder

variable {P : List ComponentKey → Channel → Prop} {b b₁ b' : Builder} {c : Channel}
  {k : ComponentKey} {branches : List Branch} {m : Channel} {e : Endpoint}
  {input : ResolvedInput} {sides : List Registry} {before after : List Mark}

/-- The channel is the first one in the flow, and `before` stands ahead of
it. -/
structure First (b : Builder) (before : List Mark) (c : Channel)
    (after : List Mark) : Prop where
  marks : b.registry.marks = before ++ .channel c.key :: after
  before : ∀ m ∈ before, m.isChannel = false
  mem : .channel c ∈ b.registry.components

/-- The input of the flow is remembered and has the property, or the first
channel has it and is current or read; or an endpoint stands ahead of what it
reads. The property may look at what stands ahead of the channel, and holds if
there is less. -/
inductive Headed (P : List ComponentKey → Channel → Prop) (b : Builder) : Prop
  | first {before after : List Mark} {c : Channel} : b.input = none →
      b.First before c after → P (Mark.keys before) c → b.currentKey? = some c.key ∨
      c.key ∈ Mark.reads b.registry.marks → Headed P b
  | pinned {l : List ComponentKey} {c : Channel} : b.input = some c.key →
      .channel c ∈ b.registry.components → P l c → Headed P b
  | astray {e k : ComponentKey} : Mark.Astray e k b.registry.marks → Headed P b

/-- The channel that the flow stands on is registered. -/
def Seated (b : Builder) : Prop :=
  ∀ c, b.cursor.channel = some (.channel c) → .channel c ∈ b.registry.components

theorem Seated.mem_marks (h : b.Seated) {k : ComponentKey}
    (hk : b.currentKey? = some k) :
    .channel k ∈ b.registry.marks := by
  obtain ⟨c, hc, rfl⟩ := currentKey?_eq_some.1 hk
  exact List.mem_map.2 ⟨.channel c, h c hc, rfl⟩

theorem First.firstChannel (h : b.First before c after) :
    b.firstChannel? = some c := by
  obtain ⟨hmarks, hbefore, hmem⟩ := h
  obtain ⟨cs, rest, hsplit, rfl, hrest⟩ := List.map_eq_append_iff.1 hmarks
  obtain ⟨x, cs', rfl, hx, -⟩ := List.map_eq_cons_iff.1 hrest
  have hnone : cs.findSome? Component.channel? = none := by
    rw [List.findSome?_eq_none_iff]
    intro y hy
    have hchannel := hbefore y.mark (List.mem_map_of_mem hy)
    cases y with
    | channel => cases hchannel
    | endpoint | source => rfl
  have hkey : x.key = c.key := by rw [← Component.key_mark, hx, Mark.key_channel]
  have hsame : x = .channel c := List.inj_on_of_nodup_map b.registry.nodup_keys
    (by rw [hsplit]; exact List.mem_append_right _ List.mem_cons_self) hmem hkey
  rw [firstChannel?, hsplit, List.findSome?_append, hnone, hsame]
  rfl

theorem First.extends (h : b.First before c after) (hx : b.Extends b') :
    ∃ more, b'.First before c more := by
  obtain ⟨more, hmore⟩ := hx.marks
  refine ⟨after ++ more, ⟨?_, h.before, hx.channels c h.mem⟩⟩
  rw [← hmore, h.marks, List.append_assoc]
  rfl

/-- What extends a headed flow is headed by the same channel. -/
theorem Headed.extends (h : b.Headed P) (hx : b.Extends b') : b'.Headed P := by
  cases h with
  | first hinput hfirst hp hread =>
      obtain ⟨more, hmore⟩ := hfirst.extends hx
      refine .first (hx.input.trans hinput) hmore hp ?_
      rcases hread with hread | hread
      · exact hx.read _ hread
      · exact .inr ((hx.marks.sublist.filterMap _).subset hread)
  | pinned hinput hmem hp =>
      exact .pinned (hx.input.trans hinput) (hx.channels _ hmem) hp
  | astray hastray => exact .astray (hastray.mono hx.marks)

theorem Spares.ne_of_endpoint {reads : Option ComponentKey} {j : ComponentKey}
    (h : b.Spares j) (he : .endpoint k reads ∈ b.registry.marks) : j ≠ k := by
  rintro rfl
  obtain ⟨x, hx, hmark⟩ := List.mem_map.1 he
  have hchannel :=
    h x (b.registry_subset_components hx) (by rw [← Component.key_mark, hmark]; rfl)
  cases x with
  | endpoint => cases hchannel
  | channel | source => cases hmark

theorem marks_placed {sides : List Registry} (hne : sides ≠ []) :
    (b.registry.extendBefore (input.target.channel?.map Channel.key)
      sides).marks <+: (b.placed input sides).registry.marks := by
  obtain ⟨side, rest, rfl⟩ := List.exists_cons_of_ne_nil hne
  unfold placed
  dsimp only [placeSides]
  split
  · exact Registry.marks_add _ _
  · exact List.prefix_rfl

theorem input_placeSides (target : Target) (hne : sides ≠ []) :
    (b.placeSides target sides).input =
      (b.input <|> (b.firstChannel? <|> target.channel?).map Channel.key) := by
  obtain ⟨side, rest, rfl⟩ := List.exists_cons_of_ne_nil hne
  rfl

/-- Side flows go ahead of the channel that their endpoint reads, and from
then on the input of the flow is remembered. -/
theorem Headed.sided (h : b.Headed P) (hseated : b.Seated) (hne : sides ≠ [])
    (ht : ∀ c, input.target = .channel c → b.currentKey? = some c.key ∨
      b.Spares c.key) :
    (b.wired input sides e).Headed P := by
  have hinput := (b.input_wired input sides e).1
  rw [input_placeSides _ hne] at hinput
  cases h with
  | first hnone hfirst hp _ =>
      have hfound :
          firstChannel? { b with cursor := { b.cursor with channel := none } } =
          some _ :=
        hfirst.firstChannel
      rw [hfound, hnone] at hinput
      exact .pinned hinput (channel_mem_wired hfirst.mem) hp
  | pinned hsome hmem hp =>
      rw [hsome] at hinput
      exact .pinned hinput (channel_mem_wired hmem) hp
  | @astray e' k hastray =>
      refine .astray (e := e') (k := k) ?_
      rw [registry_wired]
      refine Mark.Astray.mono ?_
        ((Registry.marks_add _ _).trans
          (Registry.marks_prefix_foldl_extend b.cursor.deferred _))
      rw [marks_ready]
      refine (Registry.astray_extendBefore hastray (fun j hj => ?_) sides).mono
        (marks_placed hne)
      -- The channel that the endpoint reads is not the one that stands ahead
      -- of its channel.
      obtain ⟨c, hc, rfl⟩ := Option.map_eq_some_iff.1 hj
      have htarget : input.target = .channel c := by
        revert hc
        cases input.target with
        | channel d => exact fun hc => congrArg Target.channel (Option.some.inj hc)
        | named name => exact fun hc => by cases hc
      rcases ht c htarget with hcurrent | hspares
      · exact Registry.endpoint_ne_channel hastray.mem (hseated.mem_marks hcurrent)
      · exact hspares.ne_of_endpoint hastray.mem

/-! ### Where branches meet -/

theorem marks_mergedOn_or (b : Builder) (branches : List Branch) (m : Channel) :
    (b.mergedOn branches m).registry.marks =
      Mark.relocated (b.absorb branches).registry.marks m.key ∨
    (b.absorb branches).registry.marks <+: (b.mergedOn branches m).registry.marks ∧
    m.key ∉ Mark.keys (b.absorb branches).registry.marks := by
  unfold mergedOn
  dsimp only [continueFrom]
  split
  · exact .inl (Registry.marks_relocated _ _)
  · next hnot =>
      exact .inr
        ⟨Registry.marks_add _ _, fun hm => hnot (Registry.contains_iff_marks.2 hm)⟩

theorem channel_mem_mergedOn (h : .channel c ∈ b.registry.components) :
    .channel c ∈ (b.mergedOn branches m).registry.components := by
  have habsorbed : .channel c ∈ (b.absorb branches).registry.components :=
    Registry.subset_foldl_extend _ _ h
  unfold mergedOn
  dsimp only [continueFrom]
  split
  · exact (Registry.perm_relocateToEnd _ _).symm.subset habsorbed
  · exact Registry.subset_add _ _ habsorbed

/-- A channel that is moved behind the branches leaves what stands ahead of it
to another, or leaves its reader ahead of it. -/
theorem First.relocated {r : Registry} (hn : (Mark.keys r.marks).Nodup)
    (hmarks : r.marks = before ++ .channel k :: after)
    (hread : k ∈ Mark.reads r.marks) (j : ComponentKey) :
    (∃ before' after', Mark.relocated r.marks j = before' ++ .channel k :: after' ∧
      before'.Sublist before) ∨
    ∃ e, Mark.Astray e k (Mark.relocated r.marks j) := by
  by_cases hj : j = k
  · subst hj
    exact .inr
      (Mark.astray_relocated hn
        (hmarks ▸ List.mem_append_right _ List.mem_cons_self) hread)
  · rw [hmarks]
    exact .inl ⟨_, _, Mark.relocated_of_ne hj, List.filter_sublist⟩

/-- What is read still is where branches meet, since nothing is lost. -/
theorem reads_mergedOn (h : k ∈ Mark.reads (b.absorb branches).registry.marks) :
    k ∈ Mark.reads (b.mergedOn branches m).registry.marks := by
  rcases b.marks_mergedOn_or branches m with hmarks | ⟨hstart, -⟩
  · obtain ⟨x, hx, hreads⟩ := List.mem_filterMap.1 h
    refine List.mem_filterMap.2 ⟨x, ?_, hreads⟩
    rw [hmarks, Mark.relocated, List.mem_append, List.mem_filter, List.mem_filter]
    by_cases hkey : x.key = m.key
    · exact .inr ⟨hx, decide_eq_true hkey⟩
    · exact .inl ⟨hx, decide_eq_true hkey⟩
  · exact (hstart.sublist.filterMap _).subset h

/-- Where branches meet, the first channel is first still, or it was moved and
left its reader behind. -/
theorem First.mergedOn (h : b.First before c after)
    (hread : c.key ∈ Mark.reads b.registry.marks) (branches : List Branch)
    (m : Channel) :
    (∃ before' after', before'.Sublist before ∧
      (b.mergedOn branches m).First before' c after') ∨
    ∃ e, Mark.Astray e c.key (b.mergedOn branches m).registry.marks := by
  obtain ⟨more, hmore⟩ := h.extends (b.extends_absorb branches)
  have hread : c.key ∈ Mark.reads (b.absorb branches).registry.marks :=
    ((b.extends_absorb branches).marks.sublist.filterMap _).subset hread
  have hmem : .channel c ∈ (b.mergedOn branches m).registry.components :=
    channel_mem_mergedOn h.mem
  rcases b.marks_mergedOn_or branches m with hmarks | ⟨⟨added, hadded⟩, -⟩
  · rw [hmarks]
    rcases First.relocated (b.absorb branches).registry.nodup_keys_marks hmore.marks
      hread m.key with
        ⟨before', after', hsplit, hsub⟩ | hastray
    · exact .inl ⟨before', after', hsub, hmarks.trans hsplit,
        fun x hx => h.before x (hsub.subset hx), hmem⟩
    · exact .inr hastray
  · refine .inl ⟨before, more ++ added, List.Sublist.refl before, ?_,
      h.before, hmem⟩
    rw [← hadded, hmore.marks, List.append_assoc]
    rfl

/-- Where branches meet, a headed flow stays headed. -/
theorem Headed.mergedOn (h : b.Headed P)
    (hP : ∀ {l l' : List ComponentKey} {c}, l'.Sublist l → P l c → P l' c)
    (hnone : b.cursor.channel = none) (hm : b.Spares m.key) :
    (b.mergedOn branches m).Headed P := by
  have habsorbed := (b.extends_absorb branches).marks
  cases h with
  | @first before after c hinput hfirst hp hread =>
      have hread : c.key ∈ Mark.reads b.registry.marks := by
        rw [currentKey?_of_none hnone] at hread
        exact hread.resolve_left nofun
      rcases hfirst.mergedOn hread branches m
        with ⟨before', after', hsub, hmerged⟩ | ⟨e, hastray⟩
      · exact .first hinput hmerged (hP (hsub.map Mark.key) hp)
          (.inr (reads_mergedOn ((habsorbed.sublist.filterMap _).subset hread)))
      · exact .astray hastray
  | pinned hsome hmem hp => exact .pinned hsome (channel_mem_mergedOn hmem) hp
  | @astray e k hastray =>
      have hbehind := hastray.mono habsorbed
      refine .astray (e := e) (k := k) ?_
      rcases b.marks_mergedOn_or branches m with hmarks | ⟨hstart, -⟩
      · rw [hmarks]
        exact hbehind.relocate (hm.ne_of_endpoint hastray.mem)
      · exact hbehind.mono hstart

/-- Every call leaves a headed flow headed. -/
theorem Headed.follows {placed : ComponentKey → Prop} (h : b.Headed P)
    (hP : ∀ {l l' : List ComponentKey} {c}, l'.Sublist l → P l c → P l' c)
    (hseated : b.Seated) (hplaced : ∀ k, placed k → b.Spares k)
    (hf : b.Follows placed b') : b'.Headed P := by
  cases hf with
  | behind hx => exact h.extends hx
  | sided hne ht =>
      exact h.sided hseated hne fun c hc => (ht c hc).imp_right (hplaced _)
  | met hx hnone hm hread =>
      exact ((h.extends hx).mergedOn hP hnone hm).extends hread

theorem Seated.follows {placed : ComponentKey → Prop} (h : b.Seated)
    (hf : b.Follows placed b') : b'.Seated := by
  cases hf with
  | behind hx =>
      exact fun c hc => (hx.seated c hc).elim (fun hc => hx.channels c (h c hc)) id
  | sided | met =>
      intro c hc
      rw [cursor_wired] at hc
      cases hc

theorem Follows.named {placed : ComponentKey → Prop} (hf : b.Follows placed b') :
    b'.namedInput = b.namedInput := by
  cases hf with
  | behind hx => exact hx.named
  | sided => exact (b.input_wired _ _ _).2
  | met hx => exact ((mergedOn _ _ _).input_wired _ _ _).2.trans hx.named

end Builder

end FlowAssembly
