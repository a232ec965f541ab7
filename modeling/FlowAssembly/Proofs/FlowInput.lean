import FlowAssembly.Graph.Descriptor
import FlowAssembly.Proofs.Calls
import FlowAssembly.Proofs.InputChannel

/-!
# The input channel of a finished flow

A flow that starts from a channel has it as its input channel in the end,
whatever is called in between: it is headed by that channel, with nothing
ahead of it, from its start on. A flow that starts from a name has no channel
at first.
-/

namespace FlowAssembly

open Assembly

/-! ## What a finished flow answers -/

namespace Builder

variable {P : List ComponentKey → Channel → Prop} {b b' : Builder} {c : Channel}
  {before after : List Mark} {g : FlowGraph} {w w' : Workshop}

theorem inputChannel_of_first (hnone : b.input = none)
    (h : b.First before c after) :
    b.toGraph.inputChannel = .ok c := by
  have hfirst : b.toGraph.channels.head? = some c := by
    rw [FlowGraph.channels, components_toGraph, List.head?_filterMap]
    exact h.firstChannel
  have hinput : b.toGraph.input = none := hnone
  rw [FlowGraph.inputChannel, hinput, hfirst]
  rfl

theorem inputChannel_of_pinned (hsome : b.input = some c.key)
    (hmem : .channel c ∈ b.registry.components) :
    b.toGraph.inputChannel = .ok c := by
  have hchannel : c ∈ b.toGraph.channels := by
    rw [FlowGraph.mem_channels, components_toGraph]
    exact hmem
  obtain ⟨d, hfound⟩ :
    ∃ d, b.toGraph.channels.find? (fun d => d.key = c.key) = some d := by
    rw [← Option.isSome_iff_exists, List.find?_isSome]
    exact ⟨c, hchannel, decide_eq_true rfl⟩
  have hkey : d.key = c.key := of_decide_eq_true
    (List.find?_some (p := fun d : Channel => d.key = c.key) hfound)
  have hd : .channel d ∈ b.registry.components := by
    rw [← components_toGraph, ← FlowGraph.mem_channels]
    exact List.mem_of_find?_eq_some hfound
  obtain rfl : d = c := by
    have hsame : Component.channel d = .channel c :=
      List.inj_on_of_nodup_map b.registry.nodup_keys hd hmem hkey
    exact Component.channel.inj hsame
  have hinput : b.toGraph.input = some d.key := hsome
  rw [FlowGraph.inputChannel, hinput]
  dsimp only [Option.bind_some]
  rw [hfound]
  rfl

/-- Placing held-back flows leaves the first channel first, unless the flow
stands on it and it stands last. -/
theorem First.flushed (h : b.First before c after)
    (hlast : after = [] → b.currentKey? = some c.key → b.cursor.deferred = []) :
    ∃ before' after', before'.Sublist before ∧
      b.flushDeferred.First before' c after' := by
  have hmem : .channel c ∈ b.flushDeferred.registry.components := by
    unfold flushDeferred
    split
    · exact h.mem
    · exact Registry.subset_extendBefore _ _ _ h.mem
  have hgoal : ∀ before' after' : List Mark, before'.Sublist before →
      b.flushDeferred.registry.marks = before' ++ .channel c.key :: after' →
      ∃ before' after', before'.Sublist before ∧
        b.flushDeferred.First before' c after' :=
    fun before' after' hsub hmarks =>
      ⟨before', after', hsub, hmarks, fun m hm => h.before m (hsub.subset hm), hmem⟩
  cases hd : b.cursor.deferred with
  | nil =>
      refine hgoal before after (List.Sublist.refl before) ?_
      unfold flushDeferred
      rw [hd]
      exact h.marks
  | cons first rest =>
      obtain ⟨more, hmore⟩ :=
        Registry.marks_prefix_foldl_extend (first :: rest) b.registry
      rw [h.marks, List.append_assoc, List.cons_append] at hmore
      have hflushed : b.flushDeferred.registry =
          b.registry.extendBefore b.currentKey? (first :: rest) := by
        unfold flushDeferred
        rw [hd]
      rw [Registry.extendBefore] at hflushed
      split at hflushed
      · next k hk =>
          -- What is moved stood last, and the first channel does not stand
          -- last if the flow stands on it.
          obtain ⟨hcurrent, hends⟩ := Option.filter_eq_some_iff.1 hk
          have hne : k ≠ c.key := by
            rintro rfl
            have hafter : after ≠ [] := fun hnil => by
              rw [hlast hnil hcurrent] at hd
              cases hd
            obtain ⟨m, hm, hkey⟩ := Registry.endsWith_iff.1 hends
            exact Registry.ne_of_last_of_behind h.marks hafter m hm hkey
          have hmoved :
              Mark.relocated (before ++ .channel c.key :: (after ++ more)) k = _ :=
            Mark.relocated_of_ne hne
          exact hgoal _ _ List.filter_sublist
            (by rw [hflushed, Registry.marks_relocated, ← hmore, hmoved])
      · exact hgoal _ _ (List.Sublist.refl before) (by rw [hflushed, ← hmore])

/-- What heads a flow that is found in order when it is finished is its input
channel. -/
theorem Headed.inputChannel (h : b.Headed P)
    (hP : ∀ {l l' : List ComponentKey} {c}, l'.Sublist l → P l c → P l' c)
    (hseated : b.Seated)
    (hlast : ∀ before c, b.input = none → b.First before c [] →
      P (Mark.keys before) c → b.currentKey? = some c.key → b.cursor.deferred = [])
    (hvalid : b.flushDeferred.registry.validate = .ok ()) :
    ∃ l c, P l c ∧ b.flushDeferred.toGraph.inputChannel = .ok c ∧
      .channel c ∈ b.flushDeferred.registry.components := by
  have hinput : b.flushDeferred.input = b.input := by
    unfold flushDeferred
    split <;> rfl
  cases h with
  | first hnone hfirst hp _ =>
      obtain ⟨before', after', hsub, hflushed⟩ := hfirst.flushed fun hnil =>
        hlast _ _ hnone (by rw [← hnil]; exact hfirst) hp
      exact ⟨_, _, hP (hsub.map Mark.key) hp,
        inputChannel_of_first (hinput.trans hnone) hflushed, hflushed.mem⟩
  | @pinned l c hsome hmem hp =>
      have hflushed : .channel c ∈ b.flushDeferred.registry.components := by
        unfold flushDeferred
        split
        · exact hmem
        · exact Registry.subset_extendBefore _ _ _ hmem
      exact ⟨l, c, hp, inputChannel_of_pinned (hinput.trans hsome) hflushed,
        hflushed⟩
  | @astray e k hastray =>
      have hflushed : Mark.Astray e k b.flushDeferred.registry.marks := by
        unfold flushDeferred
        split
        · exact hastray
        · exact Registry.astray_extendBefore hastray (fun j hj =>
            Registry.endpoint_ne_channel hastray.mem (hseated.mem_marks hj)) _
      have hordered := ((Registry.validate_eq_ok_iff _).1 hvalid).2
      rw [hflushed.misplaced] at hordered
      cases hordered

/-! ### Closing -/

/-- A flow that is finished was closed, found large enough and in order. -/
theorem closed_of_yields_finish (h : Yields b.finish w g w') :
    ∃ b' w₁, Yields b.closeImplicit w b' w₁ ∧ b'.checkSize = .ok () ∧
      b'.flushDeferred.registry.validate = .ok () ∧
      g = b'.flushDeferred.toGraph := by
  simp only [finish, yields_guarded, yields_bind, yields_ensure, yields_pure] at h
  obtain ⟨_, _, ⟨-, rfl⟩, b', w₁, hc, _, _, ⟨hsize, rfl⟩, _, _,
    ⟨hvalid, rfl⟩, rfl, -⟩ := h
  exact ⟨b', _, hc, hsize, hvalid, rfl⟩

/-- Closing a flow puts a bridge at its end, or leaves it as it is on a
channel of the caller's. -/
theorem extends_closeImplicit
    (hgiven : ∀ x ∈ b.components, x.key.number < w.nextComponent)
    (h : Yields b.closeImplicit w b' w') :
    b.Extends b' ∧
    (b' = b ∧ (∀ c, b.cursor.channel = some (.channel c) → c.implicit = false) ∨
      b'.cursor.channel = none) := by
  rcases of_yields_closeImplicit h with ⟨rfl, -, hexplicit⟩ | ⟨c, -, -, hb⟩
  · exact ⟨.refl b', .inl ⟨rfl, hexplicit⟩⟩
  · obtain ⟨hextends, hnone⟩ := extends_attach
      (w := { w with nextHandler := w.nextHandler + 1 })
      (fun x hx => hgiven x (b.registry_subset_components hx)) (of_yields_bridge hb)
    exact ⟨hextends, .inr hnone⟩

end Builder

theorem Builder.first_of_make {b : Builder} {c : Channel} {w w' : Workshop}
    (hy : Yields (Start.make (.channel c)) w b w') :
    b.input = none ∧ b.namedInput = none ∧ b.First [] c [] ∧
    b.currentKey? = some c.key := by
  simp only [Start.make, Builder.fromChannel, Builder.new, Builder.withConfig,
    yields_bind, yields_newFlowId, yields_newSession, yields_pure] at hy
  obtain ⟨_, _, ⟨_, _, ⟨rfl, rfl⟩, _, _, ⟨rfl, rfl⟩, rfl, rfl⟩, rfl, rfl⟩ := hy
  exact ⟨rfl, rfl,
    ⟨rfl, fun _ hm => absurd hm List.not_mem_nil, List.mem_cons_self⟩, rfl⟩

theorem Builder.Started.seated {s : Start} {b : Builder} {n n' : Nat}
    (h : b.Started s n n') : b.Seated := by
  intro c hc
  cases h with
  | bare _ _ _ _ hbare => exact absurd hc (hbare c)
  | channel _ hr hcursor =>
      rw [hcursor] at hc
      cases hc
      rw [hr]
      exact List.mem_cons_self
  | source _ _ _ hcursor =>
      rw [hcursor] at hc
      cases hc

/-! ## Runs -/

/-- A builder that started and was called, with each call as the builders
before and behind it. In between others may have made components. -/
inductive Evolves (start : Start) (allowed : Step → Builder → Prop) :
    List (Builder × Builder) → Builder → Workshop → Prop
  | start {b : Builder} {w w' : Workshop} :
      (∀ c ∈ start.brought, c.key.number < w.nextComponent) →
      Yields start.make w b w' → Evolves start allowed [] b w'
  | call {calls : List (Builder × Builder)} {s : Step} {b b' : Builder}
      {w w' : Workshop} : Evolves start allowed calls b w → s.isFresh = false →
      allowed s b → (∀ c ∈ s.brought, b.Knows w c) → Yields (s.assemble b) w b' w' →
      Evolves start allowed (calls ++ [(b, b')]) b' w'
  | meanwhile {calls : List (Builder × Builder)} {b : Builder} {w w' : Workshop} :
      Evolves start allowed calls b w → w.nextComponent ≤ w'.nextComponent →
      Evolves start allowed calls b w'

namespace Evolves

variable {start : Start} {allowed : Step → Builder → Prop}
  {calls : List (Builder × Builder)} {b : Builder} {w w' : Workshop} {s : Step}
  {g : FlowGraph}

theorem exists_underway (h : Evolves start allowed calls b w) :
    ∃ program past, Underway (fun _ => True) program b w past := by
  induction h with
  | start hs hy => exact ⟨_, _, .start (fun c hc => ⟨trivial, hs c hc⟩) hy⟩
  | call _ hfresh _ hk hy ih =>
      obtain ⟨program, past, hu⟩ := ih
      obtain ⟨history, hu, -⟩ :=
        hu.exists_call hfresh (fun c hc => ⟨trivial, hk c hc⟩) hy
      exact ⟨_, _, hu⟩
  | meanwhile _ hle ih =>
      obtain ⟨program, past, hu⟩ := ih
      exact ⟨program, past, .meanwhile hu hle⟩

theorem tidy (h : Evolves start allowed calls b w) :
    Tidy (fun _ => false) (fun _ => False) [{ builder := b }] w.nextComponent := by
  obtain ⟨program, past, hu⟩ := h.exists_underway
  exact hu.kept (I := fun brought _ ds n => Tidy (fun _ => false) brought ds n)
    (Tidy.kept nofun fun _ _ => rfl)

theorem given (h : Evolves start allowed calls b w) :
    ∀ x ∈ b.components, x.key.number < w.nextComponent := by
  have hgiven := h.tidy.given
  rwa [Tidy.stock_plain] at hgiven

theorem finds (h : Evolves start allowed calls b w)
    (hk : ∀ c ∈ s.brought, b.Knows w c) : s.Finds b w :=
  ⟨h.given, hk⟩

theorem seated (h : Evolves start allowed calls b w) : b.Seated := by
  induction h with
  | start _ hy => exact (Start.started hy).seated
  | call h hfresh _ hk hy ih =>
      exact ih.follows (Step.follows_of_yields (h.finds hk) hfresh hy)
  | meanwhile _ _ ih => exact ih

/-- A program that brings no channels of the caller's can be run in one go. -/
theorem exists_steps {steps : List Step} {b' : Builder}
    (h : Evolves start allowed calls b w)
    (hs : ∀ s ∈ steps, s.isFresh = false ∧ s.brought = [])
    (ha : ∀ s ∈ steps, ∀ b, allowed s b)
    (hy : Yields (assembleSteps b steps) w b' w') :
    ∃ more, Evolves start allowed (calls ++ more) b' w' := by
  induction steps generalizing calls b w with
  | nil =>
      obtain ⟨rfl, rfl⟩ := yields_pure.1 hy
      exact ⟨[], by rwa [List.append_nil]⟩
  | cons s rest ih =>
      obtain ⟨b₁, w₁, hstep, hy⟩ := of_yields_assembleSteps_cons hy
      obtain ⟨hfresh, hbrought⟩ := hs s List.mem_cons_self
      have hcall :=
        h.call hfresh (ha s List.mem_cons_self b) (by simp [hbrought]) hstep
      obtain ⟨more, hrest⟩ := ih hcall
        (fun s hm => hs s (List.mem_cons_of_mem _ hm))
        (fun s hm => ha s (List.mem_cons_of_mem _ hm)) hy
      rw [List.append_assoc] at hrest
      exact ⟨_, hrest⟩

/-- A flow that starts from a channel is headed by it all along. -/
theorem headed {c : Channel} (h : Evolves (.channel c) allowed calls b w) :
    b.Headed (fun l c' => l = [] ∧ c' = c) ∧ b.namedInput = none := by
  induction h with
  | start _ hy =>
      obtain ⟨hinput, hnamed, hfirst, hcurrent⟩ := Builder.first_of_make hy
      exact ⟨.first hinput hfirst ⟨rfl, rfl⟩ (.inl hcurrent), hnamed⟩
  | call h hfresh _ hk hy ih =>
      have hf := Step.follows_of_yields (h.finds hk) hfresh hy
      exact ⟨ih.1.follows (fun hsub hp => ⟨List.sublist_nil.1 (hp.1 ▸ hsub), hp.2⟩)
          h.seated (fun _ => (h.finds hk).spares_of_puts) hf, hf.named.trans ih.2⟩
  | meanwhile _ _ ih => exact ih

end Evolves

/-! ## Flows that start from a channel -/

/-- A finished flow names a channel of its own by the name of its entry. -/
theorem FlowGraph.exists_named {g : FlowGraph} {c : Channel}
    (hn : (g.components.map Component.key).Nodup) (hc : .channel c ∈ g.components) :
    ∃ e ∈ g.entries, e.component = .channel c ∧ g.nameOf? c.key = some e.name := by
  obtain ⟨e, he⟩ :
    ∃ e, g.entries.find? (fun e => e.component.key = c.key) = some e := by
    rw [← Option.isSome_iff_exists, List.find?_isSome]
    obtain ⟨e, he, hcomponent⟩ := List.mem_map.1 hc
    exact ⟨e, he, decide_eq_true (by rw [hcomponent]; rfl)⟩
  have hmem := List.mem_of_find?_eq_some he
  have hkey : e.component.key = c.key :=
    of_decide_eq_true (List.find?_some (p := fun e : GraphEntry =>
      e.component.key = c.key) he)
  refine ⟨e, hmem, List.inj_on_of_nodup_map hn (List.mem_map_of_mem hmem) hc hkey,
    ?_⟩
  rw [nameOf?, he]
  rfl

/-- A flow that starts from a channel has it as its input channel in the end,
and its descriptor names the entry of that channel. -/
theorem inputChannel_of_channel {c : Channel} {calls : List (Builder × Builder)}
    {b : Builder} {w w' : Workshop} {g : FlowGraph}
    (h : Evolves (.channel c) (fun _ _ => True) calls b w)
    (hy : Yields b.finish w g w') :
    g.inputChannel = .ok c ∧ ∃ e ∈ g.entries, e.component = .channel c ∧
      ∀ taps, (g.describe taps).inputChannel = some e.name := by
  obtain ⟨b', w₁, hclose, hsize, hvalid, rfl⟩ := Builder.closed_of_yields_finish hy
  obtain ⟨hheaded, hnamed⟩ := h.headed
  have hextends := (Builder.extends_closeImplicit h.given hclose).1
  have hf : b.Follows (fun _ => False) b' := .behind hextends
  -- A flow of nothing but the channel is not large enough, so the channel
  -- does not stand last.
  have hlast : ∀ before d, b'.input = none → b'.First before d [] →
      Mark.keys before = [] ∧ d = c →
      b'.currentKey? = some d.key → b'.cursor.deferred = [] := by
    rintro before d - hfirst ⟨hnil, -⟩ -
    obtain rfl := List.map_eq_nil_iff.1 hnil
    have hmarks := hfirst.marks
    obtain ⟨x, hx, hmark⟩ := List.map_eq_singleton_iff.1 hmarks
    have hmem := hfirst.mem
    rw [hx, List.mem_singleton] at hmem
    rw [Builder.checkSize, hx, ← hmem] at hsize
    cases hsize
  obtain ⟨l, _, ⟨-, rfl⟩, hinput, hmem⟩ := (hheaded.extends hextends).inputChannel
    (fun hsub hp => ⟨List.sublist_nil.1 (hp.1 ▸ hsub), hp.2⟩)
    (h.seated.follows hf) hlast hvalid
  refine ⟨hinput, ?_⟩
  obtain ⟨e, he, hcomponent, hname⟩ := FlowGraph.exists_named
    (g := b'.flushDeferred.toGraph)
    (by rw [Builder.components_toGraph]; exact Registry.nodup_keys _)
    (by rw [Builder.components_toGraph]; exact hmem)
  refine ⟨e, he, hcomponent, fun taps => ?_⟩
  have hnone : b'.flushDeferred.toGraph.namedInput = none := by
    have hflush : b'.flushDeferred.namedInput = b'.namedInput := by
      unfold Builder.flushDeferred
      split <;> rfl
    exact (hflush.trans hextends.named).trans hnamed
  have hanswer : (b'.flushDeferred.toGraph.describe taps).inputChannel =
      b'.flushDeferred.toGraph.inputName? :=
    rfl
  rw [hanswer, FlowGraph.inputName?, hnone, hinput]
  exact hname

/-- The channel stays the input of a flow in which side flows stand ahead of
it, with a tap and a router behind. -/
theorem inputChannel_of_channel_behind_sides :
    let orders : Channel := ⟨⟨0⟩, some "orders", .direct, [], false, none⟩
    let steps : List Step :=
      [.wireTap {} (.flow [.log .info none]),
        .endpoint { handler := .custom "gateway" true true [] }
          [(.new .direct (some "side") [] [], [.handle .bridge])],
        .route { strategy := .header "kind" } [("a", .flow [.handle .bridge]),
          ("b", .flow [])],
        .handle .bridge]
    ∃ b₀ w₀ calls b w g w', Yields (Start.channel orders).make (.start 1 1) b₀ w₀ ∧
      Yields (assembleSteps b₀ steps) w₀ b w ∧
      Evolves (.channel orders) (fun _ _ => True) calls b w ∧
      Yields b.finish w g w' ∧
      g.channels.filterMap Channel.id = ["side", "orders"] ∧
      g.inputChannel = .ok orders ∧
      ∃ e ∈ g.entries, e.component = .channel orders ∧
        ∀ taps, (g.describe taps).inputChannel = some e.name := by
  intro orders steps
  obtain ⟨g, w', hy, hids⟩ := exists_yields (m := do
      let b ← (Start.channel orders).make
      let b ← assembleSteps b steps
      b.finish)
    (f := fun g => g.channels.filterMap Channel.id) (w := .start 1 1)
      (y := ["side", "orders"]) (by decide +kernel)
  simp only [yields_bind] at hy
  obtain ⟨b₀, w₀, hmake, b, w, hsteps, hfinish⟩ := hy
  obtain ⟨calls, h⟩ :=
    (Evolves.start (by simp [Start.brought, orders, Workshop.start])
      hmake).exists_steps (by decide) (fun _ _ _ => trivial) hsteps
  obtain ⟨hinput, hentry⟩ := inputChannel_of_channel h hfinish
  exact ⟨b₀, w₀, _, b, w, g, w', hmake, hsteps, h, hfinish, hids, hinput, hentry⟩

end FlowAssembly
