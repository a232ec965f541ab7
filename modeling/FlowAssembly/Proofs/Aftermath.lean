import FlowAssembly.Proofs.Calls
import FlowAssembly.Proofs.Conclusions
import FlowAssembly.Proofs.Handover

/-!
# What becomes of the takers of a channel

A call that is not given a channel leaves it as many takers as it had, so they
are as many when the flow is finished as they were when its last user had
answered. Only one of them may not be a reader of the graph: the flow itself,
if it still stands on the channel in the end and the channel is no implicit
one (`Builder.takers_finish`). If the flow is nested in a call, its branch
ends before the graph does, and whoever takes the branch over makes a reader
of it (`Remains.takers`).

The same law tells what a channel had before it was made. Its key was free
then, so no call was given it, and at the start nothing takes anything
(`Called.takers_new`).
-/

namespace FlowAssembly

open Assembly

section

variable {b b' : Builder} {g : FlowGraph} {k : ComponentKey} {w w' : Workshop}

theorem standers_filter_of_zero {opened : List Channel} (h : standers k opened = 0)
    (p : Channel → Bool) :
    standers k (opened.filter p) = 0 := by
  rw [standers, List.countP_eq_zero] at h ⊢
  exact fun c hc => h c (List.mem_filter.1 hc).1

namespace Builder

theorem mem_opened {c : Channel} : c ∈ b.opened ↔
      b.cursor.channel = some (.channel c) := by
  unfold opened
  split
  · next d hd =>
      rw [hd, List.mem_singleton, eq_comm, Option.some.injEq,
        ChannelSource.channel.injEq]
  · next hother =>
      exact ⟨fun hc => absurd hc List.not_mem_nil, fun hc => absurd hc (hother c)⟩

/-! ## The end of a flow -/

/-- The readers in a graph are the takers of the flow that it was, but for the
flow itself where it ends on a channel that is not closed. -/
theorem takers_finish (hb : b.Neat w.nextComponent)
    (hk : k.number < w.nextComponent) (hy : Yields b.finish w g w') :
    readers k g.components + standers k (b.opened.filter fun c => !c.implicit) =
      b.takers k := by
  obtain ⟨b₁, hclose, -, -⟩ := of_yields_finish hy
  rw [components_of_yields_finish hy hclose]
  rcases of_yields_closeImplicit hclose
    with ⟨rfl, rfl, hexplicit⟩ | ⟨c, hc, himplicit, hbridge⟩
  · have hopened : b₁.opened.filter (fun c => !c.implicit) = b₁.opened := by
      refine List.filter_eq_self.2 fun c hc => ?_
      rw [hexplicit c (mem_opened.1 hc)]
      rfl
    rw [hopened, b₁.condenses_flushDeferred.readers hb.clear]
    rfl
  · have hattach := of_yields_bridge hbridge
    have hstart :
        b.Neat (Workshop.nextComponent
          { w with nextHandler := w.nextHandler + 1 }) :=
      hb
    obtain ⟨hneat, hnone, htakers⟩ := takers_attach hstart hattach
    have hopened : b.opened.filter (fun c => !c.implicit) = [] := by
      rw [opened, hc]
      simp [himplicit]
    rw [hopened, b₁.condenses_flushDeferred.readers hneat.clear,
      ← htakers k (.inl hk), takers, opened_of_none hnone]

/-- A channel that something takes at the end of a flow occurs once in the
graph. -/
theorem count_of_finish (hs : b.Sound) (hb : b.Neat w.nextComponent)
    (hk : k.number < w.nextComponent) (hy : Yields b.finish w g w')
    (hpos : 0 < b.takers k) : (g.components.map Component.key).count k = 1 := by
  have htakers := takers_finish hb hk hy
  obtain ⟨b₁, hclose, hvalid, -⟩ := of_yields_finish hy
  rw [components_of_yields_finish hy hclose] at htakers ⊢
  refine List.count_eq_one_of_mem (Registry.nodup_keys _) ?_
  rcases Nat.eq_zero_or_pos (readers k b₁.flushDeferred.registry.components)
    with hzero | hread
  · -- Nothing reads the channel, so the flow stands on it, and did not have to
    -- be closed.
    have hstands : 0 < standers k (b.opened.filter fun c => !c.implicit) := by omega
    obtain ⟨c, hc, hkey⟩ := List.countP_pos_iff.1 hstands
    obtain ⟨hc, hexplicit⟩ := List.mem_filter.1 hc
    have hcurrent := mem_opened.1 hc
    rcases of_yields_closeImplicit hclose with ⟨rfl, -, -⟩ | ⟨c', hc', himplicit, -⟩
    · rw [← of_decide_eq_true hkey]
      exact List.map_subset _ b₁.subset_flushDeferred (hs.current c hcurrent)
    · rw [hcurrent] at hc'
      cases hc'
      rw [himplicit] at hexplicit
      cases hexplicit
  · obtain ⟨x, hx, hreads⟩ := List.countP_pos_iff.1 hread
    obtain ⟨-, hordered⟩ := (Registry.validate_eq_ok_iff _).1 hvalid
    have hmark : k ∈ Mark.reads b₁.flushDeferred.registry.marks := by
      refine List.mem_filterMap.2 ⟨x.mark, List.mem_map_of_mem hx, ?_⟩
      cases x with
      | endpoint e => exact of_decide_eq_true hreads
      | channel | source => cases hreads
    by_contra hnot
    have hkeys : k ∉ Mark.keys b₁.flushDeferred.registry.marks := by
      rwa [Registry.keys_marks]
    have hmisplaced := Mark.misplacedFrom_of_reads hmark List.not_mem_nil hkeys
    rw [Mark.misplaced, hmisplaced] at hordered
    cases hordered

end Builder

end

/-! ## Moving on -/

/-- Whether the call moves the flow on from the channel that it stands on. -/
def Step.consumes : Step → Bool
  | .channel _ | .endpoint _ _ | .route _ _ | .routeToRecipients _ _
  | .publishSubscribe _ _ | .scatterGather _ _ =>
      true
  | .wireTap _ _ | .intercept _ | .withId _ | .withSession _ | .fresh | .faulty _ =>
      false

section

variable {B : Channel → Prop} {s : Step} {steps left rest : List Step}
  {b b' : Builder} {branches : List Branch} {st : Stage} {d : Desk} {ds : List Desk}
  {g : FlowGraph} {k : ComponentKey} {w w₁ w₂ w₃ w' : Workshop}

theorem Builder.standers_tapPoint {attempted : String} {c : Channel}
    (h : Yields (b.tapPoint attempted) w (b', c) w')
    (hk : k.Outside w.nextComponent w'.nextComponent) (p : Channel → Bool) :
    standers k (b'.opened.filter p) = standers k (b.opened.filter p) := by
  rcases of_yields_tapPoint h with ⟨-, rfl, -⟩ | ⟨hnone, rfl, hkey, rfl⟩
  · rfl
  · have hne : c.key ≠ k :=
      hk.ne (by rw [hkey]) (by rw [hkey]; exact Nat.lt_succ_self _)
    have hopened : (b.appended (.channel c)).opened = [c] := by
      rw [opened, channel_appended]
    rw [opened_of_none hnone, hopened,
      standers_filter_of_zero (standers_eq_zero (List.forall_mem_singleton.2 hne))]
    rfl

/-- A call that is not given the channel moves the flow on from it, or leaves
it where it stands. -/
theorem Step.standers_of_stages
    (htidy : Tidy (fun _ => false) B ({ builder := b } :: ds) w.nextComponent)
    (hb : ∀ c ∈ s.brought, B c) (hfresh : s.isFresh = false)
    (hst : Yields (s.stage b) w st w₁)
    (hbr : YieldsAll st.builder.runBranch w₁ st.flows branches w₂)
    (hclose : Yields (st.close branches) w₂ b' w₃)
    (hown : k ∉ s.ownBrought.map Channel.key)
    (hk : k.Outside w.nextComponent w₁.nextComponent) :
    (s.consumes = true → standers k b'.opened = 0) ∧
    (s.consumes = false →
      ∀ p, standers k (b'.opened.filter p) = standers k (b.opened.filter p)) := by
  have hnowhere : b'.cursor.channel = none → standers k b'.opened = 0 :=
    fun hnone => by
      rw [Builder.opened_of_none hnone]
      rfl
  cases s with
  | channel plan =>
      exact ⟨fun _ => standers_channel hst hclose hown hk, by rintro ⟨⟩⟩
  | endpoint plan sides =>
      refine ⟨fun _ => hnowhere ?_, by rintro ⟨⟩⟩
      simp only [stage, yields_bind, yields_pure] at hst
      obtain ⟨handler, _, -, seeds, _, -, _, _, -, input, _, -, _, _, -, rfl, -⟩ :=
        hst
      obtain ⟨closed, _, -, hwire⟩ := yields_bind.1 hclose
      obtain ⟨e, rfl, -⟩ := Builder.wired_of_yields hwire
      rw [Builder.cursor_wired]
  | wireTap plan destination =>
      refine ⟨by rintro ⟨⟩, fun _ p => ?_⟩
      simp only [stage, yields_bind, yields_pure] at hst
      obtain ⟨opening, _, ho, selector, _, hp, ⟨b₁, c⟩, _, ht, rfl, rfl⟩ := hst
      obtain rfl := eq_of_yields_parseOptional hp
      obtain ⟨closed, _, -, hheld⟩ := yields_bind.1 hclose
      obtain ⟨rfl, -⟩ := yields_pure.1 hheld
      have hle := (destination.openUp_leaves.of_yields ho).components
      exact Builder.standers_tapPoint ht (hk.sub hle (Nat.le_refl _)) p
  | intercept plan =>
      refine ⟨by rintro ⟨⟩, fun _ p => ?_⟩
      simp only [stage, yields_bind, yields_pure] at hst
      obtain ⟨interceptor, _, hm, ⟨b₁, c⟩, _, ht, rfl, rfl⟩ := hst
      obtain ⟨rfl, -⟩ := yields_pure.1 hclose
      exact Builder.standers_tapPoint ht
        (hk.sub (plan.make_leaves.of_yields hm).components (Nat.le_refl _)) p
  | route | routeToRecipients =>
      exact ⟨fun _ => hnowhere (takers_routed htidy hb rfl hst hbr hclose).1,
        by rintro ⟨⟩⟩
  | publishSubscribe plan subscribers =>
      refine ⟨fun _ => ?_, by rintro ⟨⟩⟩
      obtain ⟨c, closed, -, horigin, hlt, hfans, -⟩ :=
        fansOut_of_stages htidy hb hst hbr hclose
      have hne : c.key ≠ k := by
        rcases horigin with hmem | hge
        · exact fun heq => hown (heq ▸ List.mem_map_of_mem hmem)
        · exact hk.ne hge hlt
      have hcurrent : b'.currentKey? = some c.key := by
        rw [hfans.absorbs]
        exact hfans.current
      rw [Builder.standers_opened, hcurrent,
        if_neg fun heq => hne (Option.some.inj heq)]
  | scatterGather =>
      exact ⟨fun _ => hnowhere (takers_scatterGather htidy hb hst hbr hclose).1,
        by rintro ⟨⟩⟩
  | withId id =>
      obtain ⟨rfl, -⟩ := yields_pure.1 hst
      have hclose : Yields (b.withId id) w₂ b' w₃ := hclose
      refine ⟨by rintro ⟨⟩, fun _ _ => ?_⟩
      rcases of_yields_withId (by rwa [assemble, Builder.yields_guarded])
        with ⟨-, rfl, -⟩ | ⟨-, rfl, -⟩ <;> rfl
  | withSession session =>
      obtain ⟨rfl, -⟩ := yields_pure.1 hst
      have hclose : Yields (b.withSession session) w₂ b' w₃ := hclose
      refine ⟨by rintro ⟨⟩, fun _ _ => ?_⟩
      rcases of_yields_withSession (by rwa [assemble, Builder.yields_guarded])
        with ⟨-, rfl, -⟩ | ⟨-, rfl, -⟩ <;> rfl
  | fresh => cases hfresh
  | faulty => exact absurd hst not_yields_throw

theorem Step.standers_of_yields
    (htidy : Tidy (fun _ => false) B ({ builder := b } :: ds) w.nextComponent)
    (hb : ∀ c ∈ s.brought, B c) (hfresh : s.isFresh = false)
    (hown : k ∉ s.ownBrought.map Channel.key) (hk : k.number < w.nextComponent)
    (hy : Yields (s.assemble b) w b' w') :
    (s.consumes = true → standers k b'.opened = 0) ∧
    (s.consumes = false →
      ∀ p, standers k (b'.opened.filter p) = standers k (b.opened.filter p)) := by
  obtain ⟨st, w₁, branches, w₂, w₃, hst, hbr, hclose, -⟩ := of_yields hy
  exact standers_of_stages htidy hb hfresh hst hbr hclose hown (.inl hk)

theorem Step.ownBrought_subset :
    s.ownBrought.map Channel.key ⊆ s.brought.map Channel.key := by
  rw [brought_eq, List.map_append]
  exact List.subset_append_left _ _

/-- As many take a channel in a flow that goes on without being given it as
read it in the graph, but for the flow itself, if it is never moved on from a
channel that is no implicit one. -/
theorem Builder.Concludes.takers (h : b.Concludes w rest g)
    (htidy : Tidy (fun _ => false) (fun _ => False) [{ builder := b }]
      w.nextComponent)
    (hk : k.number < w.nextComponent)
    (hout : k ∉ (broughtBy rest).map Channel.key) :
    readers k g.components + (if rest.any Step.consumes then 0
      else standers k (b.opened.filter fun c => !c.implicit)) = b.takers k ∧
    (0 < b.takers k → (g.components.map Component.key).count k = 1) := by
  induction h with
  | finish hy =>
      have hsound := (htidy.sound _ List.mem_cons_self).builder
      exact ⟨takers_finish htidy.neat hk hy,
        count_of_finish hsound htidy.neat hk hy⟩
  | @call s rest b b' w w' g hfresh hknown hy _ ih =>
      rw [broughtBy_cons, List.map_append, List.mem_append, not_or] at hout
      have hbring :
          Tidy (fun _ => false) (· ∈ s.brought) [{ builder := b }]
            w.nextComponent :=
        Tidy.lasting.bring htidy hknown
      obtain ⟨history, ht, -⟩ :=
        Step.call_turns (B := (· ∈ s.brought)) (fun c hc => hc) hfresh hy
      have hafter := Tidy.lasting.forget (hbring.passes ⟨history, ht⟩)
      have hle := hbring.passes_le ⟨history, ht⟩
      have hsame :=
        Step.takers_of_assemble hbring (fun c hc => hc) hfresh hout.1 (.inl hk) hy
      obtain ⟨hmoved, hstayed⟩ := Step.standers_of_yields hbring
        (fun c hc => hc) hfresh (fun hmem => hout.1 (Step.ownBrought_subset hmem))
        hk hy
      obtain ⟨hreaders, honce⟩ := ih hafter (Nat.lt_of_lt_of_le hk hle) hout.2
      rw [hsame] at hreaders honce
      refine ⟨?_, honce⟩
      rw [List.any_cons]
      cases hconsumes : s.consumes with
      | true =>
          rw [standers_filter_of_zero (hmoved hconsumes), ite_self] at hreaders
          exact hreaders
      | false =>
          rw [hstayed hconsumes] at hreaders
          exact hreaders
  | meanwhile hle _ ih =>
      exact ih (Tidy.lasting.wait htidy hle) (Nat.lt_of_lt_of_le hk hle) hout

/-! ## Before a channel was made -/

theorem Tidy.standers_new {n : Nat}
    (h : Tidy (fun _ => false) B ({ builder := b } :: ds) n) (hk : n ≤ k.number) :
    standers k b.opened = 0 := by
  refine standers_eq_zero fun c hc heq => ?_
  obtain ⟨x, hx, hkey⟩ :=
    List.mem_map.1 ((h.sound _ List.mem_cons_self).builder.opened c hc)
  have hlt := h.neat.given x hx
  rw [hkey, heq] at hlt
  exact absurd hk (Nat.not_le.2 hlt)

theorem Underway.takers_new {usable : Channel → Prop} {program : List Step}
    {past : List Moment} (h : Underway usable program b w past)
    (hk : w.nextComponent ≤ k.number) : b.takers k = 0 := by
  induction h with
  | @start s b w w' hs hy =>
      have htidy := (Underway.start hs hy).tidy (s := .fresh) nofun
      have hreaders : readers k b.components = 0 := by
        rcases (Start.started hy).components
          with heq | ⟨c, -, heq, -⟩ | ⟨source, heq, -⟩ <;> rw [heq] <;> rfl
      rw [Builder.takers, hreaders, htidy.standers_new hk]
  | @call program s b b' w w' past history hu hfresh hb hy ht _ ih =>
      have htidy := hu.tidy hb
      have hle := htidy.passes_le ⟨history, ht⟩
      have hout : k ∉ s.brought.map Channel.key := by
        intro hmem
        obtain ⟨c, hc, rfl⟩ := List.mem_map.1 hmem
        have hlt := (hb c hc).2.made
        omega
      rw [Step.takers_of_assemble htidy (fun c hc => hc) hfresh hout (.inr hk) hy]
      exact ih (Nat.le_trans hle hk)
  | meanwhile _ hle ih => exact ih (Nat.le_trans hle hk)

/-- Where nothing takes a channel, nothing will, whether the flow goes on with
its builder or not. -/
theorem Step.takers_zero
    (htidy : Tidy (fun _ => false) B ({ builder := b } :: ds) w.nextComponent)
    (hb : ∀ c ∈ s.brought, B c) (hout : k ∉ s.brought.map Channel.key)
    (hk : k.Outside w.nextComponent w'.nextComponent)
    (hy : Yields (s.assemble b) w b' w') (hzero : b.takers k = 0) :
    b'.takers k = 0 := by
  cases hfresh : s.isFresh with
  | false => rw [takers_of_assemble htidy hb hfresh hout hk hy, hzero]
  | true =>
      obtain rfl := Step.eq_fresh hfresh
      exact takers_fresh hy

theorem Builder.takers_branch_zero {c : Channel} (hne : c.key ≠ k) :
    (b.branch c).takers k = 0 := by
  rw [takers_branch]
  exact standers_eq_zero (List.forall_mem_singleton.2 hne)

/-- The numbers that were given out on the way to a builder that is nested in
a call. -/
theorem Step.le_of_within {before after : List (Channel × List Step)}
    {flow : Channel × List Step}
    (htidy : Tidy (fun _ => false) B ({ builder := b } :: ds) w.nextComponent)
    (hb : ∀ c ∈ s.brought, B c) (hst : Yields (s.stage b) w st w₁)
    (heq : st.flows = before ++ flow :: after)
    (hys : YieldsAll st.builder.runBranch w₁ before branches w₂)
    (hv : FlowAssembly.Visits flow.2 (st.builder.branch flow.1) w₂ left b' w') :
    w.nextComponent ≤ w₁.nextComponent ∧ w₁.nextComponent ≤ w₂.nextComponent ∧
    w₂.nextComponent ≤ w'.nextComponent ∧
    ∀ k ∈ Builder.givenKeys flow, k.number < w₂.nextComponent := by
  have hgiven : ∀ k ∈ st.flows.flatMap Builder.givenKeys,
      k.number < w₁.nextComponent :=
    fun k hk => (given_of_stage htidy hb hst k hk).2
  simp only [heq, List.flatMap_append, List.flatMap_cons, List.forall_mem_append]
    at hgiven
  have hle := (Builder.stems_of_runBranches hgiven.1 hys).1
  have hgiven₂ : ∀ k ∈ Builder.givenKeys flow, k.number < w₂.nextComponent :=
    fun k hk => Nat.lt_of_lt_of_le (hgiven.2.1 k hk) hle
  obtain ⟨-, ds', hreach⟩ := hv.passes (fun c hc => hc) st.builder.blank []
  exact ⟨next_le_of_stage hst, hle,
    (Builder.tidy_alone (b := st.builder) hgiven₂).passes_le hreach, hgiven₂⟩

theorem Visits.takers_new (h : Visits steps b w left b' w')
    (htidy : Tidy (fun _ => false) B ({ builder := b } :: d :: ds) w.nextComponent)
    (hb : ∀ c ∈ broughtBy steps, B c) (hk : w'.nextComponent ≤ k.number)
    (hzero : b.takers k = 0) : b'.takers k = 0 := by
  have hnew : ∀ {B : Channel → Prop} {ds : List Desk} {n : Nat} {cs : List Channel},
      Tidy (fun _ => false) B ds n →
      n ≤ k.number → (∀ c ∈ cs, B c) → k ∉ cs.map Channel.key := by
    intro B ds n cs htidy hle hb hmem
    obtain ⟨c, hc, rfl⟩ := List.mem_map.1 hmem
    exact absurd (htidy.brought c (hb c hc)).2.1 (Nat.not_lt.2 hle)
  induction h generalizing B d ds with
  | here => exact hzero
  | @later s steps left b b₁ b' w w₁ w' hy hrest ih =>
      rw [broughtBy_cons] at hb
      have hbs : ∀ c ∈ s.brought, B c :=
        fun c hc => hb c (List.mem_append_left _ hc)
      have hbrest : ∀ c ∈ broughtBy steps, B c :=
        fun c hc => hb c (List.mem_append_right _ hc)
      have hpass := Step.passes_answer (d := d) (t := ds) hbs hy
      have hafter := htidy.passes hpass
      obtain ⟨-, ds', hreach⟩ := hrest.passes hbrest d ds
      have hle := htidy.passes_le hpass
      have hle' := hafter.passes_le hreach
      refine ih hafter hbrest hk ?_
      exact Step.takers_zero htidy hbs (hnew htidy (by omega) hbs)
        (.inr (by omega)) hy hzero
  | @within s steps left b b' st before after flow branches w w₁ w₂ w' hst
      heq hys hv ih =>
        rw [broughtBy_cons] at hb
        have hbs : ∀ c ∈ s.brought, B c :=
          fun c hc => hb c (List.mem_append_left _ hc)
        obtain ⟨-, -, hle, hgiven⟩ := Step.le_of_within htidy hbs hst heq hys hv
        refine ih (Builder.tidy_alone (b := st.builder) hgiven) (fun c hc => hc) hk
          (Builder.takers_branch_zero fun hkey => ?_)
        have hlt := hgiven _ List.mem_cons_self
        rw [hkey] at hlt
        omega

/-- A desk at which nothing stands changes nothing. -/
theorem Tidy.over_blank {n : Nat}
    (h : Tidy (fun _ => false) B [{ builder := b }] n) :
    Tidy (fun _ => false) B [{ builder := b }, b.blank] n := by
  have hblank : b.blank.components = [] := by
    rw [Builder.blank, Tidy.components_plain, Builder.components_blank rfl rfl]
  have hstock : stock [{ builder := b }, b.blank] = stock [{ builder := b }] := by
    simp only [stock_cons, hblank, List.nil_append]
  refine ⟨h.made, hstock ▸ h.clear, hstock ▸ h.given, hstock ▸ h.brought, ?_⟩
  simp only [List.forall_mem_cons, List.not_mem_nil, false_imp_iff,
    implies_true, and_true]
  exact ⟨h.sound _ List.mem_cons_self, Desk.sound_plain (Builder.sound_blank rfl)⟩

/-- Nothing takes a channel that has not been made yet. -/
theorem Called.takers_new (h : Called s b w) (hk : w.nextComponent ≤ k.number) :
    b.takers k = 0 := by
  cases h with
  | own hu hb => exact hu.takers_new hk
  | @nested program left past outer b₀ w₀ hu hb hv =>
      have htidy := hu.tidy fun c hc => ⟨trivial, hb c hc⟩
      obtain ⟨-, ds, hpasses⟩ := hv.passes (B := (· ∈ outer.brought)) fun c hc => hc
      have hle := htidy.passes_le hpasses
      have hmem : Visits [outer] b₀ w₀ (s :: left) b w := hv.mem
      refine hmem.takers_new htidy.over_blank (fun c hc => ?_) hk
        (hu.takers_new (Nat.le_trans hle hk))
      rw [broughtBy_cons] at hc
      exact (List.mem_append.1 hc).resolve_right List.not_mem_nil

/-! ## Builders that are nested -/

/-- As it is said of `Visits`, and whatever flow the builder is nested in goes
on with the builder that it has by then. -/
inductive Remains : List Step → Builder → Workshop → List Step → Builder →
    Workshop → Prop
  | here {steps : List Step} (b : Builder) (w : Workshop) : restarts steps = false →
      Remains steps b w steps b w
  | later {s : Step} {steps left : List Step} {b b₁ b' : Builder}
      {w w₁ w' : Workshop} : Yields (s.assemble b) w b₁ w₁ →
      Remains steps b₁ w₁ left b' w' → Remains (s :: steps) b w left b' w'
  | within {s : Step} {steps left : List Step} {b b' : Builder} {st : Stage}
      {before after : List (Channel × List Step)} {flow : Channel × List Step}
      {branches : List Branch} {w w₁ w₂ w' : Workshop} :
      restarts (s :: steps) = false → Yields (s.stage b) w st w₁ →
      st.flows = before ++ flow :: after →
      YieldsAll st.builder.runBranch w₁ before branches w₂ →
      Remains flow.2 (st.builder.branch flow.1) w₂ left b' w' →
      Remains (s :: steps) b w left b' w'

theorem Remains.visits (h : Remains steps b w left b' w') :
    Visits steps b w left b' w' := by
  induction h with
  | here b w _ => exact .here _ b w
  | later hy _ ih => exact .later hy ih
  | within _ hst heq hys _ ih => exact .within hst heq hys ih

theorem restarts_of_contained (hc : Contained steps) : restarts steps = false := by
  induction steps with
  | nil => rfl
  | cons s steps ih =>
      obtain ⟨hfresh, -, hrest⟩ := contained_cons.1 hc
      rw [restarts, List.any_cons, hfresh]
      exact ih hrest

/-- Where no flow is thrown away, every builder that is nested remains. -/
theorem Visits.remains (h : Visits steps b w left b' w') (hc : Contained steps) :
    Remains steps b w left b' w' := by
  induction h with
  | here steps b w => exact .here b w (restarts_of_contained hc)
  | later hy _ ih => exact .later hy (ih (contained_cons.1 hc).2.2)
  | within hst heq hys _ ih =>
      have hflow := (contained_cons.1 hc).2.1.flow
        (Step.flow_mem_of_stage hst
          (heq ▸ List.mem_append_right _ List.mem_cons_self))
      exact .within (restarts_of_contained hc) hst heq hys (ih hflow)

/-- The flows that a call assembles are all its flows, in order. -/
theorem Step.steps_of_stage (h : Yields (s.stage b) w st w₁) :
    st.flows.map Prod.snd = s.flows := by
  cases s with
  | endpoint plan sides =>
      simp only [stage, yields_bind, yields_pure] at h
      obtain ⟨handler, _, -, seeds, _, hs, _, _, -, input, _, -, _, _, -, rfl, -⟩ :=
        h
      have hlength : seeds.length = (sides.map Prod.snd).length := by
        rw [List.length_map]
        exact (yieldsAll_of_mapM hs).length_eq
      exact List.map_snd_zip (Nat.le_of_eq hlength.symm)
  | wireTap plan destination =>
      simp only [stage, yields_bind, yields_pure] at h
      obtain ⟨opening, _, ho, selector, _, -, ⟨b₁, c⟩, _, -, rfl, -⟩ := h
      exact (destination.of_yields_openUp ho).1
  | route | routeToRecipients => exact (seeded_of_stage rfl h).2.steps
  | publishSubscribe plan subscribers =>
      simp only [stage, yields_bind, yields_pure] at h
      obtain ⟨given, _, -, c, _, -, b₁, _, -, rfl, -⟩ := h
      rw [List.map_map]
      exact List.map_id _
  | scatterGather plan scatter =>
      cases scatter with
      | recipients list members =>
          simp only [stage, Scatter.make, Scatter.seed, yields_bind, yields_pure,
            yields_ensure, yields_implicitChannel, Builder.yields_ensureOpen] at h
          obtain ⟨release, _, -, _, _, ⟨parts, _, hm, rfl, rfl⟩, _, _, -, _,
            _, -, gather, _, -, _, _, ⟨channel, _, -, rfl, rfl⟩, rfl, -⟩ := h
          exact (spent_makeRecipients hm).1
      | publish fan subscribers =>
          simp only [stage, Scatter.make, Scatter.seed, yields_bind, yields_pure,
            yields_ensure, yields_implicitChannel, Builder.yields_ensureOpen] at h
          obtain ⟨release, _, -, _, _, -, _, _, -, _, _, -, gather, _, -, _,
            _, ⟨channel, _, -, rfl, rfl⟩, rfl, -⟩ := h
          rw [List.map_map]
          exact List.map_id _
  | channel plan =>
      simp only [stage, yields_bind, yields_pure] at h
      obtain ⟨source, _, -, rfl, -⟩ := h
      rfl
  | intercept plan =>
      simp only [stage, yields_bind, yields_pure] at h
      obtain ⟨interceptor, _, -, point, _, -, rfl, -⟩ := h
      rfl
  | withId | withSession | fresh =>
      obtain ⟨rfl, -⟩ := yields_pure.1 h
      rfl
  | faulty cause => exact absurd h not_yields_throw

theorem Step.flow_sublist (h : steps ∈ s.flows) :
    (broughtBy steps).Sublist (s.flows.flatMap broughtBy) := by
  rw [List.flatMap_def]
  exact List.sublist_flatten_of_mem (List.mem_map_of_mem h)

theorem Visits.brought_sublist (h : Visits steps b w left b' w') :
    (broughtBy left).Sublist (broughtBy steps) := by
  induction h with
  | here => exact .refl _
  | later _ _ ih =>
      rw [broughtBy_cons]
      exact ih.trans (List.sublist_append_right _ _)
  | @within s steps left b b' st before after flow branches w w₁ w₂ w' hst
      heq _ _ ih =>
        have hflow : flow.2 ∈ s.flows :=
          Step.flow_mem_of_stage hst
            (heq ▸ List.mem_append_right _ List.mem_cons_self)
        rw [broughtBy_cons, Step.brought_eq]
        exact (ih.trans (Step.flow_sublist hflow)).trans
          ((List.sublist_append_right _ _).trans (List.sublist_append_left _ _))

theorem Visits.count_le {call : Step} (h : Visits steps b w (call :: left) b' w')
    (k : ComponentKey) :
    (call.brought.map Channel.key).count k ≤
      ((broughtBy steps).map Channel.key).count k := by
  have hsub := h.brought_sublist
  rw [broughtBy_cons] at hsub
  exact (((List.sublist_append_left _ _).trans hsub).map _).count_le _

theorem Branch.standers_opened_le (br : Branch) : standers k br.opened ≤ 1 := by
  refine (List.countP_le_length).trans ?_
  unfold opened
  split <;> simp

/-- A call takes over what one of its flows takes of a channel that is used in
no other of them. -/
theorem Step.takers_nested {before after : List (Channel × List Step)}
    {flow : Channel × List Step} {n t : Nat}
    (htidy : Tidy (fun _ => false) B ({ builder := b } :: ds) w.nextComponent)
    (hb : ∀ c ∈ s.brought, B c) (hfresh : s.isFresh = false)
    (hst : Yields (s.stage b) w st w₁) (heq : st.flows = before ++ flow :: after)
    (hys : YieldsAll st.builder.runBranch w₁ before branches w₂)
    (hown : k ∉ s.ownBrought.map Channel.key)
    (hothers : ∀ other ∈ before ++ after, k ∉ (broughtBy other.2).map Channel.key)
    (hk : k.Outside w.nextComponent w₂.nextComponent) (hlt : k.number < n)
    (hnested : ∀ {nested : Builder} {w₃ : Workshop},
      Yields (assembleSteps (st.builder.branch flow.1) flow.2) w₂ nested w₃ →
      n ≤ w₃.nextComponent ∧ nested.takers k = t)
    (hy : Yields (s.assemble b) w b' w') :
    n ≤ w'.nextComponent ∧ b'.takers k = b.takers k + t := by
  obtain ⟨st', w₁', all, w₃, w₄, hst', hbr, hclose, hattach⟩ := of_yields hy
  obtain ⟨rfl, rfl⟩ := hst.eq hst'
  have hgiven : ∀ k ∈ st.flows.flatMap Builder.givenKeys,
      k.number < w₁.nextComponent :=
    fun k hk => (given_of_stage htidy hb hst k hk).2
  have hseeds : ∀ other ∈ st.flows, other.1.key ≠ k := by
    intro other hm
    have hle := (Builder.stems_of_runBranches (fun k hk => hgiven k (by
      rw [heq, List.flatMap_append]
      exact List.mem_append_left _ hk)) hys).1
    rcases seeds_of_stage hst other hm with hc | ⟨hge, hlt⟩
    · exact fun heq => hown (heq ▸ List.mem_map_of_mem hc)
    · exact (hk.sub (Nat.le_refl _) hle).ne hge hlt
  have hle₄ := next_le_of_close hfresh hst hclose
  rw [heq] at hbr hgiven hseeds
  simp only [List.flatMap_append, List.flatMap_cons, List.forall_mem_append,
    List.forall_mem_cons] at hgiven hseeds hothers
  obtain ⟨branches', rest, w₂', rfl, hbefore, hrest⟩ := hbr.of_append
  obtain ⟨rfl, rfl⟩ := hys.mapM.eq hbefore.mapM
  have hle₁ := next_le_of_stage hst
  have hle₂ := (Builder.stems_of_runBranches hgiven.1 hys).1
  have hgiven₂ : ∀ k ∈ Builder.givenKeys flow, k.number < w₂.nextComponent :=
    fun k hk => Nat.lt_of_lt_of_le (hgiven.2.1 k hk) hle₂
  obtain ⟨br, others, v, rfl, hrun, hafter⟩ := hrest.of_cons
  have hlev := Builder.next_le_of_runBranch hgiven₂ hrun
  have hgivenv : ∀ k ∈ after.flatMap Builder.givenKeys,
      k.number < v.nextComponent :=
    fun k hk => Nat.lt_of_lt_of_le (hgiven.2.2 k hk) (Nat.le_trans hle₂ hlev)
  have hle₃ := (Builder.stems_of_runBranches hgivenv hafter).1
  obtain ⟨nested, v₁, hsteps, hnext, htakers⟩ :=
    Builder.takers_runBranch hgiven₂ hrun
  obtain ⟨hge, hsame⟩ := hnested hsteps
  rw [← hnext] at hge
  have hzero : branchTakers k branches = 0 := by
    refine branchTakers_eq_zero
      (KeepsTakers.runBranches
        (fun other hm => keepsTakers other.2 (hothers.1 other hm)) hgiven.1
        (hk.sub hle₁ (Nat.le_refl _)) hys) fun other hm => hseeds.1 other hm
  have hzero' : branchTakers k others = 0 := by
    refine branchTakers_eq_zero
      (KeepsTakers.runBranches
        (fun other hm => keepsTakers other.2 (hothers.2 other hm)) hgivenv
        (.inl (by omega)) hafter) fun other hm => hseeds.2.2 other hm
  have hone :
      standers k ((branches ++ br :: others).flatMap Branch.opened) ≤ 1 := by
    have hbranch := br.standers_opened_le (k := k)
    unfold branchTakers at hzero hzero'
    rw [List.flatMap_append, List.flatMap_cons, standers_append, standers_append]
    omega
  rw [Stage.next_of_attach hattach]
  refine ⟨by omega, ?_⟩
  rw [takers_of_stages htidy hb hfresh hst (heq ▸ hbr) hclose hown
      (hk.sub (Nat.le_refl _) hle₂) (.inl (by omega)) hone, branchTakers_append,
    branchTakers_cons, htakers, hsame, hzero, hzero']
  omega

/-- What takes a channel that only one call is given is what took it when that
call had answered, for as long as the builder of the call remains. -/
theorem Remains.takers {call : Step} {b₁ b₂ : Builder} {v v' : Workshop}
    (h : Remains steps b w (call :: left) b₁ v)
    (hcall : Yields (call.assemble b₁) v b₂ v')
    (htidy : Tidy (fun _ => false) B ({ builder := b } :: d :: ds) w.nextComponent)
    (hb : ∀ c ∈ broughtBy steps, B c)
    (hfew : ((broughtBy steps).map Channel.key).count
      k ≤ (call.brought.map Channel.key).count k)
    (hzero : b.takers k = 0) (hk : k.Outside w.nextComponent v.nextComponent)
    (hlt : k.number < v'.nextComponent)
    (hy : Yields (assembleSteps b steps) w b' w') :
    v'.nextComponent ≤ w'.nextComponent ∧ b'.takers k = b₂.takers k := by
  generalize hl : call :: left = l at h
  induction h generalizing B d ds b' w' with
  | @here steps b v hkept =>
      subst hl
      obtain ⟨b₃, v₃, hstep, hrest⟩ := of_yields_assembleSteps_cons hy
      obtain ⟨rfl, rfl⟩ := hcall.eq hstep
      rw [broughtBy_cons] at hb hfew
      rw [List.map_append, List.count_append] at hfew
      have hbcall : ∀ c ∈ call.brought, B c :=
        fun c hc => hb c (List.mem_append_left _ hc)
      have hbleft : ∀ c ∈ broughtBy left, B c :=
        fun c hc => hb c (List.mem_append_right _ hc)
      have hafter :=
        htidy.passes (Step.passes_answer (d := d) (t := ds) hbcall hcall)
      have hout : k ∉ (broughtBy left).map Channel.key :=
        List.count_eq_zero.1 (by omega)
      rw [restarts, List.any_cons, Bool.or_eq_false_iff] at hkept
      refine ⟨hafter.passes_le (LeadsWithin.passes (leadsWithin left hbleft) hrest),
        ?_⟩
      rw [keepsTakers left hout hafter hbleft (.inl hlt) hrest, restarts, hkept.2]
      rfl
  | @later s steps _ b b₀ b₁ w w₀ v hstep hr ih =>
      subst hl
      obtain ⟨_, _, hstep', hrest⟩ := of_yields_assembleSteps_cons hy
      obtain ⟨rfl, rfl⟩ := hstep.eq hstep'
      have hcount := hr.visits.count_le k
      rw [broughtBy_cons] at hb hfew
      rw [List.map_append, List.count_append] at hfew
      have hbs : ∀ c ∈ s.brought, B c :=
        fun c hc => hb c (List.mem_append_left _ hc)
      have hbrest : ∀ c ∈ broughtBy steps, B c :=
        fun c hc => hb c (List.mem_append_right _ hc)
      have hpass := Step.passes_answer (d := d) (t := ds) hbs hstep
      have hafter := htidy.passes hpass
      obtain ⟨-, ds', hreach⟩ := hr.visits.passes hbrest d ds
      have hout : k ∉ s.brought.map Channel.key := List.count_eq_zero.1 (by omega)
      have hzero₀ := Step.takers_zero htidy hbs hout
        (hk.sub (Nat.le_refl _) (hafter.passes_le hreach)) hstep hzero
      exact ih hcall hafter hbrest (by omega) hzero₀
        (hk.sub (htidy.passes_le hpass) (Nat.le_refl _)) hrest rfl
  | @within s steps _ b b₁ st before after flow branches w w₁ w₂ v hkept hst
      heq hys hr ih =>
        subst hl
        obtain ⟨b₀, w₀, hstep, hrest⟩ := of_yields_assembleSteps_cons hy
        rw [restarts, List.any_cons, Bool.or_eq_false_iff] at hkept
        have hcount := hr.visits.count_le k
        have hflows :
            s.flows = before.map Prod.snd ++ flow.2 :: after.map Prod.snd := by
          rw [← Step.steps_of_stage hst, heq, List.map_append, List.map_cons]
        rw [broughtBy_cons] at hb hfew
        rw [Step.brought_eq, hflows] at hfew
        simp only [List.flatMap_append, List.flatMap_cons, List.map_append,
          List.count_append] at hfew
        have hbs : ∀ c ∈ s.brought, B c :=
          fun c hc => hb c (List.mem_append_left _ hc)
        have hbrest : ∀ c ∈ broughtBy steps, B c :=
          fun c hc => hb c (List.mem_append_right _ hc)
        have hothers : ∀ other ∈ before ++ after,
            k ∉ (broughtBy other.2).map Channel.key := by
          have hnot : ∀ flows : List (Channel × List Step),
              (((flows.map Prod.snd).flatMap broughtBy).map Channel.key).count k =
              0 →
              ∀ other ∈ flows, k ∉ (broughtBy other.2).map Channel.key := by
            intro flows hzero other hm hmem
            obtain ⟨c, hc, rfl⟩ := List.mem_map.1 hmem
            exact List.count_eq_zero.1 hzero
              (List.mem_map_of_mem
                (List.mem_flatMap.2 ⟨_, List.mem_map_of_mem hm, hc⟩))
          exact List.forall_mem_append.2
            ⟨hnot before (by omega), hnot after (by omega)⟩
        obtain ⟨hle₁, hle₂, hlev, hgiven⟩ :=
          Step.le_of_within htidy hbs hst heq hys hr.visits
        have hown : k ∉ s.ownBrought.map Channel.key :=
          List.count_eq_zero.1 (by omega)
        have hseed : flow.1.key ≠ k := by
          rcases Step.seeds_of_stage hst flow
            (heq ▸ List.mem_append_right _ List.mem_cons_self) with hc | ⟨hge, hlt⟩
          · exact fun heq => hown (heq ▸ List.mem_map_of_mem hc)
          · exact (hk.sub (Nat.le_refl _) (Nat.le_trans hle₂ hlev)).ne hge hlt
        obtain ⟨hge, htakers⟩ := Step.takers_nested htidy hbs hkept.1 hst heq
          hys hown hothers (hk.sub (Nat.le_refl _) hlev) hlt
          (fun hy => ih hcall (Builder.tidy_alone (b := st.builder) hgiven)
            (fun c hc => hc) (by omega) (Builder.takers_branch_zero hseed)
            (hk.sub (Nat.le_trans hle₁ hle₂) (Nat.le_refl _)) hy rfl) hstep
        have hafter :=
          htidy.passes (Step.passes_answer (d := d) (t := ds) hbs hstep)
        have hle :=
          hafter.passes_le (LeadsWithin.passes (leadsWithin steps hbrest) hrest)
        have hout : k ∉ (broughtBy steps).map Channel.key :=
          List.count_eq_zero.1 (by omega)
        refine ⟨Nat.le_trans hge hle, ?_⟩
        rw [keepsTakers steps hout hafter hbrest (.inl (Nat.lt_of_lt_of_le hlt hge))
            hrest, restarts, hkept.2, htakers, hzero]
        simp

/-- As it is said of `Step.Visits`, where the builder remains. -/
def Step.Remains (s : Step) (b : Builder) (w : Workshop) (left : List Step)
    (b' : Builder) (w' : Workshop) : Prop :=
  ∃ st w₁ before flow after branches w₂, Yields (s.stage b) w st w₁ ∧
    st.flows = before ++ flow :: after ∧
    YieldsAll st.builder.runBranch w₁ before branches w₂ ∧
    FlowAssembly.Remains flow.2 (st.builder.branch flow.1) w₂ left b' w'

theorem Step.Visits.remains (h : s.Visits b w left b' w') (hc : s.Contained) :
    s.Remains b w left b' w' := by
  obtain ⟨st, w₁, before, flow, after, branches, w₂, hst, heq, hys, hv⟩ := h
  have hflow := hc.flow
    (Step.flow_mem_of_stage hst (heq ▸ List.mem_append_right _ List.mem_cons_self))
  exact ⟨st, w₁, before, flow, after, branches, w₂, hst, heq, hys, hv.remains hflow⟩

theorem Step.Remains.visits (h : s.Remains b w left b' w') :
    s.Visits b w left b' w' := by
  obtain ⟨st, w₁, before, flow, after, branches, w₂, hst, heq, hys, hr⟩ := h
  exact ⟨st, w₁, before, flow, after, branches, w₂, hst, heq, hys, hr.visits⟩

/-- All that takes a channel when a nested call has answered reads it in the
graph, if the channel is used nowhere else and the builder of the call
remains. -/
theorem Step.Remains.readers {call outer : Step} {program : List Step}
    {past : List Moment} {b₀ b₁ : Builder} {w₀ : Workshop}
    (h : outer.Remains b₀ w₀ (call :: left) b w)
    (hu : Underway (fun _ => True) program b₀ w₀ past)
    (hfresh : outer.isFresh = false) (hknown : ∀ c ∈ outer.brought, b₀.Knows w₀ c)
    (hcall : Yields (call.assemble b) w b' w')
    (hy : Yields (outer.assemble b₀) w₀ b₁ w₁) (hg : b₁.Concludes w₁ rest g)
    (hfew : (outer.brought.map Channel.key).count
      k ≤ (call.brought.map Channel.key).count k)
    (hout : k ∉ (broughtBy rest).map Channel.key) (hzero : b₀.takers k = 0)
    (hk : k.Outside w₀.nextComponent w.nextComponent)
    (hlt : k.number < w'.nextComponent) :
    FlowAssembly.readers k g.components = b'.takers k ∧
    (0 < b'.takers k → (g.components.map Component.key).count k = 1) := by
  have htidy := hu.tidy fun c hc => ⟨trivial, hknown c hc⟩
  have hfew₁ : ((broughtBy [outer]).map Channel.key).count k ≤
        (call.brought.map Channel.key).count k := by
    rw [broughtBy_cons, show broughtBy [] = [] from rfl, List.append_nil]
    exact hfew
  have hone : Yields (assembleSteps b₀ [outer]) w₀ b₁ w₁ := by
    rw [assembleSteps, yields_bind]
    exact ⟨b₁, w₁, hy, yields_pure.2 ⟨rfl, rfl⟩⟩
  have hbrought : ∀ c ∈ broughtBy [outer], c ∈ outer.brought := fun c hc => by
    rw [broughtBy_cons] at hc
    exact (List.mem_append.1 hc).resolve_right List.not_mem_nil
  obtain ⟨st, v, before, flow, after, branches, v₂, hst, heq, hys, hr⟩ := h
  have hmem : FlowAssembly.Remains [outer] b₀ w₀ (call :: left) b w :=
    .within (by rw [restarts, List.any_cons, hfresh]; rfl) hst heq hys hr
  obtain ⟨hle, htakers⟩ :=
    hmem.takers hcall htidy.over_blank hbrought hfew₁ hzero hk hlt hone
  obtain ⟨history, ht, -⟩ :=
    Step.call_turns (B := (· ∈ outer.brought)) (fun c hc => hc) hfresh hy
  have hafter := Tidy.lasting.forget (htidy.passes ⟨history, ht⟩)
  obtain ⟨hreaders, honce⟩ := hg.takers hafter (Nat.lt_of_lt_of_le hlt hle) hout
  -- The flow of the outer call stands elsewhere: it is not given the channel,
  -- and did not make it.
  have hnowhere : standers k b₁.opened = 0 := by
    have hflow : flow.2 ∈ outer.flows :=
      Step.flow_mem_of_stage hst (heq ▸ List.mem_append_right _ List.mem_cons_self)
    have hcount := Nat.le_trans (hr.visits.count_le k)
      (((Step.flow_sublist hflow).map Channel.key).count_le k)
    rw [Step.brought_eq, List.map_append, List.count_append] at hfew
    have hown : k ∉ outer.ownBrought.map Channel.key :=
      List.count_eq_zero.1 (by omega)
    obtain ⟨-, hle₁, hle₂, -⟩ :=
      Step.le_of_within htidy (fun c hc => hc) hst heq hys hr.visits
    have hstage : k.Outside w₀.nextComponent v.nextComponent :=
      hk.sub (Nat.le_refl _) (Nat.le_trans hle₁ hle₂)
    obtain ⟨st', v', all, v₃, v₄, hst', hbr, hclose, -⟩ := Step.of_yields hy
    obtain ⟨rfl, rfl⟩ := hst.eq hst'
    obtain ⟨hmoved, hstayed⟩ :=
      Step.standers_of_stages htidy (fun c hc => hc) hfresh hst hbr
        hclose hown hstage
    cases hconsumes : outer.consumes with
    | true => exact hmoved hconsumes
    | false =>
        have hsame := hstayed hconsumes fun _ => true
        simp only [List.filter_true] at hsame
        rw [hsame]
        unfold Builder.takers at hzero
        omega
  rw [standers_filter_of_zero hnowhere, ite_self] at hreaders
  rw [← htakers]
  exact ⟨hreaders, honce⟩

end

end FlowAssembly
