import FlowAssembly.Proofs.Visits

/-!
# The interceptors of channels that were there before

Interceptors outlive the builder that attached them, so what a call that fails
has attached stays. By itself a call attaches to a channel that was there
before last of all, when it cannot fail any more (`Stage`); everything else
that it does leaves such channels alone (`Respects`). But the flows within a
call are assembled one after the other, and a tap in one of them is not taken
back when another fails. So a failed call has left a channel of the caller's
as it was exactly if no builder within it had tapped the channel by then.
-/

namespace FlowAssembly

open Assembly Workshop

namespace Workshop

/-- Components were made and interceptors were attached, to nothing but
those. -/
structure Respects (w w' : Workshop) : Prop where
  components : w.nextComponent ≤ w'.nextComponent
  attached : w.Dresses w'

/-- Components were made and interceptors were attached, to whatever it was. -/
structure Accrues (w w' : Workshop) : Prop where
  components : w.nextComponent ≤ w'.nextComponent
  attached : w.attached <+: w'.attached

/-- If the channel was there before, then with the same interceptors. -/
structure Spared (k : ComponentKey) (w w' : Workshop) : Prop where
  components : w.nextComponent ≤ w'.nextComponent
  interceptors : k.number < w.nextComponent → w'.interceptors k = w.interceptors k

variable {w w₁ w' : Workshop} {k : ComponentKey}

theorem Respects.trans (h : w.Respects w₁) (h' : w₁.Respects w') : w.Respects w' :=
  ⟨Nat.le_trans h.components h'.components,
    h.attached.trans h.components h'.attached⟩

theorem Accrues.trans (h : w.Accrues w₁) (h' : w₁.Accrues w') : w.Accrues w' :=
  ⟨Nat.le_trans h.components h'.components, h.attached.trans h'.attached⟩

theorem Spared.trans (h : w.Spared k w₁) (h' : w₁.Spared k w') : w.Spared k w' :=
  ⟨Nat.le_trans h.components h'.components, fun hk =>
    (h'.interceptors (Nat.lt_of_lt_of_le hk h.components)).trans
      (h.interceptors hk)⟩

instance : Std.Refl Respects := ⟨fun _ => ⟨Nat.le_refl _, .of_eq rfl⟩⟩

instance : Std.Refl Accrues := ⟨fun _ => ⟨Nat.le_refl _, List.prefix_refl _⟩⟩

instance : Std.Refl (Spared k) := ⟨fun _ => ⟨Nat.le_refl _, fun _ => rfl⟩⟩

instance : Trans Respects Respects Respects := ⟨Respects.trans⟩

instance : Trans Accrues Accrues Accrues := ⟨Accrues.trans⟩

instance : Trans (Spared k) (Spared k) (Spared k) := ⟨Spared.trans⟩

theorem interceptors_append {attached more : List (ComponentKey × Interceptor)}
    (h : w.attached = attached ++ more) :
    w.interceptors k = { w with attached }.interceptors k ++
      { w with attached := more }.interceptors k := by
  rw [interceptors, h, List.filterMap_append]
  rfl

namespace Respects

theorem of_adds {session : SessionId} {owner : String}
    (h : w.Adds session owner w') : w.Respects w' :=
  ⟨h.components, h.attached⟩

/-- The claims alone may change as they like. -/
theorem of_claims (claims : ClaimBook) : w.Respects { w with claims } :=
  ⟨Nat.le_refl _, .of_eq rfl⟩

theorem accrues (h : w.Respects w') : w.Accrues w' := by
  obtain ⟨more, hmore, -⟩ := h.attached
  exact ⟨h.components, more, hmore.symm⟩

theorem spared (h : w.Respects w') : w.Spared k w' := by
  obtain ⟨more, hmore, hnew⟩ := h.attached
  refine ⟨h.components, fun hk => ?_⟩
  have hnone : { w' with attached := more }.interceptors k = [] := by
    refine List.filterMap_eq_nil_iff.2 fun known hm => if_neg fun heq => ?_
    have hle := hnew known hm
    rw [heq] at hle
    omega
  rw [interceptors_append hmore, hnone, List.append_nil]
  rfl

end Respects

theorem Accrues.interceptors_grow (h : w.Accrues w') :
    w.interceptors k <+: w'.interceptors k := by
  obtain ⟨more, hmore⟩ := h.attached
  exact ⟨_, (interceptors_append hmore.symm).symm⟩

end Workshop

/-! ## What a builder does by itself -/

namespace Builder

variable (b : Builder)

theorem discard_respects : b.discard.Leaves Respects := by
  unfold discard
  split
  · exact .pure _
  · exact fun w => .of_claims _

theorem withId_respects (id : String) : (b.withId id).Leaves Respects := by
  unfold withId
  split
  · exact .pure _
  · exact .bind (updateClaims_leaves fun _ => .of_claims _) fun _ => .pure _

theorem withSession_respects (session : SessionId) :
    (b.withSession session).Leaves Respects := by
  unfold withSession
  split
  · exact .pure _
  · exact .bind (transferClaims_leaves fun _ => .of_claims _) fun _ => .pure _

theorem abides_of_respects {P : Workshop → Workshop → Prop}
    (hP : ∀ {w w'}, Respects w w' → P w w') :
    b.Abides P where
  adds h := hP (.of_adds h)
  withId id := (b.withId_respects id).mono hP
  withSession session := (b.withSession_respects session).mono hP
  discard := b.discard_respects.mono hP

end Builder

section

variable {s : Step} {b b' : Builder} {st : Stage} {w w₁ : Workshop}
  {k : ComponentKey}

theorem addInterceptor_accrues (channel : Channel) (interceptor : Interceptor) :
    (addInterceptor channel interceptor).Leaves Accrues := by
  unfold addInterceptor
  split
  · exact fun w => ⟨Nat.le_refl _, _, rfl⟩
  · exact .fail _

theorem Step.keeps_accrues (s : Step) (b : Builder) (w : Workshop) :
    s.Keeps Accrues b w :=
  keeps_of (b.abides_of_respects Respects.accrues).adds
    (fun _ => b.abides_of_respects Respects.accrues)
    (.of_leaves addInterceptor_accrues)

theorem observes_accrues (left : List Step) (b : Builder) (w : Workshop) :
    Observes Accrues left b w :=
  (b.abides_of_respects Respects.accrues).observes fun _ _ _ =>
    .of_leaves addInterceptor_accrues

/-! ## Taps -/

/-- The call taps the channel, and answers. -/
def Step.Tapped (s : Step) (b : Builder) (w : Workshop) (k : ComponentKey) : Prop :=
  s.taps = true ∧ b.currentKey? = some k ∧ ∃ b' w', Yields (s.assemble b) w b' w'

variable {b'' : Builder} {w' : Workshop} {cause : Refusal}

theorem Step.interceptors_of_tapped (ht : s.taps = true)
    (hk : b.currentKey? = some k) (hy : Yields (s.assemble b) w b' w') :
    (w.interceptors k).length < (w'.interceptors k).length := by
  obtain ⟨st, w₁, branches, w₂, w₃, hst, hbr, hclose, hattach⟩ := of_yields hy
  have hserves := stage_serves hst
  obtain ⟨⟨channel, interceptor⟩, htap⟩ :=
    Option.isSome_iff_exists.1 (hserves.taps.trans ht)
  have hkey : channel.key = k := by
    rcases hserves.tap channel interceptor htap with h | ⟨hnone, -⟩
    · exact (Option.some.inj (hk.symm.trans h)).symm
    · rw [hk] at hnone
      cases hnone
  have hbranches : Accrues w₁ w₂ :=
    Builder.runBranches_keep_before hbr fun _ _ _ _ _ _ _ =>
      runBranch_keeps (keepsWithin _) fun _ => observes_accrues _ _ _
  have hstage : Accrues w w₁ :=
    (Respects.of_adds ((s.stage_adds b).of_yields hst)).accrues
  have hclosed : Accrues w₂ w₃ :=
    ((close_leaves (b.abides_of_respects Respects.accrues).adds
        (fun _ => b.abides_of_respects Respects.accrues) hst branches).of_yields
      hclose)
  have hbefore :=
    ((hstage.trans hbranches).trans hclosed).interceptors_grow (k := k)
  simp only [Stage.attach, htap, yields_addInterceptor] at hattach
  obtain ⟨-, rfl⟩ := hattach
  have hafter :
      ({ w₃ with attached := w₃.attached ++ [(channel.key, interceptor)] } :
        Workshop).interceptors k = w₃.interceptors k ++ [interceptor] := by
    simp [interceptors, hkey]
  rw [hafter, List.length_append, List.length_singleton]
  exact Nat.lt_succ_of_le hbefore.length_le

/-- A call that does not tap the channel attaches nothing to it. -/
theorem Step.tapKeeps_spared (hnot : ¬ s.Tapped b w k)
    (hk : k.number < w.nextComponent) :
    s.TapKeeps (Spared k) b w := by
  intro st w₁ channel interceptor branches w₂ b' w₃ hst htap hbr hclose
  have hserves := stage_serves hst
  unfold addInterceptor
  split
  · next hsupports =>
      have hother : channel.key ≠ k := by
        rintro rfl
        rcases hserves.tap channel interceptor htap with hcurrent | ⟨-, hnew⟩
        · have hattach :
              Yields st.attach w₃ () { w₃ with
                attached := w₃.attached ++ [(channel.key, interceptor)] } := by
            simp only [Stage.attach, htap]
            exact yields_addInterceptor.2 ⟨hsupports, rfl⟩
          have htaps : s.taps = true := by
            rw [← hserves.taps, htap]
            rfl
          exact hnot
            ⟨htaps, hcurrent, b', _, yields_of_stages hst hbr hclose hattach⟩
        · omega
      refine ⟨Nat.le_refl _, fun _ => ?_⟩
      show ({ w₃ with attached := w₃.attached ++ [(channel.key, interceptor)] } :
          Workshop).interceptors k = _
      simp [interceptors, hother]
  · exact (Leaves.fail _).ends _

/-- A failed call attaches nothing in the end, and what it attached on the way
was attached by builders within it. So of the channels that were there before
it, it leaves as they were exactly those that no such builder tapped. -/
theorem interceptors_of_failed (hk : k.number < w.nextComponent) :
    (∀ {s : Step} {cause w'}, Stops (s.assemble b) w cause w' →
      w.interceptors k <+: w'.interceptors k ∧
      (w'.interceptors k = w.interceptors k ↔
        ∀ {t left b' w₁}, s.Visits b w (t :: left) b' w₁ → ¬ t.Tapped b' w₁ k)) ∧
    ∀ {cause w'}, Stops b.finish w cause w' →
      w'.interceptors k = w.interceptors k := by
  refine ⟨fun {s cause w'} hs => ?_, fun {cause w'} hs => ?_⟩
  · have hself : ¬ s.Tapped b w k := by
      rintro ⟨-, -, b', w'', hy⟩
      rw [Stops, hy] at hs
      cases hs
    rw [Step.assemble_eq, stops_guarded] at hs
    obtain ⟨w₁, hrun, hd⟩ := hs
    have hdrop : Respects w₁ w' := b.discard_respects.of_yields hd
    have hall : Accrues w w₁ :=
      (Step.run_keeps (s.keeps_accrues b w) fun _ =>
        observes_accrues _ _ _).of_stops hrun
    have hgrow := (hall.trans hdrop.accrues).interceptors_grow (k := k)
    have hvisits : ∀ {left b' w₂}, s.Visits b w left b' w₂ → Accrues w w₂ ∧
        Accrues w₂ w' := by
      intro left b' w₂ hv
      obtain ⟨hto, hfrom⟩ :=
        hv.keeps (s.keeps_accrues b w) fun _ => observes_accrues _ _ _
      exact ⟨hto, (hfrom.of_stops hrun).trans hdrop.accrues⟩
    refine ⟨hgrow, fun heq => ?_, fun hnone => ?_⟩
    · rintro t left b' w₂ hv ⟨ht, hkey, b'', w₃, hy⟩
      have hbefore := ((hvisits hv).1.interceptors_grow (k := k)).length_le
      have hafter := ((hvisits (hv.next hy)).2.interceptors_grow (k := k)).length_le
      have htapped := Step.interceptors_of_tapped ht hkey hy
      rw [heq] at hafter
      omega
    · have habides :=
        fun b : Builder => b.abides_of_respects (P := Spared k) Respects.spared
      have hcall := Step.keeps_of (habides b).adds (fun _ => habides b)
        (Step.tapKeeps_spared hself hk)
      have hwithin : ∀ {left b' w₂}, s.Visits b w left b' w₂ →
          Observes (Spared k) left b' w₂ := by
        intro left b' w₂ hv
        refine (habides b').observes fun t rest hl => Step.tapKeeps_spared ?_ ?_
        · subst hl
          exact hnone hv
        · exact Nat.lt_of_lt_of_le hk (hvisits hv).1.components
      have hspared : Spared k w w₁ := (Step.run_keeps hcall hwithin).of_stops hrun
      exact (hspared.trans hdrop.spared).interceptors hk
  · rw [Builder.finish_eq, stops_guarded] at hs
    obtain ⟨w₁, hconclude, hd⟩ := hs
    have hrespects := Respects.of_adds ((b.conclude_adds.ends w).of_stops hconclude)
    exact (hrespects.trans (b.discard_respects.of_yields hd)).spared.interceptors hk

end

/-- A router fails in its second branch, after a tap in the first: its flow
reads a channel that carries an interceptor, which is left as it was. So it is
if the flow is finished on the bare channel, which fails too. -/
theorem interceptors_of_failed_route :
    let channel : Channel := ⟨⟨1⟩, some "in", .direct, [], false, none⟩
    let b : Builder :=
      ⟨"f", ⟨1⟩, false, {}, Registry.empty.add (.channel channel),
        { channel := some (.channel channel) }, none, none⟩
    let w : Workshop :=
      { Workshop.start 2 10 with attached := [(⟨1⟩, .custom "audit")] }
    let route : Step := .route { strategy := .header "kind" }
      [("a", .flow [.log .info none]),
        ("b", .flow [.handle (.logger .info none none), .handle .bridge])]
    (∃ cause w', Stops (route.assemble b) w cause w' ∧
      w'.interceptors ⟨1⟩ = w.interceptors ⟨1⟩ ∧
      ∀ {t left b' w₁}, route.Visits b w (t :: left) b' w₁ → ¬ t.Tapped b' w₁ ⟨1⟩) ∧
    ∃ cause w', Stops b.finish w cause w' ∧
      w'.interceptors ⟨1⟩ = w.interceptors ⟨1⟩ := by
  intro channel b w route
  have hmade : (1 : Nat) < w.nextComponent := by decide
  constructor
  · obtain ⟨cause, w', hs⟩ :=
      exists_stops (m := route.assemble b) (w := w) (by decide +kernel)
    have hw : w' = ((route.assemble b).outcome w).2 := by rw [hs]
    have hsame : w'.interceptors ⟨1⟩ = w.interceptors ⟨1⟩ := by
      rw [hw]
      decide +kernel
    exact ⟨cause, w', hs, hsame, ((interceptors_of_failed hmade).1 hs).2.1 hsame⟩
  · obtain ⟨cause, w', hs⟩ :=
      exists_stops (m := b.finish) (w := w) (by decide +kernel)
    exact ⟨cause, w', hs, (interceptors_of_failed hmade).2 hs⟩

/-- A fan-out over a channel of the caller's fails with its second subscriber,
and the tap of the first stays on the channel. -/
theorem interceptors_of_failed_fanOut :
    let channel : Channel :=
      ⟨⟨1⟩, some "in", .publishSubscribe false false, [], false, none⟩
    let b : Builder := ⟨"f", ⟨1⟩, false, {}, .empty, {}, none, none⟩
    let fanOut : Step := .publishSubscribe { channel := some (.existing channel) }
      [[.log .info none], [.handle (.logger .info none none), .handle .bridge]]
    ∃ cause w', Stops (fanOut.assemble b) (.start 2 10) cause w' ∧
      (Workshop.start 2 10).interceptors ⟨1⟩ = [] ∧
      (w'.interceptors ⟨1⟩).length = 1 := by
  intro channel b fanOut
  obtain ⟨cause, w', hs⟩ :=
    exists_stops (m := fanOut.assemble b) (w := .start 2 10) (by decide +kernel)
  have hw : w' = ((fanOut.assemble b).outcome (.start 2 10)).2 := by rw [hs]
  refine ⟨cause, w', hs, rfl, ?_⟩
  rw [hw]
  decide +kernel

end FlowAssembly
