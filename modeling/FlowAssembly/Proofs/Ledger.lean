import FlowAssembly.Proofs.SingleWiring
import FlowAssembly.Proofs.Visits

/-!
# The ledger of claims

A claim counts for a party: a session and a flow id in it. A builder that is
lost, because a call of it failed or finishing it did, or because it was
dropped, releases the claims of its party, and nothing else does. A nested
builder releases nothing: it is of its parent's party, and its parent is lost
with it.

The party is all that tells whose a claim is. Builders that were given one id
in one session are of one party, and each of them answers for the claims of
all, which limits what can be said. A finished flow has all its claims, if no
other builder of its party was started, and so was lost, within one of its
calls (`Undisputed`). And a builder that is lost leaves alone the claims of
other parties, not those of other flows.
-/

namespace FlowAssembly

open Assembly Workshop

/-- The claim still stands, if it stood before. -/
def Workshop.Retains (c : Claim) (w w' : Workshop) : Prop :=
  c ∈ w.claims.claims → c ∈ w'.claims.claims

namespace Workshop.Retains

variable {c : Claim}

instance : Std.Refl (Retains c) := ⟨fun _ => id⟩

instance : Trans (Retains c) (Retains c) (Retains c) := ⟨fun h h' hc => h' (h hc)⟩

theorem of_adds {session : SessionId} {owner : String} {w w' : Workshop}
    (h : w.Adds session owner w') :
    Retains c w w' := by
  obtain ⟨claimed, hclaims, -⟩ := h.claims
  intro hc
  rw [hclaims]
  exact List.mem_append_left _ hc

end Workshop.Retains

/-- Whom the claim counts for. -/
def Claim.party (c : Claim) : SessionId × String :=
  (c.session, c.owner)

/-- Whom the claims of a builder count for. -/
def Builder.party (b : Builder) : SessionId × String :=
  (b.session, b.flowId)

/-- Whom the claims of a live flow count for. -/
def LiveFlow.party (f : LiveFlow) : SessionId × String :=
  (f.session, f.flowId)

/-- A builder answers for the claims of its party, unless it is nested: then
its parent does. -/
def Builder.Owns (b : Builder) (c : Claim) : Prop :=
  b.nested = false ∧ c.party = b.party

/-- The claim, made over to a party. -/
def Claim.madeOver (c : Claim) (party : SessionId × String) : Claim :=
  { c with session := party.1, owner := party.2 }

theorem ClaimBook.mem_ownedBy {book : ClaimBook} {session : SessionId}
    {owner : String} {c : Claim} :
    c ∈ book.ownedBy session owner ↔
      c ∈ book.claims ∧ c.party = (session, owner) := by
  simp only [ownedBy, ofSession, List.mem_filter, decide_eq_true_eq, and_assoc,
    Claim.party, Prod.mk.injEq]

theorem ClaimBook.mem_release {book : ClaimBook} {session : SessionId}
    {owner : String} {c : Claim} :
    c ∈ (book.release session owner).claims ↔
      c ∈ book.claims ∧ c.party ≠ (session, owner) := by
  simp only [release, List.mem_filter, decide_eq_true_eq, Claim.party, ne_eq,
    Prod.mk.injEq]

namespace Builder

variable {b b' : Builder} {c : Claim} {w w' : Workshop}

theorem exists_discard (b : Builder) (w : Workshop) :
    ∃ w', Yields b.discard w () w' := by
  unfold discard Yields
  split <;> exact ⟨_, rfl⟩

/-- Dropping a builder releases what it answers for, and no other claim. -/
theorem mem_of_discard (h : Yields b.discard w () w') :
    c ∈ w'.claims.claims ↔ c ∈ w.claims.claims ∧ ¬ b.Owns c := by
  cases hn : b.nested with
  | true =>
      rw [(yields_discard_of_nested hn).1 h]
      simp [Owns, hn]
  | false =>
      simp only [discard, hn, Bool.false_eq_true, if_false, yields_release] at h
      subst h
      rw [ClaimBook.mem_release]
      simp [Owns, party, hn]

theorem ownedBy_of_discard (hn : b.nested = false) (h : Yields b.discard w () w') :
    w'.claims.ownedBy b.session b.flowId = [] := by
  refine List.eq_nil_iff_forall_not_mem.2 fun c hc => ?_
  obtain ⟨hm, hparty⟩ := ClaimBook.mem_ownedBy.1 hc
  exact ((mem_of_discard h).1 hm).2 ⟨hn, hparty⟩

theorem discard_retains (hb : ¬ b.Owns c) : b.discard.Leaves (Retains c) := by
  intro w hc
  obtain ⟨w', h⟩ := b.exists_discard w
  rw [h]
  exact (mem_of_discard h).2 ⟨hc, hb⟩

theorem withId_retains (hb : ¬ b.Owns c) (id : String) :
    (b.withId id).Leaves (Retains c) := by
  unfold withId
  split
  · exact .pure _
  · next hn =>
      refine .bind (updateClaims_leaves fun h hc => ?_) fun _ => .pure _
      cases h
      refine List.mem_map.2
        ⟨c, hc, if_neg fun hp => hb ⟨by simpa using hn, Prod.ext hp.1 hp.2⟩⟩

theorem withSession_retains (hb : ¬ b.Owns c) (session : SessionId) :
    (b.withSession session).Leaves (Retains c) := by
  unfold withSession
  split
  · exact .pure _
  · next hn =>
      refine .bind (transferClaims_leaves fun h hc => ?_) fun _ => .pure _
      rcases ClaimBook.transfer_ok h with ⟨-, rfl⟩ | ⟨-, -, rfl⟩
      · exact hc
      · exact List.mem_map.2
          ⟨c, hc, if_neg fun hp => hb ⟨by simpa using hn, Prod.ext hp.1 hp.2⟩⟩

/-- Who does not answer for a claim does not take it away. -/
theorem abides_retains (hb : ¬ b.Owns c) : b.Abides (Retains c) where
  adds := .of_adds
  withId := withId_retains hb
  withSession := withSession_retains hb
  discard := discard_retains hb

end Builder

/-! ## What the calls of a builder leave of a claim -/

section

variable {s : Step} {steps left : List Step} {b b' : Builder} {c : Claim}
  {w w' : Workshop} {cause : Refusal}

theorem addInterceptor_retains (channel : Channel) (interceptor : Interceptor) :
    (addInterceptor channel interceptor).Leaves (Retains c) := by
  unfold addInterceptor
  split
  · exact fun w => id
  · exact .fail _

/-- By itself a builder only takes a claim away if it answers for it, and only
by a call that changes its flow. -/
theorem Step.keeps_retains (h : s.changesFlow = false ∨ ¬ b.Owns c) :
    s.Keeps (Retains c) b w :=
  keeps_of .of_adds
    (fun hs => Builder.abides_retains (h.resolve_left (by simp [hs])))
    (.of_leaves addInterceptor_retains)

theorem observes_retains (hb : ¬ b.Owns c) : Observes (Retains c) left b w :=
  (Builder.abides_retains hb).observes fun _ _ _ =>
    .of_leaves addInterceptor_retains

/-- A call that fails although it works on the claims of its flow has left
them alone. -/
theorem Step.retains_of_stops (hs : s.changesFlow = true)
    (h : Stops (s.stage b >>= Stage.run) w cause w') :
    Retains c w w' := by
  obtain ⟨id, rfl⟩ | ⟨session, rfl⟩ | rfl := cases_of_changesFlow hs
  · simp only [stage, Stage.run, Stage.attach, List.mapM_nil, pure_bind, bind_pure,
      Builder.withId] at h
    split at h
    · exact absurd h not_stops_pure
    · rcases stops_bind.1 h with h | ⟨_, _, _, h⟩
      · obtain ⟨_, ⟨⟩, -⟩ := stops_updateClaims.1 h
      · exact absurd h not_stops_pure
  · simp only [stage, Stage.run, Stage.attach, List.mapM_nil, pure_bind, bind_pure,
      Builder.withSession] at h
    split at h
    · exact absurd h not_stops_pure
    · rcases stops_bind.1 h with h | ⟨_, _, _, h⟩
      · obtain ⟨_, -, -, rfl⟩ := stops_transferClaims.1 h
        exact fun hc => hc
      · exact absurd h not_stops_pure
  · simp only [stage, Stage.run, Stage.attach, List.mapM_nil, pure_bind, bind_pure,
      Builder.discard] at h
    split at h <;> cases h

/-- Up to its failure a call takes no claim away that no builder within it
answers for. -/
theorem Step.run_retains (h : Stops (s.stage b >>= Stage.run) w cause w')
    (hin : ∀ {left b' w'}, s.Visits b w left b' w' → ¬ b'.Owns c) :
    Retains c w w' := by
  cases hs : s.changesFlow with
  | false =>
      exact (run_keeps (keeps_retains (.inl hs)) fun hv =>
        observes_retains (hin hv)).of_stops h
  | true => exact retains_of_stops hs h

/-- A claim that stands when a call fails is released exactly if the builder
that was called answers for it. -/
theorem Step.mem_of_stops (h : Stops (s.assemble b) w cause w')
    (hin : ∀ {left b' w'}, s.Visits b w left b' w' → ¬ b'.Owns c)
    (hc : c ∈ w.claims.claims) :
    c ∈ w'.claims.claims ↔ ¬ b.Owns c := by
  rw [assemble_eq, stops_guarded] at h
  obtain ⟨w₁, hs, hd⟩ := h
  rw [Builder.mem_of_discard hd]
  exact and_iff_right (run_retains hs hin hc)

theorem Builder.mem_of_stops_finish (h : Stops b.finish w cause w')
    (hc : c ∈ w.claims.claims) :
    c ∈ w'.claims.claims ↔ ¬ b.Owns c := by
  rw [finish_eq, stops_guarded] at h
  obtain ⟨w₁, hs, hd⟩ := h
  rw [mem_of_discard hd]
  exact and_iff_right ((Retains.of_adds ((b.conclude_adds.ends w).of_stops hs)) hc)

/-! ## Failures -/

theorem Builder.ownedBy_of_stops {α : Type} {m : Assembly α} (hn : b.nested = false)
    (h : Stops (b.guarded m) w cause w') :
    w'.claims.ownedBy b.session b.flowId = [] := by
  obtain ⟨_, -, hd⟩ := stops_guarded.1 h
  exact ownedBy_of_discard hn hd

/-- A builder that comes of a call is nested only if the builder that was
called is. -/
theorem Step.of_nested (h : Yields (s.assemble b) w b' w') (hn : b'.nested = true) :
    b.nested = true ∧ s.isFresh = false := by
  cases hs : s.changesFlow with
  | false =>
      refine ⟨((Step.sameFlow (.inl hs) h).nested).symm.trans hn, ?_⟩
      cases s <;> first | rfl | cases hs
  | true =>
      obtain ⟨id, rfl⟩ | ⟨session, rfl⟩ | rfl := cases_of_changesFlow hs
      · obtain ⟨hb, -⟩ | ⟨-, rfl, -⟩ := of_yields_withId h
        · exact ⟨hb, rfl⟩
        · exact ⟨hn, rfl⟩
      · obtain ⟨hb, -⟩ | ⟨-, rfl, -⟩ := of_yields_withSession h
        · exact ⟨hb, rfl⟩
        · exact ⟨hn, rfl⟩
      · obtain ⟨⟨_, _, rfl⟩, -⟩ := of_yields_fresh h
        cases hn

theorem Step.not_nested (h : Yields (s.assemble b) w b' w')
    (hn : b.nested = false) : b'.nested = false := by
  refine Bool.eq_false_iff.2 fun hnested => ?_
  rw [(of_nested h hnested).1] at hn
  cases hn

/-- A call that fails in a run, at whatever depth, fails the run. In the end
nothing is claimed for the party of the builder that was called; but where
that is a nested builder of the very flow that runs, and this is nested
itself, it is left to the parent to release the claims. -/
theorem Visits.stops {w'' : Workshop} (hv : Visits steps b w (s :: left) b' w')
    (hs : Stops (s.assemble b') w' cause w'') :
    ∃ w₁, Stops (assembleSteps b steps) w cause w₁ ∧
      (w₁.claims.ownedBy b'.session b'.flowId = [] ∨
        b.nested = true ∧ b.SameFlow b') := by
  generalize hl : s :: left = l at hv
  induction hv with
  | here steps b w =>
      subst hl
      refine ⟨w'', stops_bind.2 (.inl hs), ?_⟩
      cases hn : b.nested with
      | true => exact .inr ⟨rfl, .refl b⟩
      | false =>
          rw [Step.assemble_eq] at hs
          exact .inl (Builder.ownedBy_of_stops hn hs)
  | later hy _ ih =>
      obtain ⟨w₁, hstops, h⟩ := ih hs hl
      refine ⟨w₁, stops_bind.2 (.inr ⟨_, _, hy, hstops⟩),
        h.imp_right fun ⟨hn, hsame⟩ => ?_⟩
      obtain ⟨hn, hfresh⟩ := Step.of_nested hy hn
      exact ⟨hn, (Step.sameFlow (.inr ⟨hn, hfresh⟩) hy).trans hsame⟩
  | @within t steps left b b' st before after flow branches w w₁ w₂ w' hst
      heq hys _ ih =>
        obtain ⟨w₃, hstops, h⟩ := ih hs hl
        have hrun : Stops (t.stage b >>= Stage.run) w cause w₃ := by
          refine stops_bind.2 (.inr ⟨st, w₁, hst, stops_bind.2 (.inl ?_)⟩)
          rw [heq]
          exact stops_mapM hys (stops_bind.2 (.inl hstops))
        obtain ⟨w₄, hd⟩ := b.exists_discard w₃
        refine ⟨w₄, stops_bind.2 (.inl ?_), ?_⟩
        · rw [Step.assemble_eq]
          exact stops_guarded.2 ⟨w₃, hrun, hd⟩
        · rcases h with hnil | ⟨-, hsame⟩
          · refine .inl (List.eq_nil_iff_forall_not_mem.2 fun c hc => ?_)
            obtain ⟨hm, hparty⟩ := ClaimBook.mem_ownedBy.1 hc
            have hbefore :=
              ClaimBook.mem_ownedBy.2 ⟨((Builder.mem_of_discard hd).1 hm).1, hparty⟩
            rw [hnil] at hbefore
            cases hbefore
          · have hstage := (Step.stage_serves hst).same
            have hsession : b'.session = b.session :=
              hsame.session.trans hstage.session
            have hflow : b'.flowId = b.flowId := hsame.flowId.trans hstage.flowId
            cases hn : b.nested with
            | true => exact .inr ⟨rfl, hsession, hflow, hsame.nested.trans hn.symm⟩
            | false =>
                rw [hsession, hflow]
                exact .inl (Builder.ownedBy_of_discard hn hd)

/-! ## Flows that are finished -/

theorem Claim.madeOver_of_party {party : SessionId × String} (h : c.party = party) :
    c.madeOver party = c := by
  subst h
  rfl

/-- A step that changes its flow has no builder within it. -/
theorem Step.Visits.changesFlow (h : s.Visits b w left b' w') :
    s.changesFlow = false := by
  obtain ⟨st, w₁, before, flow, after, branches, w₂, hst, heq, -, -⟩ := h
  cases s with
  | withId | withSession | fresh =>
      obtain ⟨rfl, -⟩ := yields_pure.1 hst
      simp at heq
  | channel | endpoint | wireTap | intercept | route | routeToRecipients
  | publishSubscribe | scatterGather
  | faulty => rfl

/-- No builder within the call is of the same party as the builder that is
called, other than nested ones. -/
def Step.Undisputed (s : Step) (b : Builder) (w : Workshop) : Prop :=
  ∀ left b' w', s.Visits b w left b' w' → b'.nested = true ∨ b'.party ≠ b.party

/-- So it is with each of the calls. -/
def Undisputed : List Step → Builder → Workshop → Prop
  | [], _, _ => True
  | s :: rest, b, w =>
      s.Undisputed b w ∧ ∀ b₁ w₁, Yields (s.assemble b) w b₁ w₁ →
        Undisputed rest b₁ w₁

theorem Undisputed.of_contained (h : ∀ s ∈ steps, s.Contained) :
    Undisputed steps b w := by
  induction steps generalizing b w with
  | nil => trivial
  | cons s rest ih =>
      exact ⟨fun _ _ _ hv => .inl (hv.nested (h s List.mem_cons_self)),
        fun _ _ _ => ih fun t ht => h t (List.mem_cons_of_mem _ ht)⟩

/-- While steps run on a builder, the builder that is called stands as given
and the workshop is the given one, between the calls or at a moment within one
of them. -/
inductive Along : List Step → Builder → Workshop → Builder → Workshop → Prop
  | here (steps : List Step) (b : Builder) (w : Workshop) : Along steps b w b w
  | within {s : Step} {steps left : List Step} {b b' : Builder} {w w' : Workshop} :
    s.Visits b w left b' w' → Along (s :: steps) b w b w'
  | later {s : Step} {steps : List Step} {b b₁ b' : Builder} {w w₁ w' : Workshop} :
      Yields (s.assemble b) w b₁ w₁ → Along steps b₁ w₁ b' w' →
      Along (s :: steps) b w b' w'

theorem Builder.SameFlow.party_eq (h : b.SameFlow b') : b'.party = b.party :=
  Prod.ext h.session h.flowId

theorem Step.Undisputed.not_owns (h : s.Undisputed b w) (hc : c.party = b.party)
    {left : List Step} {b' : Builder} {w' : Workshop}
    (hv : s.Visits b w left b' w') : ¬ b'.Owns c := by
  rintro ⟨hn, hparty⟩
  rcases h _ _ _ hv with hnested | hother
  · rw [hn] at hnested
    cases hnested
  · exact hother (hparty.symm.trans hc)

/-- A call that answers leaves a claim of its builder's party, made over to
the party that the builder is of then. -/
theorem Step.carries (hn : b.nested = false) (hfresh : s.isFresh = false)
    (hu : s.Undisputed b w) (hm : c ∈ w.claims.claims) (hparty : c.party = b.party)
    (hy : Yields (s.assemble b) w b' w') :
    c.madeOver b'.party ∈ w'.claims.claims := by
  cases hs : s.changesFlow with
  | false =>
      have hsame := Step.sameFlow (.inl hs) hy
      rw [Claim.madeOver_of_party (hparty.trans hsame.party_eq.symm)]
      rw [assemble_eq, Builder.yields_guarded] at hy
      exact (run_keeps (keeps_retains (.inl hs)) fun hv =>
        observes_retains (hu.not_owns hparty hv)).of_yields hy hm
  | true =>
      obtain ⟨hsession, howner⟩ := Prod.mk.inj hparty
      obtain ⟨id, rfl⟩ | ⟨session, rfl⟩ | rfl := cases_of_changesFlow hs
      · obtain ⟨hnested, -⟩ | ⟨-, rfl, rfl⟩ := of_yields_withId hy
        · rw [hn] at hnested
          cases hnested
        · exact List.mem_map.2
            ⟨c, hm,
              by rw [if_pos ⟨hsession, howner⟩, Claim.madeOver,
                Builder.party, ← hsession]⟩
      · obtain ⟨hnested, -⟩ | ⟨-, rfl, claims, hclaims, rfl⟩ :=
          of_yields_withSession hy
        · rw [hn] at hnested
          cases hnested
        · rcases ClaimBook.transfer_ok hclaims with ⟨rfl, rfl⟩ | ⟨-, -, rfl⟩
          · exact (Claim.madeOver_of_party hparty).symm ▸ hm
          · exact List.mem_map.2
              ⟨c, hm,
                by rw [if_pos ⟨hsession, howner⟩, Claim.madeOver,
                  Builder.party, ← howner]⟩
      · cases hfresh

/-- Calls that answer leave every claim that their flow had on the way. -/
theorem Along.carries (ha : Along steps b w b' w') (hn : b.nested = false)
    (hfresh : ∀ s ∈ steps, s.isFresh = false) (hu : Undisputed steps b w)
    (hm : c ∈ w'.claims.claims) (hparty : c.party = b'.party) {b₁ : Builder}
    {w₁ : Workshop} (hy : Yields (assembleSteps b steps) w b₁ w₁) :
    c.madeOver b₁.party ∈ w₁.claims.claims := by
  induction steps generalizing b w b' w' c with
  | nil =>
      obtain ⟨rfl, rfl⟩ := yields_pure.1 hy
      cases ha
      rwa [Claim.madeOver_of_party hparty]
  | cons s rest ih =>
      obtain ⟨b₂, w₂, hstep, hy⟩ := of_yields_assembleSteps_cons hy
      have hfresh' := hfresh s List.mem_cons_self
      have hrest : ∀ {d : Claim} {b' w'}, Along rest b₂ w₂ b' w' →
          d ∈ w'.claims.claims → d.party = b'.party →
          d.madeOver b₁.party ∈ w₁.claims.claims :=
        fun ha hm hd =>
          ih ha (Step.not_nested hstep hn)
            (fun t ht => hfresh t (List.mem_cons_of_mem _ ht))
            (hu.2 _ _ hstep) hm hd hy
      cases ha with
      | here =>
          exact hrest (d := c.madeOver b₂.party) (.here _ _ _)
            (Step.carries hn hfresh' hu.1 hm hparty hstep) rfl
      | later hstep' ha =>
          obtain ⟨rfl, rfl⟩ := hstep.eq hstep'
          exact hrest ha hm hparty
      | within hv =>
          have hs := hv.changesFlow
          have hsame := Step.sameFlow (.inl hs) hstep
          rw [Step.assemble_eq, Builder.yields_guarded] at hstep
          have hkeeps := ((hv.keeps (Step.keeps_retains (.inl hs)) fun hv =>
            observes_retains (hu.1.not_owns hparty hv)).2).of_yields hstep
          exact hrest (.here _ _ _) (hkeeps hm) (hparty.trans hsame.party_eq.symm)

theorem not_nested_of_yields (hy : Yields (assembleSteps b steps) w b' w')
    (hn : b.nested = false) :
    b'.nested = false := by
  induction steps generalizing b w with
  | nil => exact (yields_pure.1 hy).1 ▸ hn
  | cons s rest ih =>
      obtain ⟨b₁, w₁, hstep, hy⟩ := of_yields_assembleSteps_cons hy
      exact ih hy (Step.not_nested hstep hn)

/-- A failed assembly keeps no claim, a finished one keeps all. Wherever in a
run a call fails, the run fails with the same cause, and then nothing is
claimed for the party of the builder that was called; nor is it after
finishing the builder has failed, or after the builder was dropped. But if it
is finished, all that was claimed for its party at any moment on the way is
claimed for the party that it is of in the end, unless its party was
disputed. -/
theorem claims_settled (hn : b.nested = false) :
    (∀ {s left b' w' cause w''}, Visits steps b w (s :: left) b' w' →
      Stops (s.assemble b') w' cause w'' →
      ∃ w₁, Stops (assembleSteps b steps) w cause w₁ ∧
        w₁.claims.ownedBy b'.session b'.flowId = []) ∧
    ∀ {b₁ w₁}, Yields (assembleSteps b steps) w b₁ w₁ →
      (∀ {cause w₂}, Stops b₁.finish w₁ cause w₂ →
        w₂.claims.ownedBy b₁.session b₁.flowId = []) ∧
      (∀ {w₂}, Yields b₁.discard w₁ () w₂ →
        w₂.claims.ownedBy b₁.session b₁.flowId = []) ∧
      ∀ {g w₂}, Yields b₁.finish w₁ g w₂ → (∀ s ∈ steps, s.isFresh = false) →
        Undisputed steps b w →
        ∀ {b' w'}, Along steps b w b' w' →
          ∀ c ∈ w'.claims.ownedBy b'.session b'.flowId,
            c.madeOver (b₁.session, g.flowId) ∈ w₂.claims.claims := by
  refine ⟨fun hv hs => ?_, fun {b₁ w₁} hy => ?_⟩
  · obtain ⟨w₁, hstops, hnil | ⟨hnested, -⟩⟩ := hv.stops hs
    · exact ⟨w₁, hstops, hnil⟩
    · rw [hn] at hnested
      cases hnested
  · have hn' := not_nested_of_yields hy hn
    refine ⟨fun hs => Builder.ownedBy_of_stops hn' hs,
      fun hd => Builder.ownedBy_of_discard hn' hd, ?_⟩
    intro g w₂ hfinish hfresh hu b' w' ha c hc
    obtain ⟨hm, hparty⟩ := ClaimBook.mem_ownedBy.1 hc
    have hcarried := ha.carries hn hfresh hu hm hparty hy
    obtain ⟨hflow, -⟩ := Builder.count_finish_le (h := c.handler.key) hfinish
    rw [hflow]
    rw [Builder.finish_eq, Builder.yields_guarded] at hfinish
    exact Retains.of_adds (b₁.conclude_adds.of_yields hfinish) hcarried

/-- A router whose second branch wires, as the second of its subscribers, a
handler that the flow has wired; and a flow that is renamed and moved once it
has wired a handler of its own and one in a branch. -/
theorem claims_settled_route :
    let wires (n : Nat) : Step := .handle (.existing ⟨⟨n⟩, .bridge⟩)
    let route (steps : List Step) : Step :=
      .route { strategy := .header "kind" } [("a", .flow [wires 6]),
        ("b", .flow steps)]
    let b : Builder := ⟨"f", ⟨1⟩, false, {}, .empty, {}, none, none⟩
    let w : Workshop := .start 1 10
    (∃ cause w',
      Stops (assembleSteps b
        [wires 5, route [.publishSubscribe {} [[wires 7], [wires 5]]]]) w cause w' ∧
      w'.claims.ownedBy ⟨1⟩ "f" = []) ∧
    ∃ g w',
      Yields (assembleSteps b
        [wires 5, route [wires 7], .withId "g", .withSession ⟨2⟩] >>=
          Builder.finish) w g w' ∧
      ⟨⟨2⟩, ⟨⟨5⟩, "bridge"⟩, "g"⟩ ∈ w'.claims.claims := by
  intro wires route b w
  obtain ⟨⟨b₁, claims⟩, w₁, hwires, hclaims⟩ := exists_yields (m := do
      let b ← (wires 5).assemble b
      return (b, (← get).claims.ownedBy b.session b.flowId))
        (f := Prod.snd) (w := w)
    (y := [⟨⟨1⟩, ⟨⟨5⟩, "bridge"⟩, "f"⟩]) (by decide +kernel)
  simp only [yields_bind, yields_get, yields_pure] at hwires
  obtain ⟨_, _, hb₁, _, _, ⟨rfl, rfl⟩, heq, rfl⟩ := hwires
  cases heq
  have hsame : b.SameFlow b₁ := Step.sameFlow (.inl rfl) hb₁
  constructor
  · obtain ⟨cause, w', hrun⟩ := exists_stops (w := w)
      (m := assembleSteps b
        [wires 5, route [.publishSubscribe {} [[wires 7], [wires 5]]]])
      (by decide +kernel)
    rcases stops_bind.1 ((stops_bind_of_yields hb₁).1 hrun)
      with hcall | ⟨_, _, _, hpure⟩
    · obtain ⟨w'', hstops, hnone⟩ :=
        (claims_settled rfl).1 (.later hb₁ (.here _ _ _)) hcall
      rw [hsame.session, hsame.flowId] at hnone
      exact ⟨cause, w'', hstops, hnone⟩
    · exact absurd hpure not_stops_pure
  · obtain ⟨⟨session, g⟩, w₃, hrun, hparty⟩ := exists_yields (m := do
        let b ← assembleSteps b [wires 5, route [wires 7], .withId "g",
          .withSession ⟨2⟩]
        let g ← b.finish
        return (b.session, g)) (f := fun p => (p.1, p.2.flowId)) (w := w)
          (y := (⟨2⟩, "g")) (by decide +kernel)
    simp only [yields_bind, yields_pure] at hrun
    obtain ⟨b₂, w₂, hsteps, _, _, hfinish, heq, rfl⟩ := hrun
    cases heq
    have hdone := ((claims_settled rfl).2 hsteps).2.2 hfinish (by decide)
      (.of_contained (by decide)) (.later hb₁ (.here _ _ _)) _
      (hclaims ▸ List.mem_singleton_self _)
    have hmoved : (b₂.session, g.flowId) = (⟨2⟩, "g") := hparty
    rw [hmoved] at hdone
    exact ⟨g, w₃, yields_bind.2 ⟨b₂, w₂, hsteps, hfinish⟩, hdone⟩

/-- A subflow that starts another flow under its parent's id in its parent's
session, and is thrown away with it: the flow is finished, but the claim that
it had is gone. -/
theorem finished_without_claim :
    let wires (n : Nat) : Step := .handle (.existing ⟨⟨n⟩, .bridge⟩)
    let route : Step :=
      .route { strategy := .header "kind" }
        [("a", .flow [.fresh, .withSession ⟨1⟩, .withId "f"])]
    let b : Builder := ⟨"f", ⟨1⟩, false, {}, .empty, {}, none, none⟩
    ∃ b₁ w₁ g w', Yields ((wires 5).assemble b) (.start 1 10) b₁ w₁ ∧
      ⟨⟨1⟩, ⟨⟨5⟩, "bridge"⟩, "f"⟩ ∈ w₁.claims.claims ∧
      Yields (assembleSteps b [wires 5, route] >>= Builder.finish)
        (.start 1 10) g w' ∧
      g.flowId = "f" ∧ w'.claims.claims = [] := by
  intro wires route b
  obtain ⟨⟨b₁, claims⟩, w₁, hwires, hclaims⟩ := exists_yields (m := do
      let b ← (wires 5).assemble b
      return (b, (← get).claims.claims)) (f := Prod.snd) (w := .start 1 10)
    (y := [⟨⟨1⟩, ⟨⟨5⟩, "bridge"⟩, "f"⟩]) (by decide +kernel)
  obtain ⟨⟨g, claims'⟩, w', hfinish, hnone⟩ := exists_yields (m := do
      let g ← assembleSteps b [wires 5, route] >>= Builder.finish
      return (g, (← get).claims.claims)) (f := fun p => (p.1.flowId, p.2))
        (w := .start 1 10) (y := ("f", []))
    (by decide +kernel)
  rw [yields_bind] at hwires hfinish
  simp only [yields_bind (m := get), yields_get, yields_pure] at hwires hfinish
  obtain ⟨_, _, hwires, _, _, ⟨rfl, rfl⟩, heq, rfl⟩ := hwires
  obtain ⟨_, _, hfinish, _, _, ⟨rfl, rfl⟩, heq', rfl⟩ := hfinish
  cases heq
  cases heq'
  have hclaimed : w₁.claims.claims = [⟨⟨1⟩, ⟨⟨5⟩, "bridge"⟩, "f"⟩] := hclaims
  refine ⟨b₁, w₁, g, w', hwires, ?_, hfinish, congrArg Prod.fst hnone,
    congrArg Prod.snd hnone⟩
  rw [hclaimed]
  exact List.mem_singleton_self _

/-- A claim that stands keeps its handler from being wired in its session. -/
theorem Builder.not_yields_wire {spec : EndpointSpec} {input : ResolvedInput}
    {sides : List Registry} (hc : c ∈ w.claims.claims) (hs : b.session = c.session)
    (hp : spec.handler.producesReplies = true)
    (hk : spec.handler.key = c.handler.key) :
    ¬ Yields (b.wire spec input sides) w b' w' := by
  intro h
  obtain ⟨e, hreg, -⟩ := of_yields_wire h
  obtain ⟨-, -, -, hclaim, -⟩ := of_yields_registerEndpoint hreg
  obtain ⟨hzero, -⟩ := ClaimBook.claim_ok (hclaim hp)
  have hnot := List.countP_eq_zero.1 hzero c hc
  simp only [decide_eq_true_eq] at hnot
  exact hnot ⟨hs.symm, hk.symm⟩

end

/-! ## Builders that share a session -/

/-- A builder that is nested in the call that a move makes stands as given. -/
def Move.Visits (b : Builder) (w : Workshop) (left : List Step) (b' : Builder)
    (w' : Workshop) : Move → Prop
  | .perform _ step => step.Visits b w left b' w'
  | _ => False

namespace Floor

/-- By the move a builder is lost that has a name on the bench: its call
fails, finishing it fails, or it is dropped. -/
def Loses (s : Floor) (name : String) (b : Builder) : Move → Prop
  | .perform called step =>
      called = name ∧ ∃ cause, Fails (step.assemble b) s.bench.workshop cause
  | .finish called _ =>
      called = name ∧ ∃ cause, Fails b.finish s.bench.workshop cause
  | .drop called => called = name
  | _ => False

variable {s : Floor} {name : String} {b : Builder} {m : Move} {c : Claim}

/-- The bench without its builder, and what has become of a claim. -/
theorem after_of_loses (hb : s.bench.builders.get? name = some b)
    (hl : s.Loses name b m) :
    ∃ w',
      s.after m =
        { s with
          bench := { s.bench with
              workshop := w', builders := s.bench.builders.erase name } } ∧
      ∀ c ∈ s.bench.workshop.claims.claims,
        (∀ {left b' w'}, m.Visits b s.bench.workshop left b' w' → ¬ b'.Owns c) →
        (c ∈ w'.claims.claims ↔ ¬ b.Owns c) := by
  match m with
  | .perform called step =>
      obtain ⟨rfl, cause, hfails⟩ := hl
      obtain ⟨w', hs⟩ := fails_iff_stops.1 hfails
      refine ⟨w', ?_, fun c hc hin => Step.mem_of_stops hs hin hc⟩
      unfold after Workbench.perform
      simp only [hb, Workbench.run_eq]
      rw [hs]
  | .finish called graphName =>
      obtain ⟨rfl, cause, hfails⟩ := hl
      obtain ⟨w', hs⟩ := fails_iff_stops.1 hfails
      refine ⟨w', ?_, fun c hc _ => Builder.mem_of_stops_finish hs hc⟩
      unfold after Workbench.finish
      simp only [hb, Workbench.run_eq]
      rw [hs]
  | .drop called =>
      obtain rfl : called = name := hl
      obtain ⟨w', hd⟩ := b.exists_discard s.bench.workshop
      refine ⟨w', ?_,
        fun c hc _ => (Builder.mem_of_discard hd).trans (and_iff_right hc)⟩
      unfold after Workbench.dropBuilder Workbench.discard
      simp only [hb, Workbench.run_eq]
      rw [hd]
  | .start .. | .forget _ | .settle | .claim .. | .release .. | .other _ =>
      exact hl.elim

/-- A builder that is lost releases the claims of its party. The other flows
go on, and of the claims that no builder within a failing call answers for,
exactly those of the party are gone; the others keep their handlers from being
wired a second time. So on a sound floor the endpoints of a flow of another
party have all their claims. -/
theorem released_of_party (hb : s.bench.builders.get? name = some b)
    (hn : b.nested = false) (hl : s.Loses name b m) :
    (s.after m).flows = (s.without name).flows ∧
    (∀ c ∈ s.bench.workshop.claims.claims,
      (∀ {left b' w'}, m.Visits b s.bench.workshop left b' w' →
        b'.nested = true ∨ b'.party ≠ c.party) →
      (c ∈ (s.after m).bench.workshop.claims.claims ↔ c.party ≠ b.party) ∧
      (c.party ≠ b.party →
        ∀ {b' : Builder} {spec : EndpointSpec} {input sides b'' w''},
          b'.session = c.session → spec.handler.producesReplies = true →
          spec.handler.key = c.handler.key →
          ¬ Yields (b'.wire spec input sides) (s.after m).bench.workshop b'' w'')) ∧
    (s.Sound → ∀ flow ∈ (s.after m).flows, flow.party ≠ b.party →
      (∀ {left b' w'}, m.Visits b s.bench.workshop left b' w' →
        b'.nested = true ∨ b'.party ≠ flow.party) →
      ∀ k ∈ flow.repliers, ∃ c ∈ (s.after m).bench.workshop.claims.claims,
        c.party = flow.party ∧ c.handler.key = k) := by
  obtain ⟨w', hafter, hclaims⟩ := after_of_loses hb hl
  have hflows : (s.after m).flows = (s.without name).flows := by
    rw [hafter]
    rfl
  have hkept : ∀ c ∈ s.bench.workshop.claims.claims,
      (∀ {left b' w'}, m.Visits b s.bench.workshop left b' w' →
        b'.nested = true ∨ b'.party ≠ c.party) →
      (c ∈ (s.after m).bench.workshop.claims.claims ↔ c.party ≠ b.party) := by
    intro c hc hin
    have hiff := hclaims c hc fun hv ⟨hnested, hparty⟩ =>
      (hin hv).elim (fun h => by rw [hnested] at h; cases h)
        (fun h => h hparty.symm)
    rw [hafter]
    exact hiff.trans (not_congr (and_iff_right hn))
  refine ⟨hflows, fun c hc hin => ⟨hkept c hc hin, fun hother => ?_⟩,
    fun hs flow hflow hother hin k hk => ?_⟩
  · intro b' spec input sides b'' w'' hsession hp hk
    exact Builder.not_yields_wire ((hkept c hc hin).2 hother) hsession hp hk
  · rw [hflows] at hflow
    obtain ⟨c, hf, howner⟩ := hs.find? (mem_flows_of_without hflow) hk
    have hp := List.find?_some hf
    simp only [decide_eq_true_eq] at hp
    have hparty : c.party = flow.party := Prod.ext hp.1 howner
    refine ⟨c, (hkept c (List.mem_of_find?_eq_some hf) ?_).2 (hparty ▸ hother),
      hparty, hp.2⟩
    rwa [hparty]

/-- Of a finished flow and two builders in one session one is lost, as the
second branch of a router wires the handler of the other. -/
theorem released_of_party_three_flows :
    let wires (n : Nat) : Step := .handle (.existing ⟨⟨n⟩, .bridge⟩)
    let moves : List Move :=
      [.start "a" (.empty {}), .perform "a" (.withSession ⟨9⟩),
        .perform "a" (wires 5), .finish "a" "g", .start "b" (.empty {}),
        .perform "b" (.withSession ⟨9⟩), .perform "b" (wires 6),
        .start "c" (.empty {}), .perform "c" (.withSession ⟨9⟩),
        .perform "c" (wires 7)]
    let lost : Move :=
      .perform "c"
        (.route { strategy := .header "kind" }
          [("a", .flow [wires 8]), ("b", .flow [wires 6])])
    let s := (bare 1 10).run moves
    s.bench.workshop.claims.claims.map (fun c => c.handler.key.number) = [5, 6, 7] ∧
      (∀ c ∈ s.bench.workshop.claims.claims,
        c ∈ (s.after lost).bench.workshop.claims.claims ↔ c.handler.key ≠ ⟨7⟩) ∧
      ∀ flow ∈ (s.after lost).flows, ∀ k ∈ flow.repliers,
        ∃ c ∈ (s.after lost).bench.workshop.claims.claims, c.party = flow.party ∧
          c.handler.key = k := by
  intro wires moves lost s
  have hlost : (s.bench.builders.get? "c").any (fun b => b.nested = false ∧
      (((Step.route { strategy := .header "kind" }
          [("a", .flow [wires 8]), ("b", .flow [wires 6])]).assemble b).outcome
        s.bench.workshop).1.toOption.isSome = false ∧
      (∀ c ∈ s.bench.workshop.claims.claims, c.party ≠ b.party ↔
        c.handler.key ≠ ⟨7⟩) ∧ ∀ flow ∈ (s.without "c").flows,
          flow.party ≠ b.party) = true := by
    decide +kernel
  obtain ⟨b, hb, hlost⟩ := (Option.any_eq_true _ _).1 hlost
  obtain ⟨hn, hfails, hparty, hothers⟩ := of_decide_eq_true hlost
  obtain ⟨cause, w', hstops⟩ := exists_stops hfails
  have hin : ∀ {left b' w'}, lost.Visits b s.bench.workshop left b' w' →
      b'.nested = true :=
    fun hv => Step.Visits.nested hv (by decide)
  have hcontained : ∀ m ∈ moves, m.Contained := by decide +kernel
  have hdisciplined : (bare 1 10).Disciplined moves := by decide +kernel
  obtain ⟨hflows, hclaims, hendpoints⟩ :=
    released_of_party hb hn (m := lost) ⟨rfl, cause, fails_iff_stops.2 ⟨w', hstops⟩⟩
  refine ⟨by decide +kernel, fun c hc => ?_, fun flow hflow => ?_⟩
  · exact ((hclaims c hc fun hv => .inl (hin hv)).1).trans (hparty c hc)
  · exact hendpoints
      ((sound_bare 1 10).run List.nodup_nil hcontained hdisciplined).1 flow hflow
      (hothers flow (hflows ▸ hflow)) fun hv => .inl (hin hv)

/-- Two builders were given one id in one session. One of them is dropped, and
the claim of the other is gone. -/
theorem released_of_other_flow :
    let moves : List Move :=
      [.start "a" (.empty {}), .perform "a" (.withId "f"),
        .perform "a" (.withSession ⟨9⟩),
        .perform "a" (.handle (.existing ⟨⟨5⟩, .bridge⟩)), .start "b" (.empty {}),
        .perform "b" (.withId "f"), .perform "b" (.withSession ⟨9⟩)]
    let s := (bare 1 10).run moves
    s.bench.workshop.claims.claims = [⟨⟨9⟩, ⟨⟨5⟩, "bridge"⟩, "f"⟩] ∧
      (s.after (.drop "b")).flows.map (fun flow => (flow.session, flow.repliers)) =
        [(⟨9⟩, [⟨5⟩])] ∧
      (s.after (.drop "b")).bench.workshop.claims.claims = [] := by
  decide +kernel

end Floor

end FlowAssembly
