import FlowAssembly.Graph.Basic
import FlowAssembly.Proofs.ClaimCounts
import FlowAssembly.Proofs.Operations

/-!
# Every reply producer is paid for by a claim

The reply producers of a flow are the handlers of its endpoints that reply, in
its registry and in the tap flows that it holds back. A claim is a payment: an
operation on a builder that answers may bring in endpoints with some handler
only as far as it adds claims on that handler, owned by the flow, in the
session of the flow. Counting one handler at a time makes this a statement on
numbers, and a chain of operations an addition (`Covers`).

Endpoints that came in earlier, with the registries of branches, were paid for
when they were wired, so flattening, moving and binding cost nothing;
flattening may drop an entry that is known already, but that only helps.
-/

namespace FlowAssembly

open Assembly

/-- The handler of an endpoint that replies. -/
def Component.replier? : Component → Option HandlerKey
  | .endpoint e => if e.handler.producesReplies then some e.handler.key else none
  | .channel _ | .source _ => none

/-- The reply producers of a registry, one for each endpoint. -/
def Registry.repliers (r : Registry) : List HandlerKey :=
  r.components.filterMap Component.replier?

/-- The reply producers of a builder, in what it registered and in the flows
that it holds back. -/
def Builder.repliers (b : Builder) : List HandlerKey :=
  b.registry.repliers ++ b.cursor.deferred.flatMap Registry.repliers

/-- The reply producers of a finished flow. -/
def FlowGraph.repliers (g : FlowGraph) : List HandlerKey :=
  g.components.filterMap Component.replier?

/-! ## Registries -/

namespace Registry

@[simp]
theorem repliers_empty : empty.repliers = [] := rfl

theorem repliers_register (r : Registry) (c : Component) (name : Option String) :
    (r.register c name).repliers =
      if r.contains c.key then r.repliers else r.repliers ++ c.replier?.toList := by
  unfold repliers
  rw [components_register]
  split
  · rfl
  · rw [List.filterMap_append]
    cases hc : c.replier? <;> simp [hc]

@[simp]
theorem repliers_add_channel (r : Registry) (c : Channel) :
    (r.add (.channel c)).repliers = r.repliers := by
  unfold add
  rw [repliers_register]
  split <;> simp [Component.replier?]

@[simp]
theorem repliers_bindOutput (r : Registry) (key : ComponentKey) (target : Target) :
    (r.bindOutput key target).repliers = r.repliers := by
  unfold repliers
  rw [components_bindOutput, List.filterMap_map]
  congr 1
  funext c
  rw [Function.comp_apply]
  split
  · cases c <;> rfl
  · rfl

theorem repliers_relocateToEnd (r : Registry) (key : ComponentKey) :
    (r.relocateToEnd key).repliers.Perm r.repliers := by
  unfold repliers
  rw [components_relocateToEnd]
  refine List.Perm.filterMap _ ?_
  have h :=
    List.filter_append_perm (fun c : Component => decide (c.key ≠ key)) r.components
  simpa using h

section Count

variable (h : HandlerKey)

theorem count_register_le (r : Registry) (c : Component) (name : Option String) :
    (r.register c name).repliers.count h ≤ r.repliers.count h +
      c.replier?.toList.count h := by
  rw [repliers_register]
  split
  · omega
  · exact Nat.le_of_eq List.count_append

theorem count_extend_le (r other : Registry) :
    (r.extend other).repliers.count h ≤ r.repliers.count h +
      other.repliers.count h := by
  unfold repliers
  rw [components_extend, List.filterMap_append, List.count_append]
  have hsub :
      (other.components.filter fun c =>
        !r.contains c.key).Sublist other.components :=
    List.filter_sublist
  have hle := (hsub.filterMap Component.replier?).count_le h
  omega

theorem count_foldl_extend_le (others : List Registry) (r : Registry) :
    (others.foldl extend r).repliers.count h ≤
      r.repliers.count h + (others.flatMap repliers).count h := by
  induction others generalizing r with
  | nil => simp
  | cons other others ih =>
      rw [List.foldl_cons, List.flatMap_cons, List.count_append]
      have hrest := ih (r.extend other)
      have hfirst := count_extend_le h r other
      omega

theorem count_relocateToEnd (r : Registry) (key : ComponentKey) :
    (r.relocateToEnd key).repliers.count h = r.repliers.count h :=
  (repliers_relocateToEnd r key).count_eq h

theorem count_extendBefore_le (r : Registry) (trailing : Option ComponentKey)
    (others : List Registry) :
    (r.extendBefore trailing others).repliers.count h ≤ r.repliers.count h +
      (others.flatMap repliers).count h := by
  have hle := count_foldl_extend_le h others r
  unfold extendBefore
  split
  · rw [count_relocateToEnd]
    exact hle
  · exact hle

end Count

end Registry

/-! ## The account of a call -/

namespace Workshop

/-- How many claims on a handler a flow owns in a session. -/
def owned (w : Workshop) (b : Builder) (h : HandlerKey) : Nat :=
  w.claims.owned b.session b.flowId h

end Workshop

namespace Builder

/-- The account of an operation that takes the builder `b` to `b'` while it
takes in `extra` endpoints that were paid for before: the flow is still the
same, and all further endpoints with the handler are paid for by new
claims. -/
structure Covers (h : HandlerKey) (b : Builder) (extra : Nat) (w : Workshop)
    (b' : Builder) (w' : Workshop) :
    Prop where
  same : b.SameFlow b'
  count : b'.repliers.count h + w.owned b h ≤ b.repliers.count h +
      extra + w'.owned b h

end Builder

namespace Workshop

theorem owned_congr {b b' : Builder} (hs : b.SameFlow b') (w : Workshop)
    (h : HandlerKey) :
    w.owned b' h = w.owned b h := by
  simp only [owned, hs.session, hs.flowId]

theorem owned_of_claims_eq {w w' : Workshop} (hc : w'.claims = w.claims)
    (b : Builder) (h : HandlerKey) :
    w'.owned b h = w.owned b h := by
  simp only [owned, hc]

end Workshop

namespace Builder

variable {h : HandlerKey} {b b' b'' : Builder} {m n : Nat} {w w' w'' : Workshop}

theorem Covers.trans (hb : Covers h b m w b' w') (hb' : Covers h b' n w' b'' w'') :
    Covers h b (m + n) w b'' w'' := by
  refine ⟨hb.same.trans hb'.same, ?_⟩
  have h₁ := hb.count
  have h₂ := hb'.count
  rw [Workshop.owned_congr hb.same, Workshop.owned_congr hb.same] at h₂
  omega

/-- An operation without effect on claims may only shuffle what is there. -/
theorem Covers.of_le (hs : b.SameFlow b')
    (hc : b'.repliers.count h ≤ b.repliers.count h + m)
    (hw : w'.claims = w.claims) : Covers h b m w b' w' := by
  refine ⟨hs, ?_⟩
  rw [Workshop.owned_of_claims_eq hw]
  omega

theorem Covers.refl (hw : w'.claims = w.claims) : Covers h b 0 w b w' :=
  .of_le (.refl b) (Nat.le_refl _) hw

/-- Only the claims of the workshops matter to the account. -/
theorem Covers.of_claims {w₁ w₁' : Workshop} (hc : Covers h b m w₁ b' w₁')
    (hw : w₁.claims = w.claims) (hw' : w₁'.claims = w'.claims) :
    Covers h b m w b' w' := by
  refine ⟨hc.same, ?_⟩
  have hcount := hc.count
  rwa [Workshop.owned_of_claims_eq hw, Workshop.owned_of_claims_eq hw'] at hcount

/-- An account of any one handler shows that the flow is the same. -/
theorem SameFlow.of_covers {m : HandlerKey → Nat}
    (hc : ∀ h, Covers h b (m h) w b' w') : b.SameFlow b' :=
  (hc ⟨0⟩).same

theorem repliers_bindPending (b : Builder) (target : Target) :
    (b.bindPending target).repliers = b.repliers := by
  unfold bindPending
  split
  · simp [repliers]
  · rfl

theorem count_flushDeferred_le (b : Builder) :
    b.flushDeferred.repliers.count h ≤ b.repliers.count h := by
  unfold flushDeferred
  split
  · exact Nat.le_refl _
  · have hle :=
      Registry.count_extendBefore_le h b.registry b.currentKey? b.cursor.deferred
    simp only [repliers, List.flatMap_nil, List.append_nil, List.count_append]
    exact hle

theorem count_placeSides_le (b : Builder) (input : Target) (sides : List Registry) :
    (b.placeSides input sides).repliers.count h ≤
      b.repliers.count h + (sides.flatMap Registry.repliers).count h := by
  unfold placeSides
  split
  · omega
  · have hle := Registry.count_extendBefore_le h b.registry
      (input.channel?.map Channel.key) sides
    simp only [repliers, List.count_append]
    omega

theorem count_ready_le (b : Builder) (input : ResolvedInput)
    (sides : List Registry) :
    (b.ready input sides).repliers.count h ≤ b.repliers.count h +
      (sides.flatMap Registry.repliers).count h := by
  have hle := count_placeSides_le
    (h := h) { b with cursor := { b.cursor with channel := none } }
    input.target sides
  unfold ready
  dsimp only
  rw [repliers_bindPending]
  split
  · simp only [repliers, Registry.repliers_add_channel] at hle ⊢
    exact hle
  · exact hle

theorem repliers_appended (b : Builder) (source : ChannelSource) :
    (b.appended source).repliers = b.repliers := by
  match source with
  | .channel c =>
      show (bindPending { b with registry := b.registry.add (.channel c) }
          (.channel c)).repliers = _
      rw [repliers_bindPending]
      simp [repliers]
  | .named name => exact repliers_bindPending b (.named name)
  | .fixedSubscriber id => rfl

theorem count_absorb_le (b : Builder) (branches : List Branch) :
    (b.absorb branches).repliers.count h ≤ b.repliers.count h +
      (branches.flatMap fun br => br.registry.repliers).count h := by
  have hle :=
    Registry.count_foldl_extend_le h (branches.map Branch.registry) b.registry
  rw [List.flatMap_map] at hle
  simp only [absorb, repliers, List.count_append]
  omega

end Builder

/-! ## Endpoints -/

/-- A registered endpoint that replies is paid for by the claim that was made
for it. -/
theorem count_registerEndpoint_le {h : HandlerKey} {session : SessionId}
    {flowId : String} {registry registry' : Registry} {spec : EndpointSpec}
    {input : Target} {e : Endpoint} {w w' : Workshop}
    (hy : Yields (registerEndpoint session flowId registry spec input) w
      (registry', e) w') :
    registry'.repliers.count h + w.claims.owned session flowId h ≤
      registry.repliers.count h + w'.claims.owned session flowId h := by
  obtain ⟨rfl, he, -, hclaim, hkeep⟩ := of_yields_registerEndpoint hy
  have hle := Registry.count_register_le h registry (.endpoint e) none
  have hhandler : e.handler = spec.handler := by rw [he]
  unfold Registry.add
  simp only [Component.replier?, hhandler] at hle
  cases hprod : spec.handler.producesReplies with
  | true =>
      have howned := ClaimBook.owned_of_claim (hclaim hprod) session flowId h
      simp only [hprod, if_true, Option.toList_some, List.count_singleton,
        beq_iff_eq] at hle
      simp only [Handler.tag, true_and] at howned
      by_cases hk : spec.handler.key = h
      · rw [if_pos hk] at hle
        rw [if_pos hk.symm] at howned
        omega
      · rw [if_neg hk] at hle
        rw [if_neg (Ne.symm hk)] at howned
        omega
  | false =>
      rw [hkeep hprod]
      simp only [hprod, Bool.false_eq_true, if_false, Option.toList_none,
        List.count_nil] at hle
      omega

namespace Builder

variable {h : HandlerKey} {b b' b'' : Builder} {m n : Nat} {w w' w'' : Workshop}

theorem covers_wire {spec : EndpointSpec} {input : ResolvedInput}
    {sides : List Registry} (hy : Yields (b.wire spec input sides) w b' w') :
    Covers h b ((sides.flatMap Registry.repliers).count h) w b' w' := by
  obtain ⟨e, hreg, hs, hr, hd, -⟩ := of_yields_wire hy
  refine ⟨hs, ?_⟩
  have hpaid := count_registerEndpoint_le (h := h) hreg
  have hready := count_ready_le (h := h) b input sides
  generalize b.ready input sides = p at hreg hr hpaid hready
  have hflush := count_flushDeferred_le
    (h := h) { p with registry := p.registry.add (.endpoint e) }
  have hsplit : b'.repliers = b'.registry.repliers := by simp [repliers, hd]
  rw [hsplit, hr]
  simp only [repliers, List.count_append] at hready hflush ⊢
  simp only [Workshop.owned]
  omega

theorem covers_attach {spec : EndpointSpec} (hy : Yields (b.attach spec) w b' w') :
    Covers h b 0 w b' w' := by
  obtain ⟨input, w₁, hi, hw⟩ := of_yields_attach hy
  have hsup := (resolveInput_leaves b.cursor.channel spec.handler).of_yields hi
  have hc : Covers h b 0 w b w₁ := .refl hsup.claims
  exact hc.trans (covers_wire hw)

theorem covers_bridge (hy : Yields b.bridge w b' w') : Covers h b 0 w b' w' :=
  (covers_attach (of_yields_bridge hy)).of_claims rfl rfl

theorem covers_appended (source : ChannelSource) (hw : w'.claims = w.claims) :
    Covers h b 0 w (b.appended source) w' :=
  .of_le (b.sameFlow_appended source) (by rw [repliers_appended]; omega) hw

theorem covers_channel {source : ChannelSource}
    (hy : Yields (b.channel source) w b' w') :
    Covers h b 0 w b' w' := by
  obtain ⟨b₁, hb, rfl⟩ := of_yields_channel hy
  have hpart : Covers h b 0 w b₁ w' := by
    rcases hb with ⟨-, hb⟩ | ⟨-, rfl, rfl⟩
    · exact covers_bridge hb
    · exact .refl rfl
  exact hpart.trans (covers_appended source rfl)

theorem covers_tapPoint {attempted : String} {c : Channel}
    (hy : Yields (b.tapPoint attempted) w (b', c) w') :
    Covers h b 0 w b' w' := by
  rcases of_yields_tapPoint hy with ⟨-, rfl, rfl⟩ | ⟨-, rfl, -, rfl⟩
  · exact .refl rfl
  · exact covers_appended _ rfl

theorem covers_intercept {interceptor : Interceptor}
    (hy : Yields (b.intercept interceptor) w b' w') :
    Covers h b 0 w b' w' := by
  obtain ⟨c, w₁, ht, rfl⟩ := of_yields_intercept hy
  exact (covers_tapPoint ht).of_claims rfl rfl

end Builder

/-! ## Branches -/

/-- The reply producers of branches. -/
def Branch.repliers (branches : List Branch) : List HandlerKey :=
  branches.flatMap fun br => br.registry.repliers

/-- The branches `after` come from the branches `before`: what reply producers
were added is paid for by claims of the parent's flow. -/
def Branch.Paid (h : HandlerKey) (parent : Builder) (before : List Branch)
    (w : Workshop) (after : List Branch) (w' : Workshop) : Prop :=
  (Branch.repliers after).count h + w.owned parent
    h ≤ (Branch.repliers before).count h + w'.owned parent h

namespace Branch

variable {h : HandlerKey} {parent : Builder} {w w' : Workshop}

theorem paid_addBridge {br br' : Branch} {input : Channel} {key : ComponentKey}
    (hy : Yields (br.addBridge parent input) w (br', key) w') :
    Paid h parent [br] w [br'] w' := by
  obtain ⟨e, hreg, rfl, -⟩ := of_yields_addBridge hy
  have hle := count_registerEndpoint_le (h := h) hreg
  simpa [Paid, repliers, Workshop.owned] using hle

theorem paid_converge {br br' : Branch} {merge : Channel}
    (hy : Yields (br.converge parent merge) w br' w') :
    Paid h parent [br] w [br'] w' := by
  obtain ⟨output, -, rfl, rfl⟩ | ⟨-, rfl, rfl⟩ | ⟨last, -, -, rfl, rfl⟩ | ⟨last,
    linked, key, -, -, ha, rfl⟩ :=
    of_yields_converge hy
  · simp [Paid, repliers]
  · simp [Paid]
  · simp [Paid, repliers]
  · have hle := paid_addBridge (h := h) ha
    simpa [Paid, repliers] using hle

theorem paid_leaveOpen {br br' : Branch}
    (hy : Yields (br.leaveOpen parent) w br' w') :
    Paid h parent [br] w [br'] w' := by
  rcases of_yields_leaveOpen hy with ⟨-, rfl, rfl⟩ | ⟨last, key, -, ha⟩
  · simp [Paid]
  · exact paid_addBridge ha

/-- An operation that pays for what it adds to each branch pays for what it
adds to all of them. -/
theorem paid_all {f : Branch → Assembly Branch}
    (hf : ∀ {br br' w w'}, Yields (f br) w br' w' → Paid h parent [br] w [br'] w')
    {brs brs' : List Branch} (hy : YieldsAll f w brs brs' w') :
    Paid h parent brs w brs' w' := by
  induction hy with
  | nil w => simp [Paid]
  | cons hbr _ ih =>
      have hone := hf hbr
      simp only [Paid, repliers, List.flatMap_cons, List.flatMap_nil,
        List.append_nil, List.count_append] at hone ih ⊢
      omega

end Branch

namespace Builder

variable {h : HandlerKey} {b b' b'' : Builder} {m n : Nat} {w w' w'' : Workshop}

/-- A nested builder hands over to its parent what it paid for. -/
theorem count_intoBranch_le (hn : b.nested = true) {br : Branch}
    (hy : Yields b.intoBranch w br w') :
    w' = w ∧ br.registry.repliers.count h ≤ b.repliers.count h := by
  obtain ⟨rfl, hr, -⟩ := of_yields_intoBranch hn hy
  have hle := count_flushDeferred_le (h := h) b
  refine ⟨rfl, ?_⟩
  rw [hr]
  simp only [repliers, List.count_append] at hle ⊢
  omega

theorem paid_reconcile {branches : List Branch} {default : Option DefaultOutput}
    {r : Reconciled} (hy : Yields (b.reconcile branches default) w r w') :
    Branch.Paid h b branches w r.branches w' := by
  rcases of_yields_reconcile hy with ⟨merge, w₁, hm, hc, -⟩ | ⟨-, hr, -, rfl⟩
  · have hsup := (mergeChannel_leaves branches).of_yields hm
    have hle := Branch.paid_all (h := h) Branch.paid_converge hc
    unfold Branch.Paid at hle ⊢
    rw [Workshop.owned_of_claims_eq hsup.claims] at hle
    exact hle
  · rw [hr]
    exact Nat.le_refl _

theorem covers_absorb (branches : List Branch) (hw : w'.claims = w.claims) :
    Covers h b ((Branch.repliers branches).count h) w (b.absorb branches) w' :=
  .of_le ⟨rfl, rfl, rfl⟩ (count_absorb_le b branches) hw

theorem covers_mergedOn (branches : List Branch) (merge : Channel) :
    Covers h b ((Branch.repliers branches).count h) w
      (b.mergedOn branches merge) w := by
  refine .of_le ⟨rfl, rfl, rfl⟩ ?_ rfl
  have hle := count_absorb_le (h := h) b branches
  simp only [mergedOn, continueFrom, repliers, List.count_append] at hle ⊢
  split
  · rw [Registry.count_relocateToEnd]
    exact hle
  · rw [Registry.repliers_add_channel]
    exact hle

theorem covers_absorbMerged {branches : List Branch} {merge : Option Channel}
    (hy : Yields (b.absorbMerged branches merge) w b' w') :
    Covers h b ((Branch.repliers branches).count h) w b' w' := by
  rcases of_yields_absorbMerged hy with ⟨-, rfl, rfl⟩ | ⟨m, -, hb⟩
  · exact covers_absorb branches rfl
  · exact (covers_mergedOn branches m).trans (covers_bridge hb)

/-- What was paid for while the branches were changed adds to the account of
the call that takes them in. -/
theorem Covers.of_paid {before after : List Branch}
    (hc : Covers h b ((Branch.repliers after).count h) w' b' w'')
    (hp : Branch.Paid h b before w after w') :
    Covers h b ((Branch.repliers before).count h) w b' w'' := by
  refine ⟨hc.same, ?_⟩
  have hcount := hc.count
  unfold Branch.Paid at hp
  omega

theorem Routed.covers {branches : List Branch} (hy : b.Routed branches w b' w') :
    Covers h b ((Branch.repliers branches).count h) w b' w' := by
  obtain ⟨default, r, w₁, spec, b₁, w₂, hr, ha, hm⟩ := hy
  have hattach : Covers h b 0 w₁ b₁ w₂ := (covers_attach ha).of_claims rfl rfl
  have hall := hattach.trans (covers_absorbMerged hm)
  rw [Nat.zero_add] at hall
  exact hall.of_paid (paid_reconcile hr)

theorem covers_openFanOut {c : Channel} (hy : Yields (b.openFanOut c) w b' w') :
    Covers h b 0 w b' w' := by
  rcases of_yields_openFanOut hy with ⟨-, rfl, rfl⟩ | ⟨-, hc⟩
  · exact .refl rfl
  · exact covers_channel hc

theorem covers_finishFanOut {subscribers : List Branch}
    (hy : Yields (b.finishFanOut subscribers) w b' w') :
    Covers h b ((Branch.repliers subscribers).count h) w b' w' := by
  obtain ⟨closed, hl, rfl⟩ := of_yields_finishFanOut hy
  exact (covers_absorb closed rfl).of_paid
    (Branch.paid_all Branch.paid_leaveOpen hl)

theorem covers_finishTap {c : Channel} {tap : WireTap} {flow : List Branch}
    (hy : Yields (b.finishTap c tap flow) w b' w') :
    Covers h b ((Branch.repliers flow).count h) w b' w' := by
  obtain ⟨closed, w₁, hl, rfl, rfl⟩ := of_yields_finishTap hy
  have hpaid : Branch.Paid h b flow w closed w₁ :=
    Branch.paid_all Branch.paid_leaveOpen hl
  refine Covers.of_paid (.of_le ⟨rfl, rfl, rfl⟩ ?_ rfl) hpaid
  simp only [repliers, Branch.repliers, List.flatMap_append, List.flatMap_map,
    List.count_append]
  omega

theorem covers_registerScatter {scattering : Scattering} {branches : List Branch}
    (hy : Yields (b.registerScatter scattering branches) w b' w') :
    Covers h b ((Branch.repliers branches).count h) w b' w' := by
  obtain ⟨b₁, rfl, hb⟩ := of_yields_registerScatter hy
  have hlist : Covers h b 0 w b₁ w' := by
    rcases hb with ⟨-, rfl, rfl⟩ | ⟨spec, -, ha⟩
    · exact .of_le ⟨rfl, rfl, rfl⟩ (by simp [repliers]) rfl
    · have hopen : Covers h b 0 w { b with
          registry := b.registry.add (.channel scattering.channel)
          cursor :=
            { b.cursor with channel := some (.channel scattering.channel) } }
          { w with nextHandler := w.nextHandler + 1 } :=
        .of_le ⟨rfl, rfl, rfl⟩ (by simp [repliers]) rfl
      exact hopen.trans (covers_attach ha)
  have hall := hlist.trans (covers_absorb branches rfl)
  rwa [Nat.zero_add] at hall

theorem covers_finishScatterGather {plan : ScatterGatherPlan} {release : Release}
    {scattering : Scattering} {gather : Channel}
    (hy : Yields (b.finishScatterGather plan release scattering gather) w b' w') :
    Covers h b ((Branch.repliers scattering.branches).count h) w b' w' := by
  obtain ⟨branches, w₁, spec, b₁, w₂, b₂, w₃, gatherer, b₃, hc, ha, hs, hg, rfl⟩ :=
    of_yields_finishScatterGather hy
  have hattach : Covers h b 0 w₁ b₁ w₂ := (covers_attach ha).of_claims rfl rfl
  have hreset :
      Covers h b₁ 0 w₂ { b₁ with
        cursor := { b₁.cursor with tail := none, pending := none } } w₂ :=
    .of_le ⟨rfl, rfl, rfl⟩ (Nat.le_refl _) rfl
  have hgather : Covers h b₂ 0 w₃ (continueFrom { b₂ with
      registry := b₂.registry.add (.channel gather) } (.channel gather)) w₃ :=
    .of_le ⟨rfl, rfl, rfl⟩ (by simp [repliers, continueFrom]) rfl
  have hlast : Covers h b₃ 0 w' { b₃ with cursor := { b₃.cursor with
      tail := b₁.cursor.tail, pending := b₁.cursor.pending, channel :=
        none } } w' :=
    .of_le ⟨rfl, rfl, rfl⟩ (Nat.le_refl _) rfl
  have hall := hattach.trans <| hreset.trans <|
    (covers_registerScatter (h := h) hs).trans <| hgather.trans <|
    (covers_attach hg).trans hlast
  simp only [Nat.zero_add, Nat.add_zero] at hall
  exact hall.of_paid (Branch.paid_all Branch.paid_converge hc)

end Builder

end FlowAssembly
