import Mathlib.Data.List.Nodup
import FlowAssembly.Workbench
import FlowAssembly.Proofs.Frames

/-!
# Single wiring

Any number of flows may be under assembly at once, in any number of sessions,
and their calls may interleave in any order, fail, and drop their builders.
Two rules are asked of whoever makes the calls (`Floor.Disciplined`): no two
flows alive at the same time have the same id, and no one releases the claims
of a live flow by hand. If the subflows of every call also go on with the
builder that they were handed (`Move.Contained`), a reply producer that a live
flow has wired is claimed for that flow in its session, and no other endpoint
of the session has it.

The two rules are not enough by themselves. A branch may end in a builder that
its subflow made for itself. The parent takes over what that builder has
registered, but not what it has claimed: the claims are in the other builder's
session, and are released as it is dropped.

The invariant is that the claims of a live flow cover its reply producers,
with multiplicity. It survives a move because the flow that moves pays for
what it wires (`Step.covers`) and spares the claims of all others
(`Step.leaves_spares`).
-/

namespace FlowAssembly

open Assembly

/-- A flow that is alive: under assembly, or finished and still there. -/
structure LiveFlow where
  session : SessionId
  flowId : String
  /-- The handlers of its endpoints that reply. -/
  repliers : List HandlerKey

/-- A builder as a live flow. -/
def Builder.live (b : Builder) : LiveFlow :=
  ⟨b.session, b.flowId, b.repliers⟩

/-- A bench, with the session that each finished flow on it was finished in. -/
structure Floor where
  bench : Workbench
  origin : String → SessionId

/-- What may happen on a floor. -/
inductive Move where
  /-- A flow is started under a name. -/
  | start (name : String) (how : Start)
  /-- A call of a builder, which may fail. -/
  | perform (name : String) (step : Step)
  /-- A builder is finished, which may fail. -/
  | finish (name graphName : String)
  /-- A builder is dropped. -/
  | drop (name : String)
  /-- A finished flow is dropped. -/
  | forget (graphName : String)
  /-- The claims on handlers that are gone are dropped. -/
  | settle
  /-- A handler is claimed by hand. -/
  | claim (session : SessionId) (handler : Handler) (owner : String)
  /-- The claims of a flow are released by hand. -/
  | release (session : SessionId) (owner : String)
  /-- Anything else on the bench, or in the workshop, becomes what it is on
  the given bench. -/
  | other (bench : Workbench)

/-- A call's subflows go on, at any depth, with the builder that they were
handed. -/
def Move.Contained : Move → Prop
  | .perform _ step => step.Contained
  | _ => True

instance (m : Move) : Decidable m.Contained := by
  cases m <;> simp only [Move.Contained] <;> infer_instance

namespace Floor

/-- The flows that are alive. -/
def flows (s : Floor) : List LiveFlow :=
  s.bench.builders.values.map Builder.live ++ s.bench.graphs.pairs.map fun known =>
    ⟨s.origin known.1, known.2.flowId, known.2.repliers⟩

/-- No two flows that are alive have the same id. -/
def Distinct (s : Floor) : Prop :=
  (s.flows.map LiveFlow.flowId).Nodup

instance (s : Floor) : Decidable s.Distinct :=
  inferInstanceAs (Decidable (List.Nodup _))

/-- The floor after a move. -/
def after (s : Floor) : Move → Floor
  | .start name how =>
      match s.bench.run how.make with
      | (.ok b, bench) => { s with bench := bench.putBuilder name b }
      | (.error _, bench) => { s with bench }
  | .perform name step => { s with bench := (s.bench.perform name step).2 }
  | .finish name graphName =>
      match s.bench.builders.get? name, s.bench.finish name graphName with
      | some b, (.ok _, bench) =>
          ⟨bench, fun known => if known = graphName then b.session
            else s.origin known⟩
      | _, (_, bench) => { s with bench }
  | .drop name => { s with bench := s.bench.dropBuilder name }
  | .forget graphName =>
      { s with bench := { s.bench with graphs := s.bench.graphs.erase graphName } }
  | .settle => { s with bench := s.bench.settle }
  | .claim session handler owner =>
      { s with bench := (s.bench.run (Assembly.claim session handler owner)).2 }
  | .release session owner =>
      { s with bench := (s.bench.run (Assembly.release session owner)).2 }
  | .other bench =>
      { s with
        bench := { bench with
          workshop := { bench.workshop with claims := s.bench.workshop.claims }
          builders := s.bench.builders
          graphs := s.bench.graphs } }

/-- Claims are released by hand only for flows that are not alive. -/
def Allows (s : Floor) : Move → Prop
  | .release session owner =>
      ∀ flow ∈ s.flows, (flow.session, flow.flowId) ≠ (session, owner)
  | _ => True

instance (s : Floor) (m : Move) : Decidable (s.Allows m) := by
  cases m <;> simp only [Allows] <;> infer_instance

/-- The floor after moves in order. -/
def run : Floor → List Move → Floor
  | s, [] => s
  | s, m :: rest => run (s.after m) rest

/-- Every move was allowed, and live flows always had ids of their own. -/
def Disciplined : Floor → List Move → Prop
  | _, [] => True
  | s, m :: rest => s.Allows m ∧ (s.after m).Distinct ∧ Disciplined (s.after m) rest

instance : (s : Floor) → (moves : List Move) → Decidable (s.Disciplined moves)
  | _, [] => inferInstanceAs (Decidable True)
  | s, m :: rest =>
      have := instDecidableDisciplined (s.after m) rest
      inferInstanceAs (Decidable (s.Allows m ∧ (s.after m).Distinct ∧
          Disciplined (s.after m) rest))

/-- An empty bench, in a workshop that has made nothing. -/
def bare (firstComponent firstHandler : Nat) : Floor where
  bench := { workshop := .start firstComponent firstHandler }
  origin := fun _ => ⟨0⟩

end Floor

/-! ## Flows that can pay -/

/-- The claims of a flow cover its reply producers, with multiplicity. -/
def LiveFlow.Covered (f : LiveFlow) (claims : ClaimBook) : Prop :=
  ∀ k, f.repliers.count k ≤ claims.owned f.session f.flowId k

theorem LiveFlow.Covered.of_spares {f : LiveFlow} {owner : String} {w w' : Workshop}
    (hf : f.Covered w.claims) (hw : Workshop.Spares owner w w')
    (hne : f.flowId ≠ owner) :
    f.Covered w'.claims :=
  fun k => Nat.le_trans (hf k) (hw.others f.session f.flowId k hne)

/-- A flow that could pay before a call of its builder can pay after it, under
its new id and session too. -/
theorem Step.covered_of_yields {s : Step} {b b' : Builder} {w w' : Workshop}
    (hc : s.Contained) (hn : b.nested = false) (hb : b.live.Covered w.claims)
    (hy : Yields (s.assemble b) w b' w') :
    b'.nested = false ∧ b'.live.Covered w'.claims := by
  have hinside : ∀ k, ∀ flow ∈ s.flows, PaysWithin k flow :=
    fun k flow hm => paysWithin_of_contained (hc.flow hm)
  cases hs : s.changesFlow with
  | false =>
      have hcov : ∀ k, b.Covers k 0 w b' w' :=
        fun k => covers (hinside k) (.inr hs) hy
      have hsame := Builder.SameFlow.of_covers hcov
      refine ⟨hsame.nested.trans hn, fun k => ?_⟩
      have hcount := (hcov k).count
      have hpaid := hb k
      have howned := Workshop.owned_congr hsame w' k
      simp only [Builder.live, Workshop.owned] at hpaid hcount howned ⊢
      omega
  | true =>
      cases s with
      | channel | endpoint | wireTap | intercept | route | routeToRecipients
      | publishSubscribe | scatterGather
      | faulty => cases hs
      | withId id =>
          simp only [assemble, Builder.yields_guarded, Builder.withId, hn,
            Bool.false_eq_true, if_false, yields_bind, yields_updateClaims,
            yields_pure] at hy
          obtain ⟨_, _, ⟨claims, hclaims, rfl⟩, rfl, rfl⟩ := hy
          cases hclaims
          exact ⟨rfl, fun k => Nat.le_trans (hb k) (ClaimBook.owned_le_rename k)⟩
      | withSession session =>
          simp only [assemble, Builder.yields_guarded, Builder.withSession, hn,
            Bool.false_eq_true, if_false, yields_bind, yields_transferClaims,
            yields_pure] at hy
          obtain ⟨_, _, ⟨⟨claims, hclaims, rfl⟩, -⟩, rfl, rfl⟩ := hy
          exact ⟨rfl,
            fun k => Nat.le_trans (hb k) (ClaimBook.owned_le_transfer hclaims k)⟩
      | fresh =>
          simp only [assemble, Builder.new, Builder.withConfig, yields_bind,
            yields_pure] at hy
          obtain ⟨_, _, _, _, _, _, _, _, _, rfl, rfl⟩ := hy
          exact ⟨rfl, fun k => Nat.zero_le _⟩

theorem Start.make_leaves (how : Start) : how.make.Leaves Workshop.Supplied := by
  match how with
  | .empty config => exact Builder.withConfig_leaves config
  | .channel _ | .name _ =>
      exact .bind (Builder.withConfig_leaves {}) fun _ => .pure _
  | .source _ =>
      exact .bind (Builder.withConfig_leaves {}) fun _ =>
        .bind newComponentKey_leaves fun _ => .pure _

/-- A flow that was just started has wired nothing. -/
theorem Start.covered_of_yields {how : Start} {b : Builder} {w w' : Workshop}
    (hy : Yields how.make w b w') :
    b.nested = false ∧ ∀ claims, b.live.Covered claims := by
  have hnew : ∀ {config : Config} {b : Builder} {w w' : Workshop},
      Yields (Builder.withConfig config) w b w' →
      b.nested = false ∧ b.registry = .empty ∧ b.cursor.deferred = [] := by
    intro config b w w' hy
    simp only [Builder.withConfig, yields_bind, yields_newFlowId, yields_newSession,
      yields_pure] at hy
    obtain ⟨_, _, ⟨rfl, rfl⟩, _, _, ⟨rfl, rfl⟩, rfl, rfl⟩ := hy
    exact ⟨rfl, rfl, rfl⟩
  have hnone : ∀ {b : Builder}, b.registry.repliers = [] → b.cursor.deferred = [] →
      ∀ claims, b.live.Covered claims := by
    intro b hr hd claims k
    simp [Builder.live, Builder.repliers, hr, hd]
  cases how with
  | empty config =>
      obtain ⟨hn, hr, hd⟩ := hnew hy
      exact ⟨hn, hnone (by rw [hr]; rfl) hd⟩
  | channel c =>
      simp only [make, Builder.fromChannel, yields_bind, yields_pure] at hy
      obtain ⟨b₀, w₀, hy, rfl, rfl⟩ := hy
      obtain ⟨hn, hr, -⟩ := hnew hy
      exact ⟨hn, hnone (by simp [hr]) rfl⟩
  | name n =>
      simp only [make, Builder.fromChannelName, yields_bind, yields_pure] at hy
      obtain ⟨b₀, w₀, hy, rfl, rfl⟩ := hy
      obtain ⟨hn, hr, -⟩ := hnew hy
      exact ⟨hn, hnone (by rw [hr]; rfl) rfl⟩
  | source spec =>
      simp only [make, Builder.fromSource, yields_bind, yields_newComponentKey,
        yields_pure] at hy
      obtain ⟨b₀, w₀, hy, _, _, ⟨rfl, rfl⟩, rfl, rfl⟩ := hy
      obtain ⟨hn, hr, -⟩ := hnew hy
      refine ⟨hn, hnone ?_ rfl⟩
      rw [hr, Registry.add, Registry.repliers_register]
      rfl

/-- A flow that could pay before it was finished can pay afterwards. -/
theorem Builder.covered_of_finish {b : Builder} {g : FlowGraph} {w w' : Workshop}
    (hb : b.live.Covered w.claims) (hy : Yields b.finish w g w') :
    LiveFlow.Covered ⟨b.session, g.flowId, g.repliers⟩ w'.claims := by
  intro k
  obtain ⟨hflow, hcount⟩ := count_finish_le (h := k) hy
  have hpaid := hb k
  simp only [live, Workshop.owned] at hpaid hcount
  simp only [hflow]
  omega

/-- What replies in a live flow is held by the bench. -/
theorem Workbench.mem_held_of_repliers {w : Workbench} {k : HandlerKey}
    (h : (∃ b ∈ w.builders.values, k ∈ b.repliers) ∨
      ∃ g ∈ w.graphs.values, k ∈ g.repliers) : k ∈ w.held := by
  have hcomponent : ∀ {c : Component}, c.replier? = some k → k ∈ c.held := by
    intro c hc
    cases c with
    | channel c => cases hc
    | source s => cases hc
    | endpoint e =>
        simp only [Component.replier?, Option.ite_none_right_eq_some,
          Option.some.injEq] at hc
        simp [Component.held, Handler.held, hc.2]
  have hregistry : ∀ {r : Registry}, k ∈ r.repliers → k ∈ r.held := by
    intro r hr
    obtain ⟨c, hm, hc⟩ := List.mem_filterMap.1 hr
    exact List.mem_flatMap.2 ⟨c, hm, hcomponent hc⟩
  unfold held
  rcases h with ⟨b, hm, hb⟩ | ⟨g, hm, hg⟩
  · have hheld : k ∈ b.held := by
      rw [Builder.repliers, List.mem_append] at hb
      rw [Builder.held, List.mem_append]
      rcases hb with hb | hb
      · exact .inl (hregistry hb)
      · obtain ⟨r, hr, hk⟩ := List.mem_flatMap.1 hb
        exact .inr (List.mem_flatMap.2 ⟨r, hr, hregistry hk⟩)
    have hbuilders := List.mem_flatMap.2 ⟨b, hm, hheld⟩
    simp [hbuilders]
  · have hheld : k ∈ g.held := by
      obtain ⟨c, hc, hk⟩ := List.mem_filterMap.1 hg
      exact List.mem_flatMap.2 ⟨c, hc, hcomponent hk⟩
    have hgraphs := List.mem_flatMap.2 ⟨g, hm, hheld⟩
    simp [hgraphs]

/-! ## The invariant -/

/-- No handler is claimed twice in a session, every live flow can pay for its
reply producers, and a builder on the bench answers for its own claims. -/
structure Floor.Sound (s : Floor) : Prop where
  single : s.bench.workshop.claims.Single
  covered : ∀ flow ∈ s.flows, flow.Covered s.bench.workshop.claims
  own : ∀ b ∈ s.bench.builders.values, b.nested = false

theorem Names.mem_pairs_erase {n : Names α} {name : String} {known : String × α} :
    known ∈ (n.erase name).pairs ↔ known ∈ n.pairs ∧ known.1 ≠ name := by
  simp [erase]

namespace Floor

variable {s : Floor}

theorem mem_flows {flow : LiveFlow} :
    flow ∈ s.flows ↔ (∃ known ∈ s.bench.builders.pairs, known.2.live = flow) ∨
      ∃ known ∈ s.bench.graphs.pairs,
        ⟨s.origin known.1, known.2.flowId, known.2.repliers⟩ = flow := by
  simp [flows, Names.values]

/-- The floor while the builder of a name is off the bench. -/
def without (s : Floor) (name : String) : Floor :=
  { s with bench := { s.bench with builders := s.bench.builders.erase name } }

theorem mem_flows_of_without {name : String} {flow : LiveFlow}
    (hm : flow ∈ (s.without name).flows) :
    flow ∈ s.flows := by
  rcases mem_flows.1 hm with ⟨known, hk, rfl⟩ | hg
  · exact mem_flows.2 (.inl ⟨known, (Names.mem_pairs_erase.1 hk).1, rfl⟩)
  · exact mem_flows.2 (.inr hg)

/-- While a builder is off the bench, no live flow there has its id. -/
theorem ne_of_mem_without (hd : s.Distinct) {name : String} {b : Builder}
    (hb : s.bench.builders.get? name = some b) {flow : LiveFlow}
    (hm : flow ∈ (s.without name).flows) :
    flow.flowId ≠ b.flowId := by
  have hb := mem_of_lookup hb
  unfold Distinct flows at hd
  rw [List.map_append, List.nodup_append] at hd
  obtain ⟨hbuilders, -, hapart⟩ := hd
  have hid :
      b.flowId ∈
        (s.bench.builders.values.map Builder.live).map LiveFlow.flowId := by
    simp only [Names.values, List.map_map, List.mem_map]
    exact ⟨_, hb, rfl⟩
  intro heq
  rcases mem_flows.1 hm with ⟨known, hk, rfl⟩ | ⟨known, hk, rfl⟩
  · obtain ⟨hk, hne⟩ := Names.mem_pairs_erase.1 hk
    simp only [Names.values, List.map_map] at hbuilders
    have hsame : known = (name, b) := List.inj_on_of_nodup_map hbuilders hk hb heq
    exact hne (congrArg Prod.fst hsame)
  · refine hapart _ hid _ ?_ heq.symm
    simp only [List.map_map, List.mem_map]
    exact ⟨known, hk, rfl⟩

/-- Where a builder is taken off the bench and its flow's claims are worked
on, the others stay sound. -/
theorem Sound.without (hs : s.Sound) (hd : s.Distinct) {name : String} {b : Builder}
    (hb : s.bench.builders.get? name = some b) {w' : Workshop}
    (hw : Workshop.Spares b.flowId s.bench.workshop w') :
    Sound { s with
      bench := { s.bench with
          workshop := w', builders := s.bench.builders.erase name } } where
  single := hw.single hs.single
  covered flow hm :=
    (hs.covered flow
      (mem_flows_of_without (show flow ∈ (s.without name).flows from hm))).of_spares
      hw (ne_of_mem_without hd hb hm)
  own b' hm := by
    obtain ⟨known, hk, rfl⟩ := List.mem_map.1 hm
    exact hs.own _ (List.mem_map.2 ⟨known, (Names.mem_pairs_erase.1 hk).1, rfl⟩)

/-- A builder may be put where none of its name is, if its flow can pay. -/
theorem Sound.put (hs : s.Sound) (name : String) {b : Builder}
    (hn : b.nested = false) (hb : b.live.Covered s.bench.workshop.claims) :
    Sound { s with
      bench := { s.bench with builders := s.bench.builders.put name b } } where
  single := hs.single
  covered flow hm := by
    rcases mem_flows.1 hm with ⟨known, hk, rfl⟩ | hg
    · rcases List.mem_cons.1 hk with rfl | hk
      · exact hb
      · exact hs.covered _
          (mem_flows.2 (.inl ⟨known, (List.mem_filter.1 hk).1, rfl⟩))
    · exact hs.covered _ (mem_flows.2 (.inr hg))
  own b' hm := by
    obtain ⟨known, hk, rfl⟩ := List.mem_map.1 hm
    rcases List.mem_cons.1 hk with rfl | hk
    · exact hn
    · exact hs.own _ (List.mem_map.2 ⟨known, (List.mem_filter.1 hk).1, rfl⟩)

/-- Claims may change as long as no live flow loses any that it needs. -/
theorem Sound.of_claims (hs : s.Sound) {w' : Workshop} (hw : w'.claims.Single)
    (hc : ∀ flow ∈ s.flows, ∀ k ∈ flow.repliers,
      s.bench.workshop.claims.owned flow.session flow.flowId k ≤
      w'.claims.owned flow.session flow.flowId k) :
    Sound { s with bench := { s.bench with workshop := w' } } where
  single := hw
  covered flow hm k := by
    by_cases hk : k ∈ flow.repliers
    · exact Nat.le_trans (hs.covered flow hm k) (hc flow hm k hk)
    · rw [List.count_eq_zero_of_not_mem hk]
      exact Nat.zero_le _
  own := hs.own

/-! ## Moves -/

theorem Workbench.run_eq (bench : Workbench) {α : Type} (step : Assembly α) :
    bench.run step = ((step.outcome bench.workshop).1,
      { bench with workshop := (step.outcome bench.workshop).2 }) :=
  rfl

theorem Sound.dropBuilder (hs : s.Sound) (hd : s.Distinct) (name : String) :
    Sound { s with bench := s.bench.dropBuilder name } := by
  unfold Workbench.dropBuilder
  split
  · next b hb => exact hs.without hd hb (b.discard_leaves s.bench.workshop)
  · exact hs

theorem Sound.start (hs : s.Sound) (hd : s.Distinct) (name : String) (how : Start) :
    (s.after (.start name how)).Sound := by
  have hclaims := (how.make_leaves s.bench.workshop).claims
  have hstarted : Sound { s with bench :=
      { s.bench with workshop := (how.make.outcome s.bench.workshop).2 } } := by
    refine hs.of_claims ?_ fun flow _ k _ => ?_
    · rw [hclaims]
      exact hs.single
    · exact Nat.le_of_eq (by rw [hclaims])
  rw [after, Workbench.run_eq]
  match ho : how.make.outcome s.bench.workshop with
  | (.ok b, w') =>
      rw [ho] at hstarted
      obtain ⟨hn, hb⟩ := Start.covered_of_yields ho
      exact (hstarted.dropBuilder hd name).put name hn (hb _)
  | (.error cause, w') =>
      rw [ho] at hstarted
      exact hstarted

theorem Sound.perform (hs : s.Sound) (hd : s.Distinct) (name : String) {step : Step}
    (hc : step.Contained) :
    (s.after (.perform name step)).Sound := by
  unfold after Workbench.perform
  dsimp only
  split
  · exact hs
  · next b hb =>
      rw [Workbench.run_eq]
      have hw := step.leaves_spares hc b s.bench.workshop
      match ho : (step.assemble b).outcome s.bench.workshop with
      | (.ok b', w') =>
          rw [ho] at hw
          have hlive : b ∈ s.bench.builders.values :=
            List.mem_map.2 ⟨_, mem_of_lookup hb, rfl⟩
          have hpays : b.live.Covered s.bench.workshop.claims :=
            hs.covered _ (mem_flows.2 (.inl ⟨_, mem_of_lookup hb, rfl⟩))
          obtain ⟨hn, hcov⟩ := Step.covered_of_yields hc (hs.own b hlive) hpays ho
          have hput := (hs.without hd hb hw).put name hn hcov
          exact hput
      | (.error cause, w') =>
          rw [ho] at hw
          exact hs.without hd hb hw

theorem Sound.finish (hs : s.Sound) (hd : s.Distinct) (name graphName : String) :
    (s.after (.finish name graphName)).Sound := by
  unfold after Workbench.finish
  dsimp only
  match hb : s.bench.builders.get? name with
  | none => exact hs
  | some b =>
      dsimp only
      rw [Workbench.run_eq]
      have hw := b.finish_leaves s.bench.workshop
      match ho : b.finish.outcome s.bench.workshop with
      | (.error cause, w') =>
          rw [ho] at hw
          exact hs.without hd hb hw
      | (.ok g, w') =>
          rw [ho] at hw
          have hrest := hs.without hd hb hw
          have hpays : b.live.Covered s.bench.workshop.claims :=
            hs.covered _ (mem_flows.2 (.inl ⟨_, mem_of_lookup hb, rfl⟩))
          refine ⟨hrest.single, fun flow hm => ?_, hrest.own⟩
          rcases mem_flows.1 hm with hk | ⟨known, hk, rfl⟩
          · exact hrest.covered _ (mem_flows.2 (.inl hk))
          · rcases List.mem_cons.1 hk with rfl | hk
            · have hcov := Builder.covered_of_finish hpays ho
              simpa using hcov
            · obtain ⟨hk, hne⟩ := List.mem_filter.1 hk
              have hne : known.1 ≠ graphName := by simpa using hne
              have hcov := hrest.covered _ (mem_flows.2 (.inr ⟨known, hk, rfl⟩))
              simpa [hne] using hcov

theorem Sound.forget (hs : s.Sound) (graphName : String) :
    (s.after (.forget graphName)).Sound := by
  refine ⟨hs.single, fun flow hm => ?_, hs.own⟩
  rcases mem_flows.1 hm with hk | ⟨known, hk, rfl⟩
  · exact hs.covered _ (mem_flows.2 (.inl hk))
  · exact hs.covered _
      (mem_flows.2 (.inr ⟨known, (Names.mem_pairs_erase.1 hk).1, rfl⟩))

theorem Sound.settle (hs : s.Sound) : (s.after .settle).Sound := by
  refine hs.of_claims (hs.single.retain _) fun flow hm k hk => ?_
  have hheld : k ∈ s.bench.held := by
    refine Workbench.mem_held_of_repliers ?_
    rcases mem_flows.1 hm with ⟨known, hp, rfl⟩ | ⟨known, hp, rfl⟩
    · exact .inl ⟨_, List.mem_map.2 ⟨known, hp, rfl⟩, hk⟩
    · exact .inr ⟨_, List.mem_map.2 ⟨known, hp, rfl⟩, hk⟩
  exact Nat.le_of_eq
    (ClaimBook.owned_retain_of_mem hheld flow.session flow.flowId).symm

/-- A claim made by hand takes nothing from any flow. -/
theorem Sound.claim (hs : s.Sound) (session : SessionId) (handler : Handler)
    (owner : String) :
    (s.after (.claim session handler owner)).Sound := by
  let Grows (w w' : Workshop) : Prop := (w.claims.Single → w'.claims.Single) ∧
    ∀ session owner k, w.claims.owned session owner k ≤
      w'.claims.owned session owner k
  have : Std.Refl Grows := ⟨fun _ => ⟨id, fun _ _ _ => Nat.le_refl _⟩⟩
  have hgrows : (Assembly.claim session handler owner).Leaves Grows :=
    updateClaims_leaves fun h => ⟨ClaimBook.single_of_claim h, fun s o k => by
      rw [ClaimBook.owned_of_claim h]
      omega⟩
  have hw := hgrows s.bench.workshop
  exact hs.of_claims (hw.1 hs.single) fun flow _ k _ =>
    hw.2 flow.session flow.flowId k

theorem Sound.release (hs : s.Sound) {session : SessionId} {owner : String}
    (ha : s.Allows (.release session owner)) :
    (s.after (.release session owner)).Sound :=
  hs.of_claims (hs.single.release session owner) fun flow hm k _ =>
    Nat.le_of_eq (ClaimBook.owned_release_of_ne (ha flow hm) k).symm

theorem Sound.after (hs : s.Sound) (hd : s.Distinct) {m : Move} (hc : m.Contained)
    (ha : s.Allows m) :
    (s.after m).Sound := by
  match m with
  | .start name how => exact hs.start hd name how
  | .perform name step => exact hs.perform hd name hc
  | .finish name graphName => exact hs.finish hd name graphName
  | .drop name => exact hs.dropBuilder hd name
  | .forget graphName => exact hs.forget graphName
  | .settle => exact hs.settle
  | .claim session handler owner => exact hs.claim session handler owner
  | .release session owner => exact hs.release ha
  | .other bench => exact ⟨hs.single, hs.covered, hs.own⟩

theorem Sound.run (hs : s.Sound) (hd : s.Distinct) {moves : List Move}
    (hc : ∀ m ∈ moves, m.Contained) (hm : s.Disciplined moves) :
    (s.run moves).Sound ∧ (s.run moves).Distinct := by
  induction moves generalizing s with
  | nil => exact ⟨hs, hd⟩
  | cons m rest ih =>
      obtain ⟨ha, hnext, hrest⟩ := hm
      obtain ⟨hc, hcrest⟩ := List.forall_mem_cons.1 hc
      exact ih (hs.after hd hc ha) hnext hcrest hrest

theorem sound_bare (firstComponent firstHandler : Nat) :
    (bare firstComponent firstHandler).Sound where
  single _ _ := Nat.zero_le _
  covered _ hm := by cases hm
  own _ hm := by cases hm

/-- On a sound floor, what replies in a live flow is claimed for it. -/
theorem Sound.find? (hs : s.Sound) {flow : LiveFlow} (hm : flow ∈ s.flows)
    {k : HandlerKey} (hk : k ∈ flow.repliers) :
    ∃ c, s.bench.workshop.claims.find? flow.session k = some c ∧
      c.owner = flow.flowId := by
  refine hs.single.find?_of_owned (Nat.lt_of_lt_of_le ?_ (hs.covered flow hm k))
  exact List.count_pos_iff.2 hk

/-- On a sound floor, no two endpoints of a session share a handler that
replies. -/
theorem Sound.nodup (hs : s.Sound) (hd : s.Distinct) (session : SessionId) :
    ((s.flows.filter fun flow => flow.session = session).flatMap
      LiveFlow.repliers).Nodup := by
  rw [List.nodup_flatMap]
  constructor
  · intro flow hm
    rw [List.nodup_iff_count_le_one]
    intro k
    have hcov := hs.covered flow (List.mem_filter.1 hm).1 k
    have hle := s.bench.workshop.claims.owned_le_claimed flow.session flow.flowId k
    have hone := hs.single flow.session k
    omega
  · have hids : s.flows.Pairwise fun f f' => f.flowId ≠ f'.flowId :=
      List.pairwise_map.1 hd
    refine (hids.filter _).imp_of_mem fun {f f'} hf hf' hne k hk hk' => hne ?_
    obtain ⟨hf, hsession⟩ := List.mem_filter.1 hf
    obtain ⟨hf', hsession'⟩ := List.mem_filter.1 hf'
    obtain ⟨c, hc, ho⟩ := hs.find? hf hk
    obtain ⟨c', hc', ho'⟩ := hs.find? hf' hk'
    have hsame : f.session = f'.session := by
      simp only [decide_eq_true_eq] at hsession hsession'
      rw [hsession, hsession']
    rw [hsame, hc'] at hc
    cases hc
    rw [← ho, ← ho']

/-- After any moves that keep the two rules, if subflows go on with the
builder that they were handed, a reply producer in an endpoint of a live flow
is claimed for that flow in its session, and no other endpoint of any live
flow of the session has the same handler. -/
theorem single_wiring (firstComponent firstHandler : Nat) {moves : List Move}
    (hc : ∀ m ∈ moves, m.Contained)
    (hm : (bare firstComponent firstHandler).Disciplined moves) :
    (∀ flow ∈ ((bare firstComponent firstHandler).run moves).flows,
      ∀ k ∈ flow.repliers, ∃ c,
        ((bare firstComponent firstHandler).run moves).bench.workshop.claims.find?
          flow.session k = some c ∧ c.owner = flow.flowId) ∧
    ∀ session,
      ((((bare firstComponent firstHandler).run moves).flows.filter fun flow =>
        flow.session = session).flatMap LiveFlow.repliers).Nodup := by
  have hstart : (bare firstComponent firstHandler).Distinct := List.nodup_nil
  obtain ⟨hs, hd⟩ := (sound_bare firstComponent firstHandler).run hstart hc hm
  exact ⟨fun flow hf k hk => hs.find? hf hk, hs.nodup hd⟩

/-- A flow that is renamed, moved into the session of another and finished
there; a third flow in that session is refused its handler and dropped. -/
theorem single_wiring_two_flows :
    let tap : Step := .wireTap {} (.flow [.handle (.existing ⟨⟨7⟩, .bridge⟩)])
    let moves : List Move :=
      [.start "a" (.empty {}), .perform "a" (.handle (.existing ⟨⟨5⟩, .bridge⟩)),
        .start "b" (.empty {}), .perform "a" (.withId "moved"),
        .perform "a" (.withSession ⟨2⟩), .perform "b" tap, .finish "a" "g",
        .release ⟨2⟩ "other", .settle, .start "c" (.name "in"),
        .perform "c" (.withSession ⟨2⟩),
        .perform "c" (.handle (.existing ⟨⟨5⟩, .bridge⟩))]
    (∀ m ∈ moves, m.Contained) ∧ (bare 1 1).Disciplined moves ∧
      ((bare 1 1).run moves).flows.map (fun flow => (flow.session, flow.repliers)) =
        [(⟨2⟩, [⟨7⟩]), (⟨2⟩, [⟨5⟩])] ∧
      ∀ flow ∈ ((bare 1 1).run moves).flows, ∀ k ∈ flow.repliers, ∃ c,
        ((bare 1 1).run moves).bench.workshop.claims.find? flow.session k = some c ∧
          c.owner = flow.flowId := by
  intro tap moves
  have hc : ∀ m ∈ moves, m.Contained := by decide +kernel
  have hm : (bare 1 1).Disciplined moves := by decide +kernel
  exact ⟨hc, hm, by decide +kernel, (single_wiring 1 1 hc hm).1⟩

/-- A branch that wires a handler in a builder of its own, in another session.
The handler comes to stand in the flow with no claim on it in the flow's
session, and the flow's next call wires it a second time. -/
theorem wired_without_claim :
    let wires : Step := .handle (.existing ⟨⟨5⟩, .bridge⟩)
    let moves : List Move :=
      [.start "a" (.empty {}), .perform "a" (.withSession ⟨9⟩),
        .perform "a"
          (.route { strategy := .header "kind" } [("a", .flow [.fresh, wires])])]
    let s := (bare 1 10).run moves
    (bare 1 10).Disciplined (moves ++ [.perform "a" wires]) ∧
      s.flows.map (fun flow => (flow.session, flow.repliers)) =
        [(⟨9⟩, [⟨5⟩, ⟨11⟩])] ∧
      s.bench.workshop.claims.find? ⟨9⟩ ⟨5⟩ = none ∧
      (s.after (.perform "a" wires)).flows.map
          (fun flow => (flow.session, flow.repliers)) =
        [(⟨9⟩, [⟨5⟩, ⟨11⟩, ⟨5⟩])] := by
  decide +kernel

end Floor

end FlowAssembly
