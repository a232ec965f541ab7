import FlowAssembly.Proofs.Calls

/-!
# What a flow is finished as

A call is one of many. Behind it its builder goes on, and if the builder is
nested in a call of another then its branch is taken over, perhaps more than
once; in the end a flow is finished as a graph (`Step.Concludes`). Whatever
each turn keeps from the call on holds of the builder that is finished
(`Step.Concludes.lasting`): the history of the outermost call shows the
builder as the call has left it, and nothing but turns lies behind that.
-/

namespace FlowAssembly

open Assembly

/-- The flow goes on from the builder with a call for each step, while others
work in the workshop, and is finished as the graph. Channels that the caller
brings were made before. -/
inductive Builder.Concludes : Builder → Workshop → List Step → FlowGraph → Prop
  | finish {b : Builder} {w w' : Workshop} {g : FlowGraph} :
      Yields b.finish w g w' → Concludes b w [] g
  | call {s : Step} {rest : List Step} {b b' : Builder} {w w' : Workshop}
      {g : FlowGraph} : s.isFresh = false → (∀ c ∈ s.brought, b.Knows w c) →
      Yields (s.assemble b) w b' w' → Concludes b' w' rest g →
      Concludes b w (s :: rest) g
  | meanwhile {rest : List Step} {b : Builder} {w w' : Workshop} {g : FlowGraph} :
      w.nextComponent ≤ w'.nextComponent → Concludes b w' rest g →
      Concludes b w rest g

/-- The call is made in a flow that is finished as the graph: on the builder
of that flow, or on one that is nested in a call of it. -/
inductive Step.Concludes (s : Step) (b : Builder) (w : Workshop) (g : FlowGraph) :
    Prop
  | own {program rest : List Step} {past : List Moment} {b' : Builder}
      {w' : Workshop} : Underway (fun _ => True) program b w past →
      s.isFresh = false → (∀ c ∈ s.brought, b.Knows w c) →
      Yields (s.assemble b) w b' w' → b'.Concludes w' rest g → Concludes s b w g
  | nested {program left rest : List Step} {past : List Moment} {outer : Step}
      {b₀ b₁ : Builder} {w₀ w₁ : Workshop} :
      Underway (fun _ => True) program b₀ w₀ past → outer.isFresh = false →
      (∀ c ∈ outer.brought, b₀.Knows w₀ c) → outer.Visits b₀ w₀ (s :: left) b w →
      Yields (outer.assemble b₀) w₀ b₁ w₁ → b₁.Concludes w₁ rest g →
      Concludes s b w g

variable {B : Channel → Prop} {s : Step} {steps left rest : List Step}
  {b b' : Builder} {w w' : Workshop} {g : FlowGraph} {ds ds' : List Desk}
  {n n' : Nat}

/-! ## Moments in a history -/

/-- A series of turns may be cut at each pile of desks that it passes. -/
theorem Turns.split {history : List Moment} {desks : List Desk}
    (h : Turns B ds n history ds' n')
    (hm : desks ∈ ds :: history.map Moment.desks) :
    ∃ before after n₁, Turns B ds n before desks n₁ ∧
      Turns B desks n₁ after ds' n' := by
  induction h with
  | refl ds n =>
      obtain rfl := List.mem_singleton.1 hm
      exact ⟨[], [], n, .refl desks n, .refl desks n⟩
  | @step ds ds' m history n n₁ n' ht hrest ih =>
      rcases List.mem_cons.1 hm with rfl | hm
      · exact ⟨[], _, n, .refl desks n, .step ht hrest⟩
      · rw [List.map_cons] at hm
        obtain ⟨before, after, n₂, hbefore, hafter⟩ := ih hm
        exact ⟨m :: before, after, n₂, .step ht hbefore, hafter⟩

theorem Visits.reaches (h : Visits steps b w left b' w') :
    Reaches steps b w left b' := by
  induction h with
  | here => exact .here _ _ _
  | later hy _ ih => exact .later hy ih
  | within hst heq hys _ ih =>
      have hp := Step.prepare_of_stage hst (by rw [heq]; simp)
      rw [heq] at hp
      exact .within hp hys ih

theorem Step.Visits.reaches (h : s.Visits b w left b' w') :
    s.Reaches b w left b' := by
  obtain ⟨st, w₁, before, flow, after, branches, w₂, hst, heq, hys, hv⟩ := h
  have hp := Step.prepare_of_stage hst (by rw [heq]; simp)
  exact ⟨_, _, _, hp, before, flow, after, branches, w₂, heq, hys, hv.reaches⟩

/-! ## What is kept from a call on -/

/-- A property of the desks as they stand that is kept from some moment of a
run on: by each turn, and in between the calls, where others may work and the
next call brings channels of its own. -/
structure Lasting (I : (Channel → Prop) → List Desk → Nat → Prop) : Prop where
  bring {brought : Channel → Prop} {b : Builder} {w : Workshop} : I (fun _ => False)
    [{ builder := b }] w.nextComponent → (∀ c, brought c → b.Knows w c) →
    I brought [{ builder := b }] w.nextComponent
  turn {brought : Channel → Prop} {ds : List Desk} {m : Moment} {n n' : Nat} :
    I brought ds n → Turn brought ds n m n' → I brought m.desks n'
  forget {brought : Channel → Prop} {ds : List Desk} {n : Nat} : I brought ds n →
    I (fun _ => False) ds n
  wait {ds : List Desk} {n n' : Nat} : I (fun _ => False) ds n → n ≤ n' →
    I (fun _ => False) ds n'

variable {I : (Channel → Prop) → List Desk → Nat → Prop}

theorem Lasting.turns {history : List Moment} (hI : Lasting I)
    (ht : Turns B ds n history ds' n') (h : I B ds n) :
    I B ds' n' :=
  ht.keeps (I := fun ds n => I B ds n) (fun h ht => hI.turn h ht) h

/-- What lasts holds of the builder that is finished. -/
theorem Builder.Concludes.lasting (h : b.Concludes w rest g) (hI : Lasting I)
    (hb : I (fun _ => False) [{ builder := b }] w.nextComponent) :
    ∃ b' n, I (fun _ => False) [{ builder := b' }] n ∧
      g.components = b'.flushDeferred.registry.components := by
  induction h with
  | finish hy =>
      obtain ⟨b', hclose, -, -⟩ := Builder.of_yields_finish hy
      obtain ⟨history, ht, -⟩ := leads_closeImplicit hclose
      exact ⟨b', _, hI.turns ht hb, Builder.components_of_yields_finish hy hclose⟩
  | call hfresh hknown hy _ ih =>
      obtain ⟨history, ht, -⟩ :=
        Step.call_turns (B := (· ∈ _)) (fun c hc => hc) hfresh hy
      exact ih (hI.forget (hI.turns ht (hI.bring hb hknown)))
  | meanwhile hle _ ih => exact ih (hI.wait hb hle)

/-- Once the call has answered its builder is on a tidy pile of desks. What
lasts, and holds of each such pile, holds of the builder that is finished. -/
theorem Step.Concludes.lasting (h : s.Concludes b w g)
    (hy : Yields (s.assemble b) w b' w') (hI : Lasting I)
    (here : ∀ {brought : Channel → Prop} {ds : List Desk} {n : Nat} {d : Desk},
      Tidy (fun _ => false) brought ds n → d ∈ ds → d.builder = b' →
      I brought ds n) :
    ∃ b' n, I (fun _ => False) [{ builder := b' }] n ∧
      g.components = b'.flushDeferred.registry.components := by
  cases h with
  | own hu hfresh hb hy' hrest =>
      obtain ⟨rfl, rfl⟩ := hy.eq hy'
      obtain ⟨history, ht, -⟩ :=
        Step.call_turns (B := (· ∈ s.brought)) (fun c hc => hc) hfresh hy
      have htidy := (hu.tidy fun c hc => ⟨trivial, hb c hc⟩).passes ⟨history, ht⟩
      exact hrest.lasting hI (hI.forget (here htidy List.mem_cons_self rfl))
  | nested hu hfresh hb hv hy' hrest =>
      obtain ⟨history, ht, hshows⟩ :=
        Step.call_turns (B := (· ∈ _)) (fun c hc => hc) hfresh hy'
      obtain ⟨desks, hdesks, d, hd, hbuilder⟩ := hshows.all _ _ (hv.next hy).reaches
      obtain ⟨before, after, n₁, hbefore, hafter⟩ := ht.split hdesks
      have htidy :=
        (hu.tidy fun c hc => ⟨trivial, hb c hc⟩).passes ⟨before, hbefore⟩
      exact hrest.lasting hI (hI.forget (hI.turns hafter (here htidy hd hbuilder)))

end FlowAssembly
