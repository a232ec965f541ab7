import FlowAssembly.Container
import FlowAssembly.Proofs.FlowInput
import FlowAssembly.Proofs.Views
import Mathlib.Data.Prod.Lex

/-!
# Named references

A flow refers to channels that it does not hold by their names. Names stand in
six kinds of places (`RefersAt`): the input of the flow, and in its entries
the targets of wire taps, the inputs, the outputs and the routes of endpoints,
and the outputs of sources. Places are in order, by the entry first and then
within it. The references of a flow are the names that stand in some place,
each once, in the order of the first places of each (`FirstUses` of a list in
which all names stand by place).

A container resolves the references one after the other and stops at the first
that it does not know.
-/

namespace FlowAssembly

open Assembly

/-- A place in a flow: its input comes before its entries, and an entry has
places of its own. -/
abbrev Place := Nat ×ₗ Nat

namespace Place

/-- The place of the input. -/
def ahead : Place := toLex (0, 0)

/-- A place in the entry with the given number. -/
def within (entry rank : Nat) : Place := toLex (entry + 1, rank)

theorem within_lt_within {entry entry' rank rank' : Nat} :
    within entry rank < within entry' rank' ↔
      entry < entry' ∨ entry = entry' ∧ rank < rank' := by
  rw [within, within, Prod.Lex.toLex_lt_toLex]
  simp

theorem ahead_lt_within (entry rank : Nat) : ahead < within entry rank :=
  Prod.Lex.toLex_lt_toLex.2 (.inl (Nat.zero_lt_succ entry))

end Place

/-- The target stands in the routing table with the given number in it. A
default comes behind the routes that are declared; a filter sends what it
refuses to a name, and a scatter-gather sends to its scatter channel. -/
inductive Behaviour.RoutesTo : Behaviour → Nat → Target → Prop
  | refused {f : Filter} {name : String} : f.discard = some name →
      RoutesTo (.filter f) 0 (.named name)
  | mapping {r : Router} {j : Nat} {key : String} {target : Target} :
      r.mappings[j]? = some (key, target) → RoutesTo (.router r) j target
  | routerDefault {r : Router} {target : Target} : r.defaultOutput = some target →
    RoutesTo (.router r) r.mappings.length target
  | recipient {l : RecipientList} {j : Nat} {recipient : Recipient} :
      l.recipients[j]? = some recipient →
      RoutesTo (.recipientList l) j recipient.target
  | listDefault {l : RecipientList} {target : Target} :
      l.defaultOutput = some target →
      RoutesTo (.recipientList l) l.recipients.length target
  | scatter (s : ScatterGather) : RoutesTo (.scatterGather s) 0 (.channel s.scatter)
  | custom {h : CustomHandler} {j : Nat} {target : Target} :
      h.routeTargets[j]? = some target → RoutesTo (.custom h) j target

theorem getElem?_toList {α : Type} {o : Option α} {j : Nat} {x : α} :
    o.toList[j]? = some x ↔ j = 0 ∧ o = some x := by
  cases o with
  | none => simp
  | some y =>
      rw [Option.toList_some, List.getElem?_singleton]
      by_cases hj : j = 0 <;> simp [hj]

theorem getElem?_append_toList {α : Type} {l : List α} {o : Option α} {j : Nat}
    {x : α} :
    (l ++ o.toList)[j]? = some x ↔ l[j]? = some x ∨ j = l.length ∧ o = some x := by
  by_cases hj : j < l.length
  · rw [List.getElem?_append_left hj,
      or_iff_left fun h => absurd h.1 (Nat.ne_of_lt hj)]
  · have hnone : l[j]? ≠ some x := by
      rw [List.getElem?_eq_none (Nat.le_of_not_lt hj)]
      exact nofun
    have hlast : j - l.length = 0 ↔ j = l.length := by omega
    rw [List.getElem?_append_right (Nat.le_of_not_lt hj), or_iff_right hnone,
      getElem?_toList, hlast]

theorem Behaviour.getElem?_routeTargets (behaviour : Behaviour) (j : Nat)
    (target : Target) :
    behaviour.routeTargets[j]? = some target ↔ behaviour.RoutesTo j target := by
  constructor
  · intro h
    cases behaviour with
    | filter f =>
        rw [routeTargets, List.getElem?_map] at h
        obtain ⟨name, hget, rfl⟩ := Option.map_eq_some_iff.1 h
        obtain ⟨rfl, hname⟩ := getElem?_toList.1 hget
        exact .refused hname
    | router r =>
        rcases getElem?_append_toList.1 h with hmapping | ⟨rfl, hdefault⟩
        · rw [List.getElem?_map] at hmapping
          obtain ⟨⟨key, _⟩, hget, rfl⟩ := Option.map_eq_some_iff.1 hmapping
          exact .mapping hget
        · rw [List.length_map]
          exact .routerDefault hdefault
    | recipientList l =>
        rcases getElem?_append_toList.1 h with hrecipient | ⟨rfl, hdefault⟩
        · rw [List.getElem?_map] at hrecipient
          obtain ⟨recipient, hget, rfl⟩ := Option.map_eq_some_iff.1 hrecipient
          exact .recipient hget
        · rw [List.length_map]
          exact .listDefault hdefault
    | scatterGather s =>
        obtain ⟨rfl, hscatter⟩ :=
          getElem?_toList (o := some (Target.channel s.scatter)).1 h
        obtain rfl := Option.some.inj hscatter
        exact .scatter s
    | custom handler => exact .custom h
    | _ => cases h
  · intro h
    cases h with
    | refused hname => rw [routeTargets, hname]; rfl
    | mapping hget =>
        refine getElem?_append_toList.2 (.inl ?_)
        rw [List.getElem?_map, hget]
        rfl
    | routerDefault hdefault =>
        exact getElem?_append_toList.2 (.inr ⟨(List.length_map _).symm, hdefault⟩)
    | recipient hget =>
        refine getElem?_append_toList.2 (.inl ?_)
        rw [List.getElem?_map, hget]
        rfl
    | listDefault hdefault =>
        exact getElem?_append_toList.2 (.inr ⟨(List.length_map _).symm, hdefault⟩)
    | scatter => rfl
    | custom hget => exact hget

namespace FlowGraph

/-- The name stands in the place. The places of a channel are its
interceptors, those of a source its output, and those of an endpoint its
input, its output and then its routes. -/
inductive RefersAt (g : FlowGraph) (taps : Interceptions) : Place → String → Prop
  | input {name : String} : g.namedInput = some name → RefersAt g taps .ahead name
  | tap {i j : Nat} {c : Channel} {tap : WireTap} {name : String} :
      g.components[i]? = some (.channel c) →
      (taps c.key)[j]? = some (.wireTap tap) → tap.target = .named name →
      RefersAt g taps (.within i j) name
  | reads {i : Nat} {p : Endpoint} {name : String} :
      g.components[i]? = some (.endpoint p) → p.input = .named name →
      RefersAt g taps (.within i 0) name
  | writes {i : Nat} {p : Endpoint} {name : String} :
      g.components[i]? = some (.endpoint p) → p.output = some (.named name) →
      RefersAt g taps (.within i 1) name
  | routes {i j : Nat} {p : Endpoint} {name : String} :
      g.components[i]? = some (.endpoint p) →
      p.handler.behaviour.RoutesTo j (.named name) →
      RefersAt g taps (.within i (j + 2)) name
  | sends {i : Nat} {s : Source} {name : String} :
      g.components[i]? = some (.source s) → s.output = some (.named name) →
      RefersAt g taps (.within i 0) name

/-! ## All names by place -/

/-- The places of a component, each with the target that stands in it. -/
def slots (taps : Interceptions) : Component → List (Option Target)
  | .channel c => (taps c.key).map Interceptor.tapTarget?
  | .endpoint p => some p.input :: p.output :: p.handler.routeTargets.map some
  | .source s => [s.output]

/-- The names that stand in an entry, with their places. -/
def placedNames (taps : Interceptions) (entry : Component × Nat) :
    List (Place × String) :=
  (slots taps entry.1).zipIdx.filterMap fun slot =>
    (slot.1.bind Target.name?).map (Place.within entry.2 slot.2, ·)

/-- Every name of a flow as often as it stands in it, with its places. -/
def placed (g : FlowGraph) (taps : Interceptions) : List (Place × String) :=
  g.namedInput.toList.map (Place.ahead, ·) ++
    g.components.zipIdx.flatMap (placedNames taps)

variable {g : FlowGraph} {taps : Interceptions} {place : Place} {name : String}

theorem filterMap_slots (taps : Interceptions) (x : Component) :
    (slots taps x).filterMap (·.bind Target.name?) =
      (componentTargets taps x).filterMap Target.name? := by
  cases x with
  | channel c =>
      rw [slots, componentTargets, List.filterMap_map, List.filterMap_filterMap]
      rfl
  | endpoint p =>
      have hroutes :
          (p.handler.routeTargets.map some).filterMap (·.bind Target.name?) =
          p.handler.routeTargets.filterMap Target.name? := by
        rw [List.filterMap_map]
        rfl
      cases hp : p.output
        <;> simp [slots, componentTargets, hp, List.filterMap_cons, hroutes]
  | source s =>
      cases hs : s.output
        <;> simp [slots, componentTargets, hs, List.filterMap_cons]

theorem map_placedNames (taps : Interceptions) (entry : Component × Nat) :
    (placedNames taps entry).map Prod.snd =
      (componentTargets taps entry.1).filterMap Target.name? := by
  rw [placedNames, List.map_filterMap, ← filterMap_slots]
  nth_rewrite 2 [← List.zipIdx_map_fst 0 (slots taps entry.1)]
  rw [List.filterMap_map]
  refine List.filterMap_congr fun slot _ => ?_
  rw [Option.map_map]
  exact Option.map_id_apply

/-- The references are what is used first among all names. -/
theorem namedReferences_eq (g : FlowGraph) (taps : Interceptions) :
    g.namedReferences taps = ((g.placed taps).map Prod.snd).foldl insertNew [] := by
  have hused : (g.components.zipIdx.flatMap (placedNames taps)).map Prod.snd =
      g.components.flatMap fun x =>
        (componentTargets taps x).filterMap Target.name? := by
    rw [List.map_flatMap]
    nth_rewrite 2 [← List.zipIdx_map_fst 0 g.components]
    rw [List.flatMap_map]
    exact List.flatMap_congr fun entry _ => map_placedNames taps entry
  have hinput : (g.namedInput.toList.map (Place.ahead, ·)).map Prod.snd =
      g.namedInput.toList := by
    rw [List.map_map]
    exact List.map_id _
  rw [namedReferences, placed, List.map_append, hused, hinput]

theorem mem_placedNames_iff {entry : Component × Nat} :
    (place, name) ∈ placedNames taps entry ↔
      ∃ rank, place = .within entry.2 rank ∧
        (slots taps entry.1)[rank]? = some (some (.named name)) := by
  have hnamed : ∀ slot : Option Target, slot.bind Target.name? = some name ↔
      slot = some (.named name) := by
    rintro (_ | (c | other)) <;> simp [Target.name?]
  rw [placedNames, List.mem_filterMap]
  constructor
  · rintro ⟨⟨slot, rank⟩, hmem, hname⟩
    obtain ⟨text, htext, hpair⟩ := Option.map_eq_some_iff.1 hname
    obtain ⟨rfl, rfl⟩ := Prod.mk.inj hpair
    rw [(hnamed slot).1 htext] at hmem
    exact ⟨rank, rfl, List.mem_zipIdx_iff_getElem?.1 hmem⟩
  · rintro ⟨rank, rfl, hslot⟩
    exact ⟨(some (.named name), rank), List.mem_zipIdx_iff_getElem?.2 hslot, rfl⟩

theorem mem_placed_iff : (place, name) ∈ g.placed taps ↔
      place = .ahead ∧ g.namedInput = some name ∨
      ∃ i x, g.components[i]? = some x ∧ ∃ rank, place = .within i rank ∧
        (slots taps x)[rank]? = some (some (.named name)) := by
  rw [placed, List.mem_append, List.mem_map, List.mem_flatMap]
  refine or_congr ?_ ?_
  · constructor
    · rintro ⟨input, hinput, hpair⟩
      obtain ⟨rfl, rfl⟩ := Prod.mk.inj hpair
      exact ⟨rfl, Option.mem_toList.1 hinput⟩
    · rintro ⟨rfl, hinput⟩
      exact ⟨name, Option.mem_toList.2 hinput, rfl⟩
  · constructor
    · rintro ⟨⟨x, i⟩, hmem, hname⟩
      exact ⟨i, x, List.mem_zipIdx_iff_getElem?.1 hmem, mem_placedNames_iff.1 hname⟩
    · rintro ⟨i, x, hx, hname⟩
      exact ⟨(x, i), List.mem_zipIdx_iff_getElem?.2 hx, mem_placedNames_iff.2 hname⟩

/-- The names of a flow with their places are what the flow refers to. -/
theorem refersAt_iff : g.RefersAt taps place name ↔
      (place, name) ∈ g.placed taps := by
  rw [mem_placed_iff]
  constructor
  · intro h
    cases h with
    | input hinput => exact .inl ⟨rfl, hinput⟩
    | @tap i j c tap _ hx htap htarget =>
        refine .inr ⟨i, _, hx, j, rfl, ?_⟩
        rw [slots, List.getElem?_map, htap, ← htarget]
        rfl
    | @reads i p _ hx hinput =>
        exact .inr ⟨i, _, hx, 0, rfl, by rw [slots, hinput]; rfl⟩
    | @writes i p _ hx houtput =>
        exact .inr ⟨i, _, hx, 1, rfl, by rw [slots, houtput]; rfl⟩
    | @routes i j p _ hx hroute =>
        refine .inr ⟨i, _, hx, j + 2, rfl, ?_⟩
        have hget : p.handler.routeTargets[j]? = some (.named name) :=
          (Behaviour.getElem?_routeTargets _ j _).2 hroute
        rw [slots, List.getElem?_cons_succ, List.getElem?_cons_succ,
          List.getElem?_map, hget]
        rfl
    | @sends i s _ hx houtput =>
        exact .inr ⟨i, _, hx, 0, rfl, by rw [slots, houtput]; rfl⟩
  · rintro (⟨rfl, hinput⟩ | ⟨i, x, hx, rank, rfl, hslot⟩)
    · exact .input hinput
    · cases x with
      | channel c =>
          rw [slots, List.getElem?_map] at hslot
          obtain ⟨interceptor, hget, htarget⟩ := Option.map_eq_some_iff.1 hslot
          cases interceptor with
          | wireTap tap => exact .tap hx hget (Option.some.inj htarget)
          | custom => cases htarget
      | endpoint p =>
          match rank with
          | 0 => exact .reads hx (Option.some.inj (Option.some.inj hslot))
          | 1 => exact .writes hx (Option.some.inj hslot)
          | rank + 2 =>
              rw [slots, List.getElem?_cons_succ, List.getElem?_cons_succ,
                List.getElem?_map] at hslot
              obtain ⟨target, hget, htarget⟩ := Option.map_eq_some_iff.1 hslot
              rw [Option.some.inj htarget] at hget
              exact .routes hx ((Behaviour.getElem?_routeTargets _ rank _).1 hget)
      | source s =>
          match rank with
          | 0 => exact .sends hx (Option.some.inj hslot)

theorem pairwise_zipIdx {α : Type} (l : List α) :
    l.zipIdx.Pairwise fun a b => a.2 < b.2 := by
  rw [← List.pairwise_map, List.zipIdx_map_snd]
  exact List.pairwise_lt_range'

theorem pairwise_placedNames (entry : Component × Nat) :
    (placedNames taps entry).Pairwise fun a b => a.1 < b.1 := by
  rw [placedNames, List.pairwise_filterMap]
  refine (pairwise_zipIdx _).imp fun {slot slot'} hlt a ha b hb => ?_
  obtain ⟨name, -, rfl⟩ := Option.map_eq_some_iff.1 ha
  obtain ⟨name', -, rfl⟩ := Option.map_eq_some_iff.1 hb
  exact Place.within_lt_within.2 (.inr ⟨rfl, hlt⟩)

theorem pairwise_placed (g : FlowGraph) (taps : Interceptions) :
    (g.placed taps).Pairwise fun a b => a.1 < b.1 := by
  refine List.pairwise_append.2
    ⟨?_, List.pairwise_flatMap.2 ⟨fun entry _ => pairwise_placedNames entry, ?_⟩,
      ?_⟩
  · cases g.namedInput <;> simp
  · refine (pairwise_zipIdx _).imp fun {entry entry'} hlt a ha b hb => ?_
    obtain ⟨rank, ha, -⟩ := mem_placedNames_iff.1 ha
    obtain ⟨rank', hb, -⟩ := mem_placedNames_iff.1 hb
    rw [ha, hb]
    exact Place.within_lt_within.2 (.inl hlt)
  · intro a ha b hb
    obtain ⟨input, -, rfl⟩ := List.mem_map.1 ha
    obtain ⟨entry, -, hb⟩ := List.mem_flatMap.1 hb
    obtain ⟨rank, hb, -⟩ := mem_placedNames_iff.1 hb
    rw [hb]
    exact Place.ahead_lt_within _ _

end FlowGraph

/-- What is used first among names in order has its first place ahead. -/
theorem first_place_lt {placed : List (Place × String)}
    (hordered : placed.Pairwise fun a b => a.1 < b.1) {s t : String}
    (hlt : (placed.map Prod.snd).idxOf s < (placed.map Prod.snd).idxOf t) :
    ∃ place, (place, s) ∈ placed ∧ ∀ other, (other, t) ∈ placed →
      place < other := by
  induction placed with
  | nil => exact absurd hlt (Nat.lt_irrefl _)
  | cons first placed ih =>
      obtain ⟨place, name⟩ := first
      obtain ⟨hfirst, hordered⟩ := List.pairwise_cons.1 hordered
      rw [List.map_cons] at hlt
      have ht : name ≠ t := by
        rintro rfl
        rw [List.idxOf_cons_self] at hlt
        exact absurd hlt (Nat.not_lt_zero _)
      have hmem : ∀ other, (other, t) ∈ (place, name) :: placed →
          (other, t) ∈ placed :=
        fun other h =>
          (List.mem_cons.1 h).resolve_left fun heq => ht (Prod.mk.inj heq).2.symm
      by_cases hs : name = s
      · subst hs
        exact ⟨place, List.mem_cons_self, fun other h => hfirst _ (hmem other h)⟩
      · rw [List.idxOf_cons_ne _ hs, List.idxOf_cons_ne _ ht] at hlt
        obtain ⟨place', hplace', hlt⟩ := ih hordered (Nat.lt_of_succ_lt_succ hlt)
        exact ⟨place', List.mem_cons_of_mem _ hplace',
          fun other h => hlt other (hmem other h)⟩

/-! ## Resolution -/

namespace Container

variable {c : Container} {names : List String}

/-- Resolves names one after the other. -/
def resolveAll (c : Container) (names : List String) :
    Except FlowError (List (String × Channel)) :=
  names.mapM fun name => (c.resolve name).map fun channel => (name, channel)

theorem resolveAll_cons (c : Container) (name : String) (names : List String) :
    c.resolveAll (name :: names) =
    match c.channels.lookup name with
    | some channel => (c.resolveAll names).map ((name, channel) :: ·)
    | none => .error (.unresolvedReference name "message channel") := by
  rw [resolveAll, List.mapM_cons, resolve]
  cases c.channels.lookup name with
  | none => rfl
  | some channel =>
      rw [← resolveAll]
      cases c.resolveAll names <;> rfl

theorem resolveAll_eq_ok_iff {found : List (String × Channel)} :
    c.resolveAll names = .ok found ↔
      found.map Prod.fst = names ∧
      ∀ p ∈ found, c.channels.lookup p.1 = some p.2 := by
  induction names generalizing found with
  | nil =>
      constructor
      · intro h
        obtain rfl := Except.ok.inj h
        exact ⟨rfl, fun _ hp => absurd hp List.not_mem_nil⟩
      · rintro ⟨hnames, -⟩
        obtain rfl := List.map_eq_nil_iff.1 hnames
        rfl
  | cons name names ih =>
      rw [resolveAll_cons]
      constructor
      · intro h
        cases hlookup : c.channels.lookup name with
        | none => rw [hlookup] at h; cases h
        | some channel =>
            rw [hlookup] at h
            cases hrest : c.resolveAll names with
            | error cause => rw [hrest] at h; cases h
            | ok rest =>
                rw [hrest] at h
                obtain rfl := Except.ok.inj h
                obtain ⟨hnames, hfound⟩ := ih.1 hrest
                exact ⟨congrArg (name :: ·) hnames,
                  List.forall_mem_cons.2 ⟨hlookup, hfound⟩⟩
      · rintro ⟨hnames, hfound⟩
        obtain ⟨⟨_, channel⟩, rest, rfl, rfl, hothers⟩ :=
          List.map_eq_cons_iff.1 hnames
        obtain ⟨hlookup, hrest⟩ := List.forall_mem_cons.1 hfound
        rw [hlookup]
        dsimp only
        rw [ih.2 ⟨hothers, hrest⟩]
        rfl

theorem resolveAll_eq_error_iff {cause : FlowError} :
    c.resolveAll names = .error cause ↔
      ∃ before name after, names = before ++ name :: after ∧
        (∀ known ∈ before, ∃ channel, c.channels.lookup known = some channel) ∧
        c.channels.lookup name = none ∧
        cause = .unresolvedReference name "message channel" := by
  induction names with
  | nil =>
      refine ⟨nofun, ?_⟩
      rintro ⟨before, name, after, hsplit, -⟩
      exact absurd hsplit
        (List.append_ne_nil_of_right_ne_nil _ (List.cons_ne_nil _ _)).symm
  | cons name names ih =>
      rw [resolveAll_cons]
      constructor
      · intro h
        cases hlookup : c.channels.lookup name with
        | none =>
            rw [hlookup] at h
            exact ⟨[], name, names, rfl, fun _ hk => absurd hk List.not_mem_nil,
              hlookup, (Except.error.inj h).symm⟩
        | some channel =>
            rw [hlookup] at h
            cases hrest : c.resolveAll names with
            | ok rest => rw [hrest] at h; cases h
            | error cause' =>
                rw [hrest] at h
                obtain rfl := Except.error.inj h
                obtain ⟨before, unknown, after, rfl, hbefore, hunknown⟩ :=
                  ih.1 hrest
                have hknown := List.forall_mem_cons.2 ⟨⟨channel, hlookup⟩, hbefore⟩
                exact ⟨name :: before, unknown, after, rfl, hknown, hunknown⟩
      · rintro ⟨before, unknown, after, hsplit, hbefore, hunknown, rfl⟩
        cases before with
        | nil =>
            obtain ⟨rfl, rfl⟩ := List.cons.inj hsplit
            rw [hunknown]
        | cons known before =>
            obtain ⟨rfl, rfl⟩ := List.cons.inj hsplit
            obtain ⟨⟨channel, hlookup⟩, hbefore⟩ := List.forall_mem_cons.1 hbefore
            rw [hlookup]
            dsimp only
            rw [ih.2 ⟨before, unknown, after, rfl, hbefore, hunknown, rfl⟩]
            rfl

end Container

/-! ## The input -/

/-- The name that a flow starts from, if it starts from one. -/
def Start.name? : Start → Option String
  | .name text => some text
  | .empty _ | .channel _ | .source _ => none

theorem Start.namedInput_of_make {s : Start} {b : Builder} {w w' : Workshop}
    (h : Yields s.make w b w') :
    b.namedInput = s.name? := by
  cases s with
  | empty config =>
      simp only [make, Builder.withConfig, yields_bind, yields_newFlowId,
        yields_newSession, yields_pure] at h
      obtain ⟨_, _, ⟨rfl, rfl⟩, _, _, ⟨rfl, rfl⟩, rfl, rfl⟩ := h
      rfl
  | channel c => exact (Builder.first_of_make h).2.1
  | name text =>
      simp only [make, Builder.fromChannelName, Builder.new, Builder.withConfig,
        yields_bind, yields_newFlowId, yields_newSession, yields_pure] at h
      obtain ⟨_, _, ⟨_, _, ⟨rfl, rfl⟩, _, _, ⟨rfl, rfl⟩, rfl, rfl⟩, rfl, rfl⟩ := h
      rfl
  | source spec =>
      simp only [make, Builder.fromSource, Builder.new, Builder.withConfig,
        yields_bind, yields_newFlowId, yields_newSession, yields_newComponentKey,
        yields_pure] at h
      obtain ⟨_, _, ⟨_, _, ⟨rfl, rfl⟩, _, _, ⟨rfl, rfl⟩, rfl, rfl⟩, _, _,
        ⟨rfl, rfl⟩, rfl, rfl⟩ := h
      rfl

theorem Builder.namedInput_flushDeferred (b : Builder) :
    b.flushDeferred.namedInput = b.namedInput := by
  unfold flushDeferred
  split <;> rfl

/-- No call changes the name that a flow reads from. -/
theorem Evolves.namedInput {start : Start} {allowed : Step → Builder → Prop}
    {calls : List (Builder × Builder)} {b : Builder} {w : Workshop}
    (h : Evolves start allowed calls b w) : b.namedInput = start.name? := by
  induction h with
  | start _ hy => exact Start.namedInput_of_make hy
  | call h hfresh _ hk hy ih =>
      exact (Step.follows_of_yields (h.finds hk) hfresh hy).named.trans ih
  | meanwhile _ _ ih => exact ih

theorem Evolves.namedInput_finish {start : Start} {allowed : Step → Builder → Prop}
    {calls : List (Builder × Builder)} {b : Builder} {w w' : Workshop}
    {g : FlowGraph} (h : Evolves start allowed calls b w)
    (hy : Yields b.finish w g w') : g.namedInput = start.name? := by
  obtain ⟨closed, _, hclose, -, -, rfl⟩ := Builder.closed_of_yields_finish hy
  have hclosed : closed.namedInput = b.namedInput :=
    (Builder.extends_closeImplicit h.given hclose).1.named
  exact (closed.namedInput_flushDeferred.trans hclosed).trans h.namedInput

/-- The references of a flow are the names that stand in some place of it,
each once, and one comes before another if its first place does. The input is
the name that the flow was started from.

A container resolves all of them or none: it answers with these names and its
channel for each, if it has one for each, and with the first that it does not
know otherwise. -/
theorem references_complete (g : FlowGraph) (taps : Interceptions) (c : Container) :
    (g.namedReferences taps).Nodup ∧
    (∀ name, name ∈ g.namedReferences taps ↔ ∃ place, g.RefersAt taps place name) ∧
    ((g.namedReferences taps).Pairwise fun s t =>
      ∃ place, g.RefersAt taps place s ∧ ∀ other, g.RefersAt taps other t →
        place < other) ∧
    (∀ start calls b w w', Evolves start (fun _ _ => True) calls b w →
      Yields b.finish w g w' → g.namedInput = start.name?) ∧
    ((∃ found, g.resolveReferences taps c = .ok found) ↔
      ∀ name ∈ g.namedReferences taps,
        ∃ channel, c.channels.lookup name = some channel) ∧
    (∀ found, g.resolveReferences taps c = .ok found ↔
      found.map Prod.fst = g.namedReferences taps ∧
      ∀ p ∈ found, c.channels.lookup p.1 = some p.2) ∧
    ∀ cause, g.resolveReferences taps c = .error cause ↔
      ∃ before name after, g.namedReferences taps = before ++ name :: after ∧
        (∀ known ∈ before, ∃ channel, c.channels.lookup known = some channel) ∧
        c.channels.lookup name = none ∧
        cause = .unresolvedReference name "message channel" := by
  obtain ⟨others, heq, hmem, hnodup, hordered⟩ :=
    FlowGraph.exists_firstUses [] ((g.placed taps).map Prod.snd)
  rw [← FlowGraph.namedReferences_eq, List.nil_append] at heq
  have hresolve :
      g.resolveReferences taps c = c.resolveAll (g.namedReferences taps) :=
    rfl
  have hplaced := g.pairwise_placed taps
  refine ⟨heq ▸ hnodup, fun name => ?_, ?_,
    fun _ _ _ _ _ h hy => h.namedInput_finish hy, ?_, fun found => ?_,
    fun cause => ?_⟩
  · rw [heq, hmem, List.mem_map]
    constructor
    · rintro ⟨⟨⟨place, _⟩, hplace, rfl⟩, -⟩
      exact ⟨place, FlowGraph.refersAt_iff.2 hplace⟩
    · rintro ⟨place, hplace⟩
      exact ⟨⟨(place, name), FlowGraph.refersAt_iff.1 hplace, rfl⟩,
        List.not_mem_nil⟩
  · rw [heq]
    refine hordered.imp fun {s t} hlt => ?_
    obtain ⟨place, hs, ht⟩ := first_place_lt hplaced hlt
    exact ⟨place, FlowGraph.refersAt_iff.2 hs,
      fun other hother => ht other (FlowGraph.refersAt_iff.1 hother)⟩
  · rw [hresolve]
    constructor
    · rintro ⟨found, hfound⟩ name hname
      obtain ⟨hnames, hlookup⟩ := Container.resolveAll_eq_ok_iff.1 hfound
      rw [← hnames] at hname
      obtain ⟨p, hp, rfl⟩ := List.mem_map.1 hname
      exact ⟨p.2, hlookup p hp⟩
    · intro hall
      cases hfound : c.resolveAll (g.namedReferences taps) with
      | ok found => exact ⟨found, rfl⟩
      | error cause =>
          obtain ⟨before, name, after, hsplit, -, hnone, -⟩ :=
            Container.resolveAll_eq_error_iff.1 hfound
          obtain ⟨channel, hlookup⟩ :=
            hall name (hsplit ▸ List.mem_append_right _ List.mem_cons_self)
          rw [hnone] at hlookup
          cases hlookup
  · rw [hresolve, Container.resolveAll_eq_ok_iff]
  · rw [hresolve, Container.resolveAll_eq_error_iff]

/-- A flow from a name goes on through a channel that is tapped into a name,
and a filter and a router send to names. Two of the names stand in it
twice. -/
theorem references_complete_routed :
    let steps : List Step :=
      [.channel (.channel (.new .direct (some "orders") [] [])),
        .wireTap {} (.target (.named "audit")),
        .handle (.filter "payload" (some "refused") false),
        .route
          { strategy := .header "kind",
            default := some (.target (.named "refused")) }
          [("a", .target (.named "in")), ("b", .target (.named "paid"))]]
    ∃ b₀ w₀ calls b w g w', Yields (Start.name "in").make (.start 1 1) b₀ w₀ ∧
      Yields (assembleSteps b₀ steps) w₀ b w ∧
      Evolves (.name "in") (fun _ _ => True) calls b w ∧ Yields b.finish w g w' ∧
      g.namedInput = some "in" ∧
      g.namedReferences w'.interceptors = ["in", "audit", "refused", "paid"] ∧
      (∀ name, name ∈ ["in", "audit", "refused", "paid"] ↔
        ∃ place, g.RefersAt w'.interceptors place name) ∧
      g.resolveReferences w'.interceptors {} =
        .error (.unresolvedReference "in" "message channel") := by
  intro steps
  obtain ⟨g, w', hy, hnames⟩ := exists_yields_in (m := do
      let b ← (Start.name "in").make
      let b ← assembleSteps b steps
      b.finish)
    (f := fun g w => g.namedReferences w.interceptors) (w := .start 1 1)
      (y := ["in", "audit", "refused", "paid"])
    (by decide +kernel)
  simp only [yields_bind] at hy
  obtain ⟨b₀, w₀, hmake, b, w, hsteps, hfinish⟩ := hy
  obtain ⟨calls, h⟩ := (Evolves.start (by simp [Start.brought]) hmake).exists_steps
    (by decide) (fun _ _ _ => trivial) hsteps
  obtain ⟨-, hmem, -, hstart, -, -, herror⟩ :=
    references_complete g w'.interceptors {}
  rw [hnames] at hmem herror
  exact ⟨b₀, w₀, calls, b, w, g, w', hmake, hsteps, h, hfinish,
    hstart _ _ _ _ _ h hfinish, hnames, hmem,
    (herror _).2 ⟨[], "in", ["audit", "refused", "paid"], rfl,
      fun _ hk => absurd hk List.not_mem_nil, rfl, rfl⟩⟩

end FlowAssembly
