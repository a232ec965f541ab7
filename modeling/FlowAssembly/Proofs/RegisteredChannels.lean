import FlowAssembly.Container
import FlowAssembly.Proofs.Programs
import FlowAssembly.Proofs.EntryNames

/-!
# Looking up the channels of a flow

A container that takes in a flow puts the channels of its entries under the
names of the entries, one after the other, and a name that comes again is
written over. So a name answers with the last channel entry that has it, and a
channel is found under the name of its entry exactly if no channel entry
behind it has the name too. A name that no channel entry has answers as it did
before.

Nothing keeps the names of a flow apart. The caller may give two channels one
id, and an id may be the very text that the assembler makes up for a channel
of its own.
-/

namespace FlowAssembly

open Assembly

/-- Something of a list that satisfies a condition does so last. -/
theorem exists_last {α : Type} {p : α → Prop} {l : List α} (h : ∃ x ∈ l, p x) :
    ∃ before x after, l = before ++ x :: after ∧ p x ∧ ∀ y ∈ after, ¬ p y := by
  induction l with
  | nil =>
      obtain ⟨x, hx, -⟩ := h
      cases hx
  | cons x l ih =>
      by_cases hlater : ∃ y ∈ l, p y
      · obtain ⟨before, y, after, rfl, hy, hafter⟩ := ih hlater
        exact ⟨x :: before, y, after, rfl, hy, hafter⟩
      · obtain ⟨y, hy, hp⟩ := h
        obtain rfl : y = x :=
          (List.mem_cons.1 hy).resolve_right fun hy => hlater ⟨y, hy, hp⟩
        exact ⟨[], y, l, rfl, hp, fun z hz hpz => hlater ⟨z, hz, hpz⟩⟩

theorem Component.channel?_eq_some_iff {x : Component} {channel : Channel} :
    x.channel? = some channel ↔ x = .channel channel := by
  cases x <;> simp [channel?]

namespace Container

variable {c : Container} {name : String} {channel : Channel}

theorem resolve_put_self (c : Container) (name : String) (channel : Channel) :
    (c.put name channel).resolve name = .ok channel := by
  have hgone :
      (c.channels.filter fun known => known.1 ≠ name).lookup name = none := by
    refine List.lookup_eq_none_iff.2 fun known hmem => bne_iff_ne.2 ?_
    exact (of_decide_eq_true (List.mem_filter.1 hmem).2).symm
  rw [resolve, put, List.lookup_append, hgone]
  simp

theorem resolve_put_of_ne {other : String} (h : other ≠ name) :
    (c.put name channel).resolve other = c.resolve other := by
  have hkept : (c.channels.filter fun known => known.1 ≠ name).lookup other =
      c.channels.lookup other := by
    induction c.channels with
    | nil => rfl
    | cons known rest ih =>
        rw [List.filter_cons]
        split
        · rw [List.lookup_cons, List.lookup_cons, ih]
        · next hknown =>
            obtain rfl : known.1 = name := by simpa using hknown
            rw [ih, List.lookup_cons, beq_false_of_ne h]
  rw [resolve, put, List.lookup_append, hkept, List.lookup_cons, beq_false_of_ne h,
    List.lookup_nil, Option.or_none, resolve]

/-- Putting channels under other names does not change what a name answers. -/
theorem resolve_foldl_of_ne {known : List (String × Channel)}
    (h : ∀ p ∈ known, p.1 ≠ name) :
    (known.foldl (fun acc p => acc.put p.1 p.2) c).resolve name =
      c.resolve name := by
  induction known generalizing c with
  | nil => rfl
  | cons p known ih =>
      rw [List.foldl_cons, ih fun q hq => h q (List.mem_cons_of_mem _ hq),
        resolve_put_of_ne (h p List.mem_cons_self).symm]

variable {g : FlowGraph} {before after : List GraphEntry} {e : GraphEntry}

theorem mem_flowChannels {p : String × Channel} {entries : List GraphEntry} :
    p ∈ entries.filterMap (fun e => e.component.channel?.map fun channel =>
      (e.name, channel)) ↔
        ∃ e ∈ entries, e.component = .channel p.2 ∧ e.name = p.1 := by
  rw [List.mem_filterMap]
  refine exists_congr fun e => and_congr_right fun _ => ?_
  cases e.component <;> simp [Component.channel?, Prod.ext_iff, and_comm, eq_comm]

/-- The last channel entry of a name is what the name answers. -/
theorem resolve_of_last (c : Container) (hg : g.entries = before ++ e :: after)
    (he : e.component = .channel channel)
    (hlast : ∀ later ∈ after, ∀ other, later.component = .channel other →
      later.name ≠ e.name) :
    (c.registerFlow g).resolve e.name = .ok channel := by
  rw [registerFlow, flowChannels, hg, List.filterMap_append,
    List.filterMap_cons_some (b := (e.name, channel)), List.foldl_append,
    List.foldl_cons, resolve_foldl_of_ne, resolve_put_self]
  · intro p hp hname
    obtain ⟨later, hmem, hchannel, heq⟩ := mem_flowChannels.1 hp
    exact hlast later hmem p.2 hchannel (heq.trans hname)
  · rw [he]
    rfl

theorem resolve_of_unnamed (c : Container)
    (h : ∀ e ∈ g.entries, ∀ channel, e.component = .channel channel →
      e.name ≠ name) :
    (c.registerFlow g).resolve name = c.resolve name := by
  refine resolve_foldl_of_ne fun p hp => ?_
  obtain ⟨e, hmem, hchannel, heq⟩ := mem_flowChannels.1 hp
  exact heq ▸ h e hmem p.2 hchannel

end Container

namespace Builder

variable {b : Builder} {before after : List GraphEntry} {e : GraphEntry}
  {channel : Channel}

/-- A channel that a name of a flow answers with stands in the last channel
entry of the name. -/
theorem last_of_resolve (c : Container)
    (hg : b.toGraph.entries = before ++ e :: after)
    (he : e.component = .channel channel)
    (hresolve : (c.registerFlow b.toGraph).resolve e.name = .ok channel) :
    ∀ later ∈ after, ∀ other, later.component = .channel other →
      later.name ≠ e.name := by
  intro later hmem other hother hname
  obtain ⟨mid, last, rest, rfl, ⟨⟨d, hd⟩, hsame⟩, hlast⟩ := exists_last
    (p := fun x : GraphEntry => (∃ d, x.component = .channel d) ∧ x.name = e.name)
    ⟨later, hmem, ⟨other, hother⟩, hname⟩
  have hsplit : b.toGraph.entries = (before ++ e :: mid) ++ last :: rest := by
    rw [hg]
    simp only [List.append_assoc, List.cons_append]
  have hanswer := Container.resolve_of_last c hsplit hd fun x hx x' hx' hname' =>
    hlast x hx ⟨⟨x', hx'⟩, hname'.trans hsame⟩
  rw [hsame, hresolve] at hanswer
  -- The two entries would be of one key, and a registry has no key twice.
  obtain rfl := Except.ok.inj hanswer
  have hnodup : (b.toGraph.entries.map fun x => x.component.key).Nodup := by
    have hkeys := b.registry.nodup_keys
    rw [← b.components_toGraph, FlowGraph.components, List.map_map] at hkeys
    exact hkeys
  rw [hg, List.map_append, List.map_cons] at hnodup
  refine (List.nodup_cons.1 (List.nodup_append.1 hnodup).2.1).1 ?_
  rw [he]
  exact List.mem_map.2 ⟨last, List.mem_append_right _ List.mem_cons_self,
    by rw [hd]⟩

/-- Of two entries of one name the caller has named one. -/
theorem given_of_name_eq {mid : List GraphEntry} {e' : GraphEntry}
    (hg : b.toGraph.entries = before ++ e :: mid ++ e' :: after)
    (hname : e.name = e'.name) :
    e.generated = false ∨ e'.generated = false := by
  have hfirst : b.toGraph.entries[before.length]? = some e := by
    rw [hg]
    simp
  have hsecond : b.toGraph.entries[(before ++ e :: mid).length]? = some e' := by
    rw [hg, List.getElem?_append_right (Nat.le_refl _)]
    simp
  have hlt : before.length < (before ++ e :: mid).length := by
    rw [List.length_append, List.length_cons]
    omega
  cases hgen : e.generated with
  | false => exact .inl rfl
  | true =>
      refine .inr (Bool.eq_false_iff.2 fun hgen' => ?_)
      exact generated_ne hlt hfirst hsecond hgen hgen' hname

end Builder

/-- What a container answers once a finished flow is registered in it,
whatever it held before. A channel of the flow is found under the name of its
entry exactly if no channel entry behind it has the name too; two entries have
one name only if the caller has named one of them, by an id given twice or one
that the assembler makes up as well. A name that no channel entry has answers
as it did before. -/
theorem found_registered {b : Builder} {w w' : Workshop} {g : FlowGraph}
    (c : Container) (hy : Yields b.finish w g w') :
    (∀ before e after channel, g.entries = before ++ e :: after →
      e.component = .channel channel →
      ((c.registerFlow g).resolve e.name = .ok channel ↔
        ∀ later ∈ after, ∀ other, later.component = .channel other →
          later.name ≠ e.name)) ∧
    (∀ before e mid e' after, g.entries = before ++ e :: mid ++ e' :: after →
      e.name = e'.name → e.generated = false ∨ e'.generated = false) ∧
    ∀ name,
      (∀ e ∈ g.entries, ∀ channel, e.component = .channel channel → e.name ≠ name) →
      (c.registerFlow g).resolve name = c.resolve name := by
  obtain ⟨closed, -, -, rfl⟩ := Builder.of_yields_finish hy
  refine ⟨fun before e after channel hg he =>
    ⟨Builder.last_of_resolve c hg he, Container.resolve_of_last c hg he⟩, ?_, ?_⟩
  · intro before e mid e' after hg hname
    exact Builder.given_of_name_eq hg hname
  · intro name hname
    exact Container.resolve_of_unnamed c hname

/-- A flow that starts from a channel of the caller's and passes its messages
on through two bridges. -/
def bridged (start : Channel) : Assembly Builder := do
  let b ← Builder.fromChannel start
  assembleSteps b [.withId "f", .handle .bridge, .handle .bridge]

theorem found_registered_bridged :
    let start : Channel := ⟨⟨5⟩, some "in", .direct, [], false, none⟩
    ∃ b w w' g w'', Yields (bridged start) w b w' ∧ Yields b.finish w' g w'' ∧
      ∀ c : Container, (c.registerFlow g).resolve "in" = .ok start ∧
        (c.registerFlow g).resolve "out" = c.resolve "out" := by
  intro start
  obtain ⟨g, w'', hy, hg⟩ := exists_yields (m := bridged start >>= Builder.finish)
    (f := fun g => g.entries.map fun e => (e.name, e.component.channel?))
    (w := .start 10 1)
    (y := [("in", some start), ("f.bridge#0", none),
        ("f.direct-channel#0", some ⟨⟨11⟩, none, .direct, [], true, none⟩),
        ("f.bridge#1", none)]) (by decide +kernel)
  rw [yields_bind] at hy
  obtain ⟨b, w', hb, hfinish⟩ := hy
  refine ⟨b, _, w', g, w'', hb, hfinish, fun c => ?_⟩
  obtain ⟨hfound, -, hother⟩ := found_registered c hfinish
  have hnames : g.entries.map GraphEntry.name = ["in", "f.bridge#0",
      "f.direct-channel#0", "f.bridge#1"] := by
    have hfst := congrArg (List.map Prod.fst) hg
    rw [List.map_map] at hfst
    exact hfst
  obtain ⟨e, after, hsplit, he, hafter⟩ := List.map_eq_cons_iff.1 hg
  obtain ⟨hname, hchannel⟩ := Prod.mk.inj he
  constructor
  · have hfirst :=
      (hfound [] e after start hsplit (Component.channel?_eq_some_iff.1 hchannel)).2
    rw [hname] at hfirst
    refine hfirst fun later hlater _ _ heq => ?_
    rw [hsplit, List.map_cons, List.cons.injEq] at hnames
    have hmem := List.mem_map_of_mem (f := GraphEntry.name) hlater
    rw [hnames.2, heq] at hmem
    revert hmem
    decide
  · refine hother "out" fun e' he' _ _ heq => ?_
    have hmem := List.mem_map_of_mem (f := GraphEntry.name) he'
    rw [hnames, heq] at hmem
    revert hmem
    decide

/-- The caller's channel has the id that the assembler makes up for the
channel behind the first bridge. That one is registered behind it, and it is
what the name answers. -/
theorem found_other_channel :
    let start : Channel :=
      ⟨⟨5⟩, some "f.direct-channel#0", .direct, [], false, none⟩
    ∃ b w w' g w'' e, Yields (bridged start) w b w' ∧ Yields b.finish w' g w'' ∧
      e ∈ g.entries ∧ e.component = .channel start ∧
      (Container.registerFlow {} g).resolve e.name ≠ .ok start := by
  intro start
  obtain ⟨g, w'', hy, hg⟩ := exists_yields (m := bridged start >>= Builder.finish)
    (f := fun g => (g.entries.head?.map fun e => (e.name, e.component.channel?),
        ((Container.registerFlow {} g).resolve "f.direct-channel#0").toOption))
    (w := .start 10 1)
    (y := (some ("f.direct-channel#0", some start),
        some ⟨⟨11⟩, none, .direct, [], true, none⟩)) (by decide +kernel)
  rw [yields_bind] at hy
  obtain ⟨b, w', hb, hfinish⟩ := hy
  obtain ⟨hfirst, hanswer⟩ := Prod.mk.inj hg
  obtain ⟨e, he, hfirst⟩ := Option.map_eq_some_iff.1 hfirst
  obtain ⟨hname, hchannel⟩ := Prod.mk.inj hfirst
  refine ⟨b, _, w', g, w'', e, hb, hfinish, List.mem_of_mem_head? he,
    Component.channel?_eq_some_iff.1 hchannel, ?_⟩
  intro hfound
  rw [← hname, hfound] at hanswer
  have hsame : start = ⟨⟨11⟩, none, .direct, [], true, none⟩ :=
    Option.some.inj hanswer
  revert hsame
  decide

end FlowAssembly
