import FlowAssembly.Proofs.Flattening
import FlowAssembly.Proofs.Operations
import FlowAssembly.Proofs.Supply

/-!
# Builders and their sketches

A builder is `Drawn` by a sketch that has its order, the flows it holds back,
and the channel it stands on. What follows takes the operations of a builder
one by one and says what they do to the sketch.

All of it hangs on keys that are not shared, so each operation says what keys
it spent as well.
-/

namespace FlowAssembly

open Assembly Workshop

/-- The sketch has the order of the builder, the flows it holds back, and the
channel it stands on. -/
structure Builder.Drawn (b : Builder) (s : Sketch) : Prop where
  marks : b.registry.marks = s.marks
  taps : b.cursor.deferred.map Registry.marks = s.taps
  current : b.currentKey? = s.tip.key?
  pending : s.tip ≠ .vacant → b.cursor.pending = none
  sound : s.Sound

/-- The sketch has the order of the builder, whatever its parts come to. -/
structure Builder.Traced (b : Builder) (s : Sketch) : Prop where
  marks : b.registry.marks = s.marks
  taps : b.cursor.deferred.map Registry.marks = s.taps
  current : b.currentKey? = s.tip.key?
  pending : s.tip ≠ .vacant → b.cursor.pending = none
  behind : ∀ k l, s.tip = .shared k l → l ≠ []
  vacant : s.tip = .vacant → s.taps = []

theorem Builder.Drawn.traced {b : Builder} {s : Sketch} (hd : b.Drawn s) :
    b.Traced s :=
  ⟨hd.marks, hd.taps, hd.current, hd.pending,
    fun k l h => (hd.sound.behind k l h).1, hd.sound.vacant⟩

theorem Builder.Traced.drawn {b : Builder} {s : Sketch} (hd : b.Traced s)
    (hs : s.Sound) : b.Drawn s :=
  ⟨hd.marks, hd.taps, hd.current, hd.pending, hs⟩

/-- What an endpoint is to read: the tip of the sketch, or if there is none a
name, or a channel made for it. -/
inductive ResolvedInput.Fits : Option ComponentKey → ResolvedInput → Prop
  | tip (c : Channel) : Fits (some c.key) ⟨.channel c, none⟩
  | name (name : String) : Fits none ⟨.named name, none⟩
  | made (c : Channel) : Fits none ⟨.channel c, some c⟩

/-- The channel that was made for an endpoint. -/
def ResolvedInput.marks (input : ResolvedInput) : List Mark :=
  (input.made.map fun c => Mark.channel c.key).toList

namespace Builder

variable {b b' : Builder} {s : Sketch} {w w' : Workshop}

theorem currentKey?_eq_some {k : ComponentKey} :
    b.currentKey? = some k ↔
      ∃ c, b.cursor.channel = some (.channel c) ∧ c.key = k := by
  unfold currentKey?
  split
  · next c h => simp [h]
  · next h =>
      simp only [reduceCtorEq, false_iff, not_exists, not_and]
      exact fun c hc => absurd hc (h c)

theorem currentKey?_eq_none : b.currentKey? = none ↔
      ∀ c, b.cursor.channel ≠ some (.channel c) := by
  unfold currentKey?
  split
  · next c h => simp [h]
  · next h => simp only [true_iff]; exact h

/-- What is resolved for an endpoint fits the sketch, and a channel made for
it was taken out of the supply. -/
theorem Traced.resolveInput (hd : b.Traced s) {handler : Handler}
    {input : ResolvedInput}
    (hy : Yields (resolveInput b.cursor.channel handler) w input w') :
    input.Fits s.tip.key? ∧ w.Spent [] w' (Mark.keys input.marks) := by
  rw [← hd.current]
  rcases of_yields_resolveInput hy
    with ⟨c, hc, rfl, rfl⟩ | ⟨name, hc, rfl, rfl⟩ | ⟨c, hc, rfl, hk, rfl⟩
  · rw [currentKey?_eq_some.2 ⟨c, hc, rfl⟩]
    exact ⟨.tip c, .refl _ _⟩
  · rw [currentKey?_eq_none.2 fun c => by simp [hc]]
    exact ⟨.name name, .refl _ _⟩
  · have hnone : b.currentKey? = none := by
      refine currentKey?_eq_none.2 fun c => ?_
      rcases hc with ⟨id, hc⟩ | hc <;> simp [hc]
    rw [hnone]
    refine ⟨.made c, ?_⟩
    show w.Spent [] _ [c.key]
    rw [hk]
    exact .next w

@[simp]
theorem marks_bindPending (b : Builder) (target : Target) :
    (b.bindPending target).registry.marks = b.registry.marks := by
  unfold bindPending
  split
  · simp
  · rfl

@[simp]
theorem deferred_bindPending (b : Builder) (target : Target) :
    (b.bindPending target).cursor.deferred = b.cursor.deferred := by
  unfold bindPending
  split <;> rfl

@[simp]
theorem channel_bindPending (b : Builder) (target : Target) :
    (b.bindPending target).cursor.channel = b.cursor.channel := by
  unfold bindPending
  split <;> rfl

theorem pending_bindPending (b : Builder) (target : Target) :
    (b.bindPending target).cursor.pending = none := by
  unfold bindPending
  split
  · rfl
  · next h => exact h

/-- Side flows go ahead of the channel of a bare tip, and behind everything
where the tip is another. -/
theorem Traced.marks_extendBefore (hd : b.Traced s) {input : ResolvedInput}
    (hi : input.Fits s.tip.key?) {sides : List Registry}
    (hn : ∀ k, s.keys.count k + (Mark.keys (sides.flatMap Registry.marks)).count k +
      (Mark.keys input.marks).count k ≤ 1) :
    (b.registry.extendBefore (input.target.channel?.map Channel.key) sides).marks =
      s.lead (sides.map Registry.marks) := by
  have hm := hd.marks
  have hnodup :
      (Mark.keys b.registry.marks ++
        Mark.keys (sides.flatMap Registry.marks)).Nodup := by
    rw [List.nodup_iff_count]
    intro k
    have hk := hn k
    simp only [Sketch.keys, hm, Mark.keys_append, List.count_append] at hk ⊢
    omega
  unfold Sketch.lead
  rw [show (sides.map Registry.marks).flatten = sides.flatMap Registry.marks
    from (List.flatMap_def ..).symm]
  unfold Sketch.marks at hm
  cases ht : s.tip with
  | vacant =>
      rw [ht] at hm hi
      rw [Tip.marks, List.append_nil] at hm
      rw [Registry.marks_extendBefore_behind _ hnodup, hm]
      generalize hkey : Tip.vacant.key? = key? at hi
      cases hi with
      | tip c => cases hkey
      | name name =>
          intro k hk
          cases hk
      | made c =>
          intro k hk
          obtain rfl : c.key = k := by simpa [Target.channel?] using hk
          refine Registry.ne_of_last_of_not_mem fun hin => ?_
          have hcount := hn c.key
          have hpos := List.count_pos_iff.2 hin
          simp only [ResolvedInput.marks, Option.map_some, Option.toList_some,
            Mark.keys_cons, Mark.key_channel, Mark.keys_nil,
            List.count_singleton_self, Sketch.keys, Sketch.marks, ht, Tip.marks,
            List.append_nil, Mark.keys_append, List.count_append, ← hm]
            at hcount hpos
          omega
  | bare k =>
      rw [ht] at hm hi
      generalize hkey : (Tip.bare k).key? = key? at hi
      cases hi with
      | name name => cases hkey
      | made c => cases hkey
      | tip c =>
          obtain rfl : k = c.key := by simpa [Tip.key?] using hkey
          exact Registry.marks_extendBefore_last (m := .channel c.key) hm hnodup
  | shared k l =>
      rw [ht] at hm hi
      generalize hkey : (Tip.shared k l).key? = key? at hi
      cases hi with
      | name name => cases hkey
      | made c => cases hkey
      | tip c =>
          obtain rfl : k = c.key := by simpa [Tip.key?] using hkey
          rw [Registry.marks_extendBefore_behind _ hnodup, hm]
          · rfl
          · intro j hj
            obtain rfl : c.key = j := by simpa [Target.channel?] using hj
            exact Registry.ne_of_last_of_behind (m := .channel c.key) hm
              (hd.behind _ l ht)

/-- Where a flow stands on no channel, everything is in the base. -/
theorem Traced.base_of_vacant (hd : b.Traced s) (hv : s.tip = .vacant) :
    b.registry.marks = s.base := by
  rw [hd.marks, Sketch.marks, hv, Tip.marks, List.append_nil]

theorem Traced.held_of_vacant (hd : b.Traced s) (hv : s.tip = .vacant) :
    b.cursor.deferred = [] := by
  have htaps := hd.taps
  rw [hd.vacant hv] at htaps
  exact List.map_eq_nil_iff.1 htaps

/-- Before an endpoint is registered, its side flows stand ahead of its
channel, and a channel made for it stands last. -/
theorem Traced.ready (hd : b.Traced s) {input : ResolvedInput}
    (hi : input.Fits s.tip.key?) {sides : List Registry}
    (hn : ∀ k, s.keys.count k + (Mark.keys (sides.flatMap Registry.marks)).count k +
      (Mark.keys input.marks).count k ≤ 1) :
    (b.ready input sides).registry.marks = s.lead (sides.map Registry.marks) ++
      input.marks ∧
    (b.ready input sides).cursor.deferred = b.cursor.deferred ∧
    (b.ready input sides).cursor.channel = none := by
  have hlead := hd.marks_extendBefore hi hn
  unfold Builder.ready
  dsimp only
  generalize hp : placeSides { b with cursor := { b.cursor with channel := none } }
    input.target sides = p
  have hplaced : p.registry.marks = s.lead (sides.map Registry.marks) ∧
      p.cursor.deferred = b.cursor.deferred ∧
      p.cursor.channel = none := by
    rw [← hp, ← hlead]
    unfold placeSides
    split
    · simp
    · exact ⟨rfl, rfl, rfl⟩
  obtain ⟨hmarks, hdeferred, hchannel⟩ := hplaced
  rw [marks_bindPending, deferred_bindPending, channel_bindPending]
  generalize s.tip.key? = key? at hi
  cases hi with
  | tip c | name name =>
      exact ⟨by simp [hmarks, ResolvedInput.marks], hdeferred, hchannel⟩
  | made c =>
      refine ⟨?_, hdeferred, hchannel⟩
      rw [← hmarks]
      refine Registry.marks_add_of_not_mem fun hk => ?_
      have hcount := hn c.key
      have hpos := List.count_pos_iff.2 hk
      have hkeys := s.keys_lead (sides.map Registry.marks) c.key
      rw [← List.flatMap_def] at hkeys
      rw [hmarks] at hpos
      simp only [ResolvedInput.marks, Option.map_some, Option.toList_some,
        Mark.keys_cons, Mark.key_channel, Mark.keys_nil, List.count_singleton_self,
        Component.key] at hcount hpos
      omega

/-- Where no channel is current, the flows held back are placed behind
everything. -/
theorem marks_flushDeferred (hc : b.cursor.channel = none)
    (hn : (Mark.keys b.registry.marks ++
        Mark.keys (b.cursor.deferred.flatMap Registry.marks)).Nodup) :
    b.flushDeferred.registry.marks = b.registry.marks ++
      b.cursor.deferred.flatMap Registry.marks := by
  unfold flushDeferred
  split
  · next h => simp [h]
  · refine Registry.marks_extendBefore_behind (fun k hk => ?_) hn
    rw [currentKey?_eq_none.2 fun c => by simp [hc]] at hk
    cases hk

/-- The tip is read by an endpoint, whose key was taken out of the supply. -/
theorem Traced.wire (hd : b.Traced s) {spec : EndpointSpec} {input : ResolvedInput}
    (hi : input.Fits s.tip.key?) {sides : List Registry}
    (hn : w.Room
      (s.keys ++ Mark.keys (sides.flatMap Registry.marks) ++ Mark.keys input.marks))
    (hy : Yields (b.wire spec input sides) w b' w') :
    ∃ reader, Sketch.Reader s.tip.key? reader ∧
      reader = input.marks ++
        [.endpoint ⟨w.nextComponent⟩ (input.target.channel?.map Channel.key)] ∧
      b'.Traced (s.wired (sides.map Registry.marks) reader) ∧
      w.Spent (Mark.keys input.marks) w' (Mark.keys reader) := by
  obtain ⟨e, hreg, -, hr, hdeferred, hchannel⟩ := of_yields_wire hy
  obtain ⟨-, he, hnext, -, -⟩ := of_yields_registerEndpoint hreg
  have hkey : e.key = ⟨w.nextComponent⟩ := by rw [he]
  have hinput : e.input = input.target := by rw [he]
  have hsupply : ∀ k, supply w.nextComponent k = supply w'.nextComponent k +
        [e.key].count k :=
    fun k => by
      rw [hnext, hkey]
      exact supply_succ w.nextComponent k
  have hn : ∀ k,
      s.keys.count k + (Mark.keys (sides.flatMap Registry.marks)).count k +
        (Mark.keys input.marks).count k + supply w.nextComponent k ≤ 1 := by
    simpa only [Room, List.count_append] using hn
  have hroom : ∀ k,
      s.keys.count k + (Mark.keys (sides.flatMap Registry.marks)).count k +
        (Mark.keys input.marks).count k ≤ 1 :=
    fun k => Nat.le_trans (Nat.le_add_right _ _) (hn k)
  obtain ⟨hmarks, hheld, hnone⟩ := hd.ready hi hroom
  have hreader :
      Sketch.Reader s.tip.key?
        (input.marks ++
          [.endpoint e.key (input.target.channel?.map Channel.key)]) := by
    generalize s.tip.key? = key? at hi
    cases hi with
    | tip c => exact .tip c.key e.key
    | name name => exact .name e.key
    | made c => exact .made c.key e.key
  rw [hnone] at hchannel
  generalize hp : b.ready input sides = p at hr hmarks hheld hnone
  have hcount : ∀ k, (Mark.keys p.registry.marks).count k + [e.key].count k +
      (Mark.keys (p.cursor.deferred.flatMap Registry.marks)).count k ≤ 1 := by
    intro k
    have hk := hn k
    have hs := hsupply k
    have hlead := s.keys_lead (sides.map Registry.marks) k
    rw [← List.flatMap_def] at hlead
    rw [hmarks, hheld, List.flatMap_def, hd.taps, Mark.keys_append,
      List.count_append]
    omega
  have hadd : (p.registry.add (.endpoint e)).marks = p.registry.marks ++
        [.endpoint e.key (input.target.channel?.map Channel.key)] := by
    rw [Registry.marks_add_of_not_mem, Component.mark, hinput]
    intro hm
    have hpos := List.count_pos_iff.2 hm
    have hk := hcount e.key
    simp only [Component.key, List.count_singleton_self] at hpos hk
    omega
  refine ⟨_, hreader, by rw [hkey],
    ⟨?_, ?_, ?_, fun h => absurd rfl h, by rintro _ _ ⟨⟩, fun _ => rfl⟩,
    fun k => ?_, fun k => ?_⟩
  · have hflush := marks_flushDeferred
      (b := { p with registry := p.registry.add (.endpoint e) }) hnone
    rw [hr]
    refine (hflush ?_).trans ?_
    · show (Mark.keys (p.registry.add (.endpoint e)).marks ++
        Mark.keys (p.cursor.deferred.flatMap Registry.marks)).Nodup
      rw [hadd, List.nodup_iff_count]
      intro k
      have hk := hcount k
      simp only [Mark.keys_append, Mark.keys_cons, Mark.key_endpoint, Mark.keys_nil,
        List.count_append] at hk ⊢
      omega
    · show (p.registry.add (.endpoint e)).marks ++
            p.cursor.deferred.flatMap Registry.marks = _
      rw [hadd, hmarks, hheld, List.flatMap_def, hd.taps]
      simp [Sketch.wired, Sketch.marks, Tip.marks]
  · simp [hdeferred, Sketch.wired]
  · refine currentKey?_eq_none.2 fun c => ?_
    simp [hchannel]
  · have hs := hsupply k
    simp only [Mark.keys_append, Mark.keys_cons, Mark.key_endpoint, Mark.keys_nil,
      List.count_append]
    omega
  · have hs := hsupply k
    omega

/-- The order stays sound where the side flows are whole. -/
theorem Drawn.wire (hd : b.Drawn s) {spec : EndpointSpec} {input : ResolvedInput}
    (hi : input.Fits s.tip.key?) {sides : List Registry}
    (hw : ∀ r ∈ sides, Mark.Whole r.marks)
    (hn : w.Room
      (s.keys ++ Mark.keys (sides.flatMap Registry.marks) ++ Mark.keys input.marks))
    (hy : Yields (b.wire spec input sides) w b' w') :
    ∃ reader, Sketch.Reader s.tip.key? reader ∧
      b'.Drawn (s.wired (sides.map Registry.marks) reader) ∧
      w.Spent (Mark.keys input.marks) w' (Mark.keys reader) := by
  obtain ⟨reader, hreader, -, htraced, hspent⟩ := hd.traced.wire hi hn hy
  have hwhole : ∀ l ∈ sides.map Registry.marks, Mark.Whole l := by
    intro l hl
    obtain ⟨r, hr, rfl⟩ := List.mem_map.1 hl
    exact hw r hr
  refine ⟨reader, hreader, htraced.drawn (hd.sound.wired hwhole hreader ?_), hspent⟩
  have hroom := hn.of_spent (hspent.prepend _)
  rw [List.nodup_iff_count]
  intro k
  have hk := hroom k
  rw [Sketch.keys_wired, ← List.flatMap_def]
  simp only [List.count_append] at hk
  omega

/-- An endpoint without side flows. -/
theorem Traced.attach (hd : b.Traced s) {spec : EndpointSpec} (hn : w.Room s.keys)
    (hy : Yields (b.attach spec) w b' w') :
    ∃ reader, Sketch.Reader s.tip.key? reader ∧ b'.Traced (s.wired [] reader) ∧
      w.Spent [] w' (Mark.keys reader) := by
  obtain ⟨input, w₁, hi, hw⟩ := of_yields_attach hy
  obtain ⟨hfits, htaken⟩ := hd.resolveInput hi
  have hroom :
      w₁.Room (s.keys ++ Mark.keys (([] : List Registry).flatMap Registry.marks) ++
        Mark.keys input.marks) := by
    refine hn.of_spent ?_
    simpa using htaken.prepend s.keys
  obtain ⟨reader, hreader, -, htraced, hsupply⟩ := hd.wire hfits hroom hw
  exact ⟨reader, hreader, htraced, htaken.trans hsupply⟩

/-- An endpoint that reads the current channel stands at the end, if nothing
is held back. -/
theorem marks_attach {spec : EndpointSpec} {c : Channel}
    (hy : Yields (b.attach spec) w b' w')
    (hc : b.cursor.channel = some (.channel c)) (hd : b.cursor.deferred = [])
    (hn : w.Room (Mark.keys b.registry.marks)) :
    ∃ e, b'.registry.marks = b.registry.marks ++ [.endpoint e (some c.key)] ∧
      b'.cursor.deferred = [] ∧
      b'.cursor.channel = none ∧ w.Spent [] w' [e] := by
  obtain ⟨input, w₁, hi, hw⟩ := of_yields_attach hy
  rcases of_yields_resolveInput hi
    with ⟨c', hc', rfl, rfl⟩ | ⟨name, hc', -⟩ | ⟨c', hc', -⟩
  · obtain rfl : c = c' := by simpa [hc] using hc'
    obtain ⟨e, hreg, -, hr, hdeferred, hchannel⟩ := of_yields_wire hw
    obtain ⟨-, he, hnext, -, -⟩ := of_yields_registerEndpoint hreg
    have hkey : e.key = ⟨w₁.nextComponent⟩ := by rw [he]
    have hinput : e.input = .channel c := by rw [he]
    have hready :
        (b.ready ⟨.channel c, none⟩ []).registry.marks = b.registry.marks :=
      marks_bindPending _ _
    have hheld : (b.ready ⟨.channel c, none⟩ []).cursor.deferred = [] :=
      (deferred_bindPending _ _).trans hd
    have hnone : (b.ready ⟨.channel c, none⟩ []).cursor.channel = none :=
      channel_bindPending _ _
    refine ⟨e.key, ?_, hdeferred, hchannel.trans hnone, ⟨fun k => ?_, fun k => ?_⟩⟩
    · rw [hr]
      unfold flushDeferred
      split
      · show ((b.ready ⟨.channel c, none⟩ []).registry.add (.endpoint e)).marks = _
        rw [Registry.marks_add_of_not_mem, hready, Component.mark, hinput]
        · rfl
        · rw [hready]
          show e.key ∉ _
          rw [hkey]
          exact List.count_eq_zero.1 hn.next
      · next hne => exact absurd hheld hne
    · rw [hkey, hnext, supply_succ w₁.nextComponent k, List.count_nil]
      omega
    · rw [hnext]
      exact supply_mono (Nat.le_succ _) k
  · rw [hc] at hc'
    cases hc'
  · rw [hc] at hc'
    rcases hc' with ⟨id, hc'⟩ | hc' <;> cases hc'

/-- A channel that is registered and read at once. -/
theorem marks_attach_added {spec : EndpointSpec} {r : Registry} {c : Channel}
    (hy : Yields (b.attach spec) w b' w') (hreg : b.registry = r.add (.channel c))
    (hc : b.cursor.channel = some (.channel c)) (hd : b.cursor.deferred = [])
    (hn : w.Room (Mark.keys r.marks ++ [c.key])) :
    ∃ e, b'.registry.marks = r.marks ++ [.channel c.key, .endpoint e (some c.key)] ∧
      b'.cursor.deferred = [] ∧
      w.Spent [] w' [e] := by
  have hadd : b.registry.marks = r.marks ++ [.channel c.key] := by
    rw [hreg, Registry.marks_add_of_not_mem]
    · rfl
    · exact fun hk => (List.nodup_append.1 hn.nodup).2.2 _ hk _
        (List.mem_singleton_self _) rfl
  obtain ⟨e, hmarks, hheld, -, hspent⟩ :=
    marks_attach hy hc hd (by simpa [hadd] using hn)
  refine ⟨e, ?_, hheld, hspent⟩
  rw [hmarks, hadd, List.append_assoc]
  rfl

end Builder

namespace Sketch

variable {s : Sketch}

/-- The sketch with a channel appended, which becomes the tip. -/
def standing (s : Sketch) (k : ComponentKey) : Sketch :=
  ⟨s.base, .bare k, []⟩

theorem keys_standing (hv : s.tip = .vacant) (ht : s.taps = [])
    (k j : ComponentKey) :
    (s.standing k).keys.count j = s.keys.count j + [k].count j := by
  simp [keys, standing, marks, hv, Tip.marks, ht]

theorem Sound.standing (hs : s.Sound) {k : ComponentKey}
    (hn : (s.standing k).keys.Nodup) :
    (s.standing k).Sound where
  base := hs.base
  behind _ _ ht := by cases ht
  vacant ht := by cases ht
  taps _ hl := by cases hl
  distinct := hn

theorem Sound.outlook_standing (hs : s.Sound) (hv : s.tip = .vacant)
    (k : ComponentKey) :
    (s.standing k).outlook = { s.outlook with landing := .bare } := by
  simp [outlook, Sketch.standing, hv, hs.vacant hv, Tip.landing, Tip.behind,
    Tip.marks, Mark.misplaced, Mark.misplacedFrom, Mark.reads?]

/-- The sketch with more flows held back. -/
def held (s : Sketch) (flows : List (List Mark)) : Sketch :=
  ⟨s.base, s.tip, s.taps ++ flows⟩

theorem keys_held (s : Sketch) (flows : List (List Mark)) (k : ComponentKey) :
    (s.held flows).keys.count k = s.keys.count k +
      (Mark.keys flows.flatten).count k := by
  simp only [keys, held, marks, List.flatten_append, Mark.keys_append,
    List.count_append]
  omega

theorem Sound.held (hs : s.Sound) (hne : s.tip ≠ .vacant) {flows : List (List Mark)}
    (hf : ∀ l ∈ flows, Mark.Block l) (hn : (s.held flows).keys.Nodup) :
    (s.held flows).Sound where
  base := hs.base
  behind := hs.behind
  vacant hv := absurd hv hne
  taps l hl := (List.mem_append.1 hl).elim (hs.taps l) (hf l)
  distinct := hn

theorem outlook_held (s : Sketch) (flows : List (List Mark)) :
    (s.held flows).outlook =
      ⟨s.outlook.landing, s.outlook.crowded || flows.any Mark.crowded,
        s.outlook.misplaced || flows.any Mark.misplaced⟩ := by
  simp [outlook, Sketch.held, Bool.or_assoc]

end Sketch

namespace Builder

variable {b b' : Builder} {s : Sketch} {w w' : Workshop}

/-- A channel, a name or a marker behind a flow that stands on no channel. -/
theorem Traced.appended (hd : b.Traced s) (hv : s.tip = .vacant)
    {source : ChannelSource}
    (hn : ∀ c, source = .channel c → s.keys.count c.key = 0) :
    (∃ c, source = .channel c ∧ (b.appended source).Traced (s.standing c.key)) ∨
    ((∀ c, source ≠ .channel c) ∧ (b.appended source).Traced s) := by
  have hm := hd.marks
  have htaps := hd.taps
  rw [hd.vacant hv] at htaps
  match source with
  | .channel c =>
      refine .inl ⟨c, rfl, ?_, ?_, ?_, fun _ => pending_bindPending _ _,
        by rintro _ _ ⟨⟩, by rintro ⟨⟩⟩
      · show (bindPending { b with registry := b.registry.add (.channel c) }
            (.channel c)).registry.marks = _
        rw [marks_bindPending]
        refine (Registry.marks_add_of_not_mem fun hk => ?_).trans ?_
        · have hpos := List.count_pos_iff.2 hk
          have hzero := hn c rfl
          simp only [Component.key, Sketch.keys, hm, Mark.keys_append,
            List.count_append] at hpos hzero
          omega
        · simp [hm, Sketch.standing, Sketch.marks, hv, Tip.marks, Component.mark]
      · show (bindPending { b with registry := b.registry.add (.channel c) }
            (.channel c)).cursor.deferred.map _ = _
        rw [deferred_bindPending]
        exact htaps
      · exact currentKey?_eq_some.2 ⟨c, rfl, rfl⟩
  | .named name =>
      refine .inr ⟨by simp, ?_, ?_, ?_, fun h => absurd hv h, hd.behind, hd.vacant⟩
      · exact (marks_bindPending b _).trans hm
      · exact (congrArg _ (deferred_bindPending b _)).trans hd.taps
      · rw [hv]
        exact currentKey?_eq_none.2 fun c => by
          simp [Builder.appended, continueFrom]
  | .fixedSubscriber id =>
      refine .inr ⟨by simp, hm, hd.taps, ?_, fun h => absurd hv h,
        hd.behind, hd.vacant⟩
      rw [hv]
      exact currentKey?_eq_none.2 fun c => by simp [Builder.appended, continueFrom]

end Builder

/-! ## Branches -/

/-- The sketch has the order of the branch, and the channel that it ended on. -/
structure Branch.Drawn (br : Branch) (t : Sketch) : Prop where
  marks : br.registry.marks = t.marks
  current : br.channel?.map Channel.key = t.tip.key?
  taps : t.taps = []
  sound : t.Sound

/-- The sketch has the order of the branch, and the channel that it ended on,
whatever its parts come to. -/
structure Branch.Traced (br : Branch) (t : Sketch) : Prop where
  marks : br.registry.marks = t.marks
  current : br.channel?.map Channel.key = t.tip.key?
  taps : t.taps = []

theorem Branch.Drawn.traced {br : Branch} {t : Sketch} (hd : br.Drawn t) :
    br.Traced t :=
  ⟨hd.marks, hd.current, hd.taps⟩

namespace Builder

variable {b b' : Builder} {s : Sketch} {w w' : Workshop}

/-- A flow that is nothing but its channel. -/
theorem drawn_seeded {c : Channel}
    (hr : b.registry = Registry.empty.add (.channel c))
    (hc : b.cursor = { channel := some (.channel c) }) :
    b.Drawn ⟨[], .bare c.key, []⟩ where
  marks := by
    rw [hr]
    exact Registry.marks_add_of_not_mem (by simp)
  taps := by rw [hc]; rfl
  current := by rw [currentKey?, hc]; rfl
  pending _ := by rw [hc]
  sound := {
    base := Mark.whole_nil
    behind := fun _ _ ht => by cases ht
    vacant := fun ht => by cases ht
    taps := fun _ hl => by cases hl
    distinct := by simp [Sketch.keys, Sketch.marks, Tip.marks] }

theorem drawn_branch (b : Builder) (c : Channel) :
    (b.branch c).Drawn ⟨[], .bare c.key, []⟩ :=
  drawn_seeded rfl rfl

/-- Flows that are held back go ahead of the channel of a bare tip, and behind
everything where the tip is another. -/
theorem Traced.marks_flushDeferred (hd : b.Traced s) (hn : s.keys.Nodup) :
    b.flushDeferred.registry.marks = s.flushed.marks := by
  have hm := hd.marks
  have htaps : b.cursor.deferred.flatMap Registry.marks = s.taps.flatten := by
    rw [List.flatMap_def, hd.taps]
  have hnodup :
      (Mark.keys b.registry.marks ++
        Mark.keys (b.cursor.deferred.flatMap Registry.marks)).Nodup := by
    rw [htaps, hm, ← Mark.keys_append]
    exact hn
  have hflush : b.flushDeferred.registry.marks =
      (b.registry.extendBefore b.currentKey? b.cursor.deferred).marks := by
    unfold flushDeferred
    split
    · next h => rw [h, Registry.marks_extendBefore_nil]
    · rfl
  rw [hflush, hd.current]
  unfold Sketch.flushed
  unfold Sketch.marks at hm
  split
  · next h =>
      rw [h] at hm ⊢
      rw [Registry.marks_extendBefore_behind (fun k hk => by simp [Tip.key?] at hk)
          hnodup, htaps, hd.vacant h]
      simp [Sketch.marks, hm, h]
  · next k h =>
      rw [h] at hm ⊢
      refine (Registry.marks_extendBefore_last (m := .channel k) hm hnodup).trans ?_
      rw [htaps]
      rfl
  · next k l h =>
      rw [h] at hm ⊢
      rw [Registry.marks_extendBefore_behind _ hnodup, htaps, hm]
      · simp [Sketch.marks, Tip.marks]
      · intro j hj
        obtain rfl : k = j := by simpa [Tip.key?] using hj
        exact Registry.ne_of_last_of_behind (m := .channel k) hm (hd.behind k l h)

theorem pending_flushDeferred (b : Builder) :
    b.flushDeferred.cursor.pending = b.cursor.pending := by
  unfold flushDeferred
  split <;> rfl

theorem channel_flushDeferred (b : Builder) :
    b.flushDeferred.cursor.channel = b.cursor.channel := by
  unfold flushDeferred
  split <;> rfl

/-- A nested builder ends with the flows that it holds back in their place. -/
theorem Drawn.intoBranch (hd : b.Drawn s) (hn : b.nested = true) {br : Branch}
    (hy : Yields b.intoBranch w br w') : w' = w ∧ br.Drawn s.flushed := by
  obtain ⟨rfl, hr, hend⟩ := of_yields_intoBranch hn hy
  rw [pending_flushDeferred, channel_flushDeferred] at hend
  refine ⟨rfl, ?_, ?_, hd.sound.taps_flushed, hd.sound.flushed⟩
  · rw [hr]
    exact hd.traced.marks_flushDeferred hd.sound.distinct
  · rw [Sketch.key?_flushed, ← hd.current]
    rcases hend with ⟨output, he, hp⟩ | ⟨c, he, -, hc⟩ | ⟨he, hc⟩
    · -- A flow that stands on a channel has bound every output before it.
      have hvacant : s.tip = .vacant := Classical.byContradiction fun hne => by
        rw [hd.pending hne] at hp
        cases hp
      rw [hd.current, hvacant]
      simp [Branch.channel?, he, Tip.key?]
    · rw [currentKey?_eq_some.2 ⟨c, hc, rfl⟩]
      simp [Branch.channel?, he]
    · rw [currentKey?_eq_none.2 hc]
      simp [Branch.channel?, he]

end Builder

namespace Branch

variable {br br' : Branch} {parent : Builder} {t : Sketch} {w w' : Workshop}

/-- A bridge behind the channel that a branch ended on reads it. -/
theorem Traced.addBridge (hd : br.Traced t) {last : Channel} {key : ComponentKey}
    (he : br.ending = .channel last) (hn : w.Room t.keys)
    (hy : Yields (br.addBridge parent last) w (br', key) w') :
    t.Shut br'.registry.marks ∧
    w.Spent t.keys w' (Mark.keys br'.registry.marks) := by
  obtain ⟨e, hreg, rfl, rfl⟩ := of_yields_addBridge hy
  obtain ⟨-, he', hnext, -, -⟩ := of_yields_registerEndpoint hreg
  have hkey : e.key = ⟨w.nextComponent⟩ := by rw [he']
  have hinput : e.input = .channel last := by rw [he']
  have htip : t.tip.key? = some last.key := by
    rw [← hd.current]
    simp [channel?, he]
  have hkeys : ∀ k, t.keys.count k = (Mark.keys br.registry.marks).count k :=
    fun k => by
      simp [Sketch.keys, hd.taps, hd.marks]
  have hsupply : ∀ k, supply w.nextComponent k = supply w'.nextComponent k +
        [e.key].count k :=
    fun k => by
      rw [hnext, hkey]
      exact supply_succ w.nextComponent k
  have hadd : (br.registry.add (.endpoint e)).marks = br.registry.marks ++
        [.endpoint e.key (some last.key)] := by
    rw [Registry.marks_add_of_not_mem]
    · simp [Component.mark, hinput, Target.channel?]
    · intro hm
      have hpos := List.count_pos_iff.2 hm
      have hk := hn e.key
      have hs := hsupply e.key
      simp only [hkeys, Component.key, List.count_singleton_self] at hpos hk hs
      omega
  have hbase : (br.registry.add (.endpoint e)).marks =
      (t.wired [] [.endpoint e.key (some last.key)]).base := by
    rw [hadd, hd.marks]
    unfold Sketch.wired Sketch.lead Sketch.marks
    rw [hd.taps]
    cases ht : t.tip <;> simp [Tip.marks]
  refine ⟨?_, fun k => ?_, fun k => ?_⟩
  · show t.Shut (br.registry.add (.endpoint e)).marks
    rw [hbase]
    refine .read (fun hv => ?_) (htip ▸ .tip last.key e.key)
    rw [hv] at htip
    cases htip
  · have hs := hsupply k
    show (Mark.keys (br.registry.add (.endpoint e)).marks).count k + _ ≤ _
    rw [hadd, hkeys]
    simp only [Mark.keys_append, Mark.keys_cons, Mark.key_endpoint, Mark.keys_nil,
      List.count_append]
    omega
  · have hs := hsupply k
    omega

/-- A branch that ended on no channel is as it stands when it is left open. -/
theorem Traced.shut_of_none (hd : br.Traced t) (hc : br.channel? = none) :
    t.Shut br.registry.marks := by
  have htip : t.tip = .vacant := by
    rw [← Tip.key?_eq_none, ← hd.current, hc]
    rfl
  have hbase : br.registry.marks = t.base := by
    simp [hd.marks, Sketch.marks, htip, Tip.marks]
  rw [hbase]
  exact .closed htip

theorem Traced.keys (hd : br.Traced t) : Mark.keys br.registry.marks = t.keys := by
  simp [Sketch.keys, hd.taps, hd.marks]

theorem Traced.leaveOpen (hd : br.Traced t) (hn : w.Room t.keys)
    (hy : Yields (br.leaveOpen parent) w br' w') :
    t.Shut br'.registry.marks ∧
    w.Spent t.keys w' (Mark.keys br'.registry.marks) := by
  rcases of_yields_leaveOpen hy with ⟨hc, rfl, rfl⟩ | ⟨last, key, he, ha⟩
  · rw [hd.keys]
    exact ⟨hd.shut_of_none hc, .refl _ _⟩
  · exact hd.addBridge he hn ha

/-- A branch that converges stands on the merge channel as it is, or is closed
like one that is left open. -/
theorem Traced.converge (hd : br.Traced t) {merge : Channel} (hn : w.Room t.keys)
    (hy : Yields (br.converge parent merge) w br' w') :
    (t.tip.key? ≠ some merge.key ∧ t.Shut br'.registry.marks ∨
      t.tip.key? = some merge.key ∧ br'.registry.marks = t.marks) ∧
      w.Spent t.keys w' (Mark.keys br'.registry.marks) := by
  have hkeys := hd.keys
  have hcurrent := hd.current
  obtain ⟨output, he, rfl, rfl⟩ | ⟨he, rfl, heq⟩ | ⟨last, he, hk, rfl, rfl⟩ | ⟨last,
    linked, key, he, hk, ha, rfl⟩ :=
    of_yields_converge hy
  · have hc : br.channel? = none := by simp [channel?, he]
    rw [Registry.marks_bindOutput, hkeys]
    refine ⟨.inl ⟨?_, hd.shut_of_none hc⟩, .refl _ _⟩
    rw [← hcurrent, hc]
    simp
  · have hc : br.channel? = none := by simp [channel?, he]
    rw [heq, hkeys]
    refine ⟨.inl ⟨?_, hd.shut_of_none hc⟩, .refl _ _⟩
    rw [← hcurrent, hc]
    simp
  · rw [hkeys]
    refine ⟨.inr ⟨?_, hd.marks⟩, .refl _ _⟩
    rw [← hcurrent]
    simp [channel?, he, hk]
  · obtain ⟨hshut, hcount⟩ := hd.addBridge he hn ha
    rw [Registry.marks_bindOutput]
    refine ⟨.inl ⟨?_, hshut⟩, hcount⟩
    rw [← hcurrent]
    simpa [channel?, he] using hk

end Branch

end FlowAssembly
