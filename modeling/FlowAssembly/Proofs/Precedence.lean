import FlowAssembly.Graph.Basic
import FlowAssembly.Proofs.Interceptions
import FlowAssembly.Proofs.StepTurns

/-!
# Points in an order

The edges of a flow lead between points: components, and names that are only
referred to. A flow has no cycle if its points can be put in an order in which
every edge leads forward. The order in which components are registered is no
such order, since the flow of a tap may stand ahead of the channel that is
tapped, and side flows stand ahead of what sends to them. So the order is a
list of its own, which grows as the flow does: what is `Charted` in it stands
in it with all its edges, and still does when the list has more in between.

That an order holds no point twice is kept by an account (`Workshop.Places`).
A point is put in its place when the program mentions it, or it is a component
that was made just then. In the same account the interceptors that are
attached lead forward.
-/

namespace FlowAssembly

open Assembly Workshop

/-- What an edge leads from or to: a component, or a name that is referred
to. -/
inductive Point where
  | key (key : ComponentKey)
  | name (text : String)
deriving DecidableEq

/-- The point that a target is. -/
def Target.point : Target → Point
  | .channel c => .key c.key
  | .named name => .name name

/-- The first point stands before the second. -/
def Precedes (order : List Point) (u v : Point) : Prop :=
  [u, v].Sublist order

section

variable {order order' before after : List Point} {u v : Point}

theorem Precedes.mono (h : Precedes order u v) (hs : order.Sublist order') :
    Precedes order' u v :=
  List.Sublist.trans h hs

theorem Precedes.right (h : Precedes order u v) : v ∈ order :=
  h.subset (List.mem_cons_of_mem _ List.mem_cons_self)

theorem precedes_append (hu : u ∈ before) (hv : v ∈ after) :
    Precedes (before ++ after) u v :=
  (List.singleton_sublist.2 hu).append (List.singleton_sublist.2 hv)

theorem Precedes.idxOf_lt (h : Precedes order u v) (hn : order.Nodup) :
    order.idxOf u < order.idxOf v := by
  obtain ⟨before, after, rfl, hu, hv⟩ := List.cons_sublist_iff.1 h
  have hv := List.singleton_sublist.1 hv
  have hapart : v ∉ before := fun hm => (List.nodup_append.1 hn).2.2 v hm v hv rfl
  rw [List.idxOf_append_of_mem hu, List.idxOf_append_of_notMem hapart]
  exact Nat.lt_of_lt_of_le (List.idxOf_lt_length_of_mem hu) (Nat.le_add_right _ _)

end

/-! ## What is charted -/

/-- The edges of a component, apart from what it is called. -/
def Component.links (taps : Interceptions) : Component → List (Point × Point)
  | .channel c =>
      ((taps c.key).filterMap Interceptor.tapTarget?).map fun t =>
        (.key c.key, t.point)
  | .endpoint e =>
      (e.input.point, .key e.key) :: (e.output.toList.map fun t =>
        (.key e.key, t.point)) ++ e.handler.routeTargets.map fun t =>
          (.key e.key, t.point)
  | .source s => s.output.toList.map fun t => (.key s.key, t.point)

/-- The component stands in the order, and all its edges lead forward. -/
structure Component.Charted (taps : Interceptions) (order : List Point)
    (x : Component) : Prop where
  key : .key x.key ∈ order
  links : ∀ link ∈ x.links taps, Precedes order link.1 link.2

/-- The target stands in the order, and if it is a channel, so do its taps. -/
def Target.Charted (taps : Interceptions) (order : List Point) : Target → Prop
  | .channel c => (Component.channel c).Charted taps order
  | .named name => .name name ∈ order

/-- All that stands in the flow is charted. The channel that it stands on is
too, and nothing is pending then. -/
structure Builder.Charted (taps : Interceptions) (order : List Point)
    (b : Builder) : Prop where
  components : ∀ x ∈ b.components, x.Charted taps order
  current : ∀ source ∈ b.cursor.channel, ∀ target ∈ source.target?,
    target.Charted taps order ∧ b.cursor.pending = none
  pending : ∀ output ∈ b.cursor.pending, .key output.component ∈ order

/-- All that stands in the branch is charted, and so is what it ended on. -/
structure Branch.Charted (taps : Interceptions) (order : List Point) (br : Branch) :
    Prop where
  components : ∀ x ∈ br.registry.components, x.Charted taps order
  channel : ∀ c, br.ending = .channel c → (Component.channel c).Charted taps order
  pending : ∀ output, br.ending = .pending output → .key output.component ∈ order

/-- Nothing was attached to a channel that is yet to be made. -/
def Interceptions.Blank (taps : Interceptions) (next : Nat) : Prop :=
  ∀ k : ComponentKey, next ≤ k.number → taps k = []

section

variable {taps : Interceptions} {order order' : List Point} {n n' : Nat}

theorem Interceptions.Blank.mono (h : taps.Blank n) (hn : n ≤ n') : taps.Blank n' :=
  fun k hk => h k (Nat.le_trans hn hk)

theorem Component.Charted.mono {x : Component} (h : x.Charted taps order)
    (hs : order.Sublist order') :
    x.Charted taps order' :=
  ⟨hs.subset h.key, fun link hl => (h.links link hl).mono hs⟩

theorem Target.Charted.mono {target : Target} (h : target.Charted taps order)
    (hs : order.Sublist order') :
    target.Charted taps order' := by
  cases target with
  | channel c => exact Component.Charted.mono h hs
  | named name => exact hs.subset h

theorem Target.Charted.mem {target : Target} (h : target.Charted taps order) :
    target.point ∈ order := by
  cases target with
  | channel c => exact h.key
  | named name => exact h

theorem Builder.Charted.mono {b : Builder} (h : b.Charted taps order)
    (hs : order.Sublist order') :
    b.Charted taps order' where
  components x hx := (h.components x hx).mono hs
  current source hsource target ht :=
    ⟨((h.current source hsource target ht).1).mono hs,
      (h.current source hsource target ht).2⟩
  pending output ho := hs.subset (h.pending output ho)

theorem Branch.Charted.mono {br : Branch} (h : br.Charted taps order)
    (hs : order.Sublist order') :
    br.Charted taps order' where
  components x hx := (h.components x hx).mono hs
  channel c hc := (h.channel c hc).mono hs
  pending output ho := hs.subset (h.pending output ho)

/-- A channel to which nothing was attached only has to stand somewhere. -/
theorem Component.charted_channel {c : Channel} (hblank : taps c.key = [])
    (hk : .key c.key ∈ order) :
    (Component.channel c).Charted taps order := by
  refine ⟨hk, fun link hl => ?_⟩
  rw [links, hblank] at hl
  cases hl

theorem Component.charted_endpoint {e : Endpoint}
    (hin : Precedes order e.input.point (.key e.key)) (hout : e.output = none)
    (hroutes : ∀ t ∈ e.handler.routeTargets, Precedes order (.key e.key) t.point) :
    (Component.endpoint e).Charted taps order := by
  refine ⟨hin.right, fun link hl => ?_⟩
  rw [links, hout, Option.toList_none, List.map_nil, List.singleton_append,
    List.mem_cons, List.mem_map] at hl
  obtain rfl | ⟨t, ht, rfl⟩ := hl
  · exact hin
  · exact hroutes t ht

/-- A component whose output is set is charted with it, if the output stands
behind it. -/
theorem Component.Charted.withOutput {x : Component} (h : x.Charted taps order)
    {target : Target} (ht : Precedes order (.key x.key) target.point) :
    (x.withOutput target).Charted taps order := by
  refine ⟨(Component.key_withOutput target x).symm ▸ h.key, ?_⟩
  have hold := h.links
  cases x with
  | channel c => exact hold
  | source s =>
      intro link hl
      obtain rfl := List.mem_singleton.1 hl
      exact ht
  | endpoint e =>
      intro link hl
      rcases List.mem_append.1 hl with hl | hl
      · rcases List.mem_cons.1 hl with rfl | hl
        · exact hold _ (List.mem_append_left _ List.mem_cons_self)
        · obtain rfl := List.mem_singleton.1 hl
          exact ht
      · exact hold _ (List.mem_append_right _ hl)

theorem Component.Charted.boundTo {x : Component} (h : x.Charted taps order)
    {k : ComponentKey} {target : Target}
    (ht : Precedes order (.key k) target.point) :
    (x.boundTo k target).Charted taps order := by
  unfold Component.boundTo
  split
  · next hk => exact h.withOutput (hk ▸ ht)
  · exact h

end

/-! ## The account of points -/

/-- Whether a point is still in the supply. A name never is. -/
def Point.supply (next : Nat) : Point → Nat
  | .key k => FlowAssembly.supply next k
  | .name _ => 0

namespace Workshop

/-- No interceptor was attached. -/
def Plain (w w' : Workshop) : Prop :=
  w'.attached = w.attached

/-- Between the workshops points were placed: out of those that are mentioned,
and out of the supply. Whatever was attached leads forward in the order. -/
structure Places (w : Workshop) (mentioned placed order : List Point)
    (w' : Workshop) : Prop where
  le : w.nextComponent ≤ w'.nextComponent
  count : ∀ p, placed.count p + p.supply w'.nextComponent ≤ mentioned.count p +
      p.supply w.nextComponent
  taps : ∃ more, w'.attached = w.attached ++ more ∧
    ∀ a ∈ more, ∀ t ∈ a.2.tapTarget?, Precedes order (.key a.1) t.point

variable {w w₁ w' : Workshop}
  {mentioned mentioned' placed placed' order order' : List Point}

theorem Plain.trans (h : w.Plain w₁) (h' : w₁.Plain w') : w.Plain w' :=
  Eq.trans h' h

instance : Std.Refl Plain := ⟨fun _ => rfl⟩
instance : Trans Plain Plain Plain := ⟨Plain.trans⟩

namespace Places

/-- No component was made, what was mentioned is placed, and whatever was
attached leads forward. -/
theorem attaching {more : List (ComponentKey × Interceptor)}
    (hn : w'.nextComponent = w.nextComponent)
    (ha : w'.attached = w.attached ++ more)
    (ht : ∀ a ∈ more, ∀ t ∈ a.2.tapTarget?, Precedes order (.key a.1) t.point) :
    w.Places placed placed order w' where
  le := Nat.le_of_eq hn.symm
  count p := Nat.le_of_eq (by rw [hn])
  taps := ⟨more, ha, ht⟩

theorem idle (hn : w'.nextComponent = w.nextComponent) (hp : w.Plain w') :
    w.Places placed placed order w' :=
  attaching hn (by rw [List.append_nil, hp]) fun a ha => by cases ha

/-- A component that is made takes its place. -/
theorem made (hn : w'.nextComponent = w.nextComponent + 1) (hp : w.Plain w') :
    w.Places [] [.key ⟨w.nextComponent⟩] order w' where
  le := by omega
  count p := by
    rw [hn]
    cases p with
    | name text => simp [Point.supply]
    | key k =>
        have hs := supply_succ w.nextComponent k
        have hk : List.count (Point.key k) [.key ⟨w.nextComponent⟩] =
            [(⟨w.nextComponent⟩ : ComponentKey)].count k := by
          simp [List.count_singleton]
        simp only [Point.supply, hk, List.count_nil]
        omega
  taps := ⟨[], by rw [List.append_nil, hp], fun a ha => by cases ha⟩

theorem mono (h : w.Places mentioned placed order w') (hs : order.Sublist order') :
    w.Places mentioned placed order' w' := by
  obtain ⟨more, ha, ht⟩ := h.taps
  exact ⟨h.le, h.count, more, ha, fun a hm t htap => (ht a hm t htap).mono hs⟩

theorem trans (h : w.Places mentioned placed order w₁)
    (h' : w₁.Places mentioned' placed' order w') :
    w.Places (mentioned ++ mentioned') (placed ++ placed') order w' := by
  obtain ⟨more, ha, ht⟩ := h.taps
  obtain ⟨more', ha', ht'⟩ := h'.taps
  refine ⟨Nat.le_trans h.le h'.le, fun p => ?_, more ++ more',
    by rw [ha', ha, List.append_assoc], fun a hm => ?_⟩
  · have hc := h.count p
    have hc' := h'.count p
    simp only [List.count_append]
    omega
  · rcases List.mem_append.1 hm with hm | hm
    · exact ht a hm
    · exact ht' a hm

/-- Only how often each point occurs matters, and what is placed beyond what
is mentioned. -/
theorem regroup (h : w.Places mentioned placed order w')
    (hp : ∀ p, mentioned.count p + placed'.count p ≤ mentioned'.count p +
      placed.count p) :
    w.Places mentioned' placed' order w' :=
  ⟨h.le, fun p => by
    have hc := h.count p
    have hp := hp p
    omega, h.taps⟩

/-- Nothing but the counter of components and the interceptors matters. -/
theorem congr (h : w.Places mentioned placed order w₁)
    (hn : w'.nextComponent = w₁.nextComponent) (hp : w₁.Plain w') :
    w.Places mentioned placed order w' := by
  obtain ⟨more, ha, ht⟩ := h.taps
  exact ⟨hn ▸ h.le, fun p => hn ▸ h.count p, more, Eq.trans hp ha, ht⟩

/-- Where no point is mentioned twice, and none of them is yet to be made,
none is placed twice. -/
theorem nodup (h : w.Places mentioned placed order w') (hm : mentioned.Nodup)
    (hold : ∀ k, Point.key k ∈ mentioned → k.number < w.nextComponent) :
    placed.Nodup := by
  refine List.nodup_iff_count.2 fun p => ?_
  have hc := h.count p
  have hone := List.nodup_iff_count.1 hm p
  cases p with
  | name text =>
      simp only [Point.supply] at hc
      omega
  | key k =>
      simp only [Point.supply] at hc
      by_cases hk : Point.key k ∈ mentioned
      · rw [show FlowAssembly.supply w.nextComponent k = 0
          from if_neg (Nat.not_le.2 (hold k hk))] at hc
        omega
      · rw [List.count_eq_zero.2 hk] at hc
        have hs : FlowAssembly.supply w.nextComponent k ≤ 1 := by
          unfold FlowAssembly.supply
          split <;> omega
        omega

end Places

end Workshop

/-! ## Calls that attach nothing -/

section

variable {session : SessionId} {owner : String} {w w' : Workshop}

theorem plain_of_registerEndpoint {registry : Registry} {spec : EndpointSpec}
    {input : Target} {answer : Registry × Endpoint}
    (h : Yields (registerEndpoint session owner registry spec input) w answer w') :
    w.Plain w' := by
  rw [registerEndpoint, yields_bind] at h
  obtain ⟨_, _, hp, h⟩ := h
  obtain rfl := eq_of_yields_checkPoller hp
  split at h
  · simp only [claim, yields_bind, yields_updateClaims, yields_newComponentKey,
      yields_pure] at h
    obtain ⟨_, _, ⟨_, -, rfl⟩, _, _, ⟨-, rfl⟩, -, rfl⟩ := h
    rfl
  · simp only [yields_bind, yields_newComponentKey, yields_pure] at h
    obtain ⟨_, _, ⟨-, rfl⟩, -, rfl⟩ := h
    rfl

theorem Builder.plain_of_wire {b b' : Builder} {spec : EndpointSpec}
    {input : ResolvedInput} {sides : List Registry}
    (h : Yields (b.wire spec input sides) w b' w') : w.Plain w' := by
  obtain ⟨_, hreg, -⟩ := of_yields_wire h
  exact plain_of_registerEndpoint hreg

theorem Branch.plain_of_addBridge {br br' : Branch} {parent : Builder}
    {input : Channel} {key : ComponentKey}
    (h : Yields (br.addBridge parent input) w (br', key) w') : w.Plain w' := by
  obtain ⟨_, hreg, -⟩ := of_yields_addBridge h
  have hplain := plain_of_registerEndpoint hreg
  exact hplain

theorem Builder.discard_plain (b : Builder) : b.discard.Leaves Plain := by
  unfold discard
  split
  · exact .pure _
  · exact fun _ => rfl

end

end FlowAssembly
