import FlowAssembly.Proofs.Calls
import FlowAssembly.Proofs.Deals
import FlowAssembly.Proofs.RoutingTables

/-!
# Branches that converge

A router is registered ahead of its branches, and where the flow goes on
behind it depends on how they end. If all of them are closed, and unmatched
messages do not go on in the flow either, then nothing can follow. Otherwise
the open branches meet on one channel, which is read by one bridge, and the
flow goes on behind that.

All that the call makes has numbers that were free when the branches were
assembled (`Numbered`). So what stands in the flow afterwards condenses what
stood in it before, what the branches hold with their open ends joined, and
what is new, and none of the workers among these is lost.
-/

namespace FlowAssembly

open Assembly

/-! ## What is new -/

/-- The components have the numbers from `n` on, in order, and `n'` is the
next. -/
structure Numbered (n : Nat) (xs : List Component) (n' : Nat) : Prop where
  numbers : xs.map (fun x => x.key.number) = List.range' n xs.length
  next : n' = n + xs.length

namespace Numbered

variable {n n₁ n' : Nat} {x : Component} {xs ys : List Component}

theorem nil (n : Nat) : Numbered n [] n := ⟨rfl, rfl⟩

theorem one (h : x.key = ⟨n⟩) : Numbered n [x] (n + 1) := ⟨by simp [h], rfl⟩

theorem append (h : Numbered n xs n₁) (h' : Numbered n₁ ys n') :
    Numbered n (xs ++ ys) n' where
  numbers := by
    rw [List.map_append, h.numbers, h'.numbers, h.next, List.length_append,
      List.range'_append_1]
  next := by rw [h'.next, h.next, List.length_append, Nat.add_assoc]

theorem mem (h : Numbered n xs n') (hx : x ∈ xs) :
    n ≤ x.key.number ∧ x.key.number < n' := by
  have hm : x.key.number ∈ List.range' n xs.length :=
    h.numbers ▸ List.mem_map_of_mem hx
  rw [h.next]
  exact List.mem_range'_1.1 hm

theorem nodup_keys (h : Numbered n xs n') : (xs.map Component.key).Nodup := by
  refine List.Nodup.of_map ComponentKey.number ?_
  have hnumbers : (xs.map Component.key).map ComponentKey.number =
      List.range' n xs.length := by
    rw [List.map_map]
    exact h.numbers
  rw [hnumbers]
  exact List.nodup_range'

theorem next_le (h : Numbered n xs n') : n ≤ n' := by
  rw [h.next]
  exact Nat.le_add_right _ _

end Numbered

theorem Clear.numbered {own : Channel → Bool} {old new : List Component}
    {n n' : Nat} (h : Clear own old) (hold : ∀ x ∈ old, x.key.number < n)
    (hn : Numbered n new n') : Clear own (old ++ new) := by
  refine append_iff.2 ⟨h, ?_, ?_⟩
  · have hapart : new.Pairwise fun x y => x.key ≠ y.key :=
      List.pairwise_map.1 hn.nodup_keys
    exact List.pairwise_map.2
      (hapart.imp fun {x y} hne =>
        (fun _ => hne : Unshared (x.stamp own) (y.stamp own)))
  · intro x hx y hy _ heq
    have hlt := hold x hx
    have hle := (hn.mem hy).1
    rw [heq] at hlt
    exact absurd hlt (Nat.not_lt.2 hle)

/-! ## Open ends -/

/-- The endpoint is a bridge that reads the channel and has the given output. -/
structure Endpoint.Bridges (e : Endpoint) (input : Channel)
    (output : Option Target) : Prop where
  behaviour : e.handler.behaviour = .bridge
  input : e.input = .channel input
  output : e.output = output

/-- What stands in a branch once it has met the others, if they meet on a
channel: a pending output leads there. -/
def Branch.joined (br : Branch) (merge : Option Channel) : List Component :=
  match br.ending, merge with
  | .pending output, some m =>
      br.registry.components.map (Component.boundTo output.component (.channel m))
  | _, _ => br.registry.components

/-- The bare channels that branches ended on besides the one that they meet
on, one for each such branch. -/
def strays (branches : List Branch) (m : Channel) : List Channel :=
  (branches.filterMap Branch.channel?).filter fun c => c.key ≠ m.key

section

variable {br br' : Branch} {branches closed : List Branch} {parent : Builder}
  {merge : Option Channel} {m : Channel} {own : Channel → Bool} {w w' : Workshop}

theorem Branch.stamps_joined (br : Branch) (merge : Option Channel) :
    (br.joined merge).map (Component.stamp own) =
      br.registry.components.map (Component.stamp own) := by
  unfold joined
  split
  · rw [List.map_map]
    exact List.map_congr_left fun x _ => Component.stamp_boundTo ..
  · rfl

theorem stamps_joined (branches : List Branch) (merge : Option Channel) :
    (branches.flatMap fun br => br.joined merge).map (Component.stamp own) =
      (branches.flatMap fun br => br.registry.components).map
      (Component.stamp own) := by
  simp only [List.map_flatMap, Branch.stamps_joined]

theorem Branch.joined_none (br : Branch) :
    br.joined none = br.registry.components := by
  unfold joined
  split
  · next h => cases h
  · rfl

theorem Branch.exists_key_joined {x : Component} (hx : x ∈ br.registry.components)
    (merge : Option Channel) :
    ∃ y ∈ br.joined merge, y.key = x.key := by
  have hm := List.mem_map_of_mem (f := Component.stamp fun _ => false) hx
  rw [← br.stamps_joined merge] at hm
  obtain ⟨y, hy, hst⟩ := List.mem_map.1 hm
  exact ⟨y, hy, congrArg Prod.fst hst⟩

/-- A bare channel that branches meet on stands in one of them. -/
theorem exists_key_of_findSome (hs : ∀ br ∈ branches, br.Sound)
    (h : branches.findSome? Branch.channel? = some m) :
    ∃ br ∈ branches, ∃ x ∈ br.registry.components, x.key = m.key := by
  obtain ⟨br, hbr, hc⟩ := List.exists_of_findSome?_eq_some h
  have hend : br.ending = .channel m := by
    unfold Branch.channel? at hc
    split at hc
    · next heq =>
        cases hc
        exact heq
    · cases hc
  obtain ⟨x, hx, hk⟩ := List.mem_map.1 ((hs br hbr).bare m hend)
  exact ⟨br, hbr, x, hx, hk⟩

/-- A pending output that was joined belongs to a component whose output it is
now. -/
theorem Branch.exists_of_pending {output : PendingOutput} (hs : br.Sound)
    (h : br.ending = .pending output) (m : Channel) :
    ∃ x ∈ br.joined (some m), x.isWorker = true ∧ x.key = output.component ∧
      x.replies = true ∧
      x.output? = some (.channel m) := by
  obtain ⟨x, hx, hbelongs⟩ := hs.awaited output h
  have hm : x.withOutput (.channel m) ∈ br.joined (some m) := by
    simp only [joined, h]
    exact List.mem_map.2 ⟨x, hx, if_pos hbelongs.key⟩
  have hworker := Component.isWorker_of_replies hbelongs.replies
  refine ⟨_, hm, by rw [Component.isWorker_withOutput, hworker],
    by rw [Component.key_withOutput, hbelongs.key],
    by rw [Component.replies_withOutput, hbelongs.replies], ?_⟩
  cases x with
  | channel c => cases hworker
  | endpoint e => rfl
  | source s => rfl

theorem strays_cons (br : Branch) (branches : List Branch) (m : Channel) :
    strays (br :: branches) m = strays [br] m ++ strays branches m := by
  unfold strays
  rw [← List.filter_append, ← List.filterMap_append]
  rfl

/-- A bare channel that is not the one to meet on gets a bridge that leads
there. -/
theorem Branch.components_of_converge
    (hlt : ∀ x ∈ br.registry.components, x.key.number < w.nextComponent)
    (h : Yields (br.converge parent m) w br' w') :
    ∃ links : List Endpoint,
      br'.registry.components = br.joined (some m) ++ links.map Component.endpoint ∧
      List.Forall₂ (fun c link => link.Bridges c (some (.channel m)))
        (strays [br] m) links ∧
      Numbered w.nextComponent (links.map Component.endpoint) w'.nextComponent := by
  rcases of_yields_converge h
    with ⟨output, he, rfl, rfl⟩ | ⟨he, rfl, rfl⟩ | ⟨last, he, hk, rfl, rfl⟩ | ⟨last,
      linked, key, he, hk, ha, rfl⟩
  · refine ⟨[], ?_, ?_, .nil _⟩
    · have hbound :
          (br.registry.bindOutput output.component (.channel m)).components =
          br.registry.components.map (Component.boundTo output.component
            (.channel m)) :=
        Registry.components_bindOutput ..
      simp only [joined, he, hbound, List.map_nil, List.append_nil]
    · simp only [strays, channel?, he, List.filterMap_cons, List.filterMap_nil,
        List.filter_nil]
      exact .nil
  · refine ⟨[], by simp [joined, he], ?_, .nil _⟩
    simp only [strays, channel?, he, List.filterMap_cons, List.filterMap_nil,
      List.filter_nil]
    exact .nil
  · refine ⟨[], by simp [joined, he], ?_, .nil _⟩
    simp only [strays, channel?, he, List.filterMap_cons, List.filterMap_nil,
      List.filter_cons, List.filter_nil, hk, ne_eq, not_true_eq_false, decide_false]
    exact .nil
  · obtain ⟨e, rfl, rfl, hfresh, hbridge, hinput, hnext⟩ := linked_of_yields ha
    have hkey : ∀ x ∈ br.registry.components, x.key ≠ e.key := by
      intro x hx hxe
      have hx := hlt x hx
      rw [hxe, hfresh.key] at hx
      exact Nat.lt_irrefl _ hx
    refine ⟨[{ e with output := some (.channel m) }], ?_, ?_, ?_⟩
    · have hadd : (br.registry.add (.endpoint e)).components =
          br.registry.components ++ [.endpoint e] := by
        rw [Registry.components_add, if_neg]
        rw [Registry.contains_iff, List.mem_map]
        rintro ⟨x, hx, hxe⟩
        exact hkey x hx hxe
      have hbound :
          ((br.registry.add (.endpoint e)).bindOutput e.key
            (.channel m)).components =
          (br.registry.add (.endpoint e)).components.map (Component.boundTo e.key
            (.channel m)) :=
        Registry.components_bindOutput ..
      have hsame :
          br.registry.components.map (Component.boundTo e.key (.channel m)) =
          br.registry.components := by
        conv_rhs => rw [← List.map_id br.registry.components]
        exact List.map_congr_left fun x hx => Component.boundTo_of_ne (hkey x hx) _
      simp only [joined, he, hbound, hadd, List.map_append, hsame]
      rw [List.map_singleton, List.map_singleton]
      congr 2
      exact if_pos rfl
    · simp only [strays, channel?, he, List.filterMap_cons, List.filterMap_nil,
        List.filter_cons, List.filter_nil, hk, ne_eq, not_false_eq_true,
        decide_true, if_true]
      exact .cons ⟨hbridge, hinput, rfl⟩ .nil
    · rw [hnext]
      exact .one hfresh.key

/-- Branches that converge hold what they held, their open ends joined, and a
bridge for each bare channel but one. -/
theorem components_of_converge
    (hlt : ∀ br ∈ branches, ∀ x ∈ br.registry.components,
      x.key.number < w.nextComponent)
    (h : YieldsAll (fun br => br.converge parent m) w branches closed w') :
    ∃ links : List Endpoint,
      (closed.flatMap fun br => br.registry.components).Perm
        ((branches.flatMap fun br => br.joined (some m)) ++
          links.map Component.endpoint) ∧
      List.Forall₂ (fun c link => link.Bridges c (some (.channel m)))
        (strays branches m) links ∧
      Numbered w.nextComponent (links.map Component.endpoint) w'.nextComponent := by
  induction h with
  | nil w => exact ⟨[], .refl _, .nil, .nil _⟩
  | @cons w w₁ w' br br' branches closed hy _ ih =>
      obtain ⟨links, hcomponents, hlinks, hn⟩ :=
        Branch.components_of_converge (hlt br List.mem_cons_self) hy
      obtain ⟨more, hrest, hmore, hn'⟩ := ih fun br hbr x hx =>
        Nat.lt_of_lt_of_le (hlt br (List.mem_cons_of_mem _ hbr) x hx) hn.next_le
      refine ⟨links ++ more, ?_, ?_, ?_⟩
      · rw [List.flatMap_cons, List.flatMap_cons, hcomponents, List.map_append]
        refine (hrest.append_left _).trans ?_
        rw [← Multiset.coe_eq_coe]
        simp only [← Multiset.coe_add]
        abel
      · rw [strays_cons]
        exact List.rel_append hlinks hmore
      · rw [List.map_append]
        exact hn.append hn'

end

/-! ## A flow and its branches -/

theorem Registry.last?_eq (r : Registry) : r.last? = r.components.getLast? := by
  rw [last?, components, List.getLast?_map]

namespace Builder

/-- What stands in a flow and in the flows that it holds back, its pending
output bound to the target. -/
def boundTo (b : Builder) (target : Target) : List Component :=
  b.registry.components.map (b.bound target) ++
    b.cursor.deferred.flatMap Registry.components

/-- The branches lie ready beside the flow, and the numbers from `n` on are
free. -/
structure Beside (b : Builder) (branches : List Branch) (n : Nat) : Prop where
  clear : Clear (fun _ => false) (b.components ++ branches.flatMap fun br =>
    br.registry.components)
  free : ∀ x ∈ b.components ++ branches.flatMap fun br => br.registry.components,
    x.key.number < n
  sound : ∀ br ∈ branches, br.Sound

/-- What has become of a flow and of branches behind a router that was
appended to the flow. What worked there still does, with the pending output of
the flow bound to what the router reads and with the open ends of the branches
joined; besides that only the router and the given bridges do. A channel that
is new is the one that the branches met on, or was made for the router to
read. -/
structure Takes (b : Builder) (branches : List Branch) (n : Nat) (router : Endpoint)
    (merge : Option Channel) (bridges : List Endpoint) (b' : Builder) : Prop where
  workers : ∀ x : Component, x.isWorker = true →
    (x ∈ b'.registry.components ↔
      x ∈ b.boundTo router.input ∨ (∃ br ∈ branches, x ∈ br.joined merge) ∨
        x ∈ (router :: bridges).map Component.endpoint)
  /-- The numbers from `n` on were free. -/
  free : (∀ x ∈ b.components, x.key.number < n) ∧
    ∀ br ∈ branches, ∀ x ∈ br.registry.components, x.key.number < n
  new : ∀ e ∈ router :: bridges, n ≤ e.key.number
  apart : ((router :: bridges).map Endpoint.key).Nodup
  keys : ∀ br ∈ branches, ∀ x ∈ br.registry.components,
    x.key ∈ b'.registry.components.map Component.key
  channels : ∀ c, .channel c ∈ b'.registry.components → n ≤ c.key.number →
    merge = some c ∨ router.input = .channel c

variable {b b₁ b' : Builder} {branches : List Branch} {bridges : List Endpoint}
  {router : Endpoint} {target : Target} {merge : Option Channel} {own : Channel →
    Bool} {n n' : Nat} {w w' : Workshop}

theorem stamps_boundTo (b : Builder) (target : Target) :
    (b.boundTo target).map (Component.stamp own) =
      b.components.map (Component.stamp own) := by
  have hbound : ∀ x, (b.bound target x).stamp own = x.stamp own := by
    rw [bound_eq]
    exact Component.stamp_settled _
  rw [boundTo, components_eq, List.map_append, List.map_append, List.map_map]
  exact congrArg (· ++ _) (List.map_congr_left fun x _ => hbound x)

namespace Beside

theorem stamps (b : Builder) (branches : List Branch) (target : Target)
    (merge : Option Channel) :
    (b.boundTo target ++ branches.flatMap fun br => br.joined merge).map
      (Component.stamp own) = (b.components ++ branches.flatMap fun br =>
        br.registry.components).map (Component.stamp own) := by
  rw [List.map_append, List.map_append, stamps_boundTo, stamps_joined]

theorem free_joined (h : b.Beside branches n) :
    ∀ x ∈ b.boundTo target ++ branches.flatMap fun br => br.joined merge,
      x.key.number < n := by
  intro x hx
  have hm := List.mem_map_of_mem (f := Component.stamp fun _ => false) hx
  rw [stamps] at hm
  obtain ⟨y, hy, hst⟩ := List.mem_map.1 hm
  have hk : y.key = x.key := congrArg Prod.fst hst
  exact hk ▸ h.free y hy

/-- With outputs set, and with what is new, no worker shares its key. -/
theorem clear_joined {new : List Component} (h : b.Beside branches n)
    (hn : Numbered n new n') :
    Clear (fun _ => false)
      (b.boundTo target ++ (branches.flatMap fun br => br.joined merge) ++ new) :=
  (h.clear.of_subperm (List.Perm.of_eq
      (stamps b branches target merge)).subperm).numbered h.free_joined hn

end Beside

theorem Takes.of_condenses {new : List Component} (channels : List Channel)
    (hb : b.Beside branches n) (hn : Numbered n new n')
    (hnew : new.Perm
      ((router :: bridges).map Component.endpoint ++
        channels.map Component.channel))
    (hchannels : ∀ c ∈ channels, merge = some c ∨ router.input = .channel c)
    (h : Condenses
      (b.boundTo router.input ++ (branches.flatMap fun br => br.joined merge) ++
        new) b'.registry.components) :
    b.Takes branches n router merge bridges b' := by
  have hendpoints : ∀ e ∈ router :: bridges, Component.endpoint e ∈ new :=
    fun e he => hnew.symm.subset (List.mem_append_left _ (List.mem_map_of_mem he))
  refine ⟨fun x hx => ?_, ⟨fun x hx => ?_, fun br hbr x hx => ?_⟩, fun e he => ?_,
    ?_, fun br hbr x hx => ?_, fun c hc hle => ?_⟩
  · have hnot : x ∉ channels.map Component.channel := by
      rintro hm
      obtain ⟨c, -, rfl⟩ := List.mem_map.1 hm
      cases hx
    rw [h.mem_iff (hb.clear_joined hn) (Component.marked_of_isWorker hx),
      List.mem_append, List.mem_append, List.mem_flatMap, hnew.mem_iff,
      List.mem_append, or_iff_left hnot, or_assoc]
  · exact hb.free x (List.mem_append_left _ hx)
  · exact hb.free x (List.mem_append_right _ (List.mem_flatMap.2 ⟨br, hbr, hx⟩))
  · exact (hn.mem (hendpoints e he)).1
  · have hkeys :
        ((router :: bridges).map Endpoint.key).Sublist
          (((router :: bridges).map Component.endpoint ++
              channels.map Component.channel).map Component.key) := by
      rw [List.map_append, List.map_map]
      exact List.sublist_append_left _ _
    exact ((hnew.map Component.key).nodup_iff.1 hn.nodup_keys).sublist hkeys
  · rw [h.mem_keys_iff, List.map_append, List.map_append]
    refine List.mem_append_left _ (List.mem_append_right _ ?_)
    obtain ⟨y, hy, hk⟩ := Branch.exists_key_joined hx merge
    exact List.mem_map.2 ⟨y, List.mem_flatMap.2 ⟨br, hbr, hy⟩, hk⟩
  · rcases List.mem_append.1 (h.subperm.subset hc) with hc | hc
    · have hlt := hb.free_joined _ hc
      exact absurd hlt (Nat.not_lt.2 hle)
    · rcases List.mem_append.1 (hnew.subset hc) with hc | hc
      · obtain ⟨e, -, he⟩ := List.mem_map.1 hc
        cases he
      · obtain ⟨c', hc', heq⟩ := List.mem_map.1 hc
        cases heq
        exact hchannels c hc'

/-! ## Appending the router -/

/-- The endpoint was appended to the flow, behind what was there and behind
the channel that was made for it to read. -/
structure Attached (b : Builder) (n : Nat) (e : Endpoint) (made : List Channel)
    (b₁ : Builder) (n' : Nat) : Prop where
  reads : ∀ c ∈ made, e.input = .channel c
  condenses :
    Condenses (b.boundTo e.input ++ (made.map Component.channel ++ [.endpoint e]))
      b₁.components
  numbered : Numbered n (made.map Component.channel ++ [.endpoint e]) n'
  cursor : b₁.cursor =
    { channel := none
      tail := some ⟨e.label, e.handler.producesReplies⟩
      pending :=
        if e.handler.producesReplies then
          some { component := e.key, owner := e.label,
                 requiresReply := e.handler.requiresReply }
        else none
      deferred := [] }

theorem Attached.cursor_of_isRouter {made : List Channel}
    (h : b.Attached n router made b₁ n') (hr : router.handler.isRouter = true) :
    b₁.cursor = { channel := none, tail := some ⟨router.label, false⟩,
                  pending := none, deferred := [] } := by
  rw [h.cursor, Handler.producesReplies_of_isRouter hr]
  rfl

/-- An endpoint is given the number behind that of the channel that is made
for it, if one is. -/
theorem numbered_made {handler : Handler} {input : ResolvedInput} {e : Endpoint}
    {w₁ : Workshop} (hi : Yields (resolveInput b.cursor.channel handler) w input w₁)
    (hfresh : e.Fresh w₁.nextComponent) :
    Numbered w.nextComponent (madeChannels input ++ [.endpoint e])
      (w₁.nextComponent + 1) := by
  rcases of_yields_resolveInput hi
    with ⟨c, -, rfl, rfl⟩ | ⟨name, -, rfl, rfl⟩ | ⟨c, -, rfl, hk, rfl⟩
  · exact .one hfresh.key
  · exact .one hfresh.key
  · exact (Numbered.one (x := .channel c) hk).append
      (.one (x := .endpoint e) hfresh.key)

theorem attached_of_yields {spec : EndpointSpec}
    (h : Yields (b.attach spec) w b₁ w') :
    ∃ e made, e.handler = spec.handler ∧
      b.Attached w.nextComponent e made b₁ w'.nextComponent := by
  obtain ⟨input, w₁, hi, hw⟩ := of_yields_attach h
  obtain ⟨e, rfl, hfresh, hhandler, hinput, hnext⟩ := wired_of_yields hw
  refine ⟨e, input.made.toList, hhandler, ?_, ?_, ?_, cursor_wired ..⟩
  · rcases of_yields_resolveInput hi
      with ⟨c, -, rfl, -⟩ | ⟨name, -, rfl, -⟩ | ⟨c, -, rfl, -, -⟩
    · exact fun _ hc => absurd hc List.not_mem_nil
    · exact fun _ hc => absurd hc List.not_mem_nil
    · rw [hinput]
      exact fun _ hc => List.mem_singleton.1 hc ▸ rfl
  · have hmade :
        (madeChannels input).map (b.bound input.target) = madeChannels input := by
      simp [madeChannels]
    have h := b.condenses_wired input [] e
    rw [List.flatMap_nil, List.append_nil, List.map_append, hmade] at h
    refine h.perm_left ?_
    rw [boundTo, hinput, madeChannels, ← Multiset.coe_eq_coe]
    simp only [← Multiset.coe_add]
    abel
  · rw [hnext]
    exact numbered_made hi hfresh

/-- The branches of a router did not meet, and the router is the end of the
flow. -/
structure DeadEnd (b : Builder) (branches : List Branch) (n : Nat)
    (router : Endpoint) (b' : Builder) : Prop where
  takes : b.Takes branches n router none [] b'
  cursor : b'.cursor = { channel := none, tail := some ⟨router.label, false⟩,
                         pending := none, deferred := [] }

theorem Attached.deadEnd {made : List Channel} (h : b.Attached n router made b₁ n')
    (hb : b.Beside branches n) (hr : router.handler.isRouter = true) :
    b.DeadEnd branches n router (b₁.absorb branches) := by
  have hcursor := h.cursor_of_isRouter hr
  have hdeferred : (b₁.absorb branches).cursor.deferred = [] := by
    rw [absorb, hcursor]
  refine ⟨.of_condenses made hb h.numbered List.perm_append_comm
      (fun c hc => .inr (h.reads c hc)) ?_, hcursor⟩
  rw [← components_eq_of_deferred hdeferred]
  refine ((h.condenses.append_right _).trans
    (b₁.condenses_absorb branches)).perm_left ?_
  simp only [Branch.joined_none]
  rw [← Multiset.coe_eq_coe]
  simp only [← Multiset.coe_add]
  abel

/-! ## Where branches meet -/

/-- A bridge behind a channel where nothing is pending or held back is
registered last. -/
theorem components_of_bridge {m : Channel}
    (hc : b.cursor.channel = some (.channel m)) (hp : b.cursor.pending = none)
    (hd : b.cursor.deferred = [])
    (hlt : ∀ x ∈ b.registry.components, x.key.number < w.nextComponent)
    (h : Yields b.bridge w b' w') :
    ∃ e : Endpoint, e.Bridges m none ∧
      b'.registry.components = b.registry.components ++ [.endpoint e] ∧
      Numbered w.nextComponent [.endpoint e] w'.nextComponent ∧
      b'.cursor =
        { channel := none
          tail := some ⟨e.label, true⟩
          pending :=
            some { component := e.key, owner := e.label, requiresReply := false }
          deferred := [] } := by
  obtain ⟨input, w₁, hi, hw⟩ := of_yields_attach (of_yields_bridge h)
  rw [hc] at hi
  obtain ⟨rfl, rfl⟩ := yields_pure.1 hi
  obtain ⟨e, rfl, hfresh, hhandler, hinput, hnext⟩ := wired_of_yields hw
  have hbridge : e.handler.behaviour = .bridge := by rw [hhandler]
  obtain ⟨hproduces, hrequires⟩ := Handler.replies_of_isBridge hbridge
  refine ⟨e, ⟨hbridge, hinput, hfresh.output⟩, ?_, ?_, ?_⟩
  · have hregistry : (b.wired ⟨.channel m, none⟩ [] e).registry =
        b.registry.add (.endpoint e) := by
      rw [wired_plain hp hd]
    rw [hregistry, Registry.components_add, if_neg]
    rw [Registry.contains_iff, List.mem_map]
    rintro ⟨x, hx, hxe⟩
    have hx := hlt x hx
    rw [hxe, show (Component.endpoint e).key = _ from hfresh.key] at hx
    exact Nat.lt_irrefl _ hx
  · rw [hnext]
    exact .one hfresh.key
  · rw [cursor_wired, hproduces, hrequires]
    rfl

/-- The channel that branches are to meet on: the first bare channel that one
of them ended on, or else a new one, with the number `n`. -/
inductive Chosen (branches : List Branch) (n : Nat) (m : Channel) :
    List Channel → Prop
  | ended : branches.findSome? Branch.channel? = some m → Chosen branches n m []
  | made : branches.findSome? Branch.channel? = none →
      m = ⟨⟨n⟩, none, .direct, [], true, none⟩ → Chosen branches n m [m]

theorem chosen_of_yields {m : Channel} (h : Yields (mergeChannel branches) w m w') :
    ∃ made, Chosen branches w.nextComponent m made ∧
      Numbered w.nextComponent (made.map Component.channel) w'.nextComponent := by
  unfold mergeChannel at h
  split at h
  · next c hc =>
      obtain ⟨rfl, rfl⟩ := yields_pure.1 h
      exact ⟨[], .ended hc, .nil _⟩
  · next hnone =>
      obtain ⟨rfl, rfl⟩ := yields_implicitChannel.1 h
      exact ⟨[_], .made hnone rfl, .one rfl⟩

/-- Branches meet exactly if one of them is open or unmatched messages go on
in the flow; these go where the branches meet. -/
theorem meets_of_reconcile {default : Option DefaultOutput} {r : Reconciled}
    (h : Yields (b.reconcile branches default) w r w') :
    ((default = some .parentFlow ∨ branches.any Branch.isOpen = true) ∧
      ∃ m w₁, Yields (mergeChannel branches) w m w₁ ∧
        YieldsAll (fun br => br.converge b m) w₁ branches r.branches w' ∧
        r.merge = some m ∧
        (default = some .parentFlow → r.defaultOutput = some (.channel m))) ∨
    (¬ (default = some .parentFlow ∨ branches.any Branch.isOpen = true) ∧
      r.branches = branches ∧ r.merge = none ∧ w' = w) := by
  unfold reconcile at h
  split at h
  · next hmeet =>
      simp only [yields_bind, yields_pure] at h
      obtain ⟨m, w₁, hm, closed, _, hconverge, rfl, rfl⟩ := h
      refine .inl ⟨hmeet, m, w₁, hm, yieldsAll_of_mapM hconverge, rfl, ?_⟩
      rintro rfl
      rfl
  · next hmeet =>
      obtain ⟨rfl, rfl⟩ := yields_pure.1 h
      exact .inr ⟨hmeet, rfl, rfl, rfl⟩

/-- The branches of a router met on a channel, which a bridge reads, and the
flow goes on behind that. -/
structure Converges (b : Builder) (branches : List Branch) (n : Nat)
    (router : Endpoint) (m : Channel) (links : List Endpoint) (bridge : Endpoint)
    (b' : Builder) : Prop where
  chosen : branches.findSome? Branch.channel? = some m ∨
    branches.findSome? Branch.channel? = none ∧
    m = ⟨⟨n⟩, none, .direct, [], true, none⟩
  takes : b.Takes branches n router (some m) (links ++ [bridge]) b'
  registered : m.key ∈ b'.registry.components.map Component.key
  pending : ∀ br ∈ branches, ∀ output, br.ending = .pending output →
    ∃ x ∈ b'.registry.components, x.key = output.component ∧ x.replies = true ∧
      x.output? = some (.channel m)
  linked : List.Forall₂ (fun c link => link.Bridges c (some (.channel m)))
      (strays branches m) links
  reads : bridge.Bridges m none
  last : b'.registry.last? = some (.endpoint bridge)
  cursor : b'.cursor =
    { channel := none
      tail := some ⟨bridge.label, true⟩
      pending :=
        some { component := bridge.key, owner := bridge.label,
               requiresReply := false }
      deferred := [] }

section

variable {m : Channel} {closed : List Branch} {links : List Endpoint}
  {made fresh : List Channel} {n₀ n₁ n₂ : Nat}

/-- The channel that branches met on is taken out of the branch that it stands
in, or it is new. -/
theorem Chosen.condenses (hm : Chosen branches n m fresh)
    (hs : ∀ br ∈ branches, br.Sound)
    (hclosed : (closed.flatMap fun br => br.registry.components).Perm
      ((branches.flatMap fun br => br.joined (some m)) ++
        links.map Component.endpoint)) :
    Condenses (b₁.components ++ (closed.flatMap fun br => br.registry.components) ++
      fresh.map Component.channel) (b₁.mergedOn closed m).components := by
  cases hm with
  | ended hfound =>
      rw [List.map_nil, List.append_nil]
      obtain ⟨br, hbr, x, hx, hk⟩ := exists_key_of_findSome hs hfound
      obtain ⟨y, hy, hyx⟩ := Branch.exists_key_joined hx (some m)
      refine condenses_mergedOn_of_mem
        ((hclosed.map Component.key).mem_iff.2
          (List.mem_map.2 ⟨y, ?_, hyx.trans hk⟩))
      exact List.mem_append_left _ (List.mem_flatMap.2 ⟨br, hbr, hy⟩)
  | made => exact b₁.condenses_mergedOn closed m

/-- Behind the router stand the branches with their links, and the channel
that they met on. -/
theorem Attached.condenses_mergedOn (h : b.Attached n₁ router made b₁ n₂)
    (hr : router.handler.isRouter = true) (hb : b.Beside branches n)
    (hm : Chosen branches n m fresh)
    (hclosed : (closed.flatMap fun br => br.registry.components).Perm
      ((branches.flatMap fun br => br.joined (some m)) ++
        links.map Component.endpoint)) :
    Condenses
      (b.boundTo router.input ++ (branches.flatMap fun br => br.joined (some m)) ++
        (fresh.map Component.channel ++ links.map Component.endpoint ++
          (made.map Component.channel ++ [.endpoint router])))
      (b₁.mergedOn closed m).registry.components := by
  have hdeferred : (b₁.mergedOn closed m).cursor.deferred = [] := by
    show b₁.cursor.deferred = []
    rw [h.cursor_of_isRouter hr]
  have hstood : Condenses _ (b₁.mergedOn closed m).components :=
    hm.condenses hb.sound hclosed
  have hparts := (h.condenses.append (.of_perm hclosed)).append_right
    (fresh.map Component.channel)
  rw [← components_eq_of_deferred hdeferred]
  refine (hparts.trans hstood).perm_left ?_
  rw [← Multiset.coe_eq_coe]
  simp only [← Multiset.coe_add]
  abel

/-- Behind the channel that branches met on a bridge is appended. -/
theorem Attached.converges (h : b.Attached n₁ router made b₁ w.nextComponent)
    (hr : router.handler.isRouter = true) (hb : b.Beside branches n)
    (hm : Chosen branches n m fresh)
    (hfresh : Numbered n (fresh.map Component.channel) n₀)
    (hclosed : (closed.flatMap fun br => br.registry.components).Perm
      ((branches.flatMap fun br => br.joined (some m)) ++
        links.map Component.endpoint))
    (hlinked : List.Forall₂ (fun c link => link.Bridges c (some (.channel m)))
      (strays branches m) links)
    (hlinks : Numbered n₀ (links.map Component.endpoint) n₁)
    (hy : Yields (b₁.mergedOn closed m).bridge w b' w') :
    ∃ bridge, b.Converges branches n router m links bridge b' := by
  have hcursor := h.cursor_of_isRouter hr
  have hmerged := h.condenses_mergedOn hr hb hm hclosed
  have hnew := (hfresh.append hlinks).append h.numbered
  have hlt : ∀ x ∈ (b₁.mergedOn closed m).registry.components,
      x.key.number < w.nextComponent := by
    intro x hx
    rcases List.mem_append.1 (hmerged.subperm.subset hx) with hx | hx
    · exact Nat.lt_of_lt_of_le (hb.free_joined x hx) hnew.next_le
    · exact (hnew.mem hx).2
  obtain ⟨bridge, hreads, hcomponents, hlast, hbehind⟩ := components_of_bridge
    (b := b₁.mergedOn closed m) rfl (by show b₁.cursor.pending = none; rw [hcursor])
    (by show b₁.cursor.deferred = []; rw [hcursor]) hlt hy
  have htakes : b.Takes branches n router (some m) (links ++ [bridge]) b' := by
    refine .of_condenses (fresh ++ made) hb (hnew.append hlast) ?_ ?_ ?_
    · simp only [List.map_cons, List.map_append, List.map_nil]
      rw [← Multiset.coe_eq_coe]
      simp only [← Multiset.coe_add, ← Multiset.cons_coe, ← Multiset.singleton_add,
        Multiset.coe_nil]
      abel
    · intro c hc
      rcases List.mem_append.1 hc with hc | hc
      · cases hm with
        | ended => cases hc
        | made => exact .inl (by rw [List.mem_singleton.1 hc])
      · exact .inr (h.reads c hc)
    · rw [hcomponents, ← List.append_assoc]
      exact hmerged.append_right _
  refine ⟨bridge, ?_, htakes, ?_, ?_, hlinked, hreads, ?_, hbehind⟩
  · cases hm with
    | ended hfound => exact .inl hfound
    | made hnone heq => exact .inr ⟨hnone, heq⟩
  · cases hm with
    | ended hfound =>
        obtain ⟨br, hbr, x, hx, hk⟩ := exists_key_of_findSome hb.sound hfound
        exact hk ▸ htakes.keys br hbr x hx
    | made =>
        rw [hcomponents, List.map_append, List.mem_append, hmerged.mem_keys_iff]
        simp [Component.key]
  · intro br hbr output hp
    obtain ⟨x, hx, hworker, hk, hreplies, houtput⟩ :=
      Branch.exists_of_pending (hb.sound br hbr) hp m
    exact ⟨x, (htakes.workers x hworker).2 (.inr (.inl ⟨br, hbr, hx⟩)), hk,
      hreplies, houtput⟩
  · rw [Registry.last?_eq, hcomponents, List.getLast?_concat]

end

/-- What a router that answers has done with its branches. -/
def RoutedTo (b : Builder) (fallsBack : Bool) (branches : List Branch)
    (w : Workshop) (b' : Builder) (w' : Workshop) :
    Prop :=
  ∃ default r w₁ spec b₁ w₂, (default = some .parentFlow ↔ fallsBack = true) ∧
    Yields (b.reconcile branches default) w r w₁ ∧ spec.handler.isRouter = true ∧
    spec.handler.defaultOutput? = r.defaultOutput ∧
    Yields (b.attach spec) { w₁ with nextHandler := w₁.nextHandler + 1 } b₁ w₂ ∧
    Yields (b₁.absorbMerged r.branches r.merge) w₂ b' w'

/-- Where the branches do not meet the router stands last in the chain, and
where they do the bridge behind it does. -/
theorem RoutedTo.outcome {fallsBack : Bool}
    (h : b.RoutedTo fallsBack branches w b' w')
    (hb : b.Beside branches w.nextComponent) :
    ∃ router : Endpoint, router.handler.isRouter = true ∧
      (¬ (branches.any Branch.isOpen = true ∨ fallsBack = true) →
        b.DeadEnd branches w.nextComponent router b') ∧
      (branches.any Branch.isOpen = true ∨ fallsBack = true →
        ∃ m links bridge,
          b.Converges branches w.nextComponent router m links bridge b' ∧
          (fallsBack = true →
            router.handler.defaultOutput? = some (.channel m))) := by
  obtain ⟨default, r, w₁, spec, b₁, w₂, hdefault, hr, hrouter, hout, ha, hy⟩ := h
  obtain ⟨router, made, hhandler, hattached⟩ := attached_of_yields ha
  rw [← hhandler] at hrouter hout
  refine ⟨router, hrouter, ?_⟩
  rw [or_comm, ← hdefault]
  rcases meets_of_reconcile hr
    with ⟨hmeet, m, w₀, hm, hconverge, hrm, hdefaultOutput⟩ | ⟨hmeet, hrb, hrm, rfl⟩
  · refine ⟨fun hnot => absurd hmeet hnot, fun _ => ?_⟩
    obtain ⟨fresh, hchosen, hfresh⟩ := chosen_of_yields hm
    obtain ⟨links, hclosed, hlinked, hlinks⟩ := components_of_converge
      (fun br hbr x hx =>
        Nat.lt_of_lt_of_le
        (hb.free x (List.mem_append_right _ (List.mem_flatMap.2 ⟨br, hbr, hx⟩)))
        hfresh.next_le) hconverge
    rw [hrm] at hy
    obtain ⟨hnone, -, -⟩ | ⟨_, ⟨⟩, hbridge⟩ := of_yields_absorbMerged hy
    · cases hnone
    · obtain ⟨bridge, hconverges⟩ :=
        hattached.converges hrouter hb hchosen hfresh hclosed hlinked hlinks hbridge
      exact ⟨m, links, bridge, hconverges,
        fun hfalls => hout.trans (hdefaultOutput hfalls)⟩
  · refine ⟨fun _ => ?_, fun hnot => absurd hnot hmeet⟩
    rw [hrb, hrm] at hy
    obtain ⟨-, rfl, rfl⟩ | ⟨_, hsome, -⟩ := of_yields_absorbMerged hy
    · exact hattached.deadEnd hb hrouter
    · cases hsome

end Builder

/-! ## Calls of routers -/

section

variable {s t : Step} {b b' b'' : Builder} {w w' : Workshop}

/-- Behind its branches a router does what is said of routers. -/
theorem Step.routedTo_of_yields (hr : s.routes = true)
    (h : Yields (s.assemble b) w b' w') :
    ∃ st w₁ branches w₂, Yields (s.stage b) w st w₁ ∧
      YieldsAll st.builder.runBranch w₁ st.flows branches w₂ ∧
      b.RoutedTo s.fallsBack branches w₂ b' w' := by
  obtain ⟨st, w₁, branches, w₂, default, r, w₃, spec, b₁, w₄, hst, hbr, hdefault,
    hrec, htables, hout, ha, hy⟩ :=
    tables_of_yields hr h
  exact ⟨st, w₁, branches, w₂, hst, hbr, default, r, w₃, spec, b₁, w₄, hdefault,
    hrec, htables.isRouter, hout, ha, hy⟩

/-! ## Behind a dead end -/

/-- All that a call that appends something does before it asks whether
anything may follow: it makes its arguments and checks its options. It answers
what the call is refused as. Calls that append nothing answer nothing. -/
def Step.overture (b : Builder) : Step → Assembly (Option String)
  | .channel plan => do
      let source ← plan.make
      return some ("channel " ++ source.label)
  | .endpoint plan sides => do
      let handler ← plan.handler.make
      let _ ← sides.mapM fun side => side.1.make
      return some handler.componentType
  | .wireTap plan destination => do
      let _ ← destination.openUp
      let _ ← parseOptional plan.selector
      return some "wire-tap"
  | .intercept plan => do
      let interceptor ← plan.make
      return some interceptor.label
  | .route plan mappings => do
      let _ ← plan.make mappings
      ensure (plan.check mappings)
      return some "router"
  | .routeToRecipients plan recipients => do
      let _ ← plan.make recipients
      ensure (plan.check recipients)
      return some "recipient-list-router"
  | .publishSubscribe plan _ => do
      let given ← plan.channel.mapM ChannelPlan.make
      let channel ← Builder.fanOutChannel plan given
      return some ("channel " ++ channel.label)
  | .scatterGather plan scatter => do
      let _ ← plan.gather.release.make
      let _ ← scatter.make
      ensure (plan.check b.config scatter)
      return some "scatter-gather"
  | .withId _ | .withSession _ | .fresh | .faulty _ => return none

theorem Builder.fails_ensureOpen {label attempted : String}
    (ht : b.cursor.tail = some ⟨label, false⟩) :
    Fails (b.ensureOpen attempted) w (.flow (.oneWayHandler label attempted)) := by
  rw [ensureOpen, ht]
  exact fails_fail.2 rfl

/-- Nothing can be appended behind a handler that never replies. -/
theorem Step.fails_behind {label attempted : String} (hc : b.cursor.channel = none)
    (ht : b.cursor.tail = some ⟨label, false⟩)
    (h : Yields (t.overture b) w (some attempted) w') :
    Fails (t.assemble b) w (.flow (.oneWayHandler label attempted)) := by
  have hclosed : ∀ {attempted w},
      Fails (b.ensureOpen attempted) w (.flow (.oneWayHandler label attempted)) :=
    Builder.fails_ensureOpen ht
  cases t with
  | channel plan =>
      simp only [overture, yields_bind, yields_pure, Option.some.injEq] at h
      obtain ⟨source, w₁, hm, rfl, -⟩ := h
      rw [assemble, Builder.fails_guarded]
      exact fails_bind.2 (.inr ⟨source, w₁, hm, fails_bind.2 (.inl hclosed)⟩)
  | endpoint plan sides =>
      simp only [overture, yields_bind, yields_pure, Option.some.injEq] at h
      obtain ⟨handler, w₁, hm, seeds, w₂, hs, rfl, -⟩ := h
      rw [assemble, Builder.fails_guarded]
      refine fails_bind.2
        (.inr
          ⟨handler, w₁, hm,
            fails_bind.2 (.inr ⟨seeds, w₂, hs, fails_bind.2 (.inl hclosed)⟩)⟩)
  | wireTap plan destination =>
      simp only [overture, yields_bind, yields_pure, Option.some.injEq] at h
      obtain ⟨opening, w₁, ho, selector, w₂, hp, rfl, -⟩ := h
      rw [assemble, Builder.fails_guarded]
      refine fails_bind.2
        (.inr
          ⟨opening, w₁, ho,
            fails_bind.2 (.inr ⟨selector, w₂, hp, fails_bind.2 (.inl ?_)⟩)⟩)
      exact fails_bind.2 (.inl hclosed)
  | intercept plan =>
      simp only [overture, yields_bind, yields_pure, Option.some.injEq] at h
      obtain ⟨interceptor, w₁, hm, rfl, -⟩ := h
      rw [assemble, Builder.fails_guarded]
      refine fails_bind.2
        (.inr
          ⟨interceptor, w₁, hm, fails_bind.2 (.inl (fails_bind.2 (.inl hclosed)))⟩)
  | route | routeToRecipients =>
      simp only [overture, yields_bind, yields_pure, Option.some.injEq] at h
      obtain ⟨parts, w₁, hm, _, w₂, he, rfl, -⟩ := h
      rw [assemble, Builder.fails_guarded]
      refine fails_bind.2
        (.inr
          ⟨parts, w₁, hm,
            fails_bind.2 (.inr ⟨_, w₂, he, fails_bind.2 (.inl hclosed)⟩)⟩)
  | publishSubscribe plan subscribers =>
      simp only [overture, yields_bind, yields_pure, Option.some.injEq] at h
      obtain ⟨given, w₁, hm, channel, w₂, hch, rfl, -⟩ := h
      rw [assemble, Builder.fails_guarded]
      refine fails_bind.2
        (.inr
          ⟨given, w₁, hm,
            fails_bind.2 (.inr ⟨channel, w₂, hch, fails_bind.2 (.inl ?_)⟩)⟩)
      rw [Builder.openFanOut, if_neg (by simp [Builder.currentKey?, hc])]
      exact fails_bind.2 (.inl hclosed)
  | scatterGather plan scatter =>
      simp only [overture, yields_bind, yields_pure, Option.some.injEq] at h
      obtain ⟨release, w₁, hr, parts, w₂, hm, _, w₃, he, rfl, -⟩ := h
      rw [assemble, Builder.fails_guarded]
      refine fails_bind.2
        (.inr ⟨release, w₁, hr, fails_bind.2 (.inr ⟨parts, w₂, hm, ?_⟩)⟩)
      exact fails_bind.2 (.inr ⟨_, w₃, he, fails_bind.2 (.inl hclosed)⟩)
  | withId | withSession | fresh | faulty =>
      obtain ⟨hnone, -⟩ := yields_pure.1 h
      cases hnone

/-- A builder as calls leave it that append nothing: the flow is renamed, or
moved into a session. In between others may work in the workshop. -/
inductive Builder.Carried (b : Builder) : Builder → Prop
  | refl : Carried b b
  | call {s : Step} {b₁ b₂ : Builder} {w w' : Workshop} : Carried b b₁ →
      s.changesFlow = true → s.isFresh = false → Yields (s.assemble b₁) w b₂ w' →
      Carried b b₂

theorem Builder.Carried.cursor_eq (h : b.Carried b') : b'.cursor = b.cursor := by
  induction h with
  | refl => rfl
  | @call s b₁ b₂ w w' _ hs hfresh hy ih =>
      rw [← ih]
      obtain ⟨id, rfl⟩ | ⟨session, rfl⟩ | rfl := Step.cases_of_changesFlow hs
      · obtain ⟨-, rfl, -⟩ | ⟨-, rfl, -⟩ := Step.of_yields_withId hy <;> rfl
      · obtain ⟨-, rfl, -⟩ | ⟨-, rfl, -⟩ := Step.of_yields_withSession hy <;> rfl
      · cases hfresh

/-- Whatever is to be appended behind a router that ends its flow is refused,
and the router named as the reason. -/
theorem Builder.DeadEnd.fails {branches : List Branch} {n : Nat} {router : Endpoint}
    {attempted : String} (h : b.DeadEnd branches n router b')
    (hcarried : b'.Carried b'')
    (ho : Yields (t.overture b'') w (some attempted) w') :
    Fails (t.assemble b'') w (.flow (.oneWayHandler router.label attempted)) :=
  Step.fails_behind (by rw [hcarried.cursor_eq, h.cursor])
    (by rw [hcarried.cursor_eq, h.cursor]) ho

/-- A router that answers has assembled its branches. If none of them is open
and unmatched messages do not go on in the flow, it adds no more than itself,
and whatever is appended later is refused. Otherwise the branches meet. -/
theorem branches_converge (hc : Called s b w) (hr : s.routes = true)
    (hy : Yields (s.assemble b) w b' w') :
    ∃ st w₁ branches w₂ router, Yields (s.stage b) w st w₁ ∧
      YieldsAll st.builder.runBranch w₁ st.flows branches w₂ ∧
      router.handler.isRouter = true ∧
      (¬ (branches.any Branch.isOpen = true ∨ s.fallsBack = true) →
        b.DeadEnd branches w₂.nextComponent router b' ∧
        ∀ {b'' : Builder} {t : Step} {attempted v v'}, b'.Carried b'' →
          Yields (t.overture b'') v (some attempted) v' →
          Fails (t.assemble b'') v
            (.flow (.oneWayHandler router.label attempted))) ∧
      (branches.any Branch.isOpen = true ∨ s.fallsBack = true →
        ∃ m links bridge,
          b.Converges branches w₂.nextComponent router m links bridge b' ∧
          (s.fallsBack = true →
            router.handler.defaultOutput? = some (.channel m))) := by
  obtain ⟨st, w₁, branches, w₂, hst, hbr, hrouted⟩ := Step.routedTo_of_yields hr hy
  obtain ⟨B, ds, hbrought, htidy⟩ := hc.tidy
  obtain ⟨-, hpasses⟩ := Step.passes_branches (t := ds) hr hbrought hst hbr
  have hafter := htidy.passes hpasses
  have hbeside : b.Beside branches w₂.nextComponent :=
    ⟨hafter.clear_registered, fun x hx =>
      hafter.given x (standing_subset_stock _ (List.mem_append_left _ hx)),
      (hafter.sound _ List.mem_cons_self).branches⟩
  obtain ⟨router, hrouter, hdead, hmeets⟩ := hrouted.outcome hbeside
  exact ⟨st, w₁, branches, w₂, router, hst, hbr, hrouter,
    fun h => ⟨hdead h, (hdead h).fails⟩, hmeets⟩

end

/-- Of five branches one ends on a reply, two on one channel, one on another
channel and one on a logger, and unmatched messages go on in the flow. Behind
a router with the last branch alone no bridge can be appended. -/
theorem branches_converge_five_branches :
    let one : Channel := ⟨⟨1⟩, some "one", .direct, [], false, none⟩
    let two : Channel := ⟨⟨2⟩, some "two", .direct, [], false, none⟩
    let onto (c : Channel) : List Step :=
      [.handle .bridge, .channel (.channel (.existing c))]
    let logs : List Step := [.handle (.logger .info none none)]
    let router : Step :=
      .route { strategy := .header "kind", default := some .parentFlow }
      [("reply", .flow [.handle .bridge]), ("one", .flow (onto one)),
        ("same", .flow (onto one)), ("two", .flow (onto two)), ("log", .flow logs)]
    let sink : Step := .route { strategy := .header "kind" } [("log", .flow logs)]
    (∃ b w b' w' branches n r links bridge, Called router b w ∧
      Yields (router.assemble b) w b' w' ∧
      branches.map (fun br => (br.isOpen, br.channel?)) =
        [(true, none), (true, some one), (true, some one), (true, some two),
          (false, none)] ∧
      r.handler.defaultOutput? = some (.channel one) ∧
      b.Converges branches n r one links bridge b') ∧
    ∃ b w b' w' branches n r, Called sink b w ∧ Yields (sink.assemble b) w b' w' ∧
      b.DeadEnd branches n r b' ∧
      Fails ((Step.handle .bridge).assemble b') w'
        (.flow (.oneWayHandler r.label "bridge")) := by
  intro one two onto logs router sink
  constructor
  · obtain ⟨b', w', hy, -⟩ := exists_yields
      (m := do let b ← Start.make (.empty {}); router.assemble b) (f := fun _ => ())
      (w := .start 3 1) (y := ()) (by decide +kernel)
    obtain ⟨b, w, hmake, hroute⟩ := yields_bind.1 hy
    obtain ⟨branches₀, w₀, hy, hends⟩ := exists_yields (w := .start 3 1)
      (m := do
        let b ← Start.make (.empty {})
        let st ← router.stage b
        st.flows.mapM st.builder.runBranch)
      (f := fun branches => branches.map fun br => (br.isOpen, br.channel?))
      (y := [(true, none), (true, some one), (true, some one), (true, some two),
        (false, none)]) (by decide +kernel)
    simp only [yields_bind] at hy
    obtain ⟨_, _, hmake₀, st₀, _, hst₀, hbr₀⟩ := hy
    obtain ⟨rfl, rfl⟩ := hmake.eq hmake₀
    have hcalled : Called router b w := .of_start hmake (by decide)
    obtain ⟨st, w₁, branches, w₂, r, hst, hbr, -, -, hmeets⟩ :=
      branches_converge hcalled rfl hroute
    obtain ⟨rfl, rfl⟩ := hst₀.eq hst
    obtain ⟨rfl, rfl⟩ := hbr₀.eq hbr.mapM
    obtain ⟨m, links, bridge, hconverges, hdefault⟩ := hmeets (.inr rfl)
    have hfirst : branches₀.findSome? Branch.channel? = some one := by
      have h := congrArg (List.findSome? Prod.snd) hends
      rwa [List.findSome?_map] at h
    obtain rfl : one = m := by
      rcases hconverges.chosen with hfound | ⟨hnone, -⟩
      · exact Option.some.inj (hfirst.symm.trans hfound)
      · rw [hfirst] at hnone
        cases hnone
    exact ⟨b, w, b', w', branches₀, w₀.nextComponent, r, links, bridge, hcalled,
      hroute, hends, hdefault rfl, hconverges⟩
  · obtain ⟨b', w', hy, -⟩ := exists_yields
      (m := do let b ← Start.make (.empty {}); sink.assemble b) (f := fun _ => ())
      (w := .start 3 1) (y := ()) (by decide +kernel)
    obtain ⟨b, w, hmake, hroute⟩ := yields_bind.1 hy
    obtain ⟨branches₀, w₀, hy, hends⟩ := exists_yields (w := .start 3 1)
      (m := do
        let b ← Start.make (.empty {})
        let st ← sink.stage b
        st.flows.mapM st.builder.runBranch)
      (f := fun branches => branches.any Branch.isOpen) (y := false)
      (by decide +kernel)
    simp only [yields_bind] at hy
    obtain ⟨_, _, hmake₀, st₀, _, hst₀, hbr₀⟩ := hy
    obtain ⟨rfl, rfl⟩ := hmake.eq hmake₀
    have hcalled : Called sink b w := .of_start hmake (by decide)
    obtain ⟨st, w₁, branches, w₂, r, hst, hbr, -, hdead, -⟩ :=
      branches_converge hcalled rfl hroute
    obtain ⟨rfl, rfl⟩ := hst₀.eq hst
    obtain ⟨rfl, rfl⟩ := hbr₀.eq hbr.mapM
    obtain ⟨hend, hfails⟩ := hdead (by rw [hends]; decide)
    exact ⟨b, w, b', w', branches₀, w₀.nextComponent, r, hcalled, hroute, hend,
      hfails .refl rfl⟩

end FlowAssembly
