import FlowAssembly.Proofs.Readers
import FlowAssembly.Proofs.Tidiness

/-!
# Consumers

A channel that the assembler made has one reader, and it gets it in the very
place where it is registered: it is made for the endpoint that is attached, or
the flow stands on it until one is, or a branch ends on it and a bridge
follows, or the branches meet on it. As long as it has none it is open. All
that stands on a desk is `Fed` up to what is open there, and at the end
nothing is. A channel that is bound to a handler is never open: it is
registered with the endpoint of that handler.
-/

namespace FlowAssembly

open Assembly

/-! ## Desks -/

/-- The channel that a builder stands on. -/
def Builder.opened (b : Builder) : List Channel :=
  match b.cursor.channel with
  | some (.channel c) => [c]
  | _ => []

/-- The channel that a branch ended on. -/
def Branch.opened (br : Branch) : List Channel :=
  match br.ending with
  | .channel c => [c]
  | _ => []

/-- The channel of a branch that the others are to meet on. -/
def Desk.met (d : Desk) : List Channel :=
  (d.merge.toList.filter fun m => !m.isNew).map Meeting.channel

/-- The channels on a desk that have no reader yet. -/
def Desk.opened (d : Desk) : List Channel :=
  d.builder.opened ++ (d.branches.flatMap Branch.opened ++ d.met)

/-- If the assembler made it, then not for a handler. -/
def Channel.Unbound (c : Channel) : Prop :=
  c.isMade = true → c.subscriber = none

theorem Channel.Unbound.binds {c : Channel} (h : c.Unbound) {e : Endpoint} :
    c.isMade = true → ∀ s ∈ c.subscriber, s = e.handler.subscriber := by
  intro hmade s hs
  rw [h hmade] at hs
  cases hs

/-- What is open on a desk, or will be, was not made for a handler. -/
structure Desk.Unbound (d : Desk) : Prop where
  builder : ∀ c ∈ d.builder.opened, c.Unbound
  branches : ∀ br ∈ d.branches, ∀ c ∈ br.opened, c.Unbound
  merge : ∀ m ∈ d.merge, m.channel.Unbound

theorem Branch.Settled.opened {br : Branch} (h : br.Settled) : br.opened = [] := by
  unfold Branch.opened
  rcases h with h | ⟨output, h, -⟩ <;> rw [h]

theorem Branch.Sound.opened {br : Branch} (h : br.Sound) :
    ∀ c ∈ br.opened, c.key ∈ br.registry.components.map Component.key := by
  unfold Branch.opened
  split
  · next hc =>
      rw [List.forall_mem_singleton]
      exact h.bare _ hc
  · exact fun _ hm => absurd hm List.not_mem_nil

theorem Builder.Sound.opened {b : Builder} (h : b.Sound) :
    ∀ c ∈ b.opened, c.key ∈ b.components.map Component.key := by
  unfold Builder.opened
  split
  · next hc =>
      rw [List.forall_mem_singleton]
      exact List.map_subset _ (List.subset_append_left _ _) (h.current _ hc)
  · exact fun _ hm => absurd hm List.not_mem_nil

namespace Component

theorem settled_endpoint (o : Option (PendingOutput × Target)) (e : Endpoint) :
    ∃ e' : Endpoint, (Component.endpoint e).settled o = .endpoint e' ∧
      e'.key = e.key ∧ e'.input = e.input ∧
      e'.handler = e.handler := by
  rcases settled_eq_or o (.endpoint e) with h | ⟨target, h⟩
  · exact ⟨e, h, rfl, rfl, rfl⟩
  · exact ⟨_, h, rfl, rfl, rfl⟩

theorem eq_of_settled_channel {o : Option (PendingOutput × Target)} {x : Component}
    {c : Channel} (h : x.settled o = .channel c) : x = .channel c := by
  rcases settled_eq_or o x with heq | ⟨target, heq⟩ <;> rw [heq] at h
  · exact h
  · cases x <;> cases h
    rfl

theorem exists_of_settled_endpoint {o : Option (PendingOutput × Target)}
    {x : Component} {e : Endpoint} (h : x.settled o = .endpoint e) :
    ∃ e₀, x = .endpoint e₀ ∧ e₀.key = e.key ∧ e₀.input = e.input := by
  rcases settled_eq_or o x with heq | ⟨target, heq⟩ <;> rw [heq] at h
  · exact ⟨e, h, rfl, rfl⟩
  · cases x <;> cases h
    exact ⟨_, rfl, rfl, rfl⟩

end Component

section

variable {brought : Channel → Prop} {d d' : Desk} {ds : List Desk} {deal : Deal}
  {opened : List Channel} {link : Option Link} {m : Moment} {n n' : Nat}

namespace Tidy

theorem clear_used {own : Channel → Bool} (h : Tidy own brought (d :: ds) n)
    (he : deal.Explains brought d n d' n') :
    Clear own (d.registered ++ deal.used) := by
  refine (h.clear_new List.mem_cons_self he.new).of_subperm (subperm_map ?_ _)
  have hused : deal.used.Subperm (d.loose ++ deal.new.toList) :=
    (List.sublist_append_left _ d'.loose).subperm.trans he.loose
  refine ((List.Subperm.refl d.registered).append hused).trans ?_
  rw [stock_cons, Desk.components, List.append_assoc, List.append_assoc]
  refine (List.Subperm.refl _).append ((List.Subperm.refl _).append ?_)
  exact (List.sublist_append_right _ _).subperm

/-- What is registered in a turn, and an output that is set, leave the rest as
it was. -/
theorem fed (h : Tidy Channel.isMade brought (d :: ds) n)
    (he : deal.Explains brought d n d' n')
    (hf : Fed (d.registered ++ deal.used) opened) : Fed d'.registered opened := by
  refine hf.transport (fun k => ?_) (fun c hm hmade => ?_) (fun e hm => ?_)
    (fun e hm => ?_)
  · rw [he.mem_keys, List.map_append, List.mem_append]
  · rcases (h.mem_registered he (x := .channel c) hmade).1 hm
      with ⟨y, hy, hset⟩ | hm
    · rw [Component.eq_of_settled_channel hset] at hy
      exact List.mem_append_left _ hy
    · exact List.mem_append_right _ hm
  · rcases (h.mem_registered he rfl).1 hm with ⟨y, hy, hset⟩ | hm
    · obtain ⟨e₀, rfl, hk, hi⟩ := Component.exists_of_settled_endpoint hset
      exact ⟨e₀, List.mem_append_left _ hy, hk, hi⟩
    · exact ⟨e, List.mem_append_right _ hm, rfl, rfl⟩
  · rcases List.mem_append.1 hm with hm | hm
    · obtain ⟨e', he', -, hi, hh⟩ := Component.settled_endpoint deal.bound e
      exact ⟨e', (h.mem_registered he rfl).2 (.inl ⟨_, hm, he'⟩), hi, hh⟩
    · exact ⟨e, (h.mem_registered he rfl).2 (.inr hm), rfl, rfl⟩

end Tidy

/-- The channels that branches ended on, or meet on, stand in the branches. -/
theorem Desk.Sound.opened_branched (hd : d.Sound) :
    ∀ p ∈ d.branches.flatMap Branch.opened ++ d.met,
      p.key ∈ d.branched.map Component.key := by
  intro p hp
  rcases List.mem_append.1 hp with hp | hp
  · obtain ⟨br, hbr, hp⟩ := List.mem_flatMap.1 hp
    rw [branched, List.map_flatMap]
    exact List.mem_flatMap.2 ⟨br, hbr, (hd.branches br hbr).opened p hp⟩
  · obtain ⟨m, hm, rfl⟩ := List.mem_map.1 hp
    obtain ⟨hm, hnew⟩ := List.mem_filter.1 hm
    exact hd.meets m (Option.mem_toList.1 hm) (by simpa using hnew)

/-- What is open besides one of the branches. -/
def Desk.openBeside (d : Desk) (others : List Branch) : List Channel :=
  d.builder.opened ++ (others.flatMap Branch.opened ++ d.met)

theorem Desk.opened_perm (d : Desk) {done todo : List Branch} {br : Branch}
    (hbr : d.branches = done ++ br :: todo) :
    d.opened.Perm (br.opened ++ d.openBeside (done ++ todo)) := by
  simp only [opened, openBeside, hbr, List.flatMap_append, List.flatMap_cons]
  rw [← Multiset.coe_eq_coe]
  simp only [← Multiset.coe_add]
  abel

theorem Desk.Sound.openBeside_stands (hd : d.Sound) {done todo : List Branch}
    {br : Branch} (hbr : d.branches = done ++ br :: todo) {p : Channel}
    (hp : p ∈ d.openBeside (done ++ todo)) (hne : ∀ m ∈ d.merge, m.channel ≠ p) :
    p.key ∈ (d.builder.components ++ (done ++ todo).flatMap fun br =>
      br.registry.components).map Component.key := by
  rw [List.map_append, List.mem_append, List.map_flatMap]
  rcases List.mem_append.1 hp with hp | hp
  · exact .inl (hd.builder.opened p hp)
  · rcases List.mem_append.1 hp with hp | hp
    · obtain ⟨br₁, hm, hp⟩ := List.mem_flatMap.1 hp
      have hin : br₁ ∈ d.branches := hbr ▸
        (List.Sublist.append_left (List.sublist_cons_self br todo) done).subset hm
      exact .inr (List.mem_flatMap.2 ⟨br₁, hm, (hd.branches br₁ hin).opened p hp⟩)
    · obtain ⟨m, hm, heq⟩ := List.mem_map.1 hp
      exact absurd heq (hne m (Option.mem_toList.1 (List.mem_filter.1 hm).1))

section

variable (htidy : Tidy Channel.isMade brought (d :: ds) n)
  (hd : Fed d.registered d.opened)
include htidy hd

theorem Desk.fed_append {s : ChannelSource} {rest : List Channel}
    (hc : d.builder.cursor.channel = none)
    (hp : (d.channels.map Component.channel).Perm
      (Builder.sourceChannels s ++ rest.map Component.channel)) :
    Fed
      ({ d with
        builder := d.builder.appended s, channels := rest } : Desk).registered
      ({ d with
        builder := d.builder.appended s, channels := rest } : Desk).opened := by
  have he := @Desk.explains_append brought n d.builder d.branches d.channels
    rest d.merge s hp
  have hnone : d.builder.opened = [] := by rw [Builder.opened, hc]
  have hclear := htidy.clear_used he
  refine htidy.fed he ?_
  rw [Desk.opened, hnone] at hd
  cases s with
  | channel c => exact (hd.append (.single c) hclear).perm List.perm_append_comm
  | named | fixedSubscriber =>
      rw [Builder.sourceChannels, List.append_nil]
      exact hd

theorem Desk.fed_attach {e : Endpoint} {input : ResolvedInput}
    {sides kept : List Branch} {rest : List Channel} (hu : d.Unbound)
    (hbr : d.branches = sides ++ kept) (hs : ∀ br ∈ sides, br.Settled)
    (hr : Reads e.handler d.builder.cursor.channel d.channels input rest)
    (hi : e.input = input.target) (he : e.Fresh n) :
    Fed ({ d with
          builder := d.builder.wired input (sides.map Branch.registry) e
          branches := kept
          channels := rest } : Desk).registered
      (kept.flatMap Branch.opened ++ d.met) := by
  obtain ⟨b, branches, channels, merge⟩ := d
  obtain rfl : branches = sides ++ kept := hbr
  have hexplains :=
    @Desk.explains_attach brought n b sides kept channels rest merge e input hr he
  have hclear := htidy.clear_used hexplains
  have hsides : sides.flatMap Branch.opened = [] :=
    List.flatMap_eq_nil_iff.2 fun br hm => (hs br hm).opened
  have hsound := htidy.sound _ List.mem_cons_self
  refine htidy.fed hexplains ?_
  have hopened : (Desk.mk b (sides ++ kept) channels merge).opened = b.opened ++
        (kept.flatMap Branch.opened ++
          (Desk.mk b (sides ++ kept) channels merge).met) := by
    rw [Desk.opened, List.flatMap_append, hsides, List.nil_append]
  rw [hopened] at hd
  -- A channel that lay ready for the endpoint is registered with it.
  have hpass : ∀ {c}, b.opened = [] → input = ⟨.channel c, some c⟩ →
      (∀ s ∈ c.subscriber, s = e.handler.subscriber) →
      Fed ((Desk.mk b (sides ++ kept) channels merge).registered ++
        (Builder.madeChannels input ++ [.endpoint e]))
        (kept.flatMap Branch.opened ++
          (Desk.mk b (sides ++ kept) channels merge).met) := by
    rintro c hnone rfl hbinds
    rw [hnone, List.nil_append] at hd
    exact hd.pass hclear hi fun _ => hbinds
  generalize hcur : b.cursor.channel = current at hr
  cases hr with
  | channel c =>
      have hopen : b.opened = [c] := by rw [Builder.opened, hcur]
      have hc : c ∈ b.opened := hopen ▸ List.mem_singleton_self c
      rw [hopen] at hd
      refine hd.close (.refl _) hi (hu.builder c hc).binds fun p hp hk => ?_
      have hstands := hsound.builder.opened c hc
      have hp := hsound.opened_branched p
        (by rwa [List.flatMap_append, hsides, List.nil_append])
      rw [hk] at hp
      exact fun c' hm hmade => htidy.clear_registered.shared
        (.refl _) hstands hp _ hm hmade
  | named name =>
      have hopen : b.opened = [] := by rw [Builder.opened, hcur]
      rw [hopen, List.nil_append] at hd
      exact hd.named (by rw [Endpoint.inputKey?, hi]; rfl)
  | marker id _ hs =>
      refine hpass (by rw [Builder.opened, hcur]) rfl ?_
      rw [hs]
      rintro s ⟨⟩
      rfl
  | none _ hs =>
      refine hpass (by rw [Builder.opened, hcur]) rfl ?_
      rw [hs]
      exact fun _ hm => absurd hm (Option.not_mem_none _)

theorem Desk.fed_link {done todo : List Branch} {br : Branch} {c : Channel}
    {e : Endpoint} (ending : Ending) (hu : d.Unbound)
    (hbr : d.branches = done ++ br :: todo) (hend : br.ending = .channel c)
    (hne : ∀ m ∈ d.merge, c.key ≠ m.channel.key) (hi : e.input = .channel c)
    (he : e.Fresh n) :
    Fed
      ({ d with
          branches := done ++ ⟨br.registry.add (.endpoint e), ending⟩ :: todo } :
        Desk).registered (d.openBeside (done ++ todo)) := by
  have hopened := d.opened_perm hbr
  obtain ⟨b, branches, channels, merge⟩ := d
  obtain rfl : branches = done ++ br :: todo := hbr
  have hsound := htidy.sound _ List.mem_cons_self
  have hopen : br.opened = [c] := by rw [Branch.opened, hend]
  rw [hopen] at hopened
  have hin : br ∈ done ++ br :: todo := List.mem_append_right _ List.mem_cons_self
  have hc : c ∈ br.opened := hopen ▸ List.mem_singleton_self c
  have hstands := (hsound.branches br hin).opened c hc
  have hperm : (Desk.mk b (done ++ br :: todo) channels merge).registered.Perm
        (br.registry.components ++ (b.components ++ (done ++ todo).flatMap fun br =>
            br.registry.components)) := by
    simp only [Desk.registered, Desk.branched, List.flatMap_append,
      List.flatMap_cons]
    rw [← Multiset.coe_eq_coe]
    simp only [← Multiset.coe_add]
    abel
  refine htidy.fed (Desk.explains_link ending he)
    (hd.close hopened hi (hu.branches br hin c hc).binds fun p hp hk => ?_)
  have hbeside :=
    hsound.openBeside_stands rfl hp fun m hm heq => hne m hm (heq ▸ hk.symm)
  rw [hk] at hbeside
  exact fun c' hm hmade => htidy.clear_registered.shared hperm hstands
    hbeside _ hm hmade

/-- A branch that ended on the channel to meet on leaves it open for the
bridge behind. -/
theorem Desk.fed_meet {done todo : List Branch} {br : Branch} {c : Channel}
    {m : Meeting} (hbr : d.branches = done ++ br :: todo)
    (hend : br.ending = .channel c) (hm : d.merge = some m)
    (hk : c.key = m.channel.key) :
    Fed d.registered (d.openBeside (done ++ todo)) := by
  have hin : br ∈ d.branches := hbr ▸ List.mem_append_right _ List.mem_cons_self
  have hopen : br.opened = [c] := by rw [Branch.opened, hend]
  have hopened := d.opened_perm hbr
  rw [hopen] at hopened
  refine (hd.perm hopened).reopen (List.subset_cons_self _ _) fun o ho => ?_
  rcases List.mem_cons.1 ho with rfl | ho
  · cases hnew : m.isNew with
    | false =>
        refine .inl
          ⟨m.channel,
            List.mem_append_right _
              (List.mem_append_right _ (List.mem_map_of_mem ?_)), hk.symm⟩
        exact List.mem_filter.2 ⟨Option.mem_toList.2 hm, by simp [hnew]⟩
    | true =>
        -- A new channel to meet on is registered nowhere yet.
        have hclear : Clear Channel.isMade (d.registered ++ d.loose) := by
          have h := htidy.clear
          rw [stock_cons] at h
          exact (Clear.append_iff.1 h).1
        have hloose : o.key ∈ d.loose.map Component.key := by
          simp [Desk.loose, hm, Meeting.components, hnew, hk, Component.key]
        have hstands : o.key ∈ d.registered.map Component.key :=
          hd.stands o (hopened.symm.subset List.mem_cons_self)
        exact .inr fun c' hc' hmade => hclear.shared (.refl _) hstands hloose _
          (List.mem_append_left _ hc') hmade
  · exact .inl ⟨o, ho, rfl⟩

theorem Desk.fed_tend {done todo : List Branch} {br br' : Branch} (hu : d.Unbound)
    (hbr : d.branches = done ++ br :: todo) (ht : Tends d.merge n br br' n') :
    Fed ({ d with branches := done ++ br' :: todo } : Desk).registered
      ({ d with branches := done ++ br' :: todo } : Desk).opened := by
  have hopened := d.opened_perm hbr
  have hopened' := Desk.opened_perm { d with branches := done ++ br' :: todo } rfl
  have hsame : ∀ ending,
      ({ d with branches := done ++ ⟨br.registry, ending⟩ :: todo } :
        Desk).registered =
      d.registered := by
    intro ending
    simp [Desk.registered, Desk.branched, hbr]
  refine Fed.perm ?_ hopened'.symm
  cases ht with
  | link hend hne he _ hi => exact Desk.fed_link htidy hd _ hu hbr hend hne hi he
  | @bind p m hend hm =>
      have hopen : br.opened = [] := by rw [Branch.opened, hend]
      rw [hopen] at hopened
      obtain ⟨b, branches, channels, merge⟩ := d
      obtain rfl : branches = done ++ br :: todo := hbr
      exact htidy.fed (Desk.explains_bind _ hend)
        (by rw [List.append_nil]; exact hd.perm hopened)
  | leave hend _ =>
      have hopen : br.opened = [] := by rw [Branch.opened, hend]
      rw [hopen] at hopened
      rw [hsame]
      exact hd.perm hopened
  | meet hend hm hk =>
      rw [hsame]
      exact Desk.fed_meet htidy hd hbr hend hm hk

theorem Desk.fed_merge {m : Meeting} {e : Endpoint} (hu : d.Unbound)
    (hm : d.merge = some m) (hclosed : ∀ br ∈ d.branches, br.ending = .closed)
    (hc : d.builder.cursor.channel = none) (hp : d.builder.cursor.pending = none)
    (hi : e.input = .channel m.channel) (he : e.Fresh n) :
    Fed
      ({ builder :=
           (d.builder.mergedOn d.branches m.channel).wired
             ⟨.channel m.channel, none⟩ [] e
         channels := d.channels } : Desk).registered [] := by
  obtain ⟨b, branches, channels, merge⟩ := d
  obtain rfl : merge = some m := hm
  have hmeets := (htidy.sound _ List.mem_cons_self).meets
  have hexplains :=
    @Desk.explains_merge brought n b branches channels m e hmeets he hp
  have hclear := htidy.clear_used hexplains
  have hbinds := (hu.merge m rfl).binds (e := e)
  have hnone : b.opened = [] := by rw [Builder.opened, hc]
  have hbranches : branches.flatMap Branch.opened = [] :=
    List.flatMap_eq_nil_iff.2 fun br hbr => by rw [Branch.opened, hclosed br hbr]
  rw [Desk.opened, hnone, hbranches, List.nil_append, List.nil_append] at hd
  refine htidy.fed hexplains ?_
  cases hnew : m.isNew with
  | true =>
      have hmet : (Desk.mk b branches channels (some m)).met = [] := by
        simp [Desk.met, hnew]
      have hcomponents : m.components = [.channel m.channel] := if_pos hnew
      rw [hmet] at hd
      rw [hcomponents] at hclear ⊢
      exact hd.pass hclear hi hbinds
  | false =>
      have hmet : (Desk.mk b branches channels (some m)).met = [m.channel] := by
        simp [Desk.met, hnew]
      have hcomponents : m.components = [] := if_neg (by simp [hnew])
      rw [hmet] at hd
      rw [hcomponents]
      exact hd.close (.refl _) hi hbinds fun _ hp => absurd hp List.not_mem_nil

theorem Desk.fed_post {c : Channel} {reader : Option Endpoint} {rest : List Channel}
    (hp : d.channels.Perm (c :: rest))
    (hr : ∀ e ∈ reader, e.Fresh n ∧ e.handler.isScatterEnd = true ∧
      e.input = .channel c ∧ c.subscriber = none)
    (hc : reader = none → c.isMade = false) :
    Fed ({ d with builder := d.builder.posted c reader, channels := rest } :
      Desk).registered d.opened := by
  have hexplains := @Desk.explains_post brought n d.builder d.branches d.channels
    rest d.merge c reader hp fun e hm => (hr e hm).1
  have hclear := htidy.clear_used hexplains
  refine htidy.fed hexplains ?_
  cases reader with
  | none =>
      simp only [Option.toList_none, List.map_nil, List.append_nil] at hclear ⊢
      exact hd.idle hclear (hc rfl)
  | some e =>
      obtain ⟨-, -, hi, hsub⟩ := hr e rfl
      refine hd.pass hclear hi fun _ s hs => ?_
      rw [hsub] at hs
      cases hs

end

theorem Tidy.not_made (h : Tidy Channel.isMade brought (d :: ds) n) {c : Channel}
    (hc : Callers brought c) :
    c.isMade = false :=
  hc.elim (fun hc => (h.brought c hc).1) id

theorem Work.fed (h : Work brought d n link d' n')
    (htidy : Tidy Channel.isMade brought (d :: ds) n)
    (hd : Fed d.registered d.opened) (hu : d.Unbound) :
    Fed d'.registered d'.opened := by
  cases h with
  | idle hr hc =>
      rw [Desk.registered, Desk.opened, Builder.components_congr hr hc,
        Builder.opened, hc]
      exact hd
  | take | shed => exact hd
  | append _ hc hp => exact Desk.fed_append htidy hd hc hp
  | @attach e input sides kept rest _ _ hbr hs _ hr hi he =>
      have hopen :
          (d.builder.wired input (sides.map Branch.registry) e).opened = [] := by
        rw [Builder.opened, Builder.cursor_wired]
      have hfed := Desk.fed_attach htidy hd hu hbr hs hr hi he
      rw [Desk.opened, hopen]
      exact hfed
  | tend hbr ht => exact Desk.fed_tend htidy hd hu hbr ht
  | meetReady _ hm | part hm =>
      simp only [Desk.opened, Desk.met, hm] at hd ⊢
      exact hd
  | @meetBare m br _ _ hm hbr hend =>
      have hin : m ∈ d.branches.flatMap Branch.opened :=
        List.mem_flatMap.2 ⟨br, hbr,
          by rw [Branch.opened, hend]; exact List.mem_singleton_self m⟩
      have hmet : d.met = [] := by rw [Desk.met, hm]; rfl
      rw [Desk.opened, hmet, List.append_nil] at hd
      refine Fed.reopen hd (fun o ho => ?_) fun o ho => .inl ⟨o, ?_, rfl⟩
      · rcases List.mem_append.1 ho with ho | ho
        · exact List.mem_append_left _ ho
        · rcases List.mem_append.1 ho with ho | ho
          · exact List.mem_append_right _ ho
          · obtain rfl := List.mem_singleton.1 ho
            exact List.mem_append_right _ hin
      · exact (List.mem_append.1 ho).elim (List.mem_append_left _) fun ho =>
          List.mem_append_right _ (List.mem_append_left _ ho)
  | @stow b _ hs hm hst =>
      have hbranches : d.branches.flatMap Branch.opened = [] :=
        List.flatMap_eq_nil_iff.2 fun br hbr => (hs br hbr).opened
      have hopen : b.opened = d.builder.opened := by cases hst <;> rfl
      have hcondenses :
          Condenses d.registered
            ({ d with builder := b, branches := [] } : Desk).registered := by
        simpa [Desk.registered, Desk.branched] using Desk.condenses_stow hst
      refine htidy.fed
        (Desk.explains_same hcondenses (List.Subperm.refl _) (Nat.le_refl _)) ?_
      rw [Desk.opened, hbranches] at hd
      rw [Desk.opened, hopen, List.append_nil]
      exact hd
  | @merge m e _ hm hclosed hc hp hb hi he =>
      have hopen : Desk.opened
          { builder := (d.builder.mergedOn d.branches m.channel).wired
              ⟨.channel m.channel, none⟩ [] e
            channels := d.channels } = [] := by
        rw [Desk.opened, Builder.opened, Builder.cursor_wired]
        rfl
      rw [hopen]
      exact Desk.fed_merge htidy hd hu hm hclosed hc hp hi he
  | post _ hp hr hc =>
      exact Desk.fed_post htidy hd hp hr fun hnone => htidy.not_made (hc hnone)

theorem Tends.opened_eq {merge : Option Meeting} {br br' : Branch}
    (h : Tends merge n br br' n') : br'.opened = [] := by
  cases h <;> rfl

theorem Work.unbound (h : Work brought d n link d' n')
    (htidy : Tidy Channel.isMade brought (d :: ds) n) (hu : d.Unbound) :
    d'.Unbound := by
  cases h with
  | idle hr hc =>
      refine ⟨?_, hu.branches, hu.merge⟩
      rw [Builder.opened, hc]
      exact hu.builder
  | take | shed => exact ⟨hu.builder, hu.branches, hu.merge⟩
  | @append s rest _ _ hc hp hsub =>
      refine ⟨?_, hu.branches, hu.merge⟩
      rw [Builder.opened, Builder.channel_appended]
      cases s with
      | channel c =>
          rw [List.forall_mem_singleton]
          intro hmade
          refine (hsub c rfl).resolve_right fun hb => ?_
          rw [htidy.not_made (.inl hb)] at hmade
          cases hmade
      | named | fixedSubscriber => exact fun _ hm => absurd hm List.not_mem_nil
  | attach _ hbr =>
      refine ⟨?_, fun br hm => hu.branches br (hbr ▸ List.mem_append_right _ hm),
        hu.merge⟩
      rw [Builder.opened, Builder.cursor_wired]
      exact fun _ hm => absurd hm List.not_mem_nil
  | @tend done todo br br' _ _ hbr ht =>
      refine ⟨hu.builder, fun br₁ hm => ?_, hu.merge⟩
      rcases List.mem_append.1 hm with hm | hm
      · exact hu.branches br₁ (hbr ▸ List.mem_append_left _ hm)
      · rcases List.mem_cons.1 hm with rfl | hm
        · rw [ht.opened_eq]
          exact fun _ hm => absurd hm List.not_mem_nil
        · exact hu.branches br₁
            (hbr ▸ List.mem_append_right _ (List.mem_cons_of_mem _ hm))
  | meetReady _ _ _ hs =>
      refine ⟨hu.builder, hu.branches, ?_⟩
      rintro m ⟨⟩
      exact fun _ => hs
  | @meetBare m br _ _ _ hbr hend =>
      refine ⟨hu.builder, hu.branches, ?_⟩
      rintro m' ⟨⟩
      refine hu.branches br hbr m ?_
      rw [Branch.opened, hend]
      exact List.mem_singleton_self m
  | part => exact ⟨hu.builder, hu.branches, nofun⟩
  | stow _ hm hs =>
      refine ⟨?_, fun _ hm => absurd hm List.not_mem_nil, hu.merge⟩
      cases hs <;> exact hu.builder
  | merge =>
      refine ⟨?_, fun _ hm => absurd hm List.not_mem_nil, nofun⟩
      rw [Builder.opened, Builder.cursor_wired]
      exact fun _ hm => absurd hm List.not_mem_nil
  | post => exact ⟨hu.builder, hu.branches, hu.merge⟩

end

/-! ## Along a run -/

/-- All that was made has a reader on the desk or is open there, and what is
open was not made for a handler. -/
structure Desk.Supplied (d : Desk) : Prop where
  fed : Fed d.registered d.opened
  unbound : d.Unbound

theorem Desk.opened_plain (b : Builder) :
    ({ builder := b } : Desk).opened = b.opened :=
  List.append_nil _

theorem Desk.supplied_plain {b : Builder} (h : Fed b.components b.opened)
    (hu : ∀ c ∈ b.opened, c.Unbound) :
    Supplied { builder := b } where
  fed := by rwa [registered_plain, opened_plain]
  unbound := ⟨hu, fun _ hm => absurd hm List.not_mem_nil, nofun⟩

theorem Builder.Sound.opened_toBranch {b : Builder} (h : b.Sound) :
    b.toBranch.opened = b.opened := by
  unfold Branch.opened Builder.opened Builder.toBranch
  dsimp only
  cases hp : b.cursor.pending with
  | none =>
      match b.cursor.channel with
      | some (.channel _) | some (.named _) | some (.fixedSubscriber _) | none =>
          rfl
  | some output =>
      have hunbound := h.unbound (by rw [hp]; exact Option.some_ne_none output)
      match hc : b.cursor.channel with
      | some (.channel c) => cases hunbound _ hc
      | some (.named _) | some (.fixedSubscriber _) | none => rfl

theorem Turn.supplied {brought : Channel → Prop} {ds : List Desk} {m : Moment}
    {n n' : Nat} (h : Turn brought ds n m n')
    (htidy : Tidy Channel.isMade brought ds n) (hd : ∀ d ∈ ds, d.Supplied) :
    ∀ d ∈ m.desks, d.Supplied := by
  cases h with
  | work hw =>
      rw [List.forall_mem_cons] at hd ⊢
      exact ⟨⟨hw.fed htidy hd.1.fed hd.1.unbound, hw.unbound htidy hd.1.unbound⟩,
        hd.2⟩
  | @push d ds c rest _ ho =>
      simp only [List.forall_mem_cons] at hd ⊢
      refine ⟨Desk.supplied_plain (.single c) ?_,
        ⟨hd.1.fed,
          ⟨hd.1.unbound.builder, hd.1.unbound.branches, hd.1.unbound.merge⟩⟩, hd.2⟩
      have hc : c.Unbound := by
        intro hmade
        cases ho with
        | ready _ hs =>
            refine hs.resolve_right fun hb => ?_
            rw [htidy.not_made (.inl hb)] at hmade
            cases hmade
        | copy hl =>
            rw [(htidy.unmarked_of_lends List.mem_cons_self hl).1] at hmade
            cases hmade
      exact fun c' hc' => List.mem_singleton.1 hc' ▸ hc
  | @pop b d ds =>
      simp only [List.forall_mem_cons] at hd ⊢
      obtain ⟨hb, hparent, hrest⟩ := hd
      have hsound : b.Sound := (htidy.sound _ List.mem_cons_self).builder
      have hbuilder : Fed b.components b.opened := by
        have h := hb.fed
        rwa [Desk.registered_plain, Desk.opened_plain] at h
      refine ⟨⟨?_, hparent.unbound.builder, ?_, hparent.unbound.merge⟩, hrest⟩
      · have hwhole :
            ({ d with branches := d.branches ++ [b.toBranch] } : Desk).registered =
            d.registered ++ b.flushDeferred.registry.components := by
          simp [Desk.registered, Desk.branched, Builder.toBranch]
        have hclear : Clear Channel.isMade (d.registered ++ b.components) := by
          refine htidy.clear.of_subperm (subperm_map ?_ _)
          rw [stock_cons, stock_cons, Tidy.components_plain, Desk.components,
            List.append_assoc]
          refine List.perm_append_comm.subperm.trans
            ((List.Subperm.refl _).append ?_)
          exact (List.sublist_append_left _ _).subperm
        have hfed := (hparent.fed.append hbuilder hclear).condense
          ((Condenses.refl d.registered).append b.condenses_flushDeferred) hclear
        rw [hwhole]
        refine hfed.perm ?_
        simp only [Desk.opened, Desk.met, List.flatMap_append,
          List.flatMap_singleton, hsound.opened_toBranch]
        rw [← Multiset.coe_eq_coe]
        simp only [← Multiset.coe_add]
        abel
      · simp only [List.mem_append, List.mem_singleton, or_imp,
          forall_and, forall_eq]
        refine ⟨hparent.unbound.branches, ?_⟩
        rw [hsound.opened_toBranch]
        exact hb.unbound.builder
  | fresh hr hc =>
      rw [List.forall_mem_cons] at hd ⊢
      refine ⟨Desk.supplied_plain ?_ ?_, hd.2⟩
      · rw [Builder.components_blank hr hc, Builder.opened, hc]
        exact .nil
      · rw [Builder.opened, hc]
        exact fun _ hm => absurd hm List.not_mem_nil

theorem Builder.Started.supplied {s : Start} {b : Builder} {n n' : Nat}
    (h : b.Started s n n') (hs : ∀ c ∈ s.brought, c.isMade = false) :
    Desk.Supplied { builder := b } := by
  cases h with
  | bare hr _ _ hd hc =>
      have hopen : b.opened = [] := by
        unfold Builder.opened
        split
        · next hcur => exact absurd hcur (hc _)
        · rfl
      refine Desk.supplied_plain ?_
        (by rw [hopen]; exact fun _ hm => absurd hm List.not_mem_nil)
      rw [Builder.components_eq, hr, hd, hopen]
      exact .nil
  | @channel c hstart hr hc =>
      have hopen : b.opened = [c] := by rw [Builder.opened, hc]
      refine Desk.supplied_plain ?_ ?_
      · rw [Builder.components_eq, hr, hc, hopen]
        exact .single c
      · rw [hopen, List.forall_mem_singleton]
        intro hmade
        rw [hs c (by rw [hstart]; exact List.mem_singleton_self c)] at hmade
        cases hmade
  | source hr _ _ hc =>
      have hopen : b.opened = [] := by rw [Builder.opened, hc]
      refine Desk.supplied_plain ?_
        (by rw [hopen]; exact fun _ hm => absurd hm List.not_mem_nil)
      rw [Builder.components_eq, hr, hc, hopen]
      exact .source _

/-- Whatever a run goes through is supplied, unless a channel that was made is
brought back. -/
theorem Desk.Supplied.along : Kept (fun c => c.isMade = false) fun brought _ ds n =>
    Tidy Channel.isMade brought ds n ∧ ∀ d ∈ ds, d.Supplied :=
  @Tidy.kept_with Channel.isMade _ (fun _ ds _ => ∀ d ∈ ds, d.Supplied)
    (fun _ h => h) (fun _ h => h) (fun hs h _ => by
      rw [List.forall_mem_singleton]
      exact h.supplied hs)
    (fun htidy h ht => ht.supplied htidy h) fun h _ => h

theorem Builder.opened_of_yields_closeImplicit {b b' : Builder} {w w' : Workshop}
    (h : Yields b.closeImplicit w b' w') :
    ∀ c ∈ b'.opened, c.implicit = false := by
  rcases of_yields_closeImplicit h with ⟨rfl, -, hc⟩ | ⟨c, -, -, hb⟩
  · unfold opened
    split
    · next hcur =>
        rw [List.forall_mem_singleton]
        exact hc _ hcur
    · exact fun _ hm => absurd hm List.not_mem_nil
  · obtain ⟨input, _, -, hw⟩ := of_yields_attach (of_yields_bridge hb)
    obtain ⟨e, rfl, -⟩ := wired_of_yields hw
    rw [opened, cursor_wired]
    exact fun _ hm => absurd hm List.not_mem_nil

variable {program : List Step} {g : FlowGraph} {history : List Moment}

theorem FlowGraph.nodup_endpoints (h : (g.components.map Component.key).Nodup) :
    g.endpoints.Nodup := by
  refine List.Nodup.filterMap (fun x y e hx hy => ?_) (List.Nodup.of_map _ h)
  cases x <;> cases hx
  cases y <;> cases hy
  rfl

/-- In a finished flow that is not given back a channel which was made for it,
each channel that the assembler made is read by one endpoint and no other. If
it was made for a handler, it is the endpoint of that handler. -/
theorem made_channels_consumed
    (h : Finished (fun c => c.isMade = false) program g history) :
    ∀ c ∈ g.channels, c.isMade = true →
      ∃ e, (g.endpoints.filter fun e => e.inputKey? = some c.key) = [e] ∧
        e.input = .channel c ∧ ∀ s ∈ c.subscriber, s = e.handler.subscriber := by
  obtain ⟨_, b, _, _, -, -, -, hclose, hg, -, htidy, hsupplied⟩ :=
    h.kept Desk.Supplied.along
  obtain ⟨hfed, hunbound⟩ := hsupplied _ (List.mem_singleton_self _)
  rw [Desk.registered_plain, Desk.opened_plain] at hfed
  have hclear : Clear Channel.isMade b.components := by
    have h := htidy.clear_registered
    rwa [Desk.registered_plain] at h
  -- What the flow ends on was not made: a bridge was put behind it otherwise.
  have hfed : Fed g.components [] := by
    have hflushed := hfed.condense b.condenses_flushDeferred hclear
    rw [hg]
    refine hflushed.reopen (List.nil_subset _) fun o ho =>
      .inr fun c hm hmade hk => ?_
    obtain ⟨rfl, -⟩ := hflushed.unread o ho c hm hmade hk
    have hnot : c.isMade = false := by
      rw [Channel.isMade, Builder.opened_of_yields_closeImplicit hclose c ho,
        hunbound.builder c ho hmade]
      rfl
    rw [hnot] at hmade
    cases hmade
  have hnodup : (g.components.map Component.key).Nodup := by
    rw [hg]
    exact Registry.nodup_keys _
  intro c hc hmade
  have hc := FlowGraph.mem_channels.1 hc
  obtain ⟨e, he, hcons⟩ :=
    hfed.read c hc hmade fun _ ho => absurd ho List.not_mem_nil
  refine ⟨e,
    List.perm_singleton.1
      ((List.perm_ext_iff_of_nodup ?_ (List.nodup_singleton e)).2 fun e' => ?_),
    hcons⟩
  · exact (FlowGraph.nodup_endpoints hnodup).filter _
  · simp only [List.mem_filter, FlowGraph.mem_endpoints, decide_eq_true_eq,
      List.mem_singleton]
    constructor
    · rintro ⟨he', hi'⟩
      have hk := hfed.once c hc hmade e' e he' he hi' hcons.inputKey
      exact Component.endpoint.inj (List.inj_on_of_nodup_map hnodup he' he hk)
    · rintro rfl
      exact ⟨he, hcons.inputKey⟩

/-- A flow through a marker, two taps, a router whose branches converge and a
scatter-gather, which ends on a tapped channel. The channels that were made
are listed with the endpoints that read them, and whether they were made for a
handler. -/
theorem made_channels_consumed_throughout :
    let program : List Step :=
      [.handle .bridge, .channel (.fixedSubscriber none), .handle .bridge,
        .wireTap {} (.flow [.log .info none]),
        .route { strategy := .header "kind" } [("a", .flow [.handle .bridge]),
          ("b", .flow [.handle .bridge])],
        .scatterGather {} (.recipients {} [(none, .flow [.handle .bridge])]),
        .wireTap {} (.flow [.log .info none])]
    let readers : FlowGraph → List (Nat × Bool × List Nat) := fun g =>
      (g.channels.filter Channel.isMade).map fun c =>
        (c.key.number, c.subscriber.isSome,
          (g.endpoints.filter fun e => e.inputKey? = some c.key).map fun e =>
            e.key.number)
    ∃ g history, Finished (fun c => c.isMade = false) program g history ∧
      readers g = [(1, false, [2]), (3, true, [4]), (6, false, [15]),
        (7, false, [8]), (5, false, [9]), (10, false, [12]), (11, false, [13]),
        (14, false, [16]), (21, false, [22]), (19, false, [23]), (17, false, [20]),
        (18, false, [24]), (26, false, [30]), (27, false, [28]),
        (25, false, [29])] ∧
      ∀ c ∈ g.channels, c.isMade = true →
        ∃ e, (g.endpoints.filter fun e => e.inputKey? = some c.key) = [e] ∧
          e.input = .channel c ∧
          ∀ s ∈ c.subscriber, s = e.handler.subscriber := by
  intro program readers
  obtain ⟨g, w', hy, hreaders⟩ := exists_yields (m := do
      let b ← (Start.empty {}).make
      let b ← assembleSteps b program
      b.finish) (f := readers) (w := .start 1 1)
    (y := [(1, false, [2]), (3, true, [4]), (6, false, [15]), (7, false, [8]),
        (5, false, [9]), (10, false, [12]), (11, false, [13]), (14, false, [16]),
        (21, false, [22]), (19, false, [23]), (17, false, [20]), (18, false, [24]),
        (26, false, [30]), (27, false, [28]), (25, false, [29])])
      (by decide +kernel)
  obtain ⟨history, h⟩ :
    ∃ history, Finished (fun c => c.isMade = false) program g history :=
    Finished.exists_of_run (by simp [Start.brought]) (by decide) hy
  exact ⟨g, history, h, hreaders, made_channels_consumed h⟩

end FlowAssembly
