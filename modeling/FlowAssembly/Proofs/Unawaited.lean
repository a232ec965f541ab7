import FlowAssembly.Proofs.Conclusions
import FlowAssembly.Proofs.Extension

/-!
# Outputs that nothing waits for

An output is set only where it is waited for: by the builder that has it
pending, or by the branch that ended on it. A component whose output is unset
while nothing on the pile waits for it is *silent*, and it stays so. Each turn
sets an output that was waited for, and whatever is waited for afterwards was
waited for before or belongs to an endpoint that is new.

So it is enough to see an endpoint once where its builder does not wait for
it: on a tidy pile no one else can. What the flow is finished as may be far
off by then, when the builder is nested in calls of others (`Step.Concludes`),
but only turns lie in between.
-/

namespace FlowAssembly

open Assembly

/-! ## Silent components -/

/-- What stands on the pile under the key has no output, and nothing on the
pile waits for one. -/
structure Silent (k : ComponentKey) (ds : List Desk) : Prop where
  unset : ∀ x ∈ standing ds, x.key = k → x.output? = none
  pending : ∀ d ∈ ds, ∀ output ∈ d.builder.cursor.pending, output.component ≠ k
  ends : ∀ d ∈ ds, ∀ br ∈ d.branches, ∀ output, br.ending = .pending output →
    output.component ≠ k

section

variable {own : Channel → Bool} {brought : Channel → Prop} {b : Builder}
  {d d' : Desk} {ds : List Desk} {e : Endpoint} {k : ComponentKey}
  {link : Option Link} {m : Moment} {n n' : Nat}

/-- What works without an output is silent on a tidy pile, if its own builder
does not wait for it. -/
theorem Tidy.silent (h : Tidy own brought ds n) (hd : d ∈ ds) {x : Component}
    (hx : x ∈ d.builder.registry.components) (hworker : x.isWorker = true)
    (hunset : x.output? = none)
    (hp : ∀ output ∈ d.builder.cursor.pending, output.component ≠ x.key) :
    Silent x.key ds := by
  have hmarked : x.marked own = true := Component.marked_of_isWorker hworker
  obtain ⟨before, after, rfl⟩ := List.append_of_mem hd
  have hparts : stock (before ++ d :: after) = stock before ++
        (d.builder.components ++ (d.branched ++ d.loose) ++ stock after) := by
    rw [stock, List.flatMap_append, List.flatMap_cons]
    simp only [stock, Desk.components, Desk.registered, List.append_assoc]
  have hmem : x ∈ d.builder.components := List.mem_append_left _ hx
  have hclear := h.clear
  rw [hparts] at hclear
  obtain ⟨-, hhere, hfront⟩ := Clear.append_iff.1 hclear
  obtain ⟨hdesk, -, hback⟩ := Clear.append_iff.1 hhere
  obtain ⟨-, -, hbranched⟩ := Clear.append_iff.1 hdesk
  have hfront : ∀ y ∈ stock before, y.key ≠ x.key := fun y hy =>
    hfront y hy _ (List.mem_append_left _ (List.mem_append_left _ hmem))
      (.inr hmarked)
  have hback : ∀ y ∈ stock after, y.key ≠ x.key := fun y hy hk =>
    hback _ (List.mem_append_left _ hmem) y hy (.inl hmarked) hk.symm
  -- Whatever is waited for stands where it is waited for, and the component
  -- stands elsewhere.
  have helsewhere : ∀ d' ∈ before ++ after, ∀ y ∈ d'.components, y.key ≠ x.key := by
    intro d' hd' y hy
    rcases List.mem_append.1 hd' with hd' | hd'
    · exact hfront y (List.mem_flatMap.2 ⟨d', hd', hy⟩)
    · exact hback y (List.mem_flatMap.2 ⟨d', hd', hy⟩)
  have hcases : ∀ d' ∈ before ++ d :: after, d' ≠ d → d' ∈ before ++ after := by
    intro d' hd' hne
    rcases List.mem_append.1 hd' with hd' | hd'
    · exact List.mem_append_left _ hd'
    · exact List.mem_append_right _ ((List.mem_cons.1 hd').resolve_left hne)
  refine ⟨fun y hy hk => ?_, fun d' hd' output ho hk => ?_,
    fun d' hd' br hbr output ho hk => ?_⟩
  · have heq : x = y := h.clear.eq
      (List.mem_flatMap.2
        ⟨d, hd, List.mem_append_left _ (List.mem_append_left _ hmem)⟩)
      (standing_subset_stock _ hy) hmarked hk.symm
    rw [← heq]
    exact hunset
  · by_cases heq : d' = d
    · exact hp output (heq ▸ ho) hk
    · obtain ⟨y, hy, hbelongs⟩ := (h.sound d' hd').builder.awaited output ho
      exact helsewhere d' (hcases d' hd' heq) y
        (List.mem_append_left _
          (List.mem_append_left _ (List.mem_append_left _ hy)))
        (hbelongs.key.trans hk)
  · obtain ⟨y, hy, hbelongs⟩ := ((h.sound d' hd').branches br hbr).awaited output ho
    have hy' : y ∈ d'.branched := List.mem_flatMap.2 ⟨br, hbr, hy⟩
    by_cases heq : d' = d
    · exact hbranched _ hmem y (List.mem_append_left _ (heq ▸ hy')) (.inl hmarked)
        (hbelongs.key.trans hk).symm
    · exact helsewhere d' (hcases d' hd' heq) y
        (List.mem_append_left _ (List.mem_append_right _ hy'))
        (hbelongs.key.trans hk)

theorem Builder.unawaited_wired {input : ResolvedInput} {sides : List Registry}
    (hk : k.number < n) (he : e.Fresh n) :
    ∀ output ∈ (b.wired input sides e).cursor.pending, output.component ≠ k := by
  intro output ho
  rw [cursor_wired] at ho
  dsimp only at ho
  split at ho
  · cases ho
    exact (he.ne_of_lt hk).symm
  · cases ho

theorem Builder.unawaited_appended {source : ChannelSource}
    (hp : ∀ output ∈ b.cursor.pending, output.component ≠ k) :
    ∀ output ∈ (b.appended source).cursor.pending, output.component ≠ k := by
  intro output ho
  cases hs : source.target? with
  | some target =>
      rw [b.pending_appended hs] at ho
      cases ho
  | none =>
      cases source with
      | channel | named => cases hs
      | fixedSubscriber id => exact hp output ho

/-- What is waited for once a branch was tended is the output of its link, if
it got one. -/
theorem Tends.unawaited {merge : Option Meeting} {br br' : Branch}
    (h : Tends merge n br br' n') (hk : k.number < n) :
    ∀ output, br'.ending = .pending output → output.component ≠ k := by
  cases h with
  | link _ _ he =>
      rintro output ⟨⟩
      exact (he.ne_of_lt hk).symm
  | bind | leave | meet => exact nofun

namespace Silent

theorem unset_work (h : Silent k (d :: ds)) (ht : Tidy own brought (d :: ds) n)
    (hw : Work brought d n link d' n') :
    ∀ x ∈ d'.registered, x.key = k → x.output? = none := by
  intro x hx hkey
  by_cases hworker : x.isWorker = true
  · obtain ⟨deal, hexplains⟩ := hw.explains (ht.sound d List.mem_cons_self).meets
    rcases (ht.mem_registered hexplains (Component.marked_of_isWorker hworker)).1 hx
      with ⟨y, hy, rfl⟩ | hused
    · have hsame : y.settled deal.bound = y := by
        cases hb : deal.bound with
        | none => rfl
        | some binding =>
            rw [Component.key_settled] at hkey
            refine Component.boundTo_of_ne (fun heq => ?_) _
            rcases hexplains.bound binding hb with ⟨hp, -⟩ | ⟨br, hbr, hp, -⟩
            · exact h.pending d List.mem_cons_self _ hp (heq.symm.trans hkey)
            · exact h.ends d List.mem_cons_self br hbr _ hp (heq.symm.trans hkey)
      rw [hsame] at hkey ⊢
      exact h.unset y (List.mem_append_left _ hy) hkey
    · rcases List.mem_append.1
        (hexplains.loose.subset (List.mem_append_left _ hused)) with hloose | hnew
      · rw [Desk.isWorker_loose hloose] at hworker
        cases hworker
      · have hnewcomer := hexplains.new
        rw [Option.mem_toList.1 hnew] at hnewcomer
        cases hnewcomer with
        | made _ hout => exact hout
        | copy => cases hworker
  · cases x with
    | channel c => rfl
    | endpoint e => exact absurd rfl hworker
    | source s => exact absurd rfl hworker

theorem pending_work (h : Silent k (d :: ds)) (hk : k.number < n)
    (hw : Work brought d n link d' n') :
    ∀ output ∈ d'.builder.cursor.pending, output.component ≠ k := by
  have hp := h.pending d List.mem_cons_self
  cases hw with
  | @idle b _ _ _ hc =>
      show ∀ output ∈ b.cursor.pending, _
      rw [hc]
      exact hp
  | take | shed | tend | meetReady | meetBare | part => exact hp
  | append => exact Builder.unawaited_appended hp
  | attach _ _ _ _ _ _ he => exact Builder.unawaited_wired hk he
  | stow _ _ hstow => cases hstow <;> exact hp
  | merge _ _ _ _ _ _ he => exact Builder.unawaited_wired hk he
  | post => exact hp

theorem ends_work (h : Silent k (d :: ds)) (hk : k.number < n)
    (hw : Work brought d n link d' n') :
    ∀ br ∈ d'.branches, ∀ output, br.ending = .pending output →
      output.component ≠ k := by
  have hends := h.ends d List.mem_cons_self
  cases hw with
  | idle | take | shed | append | meetReady | meetBare | part | post => exact hends
  | attach _ hbr =>
      rw [hbr] at hends
      exact fun br hm => hends br (List.mem_append_right _ hm)
  | @tend done todo br br' _ _ hbr ht =>
      rw [hbr] at hends
      intro br₁ hm
      rcases List.mem_append.1 hm with hm | hm
      · exact hends br₁ (List.mem_append_left _ hm)
      · rcases List.mem_cons.1 hm with rfl | hm
        · exact ht.unawaited hk
        · exact hends br₁ (List.mem_append_right _ (List.mem_cons_of_mem _ hm))
  | stow | merge => exact fun br hm => absurd hm List.not_mem_nil

/-- No turn gives a silent component an output, and no turn lets anything wait
for one. -/
theorem turn (h : Silent k ds) (ht : Tidy own brought ds n) (hk : k.number < n)
    (hturn : Turn brought ds n m n') :
    Silent k m.desks := by
  obtain ⟨hunset, hpending, hends⟩ := h
  cases hturn with
  | @work d d' ds _ _ _ hw =>
      have hsilent : Silent k (d :: ds) := ⟨hunset, hpending, hends⟩
      simp only [standing_cons, List.forall_mem_cons, List.forall_mem_append]
        at hunset hpending hends
      refine ⟨?_, ?_, ?_⟩
      · rw [standing_cons, List.forall_mem_append]
        exact ⟨hsilent.unset_work ht hw, hunset.2⟩
      · exact List.forall_mem_cons.2 ⟨hsilent.pending_work hk hw, hpending.2⟩
      · exact List.forall_mem_cons.2 ⟨hsilent.ends_work hk hw, hends.2⟩
  | @push d ds c rest _ _ =>
      simp only [standing_cons, List.forall_mem_cons, List.forall_mem_append]
        at hunset hpending hends
      refine ⟨?_, ?_, ?_⟩
      · simp only [standing_cons, Desk.registered_plain, Tidy.components_branch,
          List.forall_mem_append, List.forall_mem_singleton]
        exact ⟨fun _ => rfl, hunset⟩
      · simp only [List.forall_mem_cons]
        exact ⟨by rintro _ ⟨⟩, hpending⟩
      · simp only [List.forall_mem_cons]
        exact ⟨fun _ hm => absurd hm List.not_mem_nil, hends⟩
  | @pop b d ds _ =>
      simp only [standing_cons, Desk.registered_plain, List.forall_mem_cons,
        List.forall_mem_append] at hunset hpending hends
      refine ⟨?_, ?_, ?_⟩
      · simp only [standing_cons, Desk.registered, Desk.branched,
          List.flatMap_append, List.flatMap_singleton, List.forall_mem_append]
          at hunset ⊢
        exact ⟨⟨hunset.2.1.1, hunset.2.1.2,
            fun x hx => hunset.1 x (b.condenses_flushDeferred.subperm.subset hx)⟩,
          hunset.2.2⟩
      · exact List.forall_mem_cons.2 hpending.2
      · rw [List.forall_mem_cons, List.forall_mem_append, List.forall_mem_singleton]
        refine ⟨⟨hends.2.1, fun output ho => hpending.1 output ?_⟩, hends.2.2⟩
        simp only [Builder.toBranch] at ho
        split at ho
        · next hp =>
            cases ho
            exact hp
        · cases ho
        · cases ho
  | @fresh b b' d ds _ hr hc =>
      simp only [standing_cons, List.forall_mem_cons, List.forall_mem_append]
        at hunset hpending hends
      refine ⟨?_, ?_, ?_⟩
      · rw [standing_cons, Desk.registered_plain, Builder.components_blank hr hc,
          standing_cons]
        simp only [List.nil_append, List.forall_mem_append]
        exact hunset.2
      · simp only [List.forall_mem_cons]
        exact ⟨by rw [hc]; rintro _ ⟨⟩, hpending.2⟩
      · simp only [List.forall_mem_cons]
        exact ⟨fun _ hm => absurd hm List.not_mem_nil, hends.2⟩

end Silent

end

/-! ## From a call to the graph -/

theorem Tidy.lasting :
    Lasting fun brought ds n => Tidy (fun _ => false) brought ds n :=
  have tidy : Kept (fun _ => True) fun brought _ ds n =>
      Tidy (fun _ => false) brought ds n :=
    Tidy.kept nofun fun _ _ => rfl
  { bring := fun h hb => @tidy.bring _ _ _ [] h fun c hc => ⟨trivial, hb c hc⟩
    turn := fun h ht => h.turn ht
    forget := fun h => @tidy.forget _ [] _ _ h
    wait := fun h hle => @tidy.wait [] _ _ _ h hle }

theorem Silent.lasting (k : ComponentKey) :
    Lasting fun brought ds n => Tidy (fun _ => false) brought ds n ∧ k.number < n ∧
      Silent k ds where
  bring h hb := ⟨Tidy.lasting.bring h.1 hb, h.2⟩
  turn h ht := ⟨h.1.turn ht, Nat.lt_of_lt_of_le h.2.1 (h.1.turn_le ht),
    h.2.2.turn h.1 h.2.1 ht⟩
  forget h := ⟨Tidy.lasting.forget h.1, h.2⟩
  wait h hle := ⟨Tidy.lasting.wait h.1 hle, Nat.lt_of_lt_of_le h.2.1 hle, h.2.2⟩

/-- What works without an output when a call has answered, and is not waited
for by its builder, has none in whatever graph the flow is finished as. -/
theorem Step.Concludes.silent {s : Step} {b b' : Builder} {w w' : Workshop}
    {g : FlowGraph} {x : Component} (h : s.Concludes b w g)
    (hy : Yields (s.assemble b) w b' w') (hx : x ∈ b'.registry.components)
    (hworker : x.isWorker = true) (hunset : x.output? = none)
    (hp : ∀ output ∈ b'.cursor.pending, output.component ≠ x.key) :
    ∀ y ∈ g.components, y.key = x.key → y.output? = none := by
  obtain ⟨b₁, n, ⟨-, -, hsilent⟩, hg⟩ :=
    h.lasting hy (Silent.lasting x.key) fun {brought ds n d} htidy hd hb => by
      subst hb
      have hmem : x ∈ stock ds := List.mem_flatMap.2 ⟨d, hd, List.mem_append_left _
        (List.mem_append_left _ (List.mem_append_left _ hx))⟩
      exact ⟨htidy, htidy.given _ hmem, htidy.silent hd hx hworker hunset hp⟩
  intro y hy hk
  rw [hg] at hy
  refine hsilent.unset y ?_ hk
  rw [standing_cons, Desk.registered_plain]
  exact List.mem_append_left _ (b₁.condenses_flushDeferred.subperm.subset hy)

/-- The case of an endpoint. -/
theorem Step.Concludes.unset {s : Step} {b b' : Builder} {w w' : Workshop}
    {g : FlowGraph} {e : Endpoint} (h : s.Concludes b w g)
    (hy : Yields (s.assemble b) w b' w') (he : .endpoint e ∈ b'.registry.components)
    (hunset : e.output = none)
    (hp : ∀ output ∈ b'.cursor.pending, output.component ≠ e.key) :
    ∀ e' ∈ g.endpoints, e'.key = e.key → e'.output = none :=
  fun e' he' hk =>
    h.silent hy he rfl hunset hp (.endpoint e') (FlowGraph.mem_endpoints.1 he') hk

end FlowAssembly
