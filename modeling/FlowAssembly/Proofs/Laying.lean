import FlowAssembly.Proofs.CallSites

/-!
# What a call lays down

A call either lingers on the channel that its flow stands on, or it moves on
from there (`Sketch.Passes`): the channel is read, what was held back goes
behind its reader, and the rest goes behind that. In both cases pieces stay in
one piece, so all that is asked of a call is where it puts its own side flows,
and that it takes in whatever came of each of its flows as a whole
(`Sketch.Takes`).

From then on it is the same for all kinds of calls: what was in its place in a
flow of the call is so in the order of the flow that the call was made on
(`Step.laysOut_of_passes`, `Step.laysOut_of_lingers`).
-/

namespace FlowAssembly

open Assembly Workshop

namespace Sketch

variable {s s₁ s' : Sketch} {k : ComponentKey} {sides ps : List (List Mark)}
  {reader : List Mark}

/-- The flow moves on from the channel that it stood on. -/
structure Passes (s s' : Sketch) : Prop where
  kept : s.tip = .vacant → s.base <+: s'.base
  read : ∀ k, s.tip = .bare k →
    ∃ sides e, (s.wired sides [.endpoint e (some k)]).base <+: s'.base
  flushed : s'.taps = []

theorem Closes.passes (h : s.Closes s₁) (hb : s₁.base <+: s'.base)
    (hf : s'.taps = []) : s.Passes s' where
  kept _ := h.kept.trans hb
  read k ht := by
    cases h with
    | same hv =>
        rw [ht] at hv
        cases hv
    | read hr _ =>
        rw [ht] at hr
        obtain ⟨e, rfl⟩ := hr.eq_of_some
        exact ⟨[], e, hb⟩
  flushed := hf

theorem passes_wired (hr : Reader s.tip.key? reader) (sides : List (List Mark)) :
    s.Passes (s.wired sides reader) where
  kept _ := base_prefix_wired s sides reader
  read k ht := by
    rw [ht] at hr
    obtain ⟨e, rfl⟩ := hr.eq_of_some
    exact ⟨sides, e, List.prefix_rfl⟩
  flushed := rfl

theorem Passes.keeps (h : s.Passes s') (hn : s.Narrow)
    (hv : s.tip = .vacant → s.taps = []) : s.Keeps s' := by
  rcases hn.cases with ht | ⟨k, ht⟩
  · exact keeps_of_base (hv ht) (h.kept ht)
  · obtain ⟨sides, e, hb⟩ := h.read k ht
    exact (keeps_wired s sides _).trans (keeps_of_base rfl hb)

/-- Behind the channel there is its reader, and behind that there are the
flows that were held back. -/
theorem Passes.base_of_bare (h : s.Passes s') (ht : s.tip = .bare k) :
    ∃ sides e rest,
      s'.base = s.base ++ sides ++ .channel k :: .endpoint e (some k) ::
        (s.taps.flatten ++ rest) := by
  obtain ⟨sides, e, rest, hb⟩ := h.read k ht
  refine ⟨sides.flatten, e, rest, ?_⟩
  rw [← hb]
  simp [wired, lead, ht]

/-- A flow that is held back is taken in as it is. -/
theorem takes_held {ts : List Sketch} (hs : List.Forall₂ Shut ts ps)
    (hn : ∀ t ∈ ts, t.Narrow) (hp : ∀ p ∈ ps, p ∈ s.taps) :
    ∀ t ∈ ts, s.Takes t := by
  induction hs with
  | nil => exact List.forall_mem_nil _
  | cons hone _ ih =>
      rw [List.forall_mem_cons] at hn hp ⊢
      refine ⟨⟨[], .inr ⟨_, hp.1, ?_⟩⟩, ih hn.2 hp.2⟩
      rw [List.append_nil]
      exact (hone.prefix_of_narrow hn.1).isInfix

end Sketch

namespace Builder

/-- The builder has the order of the sketch, nothing reads the channel that it
stands on, and what it holds back was tapped off that. -/
structure Stands (b : Builder) (s : Sketch) (w : Workshop) : Prop where
  traced : b.Traced s
  narrow : s.Narrow
  tapped : Tapped b w b.cursor.deferred

variable {b b' n : Builder} {c : Channel} {s s' : Sketch} {w w' : Workshop}

theorem Traced.heldBack_eq (hd : b.Traced s) : b.heldBack = s.taps.flatten := by
  rw [heldBack, List.flatMap_def, hd.taps]

theorem Traced.bare (hd : b.Traced s) (hn : s.Narrow)
    (hc : b.cursor.channel = some (.channel c)) :
    s.tip = .bare c.key := by
  refine hn.bare ?_
  rw [← hd.current]
  exact currentKey?_eq_some.2 ⟨c, hc, rfl⟩

theorem Traced.marks_of_bare (hd : b.Traced s) (ht : s.tip = .bare c.key) :
    b.registry.marks = s.base ++ [.channel c.key] := by
  rw [hd.marks, Sketch.marks, ht, Tip.marks]

theorem Traced.deferred_of_taps (hd : b.Traced s) (ht : s.taps = []) :
    b.cursor.deferred = [] := by
  have htaps := hd.taps
  rw [ht] at htaps
  exact List.map_eq_nil_iff.1 htaps

theorem stands_branch (parent : Builder) (c : Channel) (w : Workshop) :
    (parent.branch c).Stands ⟨[], .bare c.key, []⟩ w :=
  ⟨(drawn_branch parent c).traced, Sketch.narrow_of_bare rfl, .branch parent c w⟩

/-- A call that moves on reads the channel that its flow stands on. -/
theorem Traced.read_of_passes (hd : b.Traced s) (hn : s.Narrow) (hd' : b'.Traced s')
    (hp : s.Passes s') (hc : b.cursor.channel = some (.channel c)) :
    ∃ front sides e rest, b.registry.marks = front ++ [.channel c.key] ∧
      b'.registry.marks = front ++ sides ++ .channel c.key ::
        .endpoint e (some c.key) :: (b.heldBack ++ rest) ∧
      s'.Holds (.endpoint e (some c.key) :: b.heldBack) := by
  have ht := hd.bare hn hc
  obtain ⟨sides, e, rest, hb⟩ := hp.base_of_bare ht
  rw [← hd.heldBack_eq] at hb
  refine ⟨s.base, sides, e, rest ++ s'.tip.marks, hd.marks_of_bare ht, ?_, .inl ?_⟩
  · rw [hd'.marks, Sketch.marks, hb]
    simp
  · rw [hb]
    exact ⟨s.base ++ sides ++ [.channel c.key], rest, by simp⟩

theorem Stands.holdsBack (h : b.Stands s w) : b.HoldsBack w :=
  ⟨h.tapped, fun hc => h.traced.held_of_vacant <| by
    rw [← Tip.key?_eq_none, ← h.traced.current]
    exact currentKey?_eq_none.2 hc⟩

/-- What a flow held back goes ahead of the channel that it ends on. -/
theorem Traced.ends_on (hd : b.Traced s) (hn : s.Narrow)
    (hc : b.cursor.channel = some (.channel c)) :
    b.EndsOn c s.flushed.marks := by
  have ht := hd.bare hn hc
  refine ⟨s.base, hd.marks_of_bare ht, ?_⟩
  rw [hd.heldBack_eq]
  simp [Sketch.flushed, ht, Sketch.marks, Tip.marks]

end Builder

/-! ## Flows that ran -/

/-- The flow ran for the parent, from the workshop `v` on, and comes to the
given sketch. All calls in it are where they are asked to be. -/
structure Ran (parent : Builder) (flow : Channel × List Step) (v : Workshop)
    (t : Sketch) : Prop where
  ends : ∃ n u, Yields (assembleSteps (parent.branch flow.1) flow.2) v n u ∧
    n.Stands t u
  nodup : t.keys.Nodup
  calls : ∀ call, Makes flow.2 (parent.branch flow.1) v call →
    call.Placed t.Holds ∧ call.Levels

/-- Whatever builder the steps run on, if no channel that they place stands
elsewhere then they keep what is in one piece, and all calls among them are
where they are asked to be. -/
def Laid (steps : List Step) : Prop :=
  ∀ ⦃b b' : Builder⦄ ⦃s : Sketch⦄ ⦃w w' : Workshop⦄, b.Stands s w →
    w.Room (s.keys ++ placed steps) → Yields (assembleSteps b steps) w b' w' →
    ∃ s', b'.Stands s' w' ∧ w.Spent (s.keys ++ placed steps) w' s'.keys ∧
      ((∀ t ∈ steps, t.isFresh = false) → s.Keeps s') ∧
      ∀ call, Makes steps b w call → call.Placed s'.Holds ∧ call.Levels

namespace Ran

variable {parent n : Builder} {br : Branch} {flow : Channel × List Step}
  {t s : Sketch} {v u v' : Workshop}

theorem stands (h : Ran parent flow v t)
    (hy : Yields (assembleSteps (parent.branch flow.1) flow.2) v n u) :
    n.Stands t u := by
  obtain ⟨_, _, hy', hstands⟩ := h.ends
  obtain ⟨rfl, rfl⟩ := hy.eq hy'
  exact hstands

/-- What is in one piece in the flow stands in the base of its branch. -/
theorem infix_base (h : Ran parent flow v t) {l : List Mark} (hl : t.Holds l) :
    l <:+: t.flushed.base := by
  obtain ⟨_, _, -, hstands⟩ := h.ends
  exact hl.flushed hstands.narrow hstands.traced.vacant

theorem traced (h : Ran parent flow v t)
    (hy : Yields (parent.runBranch flow) v br v') : br.Traced t.flushed := by
  rw [Builder.runBranch, yields_bind] at hy
  obtain ⟨n, u, hs, hi⟩ := hy
  exact ((h.stands hs).traced.intoBranch h.nodup hi).1

/-- Whoever takes the branch in has what is called in the flow in its place,
and the channel of the flow behind what was tapped off it. -/
theorem placed (h : Ran parent flow v t) (ht : s.Takes t.flushed) {call : Call}
    (hc : Makes flow.2 (parent.branch flow.1) v call) : call.Placed s.Holds :=
  (h.calls call hc).1.mono fun _ hl => ht.holds (h.infix_base hl)

theorem ended (h : Ran parent flow v t) (ht : s.Takes t.flushed)
    (hy : Yields (assembleSteps (parent.branch flow.1) flow.2) v n u) {c : Channel}
    (hc : n.cursor.channel = some (.channel c)) :
    ∃ gap, s.Holds (n.heldBack ++ gap ++ [.channel c.key]) := by
  have hstands := h.stands hy
  have htip := hstands.traced.bare hstands.narrow hc
  obtain ⟨gap, hin⟩ := ht
  refine ⟨gap, hin.mono ⟨t.base, [], ?_⟩⟩
  rw [hstands.traced.heldBack_eq]
  simp [Sketch.flushed, htip, Tip.marks]

/-- In the branch itself everything is in its place, and the channel of the
flow is last. -/
theorem level (h : Ran parent flow v t)
    (hy : Yields (parent.runBranch flow) v br v') :
    (∀ inner, Makes flow.2 (parent.branch flow.1) v inner →
      inner.Placed (· <:+: br.registry.marks)) ∧
    ∀ n u c, Yields (assembleSteps (parent.branch flow.1) flow.2) v n u →
      n.cursor.channel = some (.channel c) →
      n.EndsOn c br.registry.marks := by
  rw [(h.traced hy).marks]
  refine ⟨fun inner hm => (h.calls inner hm).1.mono fun l hl => ?_,
    fun n u c hs hc => ?_⟩
  · exact (h.infix_base hl).trans (List.prefix_append _ _).isInfix
  · have hstands := h.stands hs
    exact hstands.traced.ends_on hstands.narrow hc

end Ran

section

variable {b : Builder} {flows : List (Channel × List Step)} {branches : List Branch}
  {w w' : Workshop}

theorem ran_runBranch {flow : Channel × List Step} {br : Branch} (hf : Laid flow.2)
    (hr : w.Room (flow.1.key :: placed flow.2))
    (hy : Yields (b.runBranch flow) w br w') :
    ∃ t : Sketch, Ran b flow w t ∧ br.Traced t.flushed ∧ t.Narrow ∧
      w.Spent (flow.1.key :: placed flow.2) w' t.keys := by
  have hrun := hy
  rw [Builder.runBranch, yields_bind] at hy
  obtain ⟨n, w₁, hs, hi⟩ := hy
  obtain ⟨t, hstands, hspent, -, hcalls⟩ := hf (b.stands_branch flow.1 w) hr hs
  have hran : Ran b flow w t :=
    ⟨⟨n, w₁, hs, hstands⟩, (hr.of_spent hspent).nodup, hcalls⟩
  obtain ⟨-, hnext⟩ := hstands.traced.intoBranch hran.nodup hi
  refine ⟨t, hran, hran.traced hrun, hstands.narrow,
    hspent.trans ⟨fun k => ?_, fun k => ?_⟩⟩
  · exact Nat.le_of_eq (by rw [hnext])
  · exact Nat.le_of_eq (by rw [hnext])

/-- The sketches of branches, one for each flow of a call. -/
structure Rows (b : Builder) (flows : List (Channel × List Step)) (w : Workshop)
    (branches : List Branch) (ts : List Sketch) : Prop where
  traced : List.Forall₂ Branch.Traced branches ts
  narrow : ∀ t ∈ ts, t.Narrow
  ran : ∀ before flow after done v, flows = before ++ flow :: after →
    YieldsAll b.runBranch w before done v → ∃ t, Ran b flow v t ∧ t.flushed ∈ ts

/-- The flows of a call are run one after the other. -/
theorem rows_runBranches (hf : ∀ flow ∈ flows, Laid flow.2)
    (hr : ∀ flow ∈ flows, w.Room (flow.1.key :: placed flow.2))
    (hy : YieldsAll b.runBranch w flows branches w') :
    ∃ ts, Rows b flows w branches ts ∧ (∀ t ∈ ts, w'.Room t.keys) ∧
      w.Spent (flows.map (fun flow => flow.1.key) ++ flows.flatMap fun flow =>
        placed flow.2) w' (ts.flatMap Sketch.keys) := by
  induction hy with
  | nil w =>
      exact ⟨[], ⟨.nil, List.forall_mem_nil _, by simp⟩, List.forall_mem_nil _,
        .refl _ _⟩
  | @cons w w₁ w' flow br flows branches hbr _ ih =>
      rw [List.forall_mem_cons] at hf hr
      obtain ⟨t, hran, htraced, hnarrow, hspent⟩ := ran_runBranch hf.1 hr.1 hbr
      obtain ⟨ts, hrows, hrooms, hrest⟩ :=
        ih hf.2 fun flow hm => (hr.2 flow hm).mono hspent.supply
      refine ⟨t.flushed :: ts, ⟨.cons htraced hrows.traced, ?_, ?_⟩, ?_,
        fun k => ?_, fun k => ?_⟩
      · exact List.forall_mem_cons.2 ⟨hnarrow.flushed, hrows.narrow⟩
      · intro before flow' after done v heq hdone
        cases before with
        | nil =>
            cases heq
            cases hdone
            exact ⟨t, hran, List.mem_cons_self⟩
        | cons first before =>
            cases heq
            cases hdone with
            | cons hfirst hdone =>
                obtain ⟨-, rfl⟩ := hbr.eq hfirst
                obtain ⟨t', hran', hm⟩ := hrows.ran before flow' after _ v rfl hdone
                exact ⟨t', hran', List.mem_cons_of_mem _ hm⟩
      · refine List.forall_mem_cons.2 ⟨fun k => ?_, hrooms⟩
        rw [Sketch.keys_flushed]
        exact (hr.1.of_spent hspent).mono hrest.supply k
      · have hk := hspent.count k
        have hk' := hrest.count k
        simp only [List.map_cons, List.flatMap_cons, List.count_append,
          List.count_cons, Sketch.keys_flushed] at hk hk' ⊢
        omega
      · exact Nat.le_trans (hrest.supply k) (hspent.supply k)

end

/-! ## Calls that take in their flows -/

namespace Step

variable {s : Step} {b b' : Builder} {st : Stage} {branches : List Branch}
  {ts : List Sketch} {sk sk' : Sketch} {w w₁ w' : Workshop}

/-- What becomes of the sketch of a builder by a call: pieces stay in one
piece, and the calls that it comes to are where they are asked to be. -/
structure LaysOut (s : Step) (b : Builder) (w : Workshop) (b' : Builder)
    (w' : Workshop) (sk sk' : Sketch) :
    Prop where
  stands : b'.Stands sk' w'
  spent : w.Spent (sk.keys ++ s.placed) w' sk'.keys
  keeps : s.isFresh = false → sk.Keeps sk'
  calls : ∀ call, Makes [s] b w call → call.Placed sk'.Holds ∧ call.Levels

/-- Whatever builder the call is made on, if no channel that it places stands
elsewhere then all of it is where it is asked to be. -/
def Laid (s : Step) : Prop :=
  ∀ ⦃b b' : Builder⦄ ⦃sk : Sketch⦄ ⦃w w' : Workshop⦄, b.Stands sk w →
    w.Room (sk.keys ++ s.placed) → Yields (s.assemble b) w b' w' →
    ∃ sk', s.LaysOut b w b' w' sk sk'

/-- The flows of the call are taken in as they came out. -/
def TakesIn (s : Step) (b : Builder) (w : Workshop) (sk' : Sketch) : Prop :=
  ∀ parent flow v, s.Runs b w parent flow v → ∃ t, Ran parent flow v t ∧
    sk'.Takes t.flushed

/-- A call that holds no flow runs none. -/
theorem takesIn_of_flows (h : s.flows = []) (sk' : Sketch) : s.TakesIn b w sk' := by
  rintro parent flow v ⟨st, w₁, before, after, branches, hst, -, hflows, -⟩
  have hm :=
    flow_mem_of_stage hst (hflows ▸ List.mem_append_right before List.mem_cons_self)
  rw [h] at hm
  cases hm

theorem takesIn_of_rows (h : Yields (s.stage b) w st w₁)
    (hrows : Rows st.builder st.flows w₁ branches ts) (ht : ∀ t ∈ ts, sk'.Takes t) :
    s.TakesIn b w sk' := by
  intro parent flow v hr
  obtain ⟨rfl, before, after, done, hflows, hdone⟩ := (runs_iff h).1 hr
  obtain ⟨t, hran, hm⟩ := hrows.ran before flow after done v hflows hdone
  exact ⟨t, hran, ht _ hm⟩

/-- The side flows of an endpoint are where they are asked to be. -/
def SetsSides (s : Step) (b : Builder) (w : Workshop) (b' : Builder)
    (sk' : Sketch) : Prop :=
  ∀ plan flows, s = .endpoint plan flows → ∃ rs front k? e, s.Comes b w rs ∧
    b.Feeds front k? ∧ b'.registry.marks = front ++ led rs k? e ++ b.heldBack ∧
    sk'.Holds (led rs k? e)

theorem setsSides_of_ne (h : ∀ plan flows, s ≠ .endpoint plan flows) :
    s.SetsSides b w b' sk' :=
  fun plan flows heq => absurd heq (h plan flows)

/-- A call with all its flows is where it is asked to be, if its own parts are
and it takes the flows in. -/
theorem calls_of_takesIn (hd : b.Stands sk w) (hy : Yields (s.assemble b) w b' w')
    (hsides : s.SetsSides b w b' sk') (htakes : s.TakesIn b w sk')
    (hread : s.lingers = false → s.isFresh = false →
      ∀ c, b.cursor.channel = some (.channel c) →
        ∃ front sides e rest, b.registry.marks = front ++ [.channel c.key] ∧
          b'.registry.marks = front ++ sides ++ .channel c.key :: .endpoint e
          (some c.key) :: (b.heldBack ++ rest) ∧
          sk'.Holds (.endpoint e (some c.key) :: b.heldBack)) :
    ∀ call, Makes [s] b w call → call.Placed sk'.Holds ∧ call.Levels := by
  intro call hm
  rcases makes_singleton hy hm with rfl | ⟨parent, flow, v, hr, hin⟩
  · refine ⟨⟨hd.holdsBack, hsides, hread, fun parent flow v n u hr hs => ?_⟩,
      fun parent flow v br v' hr hs => ?_⟩
    · obtain ⟨t, hran, ht⟩ := htakes parent flow v hr
      exact ⟨(hran.stands hs).holdsBack, fun c hc => hran.ended ht hs hc⟩
    · obtain ⟨t, hran, -⟩ := htakes parent flow v hr
      exact hran.level hs
  · obtain ⟨t, hran, ht⟩ := htakes parent flow v hr
    exact ⟨hran.placed ht hin, (hran.calls call hin).2⟩

/-- A call that moves on. -/
theorem laysOut_of_passes (hl : s.lingers = false) (hd : b.Stands sk w)
    (hy : Yields (s.assemble b) w b' w') (hd' : b'.Traced sk') (hn' : sk'.Narrow)
    (hs : w.Spent (sk.keys ++ s.placed) w' sk'.keys) (hp : sk.Passes sk')
    (hsides : s.SetsSides b w b' sk') (htakes : s.TakesIn b w sk') :
    s.LaysOut b w b' w' sk sk' where
  stands := by
    refine ⟨hd', hn', ?_⟩
    rw [hd'.deferred_of_taps hp.flushed]
    exact .moved hl hy
  spent := hs
  keeps _ := hp.keeps hd.narrow hd.traced.vacant
  calls := calls_of_takesIn hd hy hsides htakes fun _ _ _ hc =>
    hd.traced.read_of_passes hd.narrow hd' hp hc

/-- A call that lingers. -/
theorem laysOut_of_lingers (hl : s.lingers = true) (hd : b.Stands sk w)
    (hy : Yields (s.assemble b) w b' w') (hd' : b'.Traced sk') (hn' : sk'.Narrow)
    (hs : w.Spent (sk.keys ++ s.placed) w' sk'.keys) (hk : sk.Keeps sk')
    (htakes : s.TakesIn b w sk') : s.LaysOut b w b' w' sk sk' where
  stands := ⟨hd', hn', hd.tapped.lingers hl hy⟩
  spent := hs
  keeps _ := hk
  calls := by
    refine calls_of_takesIn hd hy (setsSides_of_ne ?_) htakes fun hf => ?_
    · rintro plan flows rfl
      cases hl
    · rw [hl] at hf
      cases hf

end Step

end FlowAssembly
