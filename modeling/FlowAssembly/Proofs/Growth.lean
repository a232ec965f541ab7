import FlowAssembly.Proofs.Accounts
import FlowAssembly.Proofs.Placement

/-!
# Running the flows of a step

How the sketch of a builder goes on when steps run on it is told by their
text. A flow that comes out as foretold (`Foreseen`) has the outlook that was
computed for it, spent no keys but those of the channels that it placed and
those from the supply, and kept the channel that it starts at in the place
that `movesSeed` tells (`Grows`).

Here this is carried from single flows to the lists of flows that a step
holds: they are run in nested builders (`Grown`), and the branches that come
of it are closed, or led together, or deprived of the channel that their
parent has.
-/

namespace FlowAssembly

open Assembly Workshop

/-- What a step does to the base of the sketch and to the channel of its tip. -/
structure Step.Moves (step : Step) (s s' : Sketch) : Prop where
  kept : s.base <+: s'.base
  lingered : step.lingers = true → s.tip ≠ .vacant → s'.base = s.base ∧
    s'.tip = s.tip ∧
    Mark.opens s'.taps.flatten = (Mark.opens s.taps.flatten || step.holdsBack)
  read : step.lingers = false → s.tip ≠ .vacant →
    ∃ sides reader, (∀ l ∈ sides, Mark.Block l) ∧
      Mark.opens sides.flatten = step.leads ∧ Sketch.Reader s.tip.key? reader ∧
      (s.wired sides reader).base <+: s'.base
  flushed : step.lingers = false → s'.taps = []

/-- A step that lingers does not touch what is done with. -/
theorem Step.Moves.of_lingers {step : Step} {s s' : Sketch}
    (hl : step.lingers = true) (hb : s'.base = s.base)
    (h : s.tip ≠ .vacant → s'.tip = s.tip ∧
      Mark.opens s'.taps.flatten = (Mark.opens s.taps.flatten || step.holdsBack)) :
    step.Moves s s' where
  kept := hb ▸ List.prefix_rfl
  lingered _ hne := ⟨hb, h hne⟩
  read hf := by simp [hl] at hf
  flushed hf := by simp [hl] at hf

namespace Sketch

/-- What steps do to the base of the sketch, and to a channel that the sketch
starts at. -/
structure Grows (steps : List Step) (s s' : Sketch) : Prop where
  kept : s.base <+: s'.base
  seeded : ∀ k, s.base = [] → s.tip = .bare k →
    s'.Seeded k (movesSeed (Mark.opens s.taps.flatten) steps)

theorem Grows.nil (s : Sketch) : Grows [] s s :=
  ⟨List.prefix_rfl, fun _ hb ht => .current hb ht rfl⟩

theorem Grows.cons {step : Step} {rest : List Step} {s s₁ s' : Sketch}
    (h : step.Moves s s₁) (hrest : Grows rest s₁ s') :
    Grows (step :: rest) s s' := by
  refine ⟨h.kept.trans hrest.kept, fun k hb ht => ?_⟩
  have hne : s.tip ≠ .vacant := by simp [ht]
  rw [movesSeed]
  cases hl : step.lingers with
  | true =>
      obtain ⟨hbase, htip, htaps⟩ := h.lingered hl hne
      rw [if_pos rfl, ← htaps]
      exact hrest.seeded k (hbase.trans hb) (htip.trans ht)
  | false =>
      obtain ⟨sides, reader, hblocks, hleads, hreader, hkept⟩ := h.read hl hne
      rw [if_neg (by simp)]
      rw [ht] at hreader
      obtain ⟨e, rfl⟩ : ∃ e, reader = [.endpoint e (some k)] := by
        cases hreader
        exact ⟨_, rfl⟩
      refine .read sides.flatten e
        (Mark.whole_flatten fun l hl => (hblocks l hl).whole) ?_ hleads.symm ?_
      · rw [Mark.opens_flatten hblocks]
        cases sides with
        | nil => exact .inl rfl
        | cons _ _ => exact .inr rfl
      · refine List.IsPrefix.trans ?_ (hkept.trans hrest.kept)
        simp [wired, lead, ht, hb]

end Sketch

/-- The steps do to every builder what is told by their text, if no channel
that they place stands elsewhere. -/
def Foreseen (steps : List Step) : Prop :=
  ∀ ⦃b b' : Builder⦄ ⦃s : Sketch⦄ ⦃w w' : Workshop⦄, b.Drawn s →
    w.Room (s.keys ++ placed steps) → Yields (assembleSteps b steps) w b' w' →
    ∃ s', b'.Drawn s' ∧ s'.outlook = stepsOutlook s.outlook steps ∧
      w.Spent (s.keys ++ placed steps) w' s'.keys ∧ Sketch.Grows steps s s'

theorem nested_of_contained {steps : List Step} (hc : Contained steps)
    {b b' : Builder} {w w' : Workshop} (hn : b.nested = true)
    (hy : Yields (assembleSteps b steps) w b' w') : b'.nested = true :=
  (paysWithin_of_contained (h := ⟨0⟩) hc hn hy).same.nested.trans hn

/-! ## Branches that were run -/

/-- The sketches of branches, which come from the given flows and are as
foretold. -/
structure Grown (flows : List (Channel × List Step)) (branches : List Branch)
    (ts : List Sketch) : Prop where
  drawn : List.Forall₂ Branch.Drawn branches (ts.map Sketch.flushed)
  seeded :
    List.Forall₂ (fun flow (t : Sketch) =>
      t.Seeded flow.1.key (movesSeed false flow.2)) flows ts
  outlook : ts.map Sketch.outlook = flows.map fun flow =>
    stepsOutlook .seeded flow.2
  sound : ∀ t ∈ ts, t.Sound

variable {b : Builder} {w w' : Workshop}

theorem grown_runBranch {flow : Channel × List Step} {br : Branch}
    (hf : Foreseen flow.2) (hc : Contained flow.2)
    (hr : w.Room (flow.1.key :: placed flow.2))
    (hy : Yields (b.runBranch flow) w br w') :
    ∃ t : Sketch, br.Drawn t.flushed ∧
      t.Seeded flow.1.key (movesSeed false flow.2) ∧
      t.outlook = stepsOutlook .seeded flow.2 ∧ t.Sound ∧
      w.Spent (flow.1.key :: placed flow.2) w' t.keys := by
  rw [Builder.runBranch, yields_bind] at hy
  obtain ⟨nested, w₁, hs, hi⟩ := hy
  obtain ⟨t, hdrawn, houtlook, hspent, hgrows⟩ := hf (b.drawn_branch flow.1) hr hs
  obtain ⟨rfl, hbr⟩ := hdrawn.intoBranch (nested_of_contained hc rfl hs) hi
  exact ⟨t, hbr, hgrows.seeded flow.1.key rfl rfl, houtlook, hdrawn.sound, hspent⟩

/-- The flows of a step are run one after the other, and all of them come out
as foretold. -/
theorem grown_runBranches {flows : List (Channel × List Step)}
    {branches : List Branch}
    (hf : ∀ flow ∈ flows, Foreseen flow.2 ∧ Contained flow.2)
    (hr : ∀ flow ∈ flows, w.Room (flow.1.key :: placed flow.2))
    (hy : YieldsAll b.runBranch w flows branches w') :
    ∃ ts, Grown flows branches ts ∧ (∀ t ∈ ts, w'.Room t.keys) ∧
      w.Spent (flows.map (fun flow => flow.1.key) ++ flows.flatMap fun flow =>
        placed flow.2) w' (ts.flatMap Sketch.keys) := by
  induction hy with
  | nil w => exact ⟨[], ⟨.nil, .nil, rfl, by simp⟩, by simp, .refl _ _⟩
  | @cons w w₁ w' flow br flows branches hbr _ ih =>
      rw [List.forall_mem_cons] at hf hr
      obtain ⟨t, hdrawn, hseeded, houtlook, hsound, hspent⟩ :=
        grown_runBranch hf.1.1 hf.1.2 hr.1 hbr
      obtain ⟨ts, hgrown, hall, hrest⟩ :=
        ih hf.2 fun flow hm => (hr.2 flow hm).mono hspent.supply
      refine ⟨t :: ts,
        ⟨.cons hdrawn hgrown.drawn, .cons hseeded hgrown.seeded,
          by simp [houtlook, hgrown.outlook],
          by simpa using ⟨hsound, hgrown.sound⟩⟩, ?_, fun k => ?_, fun k => ?_⟩
      · rw [List.forall_mem_cons]
        exact ⟨(hr.1.of_spent hspent).mono hrest.supply, hall⟩
      · have hk := hspent.count k
        have hk' := hrest.count k
        simp only [List.map_cons, List.flatMap_cons, List.count_append,
          List.count_cons] at hk hk' ⊢
        omega
      · exact Nat.le_trans (hrest.supply k) (hspent.supply k)

namespace Grown

variable {flows : List (Channel × List Step)} {branches : List Branch}
  {ts : List Sketch}

theorem traced (hg : Grown flows branches ts) :
    List.Forall₂ Branch.Traced branches (ts.map Sketch.flushed) :=
  hg.drawn.imp fun _ _ hd => hd.traced

theorem outlook_flushed (hg : Grown flows branches ts) :
    (ts.map Sketch.flushed).map Sketch.outlook = flows.map fun flow =>
      stepsOutlook .seeded flow.2 := by
  rw [← hg.outlook, List.map_map]
  exact List.map_congr_left fun t ht => (hg.sound t ht).outlook_flushed

theorem sound_flushed (hg : Grown flows branches ts) :
    ∀ t ∈ ts.map Sketch.flushed, t.Sound ∧ t.taps = [] := by
  intro t ht
  obtain ⟨t, hm, rfl⟩ := List.mem_map.1 ht
  exact ⟨(hg.sound t hm).flushed, (hg.sound t hm).taps_flushed⟩

theorem room_flushed (hr : ∀ t ∈ ts, w.Room t.keys) :
    ∀ t ∈ ts.map Sketch.flushed, w.Room t.keys := by
  intro t ht k
  obtain ⟨t, hm, rfl⟩ := List.mem_map.1 ht
  rw [Sketch.keys_flushed]
  exact hr t hm k

theorem count_flushed (ts : List Sketch) (k : ComponentKey) :
    ((ts.map Sketch.flushed).flatMap Sketch.keys).count k =
      (ts.flatMap Sketch.keys).count k := by
  induction ts with
  | nil => rfl
  | cons t ts ih =>
      simp only [List.map_cons, List.flatMap_cons, List.count_append,
        Sketch.keys_flushed, ih]

end Grown

/-! ## Closing branches -/

/-- Branches are closed one after the other, each on its own. -/
theorem closed_all {R : Sketch → List Mark → Prop}
    {close : Branch → Assembly Branch}
    (hclose : ∀ {br br' : Branch} {t : Sketch} {w w' : Workshop}, br.Traced t →
      w.Room t.keys → Yields (close br) w br' w' → R t br'.registry.marks ∧
      w.Spent t.keys w' (Mark.keys br'.registry.marks))
    {branches closed : List Branch} {ts : List Sketch}
    (hd : List.Forall₂ Branch.Traced branches ts) (hr : ∀ t ∈ ts, w.Room t.keys)
    (hy : YieldsAll close w branches closed w') :
    List.Forall₂ R ts (closed.map fun br => br.registry.marks) ∧
    (∀ p ∈ closed.map (fun br => br.registry.marks), (Mark.keys p).Nodup) ∧
    w.Spent (ts.flatMap Sketch.keys) w'
      (Mark.keys (closed.map fun br => br.registry.marks).flatten) := by
  induction hy generalizing ts with
  | nil w =>
      cases hd
      exact ⟨.nil, by simp, .refl _ _⟩
  | @cons w w₁ w' br br' branches closed hbr _ ih =>
      cases hd with
      | @cons _ t _ ts htraced hd =>
          rw [List.forall_mem_cons] at hr
          obtain ⟨hone, hspent⟩ := hclose htraced hr.1 hbr
          obtain ⟨hall, hnodup, hrest⟩ :=
            ih hd fun t hm => (hr.2 t hm).mono hspent.supply
          refine ⟨.cons hone hall, ?_, ?_⟩
          · rw [List.map_cons, List.forall_mem_cons]
            exact ⟨(hr.1.of_spent hspent).nodup, hnodup⟩
          · rw [List.map_cons, List.flatten_cons, Mark.keys_append]
            exact hspent.both hrest

namespace Sketch

variable {ts : List Sketch} {ps : List (List Mark)}

theorem whole_shut_all (hs : ∀ t ∈ ts, t.Sound) (hp : List.Forall₂ Shut ts ps) :
    ∀ p ∈ ps, Mark.Whole p := by
  induction hp with
  | nil => simp
  | cons hone _ ih =>
      rw [List.forall_mem_cons] at hs ⊢
      exact ⟨hs.1.whole_shut hone, ih hs.2⟩

/-- Flows that begin at a channel of theirs are blocks when they are closed. -/
theorem fromSeed_shut {flows : List (Channel × List Step)} (hs : ∀ t ∈ ts, t.Sound)
    (hd : List.Forall₂
      (fun flow (t : Sketch) => t.Seeded flow.1.key (movesSeed false flow.2))
      flows ts)
    (hp : List.Forall₂ Shut (ts.map flushed) ps) :
    List.Forall₂ (fun flow p => FromSeed flow.1.key (movesSeed false flow.2) p ∧
      Mark.Whole p) flows ps := by
  induction hd generalizing ps with
  | nil =>
      cases hp
      exact .nil
  | cons hone _ ih =>
      cases hp with
      | cons hshut hp =>
          rw [List.forall_mem_cons] at hs
          exact .cons ⟨hone.shut hs.1 hshut, hs.1.flushed.whole_shut hshut⟩
            (ih hs.2 hp)

theorem block_fromSeed {flows : List (Channel × List Step)}
    (h : List.Forall₂
      (fun flow p => FromSeed flow.1.key (movesSeed false flow.2) p ∧ Mark.Whole p)
      flows ps) :
    ∀ p ∈ ps, Mark.Block p := by
  induction h with
  | nil => simp
  | cons hone _ ih =>
      rw [List.forall_mem_cons]
      exact ⟨⟨hone.2, hone.1.opens⟩, ih⟩

end Sketch

/-- What the given flows come to when they are closed: each begins with a
channel, and together they are as foretold. -/
structure Closed (flows : List (Channel × List Step)) (ps : List (List Mark)) :
    Prop where
  fromSeed :
    List.Forall₂ (fun flow p => Sketch.FromSeed flow.1.key
      (movesSeed false flow.2) p ∧ Mark.Whole p) flows ps
  nodup : ∀ p ∈ ps, (Mark.keys p).Nodup
  crowded : ps.any Mark.crowded =
    ((flows.map Prod.snd).map (stepsOutlook .seeded)).any fun o => o.close.crowded
  misplaced : ps.any Mark.misplaced =
    ((flows.map Prod.snd).map (stepsOutlook .seeded)).any fun o => o.misplaced

section

variable {flows : List (Channel × List Step)} {branches branches' : List Branch}
  {ts : List Sketch} {ps : List (List Mark)} {w₁ : Workshop}

theorem Grown.closed (hg : Grown flows branches ts)
    (hp : List.Forall₂ Sketch.Shut (ts.map Sketch.flushed) ps)
    (hn : ∀ p ∈ ps, (Mark.keys p).Nodup) : Closed flows ps := by
  obtain ⟨hcrowded, hmisplaced⟩ :=
    Sketch.outlook_shut hp (fun t ht => (hg.sound_flushed t ht).1) hn
  rw [hg.outlook_flushed] at hcrowded hmisplaced
  refine ⟨Sketch.fromSeed_shut hg.sound hg.seeded hp, hn, ?_, ?_⟩
  · rw [hcrowded, List.map_map]
    rfl
  · rw [hmisplaced, List.map_map]
    rfl

/-- Flows that share no key with each other or with what else there is. -/
theorem room_flows {others : List ComponentKey}
    (hr : w.Room
      (others ++ flows.map (fun flow => flow.1.key) ++ flows.flatMap fun flow =>
        placed flow.2)) :
    ∀ flow ∈ flows, w.Room (flow.1.key :: placed flow.2) := by
  intro flow hm k
  obtain ⟨before, after, rfl⟩ := List.append_of_mem hm
  have hk := hr k
  simp only [List.map_append, List.map_cons, List.flatMap_append, List.flatMap_cons,
    List.count_append, List.count_cons] at hk ⊢
  omega

/-- Flows that are run and left open. -/
theorem closed_leaveOpen (hf : ∀ flow ∈ flows, Foreseen flow.2 ∧ Contained flow.2)
    (hr : ∀ flow ∈ flows, w.Room (flow.1.key :: placed flow.2)) {b' : Builder}
    (hy : YieldsAll b.runBranch w flows branches w₁)
    (hc : YieldsAll (fun br => br.leaveOpen b') w₁ branches branches' w') :
    Closed flows (branches'.map fun br => br.registry.marks) ∧
    w.Spent (flows.map (fun flow => flow.1.key) ++ flows.flatMap fun flow =>
      placed flow.2) w'
      (Mark.keys (branches'.map fun br => br.registry.marks).flatten) := by
  obtain ⟨ts, hgrown, hroom, hspent⟩ := grown_runBranches hf hr hy
  obtain ⟨hshut, hnodup, hspent'⟩ := closed_all (R := Sketch.Shut)
    (fun hd hn hy => hd.leaveOpen hn hy) hgrown.traced (Grown.room_flushed hroom) hc
  refine ⟨hgrown.closed hshut hnodup, hspent.trans ⟨fun k => ?_, hspent'.supply⟩⟩
  rw [← Grown.count_flushed]
  exact hspent'.count k

end

namespace Closed

variable {flows : List (Channel × List Step)} {ps : List (List Mark)}

theorem block (h : Closed flows ps) : ∀ p ∈ ps, Mark.Block p :=
  Sketch.block_fromSeed h.fromSeed

theorem length_eq (h : Closed flows ps) : flows.length = ps.length :=
  h.fromSeed.length_eq

end Closed

namespace Sketch

variable {ts : List Sketch} {ps : List (List Mark)}

/-! ## Branches led together -/

/-- What becomes of a branch when it converges on a channel: it is closed, or
it stands on that channel as it is. -/
def Converged (m : ComponentKey) (t : Sketch) (p : List Mark) : Prop :=
  t.tip.key? ≠ some m ∧ t.Shut p ∨ t.tip.key? = some m ∧ p = t.marks

theorem led_of_ne {m : ComponentKey} (h : List.Forall₂ (Converged m) ts ps)
    (hne : ∀ t ∈ ts, t.tip.key? ≠ some m) : List.Forall₂ (Led m) ts ps := by
  induction h with
  | nil => exact .nil
  | cons hp _ ih =>
      rw [List.forall_mem_cons] at hne
      rcases hp with ⟨-, hshut⟩ | ⟨hm, -⟩
      · exact .cons (.shut hne.1 hshut) (ih hne.2)
      · exact absurd hm hne.1

/-- Branches that converge on a channel are led together once that channel is
taken out of the one that stood on it. -/
theorem led_converge {m : ComponentKey} (h : List.Forall₂ (Converged m) ts ps)
    (hapart : ts.Pairwise fun t t' => ∀ k, t.tip.key? = some k →
      t'.tip.key? ≠ some k) :
    ∃ ls, List.Forall₂ (Led m) ts ls ∧
      ((∀ t ∈ ts, t.tip.key? ≠ some m) ∧ ps = ls ∨
        ∃ l₁ l₂, ps.flatten = l₁ ++ .channel m :: l₂ ∧ ls.flatten = l₁ ++ l₂) := by
  induction h with
  | nil => exact ⟨[], .nil, .inl ⟨by simp, rfl⟩⟩
  | @cons t p ts ps hp hrest ih =>
      rw [List.pairwise_cons] at hapart
      rcases hp with ⟨hne, hshut⟩ | ⟨hm, rfl⟩
      · obtain ⟨ls, hled, ⟨hall, rfl⟩ | ⟨l₁, l₂, hps, hls⟩⟩ := ih hapart.2
        · exact ⟨p :: ps, .cons (.shut hne hshut) hled,
            .inl ⟨by simpa using ⟨hne, hall⟩, rfl⟩⟩
        · exact ⟨p :: ls, .cons (.shut hne hshut) hled,
            .inr ⟨p ++ l₁, l₂, by simp [hps], by simp [hls]⟩⟩
      · have hled := led_of_ne hrest fun t' hm' => hapart.1 t' hm' m hm
        refine ⟨(t.base ++ t.tip.behind) :: ps, .cons (.merged hm) hled,
          .inr ⟨t.base, t.tip.behind ++ ps.flatten, ?_, ?_⟩⟩
        · cases ht : t.tip with
          | vacant => simp [ht, Tip.key?] at hm
          | bare k =>
              obtain rfl : k = m := by simpa [ht, Tip.key?] using hm
              simp [marks, ht, Tip.marks, Tip.behind]
          | shared k l =>
              obtain rfl : k = m := by simpa [ht, Tip.key?] using hm
              simp [marks, ht, Tip.marks, Tip.behind]
        · simp

theorem wholeBehind_led_all {m : ComponentKey}
    (hs : ∀ t ∈ ts, t.Sound ∧ t.taps = []) (hled : List.Forall₂ (Led m) ts ps) :
    ∀ p ∈ ps, Mark.WholeBehind m p := by
  induction hled with
  | nil => simp
  | cons hone _ ih =>
      rw [List.forall_mem_cons] at hs ⊢
      exact ⟨hs.1.1.wholeBehind_led hone, ih hs.2⟩

/-- No two branches stand on one channel. -/
theorem apart_of_nodup (hn : (ts.flatMap keys).Nodup) :
    ts.Pairwise fun t t' => ∀ k, t.tip.key? = some k → t'.tip.key? ≠ some k := by
  induction ts with
  | nil => exact .nil
  | cons t ts ih =>
      rw [List.flatMap_cons, List.nodup_append] at hn
      refine .cons (fun t' hm k hk hk' => ?_) (ih hn.2.1)
      exact hn.2.2 k (mem_keys_of_tip hk) k
        (List.mem_flatMap.2 ⟨t', hm, mem_keys_of_tip hk'⟩) rfl

/-! ## Subscribers -/

/-- What is left of subscribers in their parent. -/
def remaining (k : ComponentKey) (ps : List (List Mark)) : List (List Mark) :=
  ps.map fun p => p.filter fun m => m.key ≠ k

theorem subscribed_all {k : ComponentKey} {subscribers : List (List Step)}
    (h : List.Forall₂ (fun steps p => FromSeed k (movesSeed false steps) p ∧
        Mark.Whole p) subscribers ps)
    (hn : ∀ p ∈ ps, (Mark.keys p).Nodup) :
    (∀ q ∈ remaining k ps, Mark.WholeBehind k q ∧ k ∈ Mark.reads q) ∧
    Mark.opens (remaining k ps).flatten = squeezes subscribers ∧
    (remaining k ps).any Mark.crowded = ps.any Mark.crowded ∧
    (remaining k ps).any (Mark.misplacedFrom [k]) = ps.any Mark.misplaced ∧
    ∀ j,
      (Mark.keys (remaining k ps).flatten).count j +
        (subscribers.map fun _ => k).count j = (Mark.keys ps.flatten).count j := by
  induction h with
  | nil => exact ⟨by simp [remaining], rfl, rfl, rfl, fun _ => rfl⟩
  | @cons steps p subscribers ps hone _ ih =>
      rw [List.forall_mem_cons] at hn
      have hq := hone.1.subscribed hone.2 hn.1
      obtain ⟨hbehind, -, hcrowded, hmisplaced, hcount⟩ := ih hn.2
      have hcons : remaining k (p :: ps) = (p.filter fun m => m.key ≠ k) ::
            remaining k ps :=
        rfl
      have hne : (p.filter fun m => m.key ≠ k) ≠ [] := fun h => by
        have hreads := hq.reads
        rw [h] at hreads
        cases hreads
      rw [hcons, List.forall_mem_cons, List.flatten_cons, List.any_cons,
        List.any_cons, List.any_cons, List.any_cons, Mark.opens_append, if_neg hne,
        hq.opens, hq.crowded, hq.misplaced, hcrowded, hmisplaced]
      refine ⟨⟨⟨hq.behind, hq.reads⟩, hbehind⟩, rfl, rfl, rfl, fun j => ?_⟩
      have hj := hq.count j
      have hj' := hcount j
      simp only [List.map_cons, List.flatten_cons, Mark.keys_append,
        List.count_append, List.count_cons, List.count_nil] at hj hj' ⊢
      omega

/-- The sketch with a fan-out appended: its channel becomes the tip, with what
is left of the subscribers behind it. -/
def fanOut (s : Sketch) (k : ComponentKey) (qs : List (List Mark)) : Sketch :=
  ⟨s.base, if qs.isEmpty then .bare k else .shared k qs.flatten, []⟩

variable {s : Sketch} {k : ComponentKey} {qs : List (List Mark)}

theorem marks_fanOut (s : Sketch) (k : ComponentKey) (qs : List (List Mark)) :
    (s.fanOut k qs).marks = s.base ++ .channel k :: qs.flatten := by
  unfold fanOut
  cases qs with
  | nil => rfl
  | cons q qs => rfl

theorem Sound.keys_fanOut (hs : s.Sound) (hv : s.tip = .vacant) (k : ComponentKey)
    (qs : List (List Mark)) (j : ComponentKey) :
    (s.fanOut k qs).keys.count j = s.keys.count j + [k].count j +
      (Mark.keys qs.flatten).count j := by
  have htaps : (s.fanOut k qs).taps.flatten = [] := rfl
  rw [keys, marks_fanOut, htaps]
  simp [keys, marks, hv, Tip.marks, hs.vacant hv, List.count_cons]
  omega

theorem Sound.fanOut (hs : s.Sound)
    (hq : ∀ q ∈ qs, Mark.WholeBehind k q ∧ k ∈ Mark.reads q)
    (hn : (s.fanOut k qs).keys.Nodup) : (s.fanOut k qs).Sound where
  base := hs.base
  behind j l ht := by
    unfold Sketch.fanOut at ht
    cases qs with
    | nil => cases ht
    | cons q qs =>
        cases ht
        have hreads : k ∈ Mark.reads (q :: qs).flatten := by
          rw [Mark.reads_flatten]
          exact List.mem_flatMap.2
            ⟨q, List.mem_cons_self, (hq q List.mem_cons_self).2⟩
        refine ⟨fun h => by simp [h] at hreads, Mark.quiet_flatten fun l hl =>
          (hq l hl).1.quiet, hreads, ?_⟩
        intro j hj
        rw [Mark.reads_flatten] at hj
        obtain ⟨l, hl, hj⟩ := List.mem_flatMap.1 hj
        rw [Mark.keys_flatten]
        exact ((hq l hl).1.closed j hj).imp_right fun h =>
          List.mem_flatMap.2 ⟨l, hl, h⟩
  vacant ht := by
    unfold Sketch.fanOut at ht
    cases qs with
    | nil => cases ht
    | cons q qs => cases ht
  taps _ hl := by cases hl
  distinct := hn

theorem Sound.outlook_fanOut (hs : s.Sound) (hv : s.tip = .vacant)
    (hq : ∀ q ∈ qs, Mark.WholeBehind k q ∧ k ∈ Mark.reads q)
    (hn : (s.fanOut k qs).keys.Nodup) :
    (s.fanOut k qs).outlook =
      ⟨if qs.isEmpty then .bare else .shared (Mark.opens qs.flatten),
        s.outlook.crowded || qs.any Mark.crowded,
        s.outlook.misplaced || qs.any (Mark.misplacedFrom [k])⟩ := by
  have hkeys : (Mark.keys (.channel k :: qs.flatten)).Nodup := by
    rw [keys, marks_fanOut, List.append_assoc, Mark.keys_append] at hn
    simpa [Sketch.fanOut] using (List.nodup_append.1 hn).2.1
  have hbehind : ∀ q ∈ qs, Mark.WholeBehind k q := fun q hm => (hq q hm).1
  have hmisplaced := Mark.misplaced_fan hbehind hkeys
  have hcrowded := Mark.crowded_flatten fun q hm => (hbehind q hm).quiet
  unfold Sketch.fanOut
  cases qs with
  | nil =>
      simp [outlook, hv, hs.vacant hv, Tip.landing, Tip.behind, Tip.marks,
        Mark.misplaced, Mark.misplacedFrom, Mark.reads?]
  | cons q qs =>
      simp only [List.isEmpty_cons, Bool.false_eq_true, if_false, outlook,
        Tip.landing, Tip.behind, Tip.marks, hmisplaced, hcrowded, hv, hs.vacant hv,
        List.any_nil, Bool.or_false]
      simp [Mark.crowded, Mark.misplaced, Mark.misplacedFrom]

end Sketch

/-- Branches that are all closed are as they stand. -/
theorem shut_of_closed {branches : List Branch} {ts : List Sketch}
    (hd : List.Forall₂ Branch.Traced branches ts)
    (hc : ∀ br ∈ branches, br.ending = .closed) :
    List.Forall₂ Sketch.Shut ts (branches.map fun br => br.registry.marks) ∧
    (∀ t ∈ ts, t.tip = .vacant) ∧
    Mark.keys (branches.map fun br => br.registry.marks).flatten =
      ts.flatMap Sketch.keys := by
  induction hd with
  | nil => exact ⟨.nil, by simp, rfl⟩
  | @cons br t branches ts htraced _ ih =>
      rw [List.forall_mem_cons] at hc
      obtain ⟨hshut, hvacant, hkeys⟩ := ih hc.2
      have hnone : br.channel? = none := by simp [Branch.channel?, hc.1]
      have htip : t.tip = .vacant := by
        rw [← Tip.key?_eq_none, ← htraced.current, hnone]
        rfl
      refine ⟨.cons (htraced.shut_of_none hnone) hshut,
        by simpa using ⟨htip, hvacant⟩, ?_⟩
      rw [List.map_cons, List.flatten_cons, Mark.keys_append, htraced.keys, hkeys,
        List.flatMap_cons]

/-- The merge channel is the first channel that a branch ended on, if there is
one. -/
theorem findSome_traced {branches : List Branch} {ts : List Sketch}
    (h : List.Forall₂ Branch.Traced branches ts) :
    ts.findSome? (fun t => t.tip.key?) =
      (branches.findSome? Branch.channel?).map Channel.key := by
  induction h with
  | nil => rfl
  | @cons br t branches ts hd _ ih =>
      rw [List.findSome?_cons, List.findSome?_cons, ← hd.current, ih]
      cases br.channel? <;> rfl

/-- Branches that converge on their merge channel, and what is left of them
once that channel is taken out. -/
theorem led_mergeChannel {branches branches' : List Branch} {ts : List Sketch}
    {merge : Channel} {w₁ : Workshop} (hd : List.Forall₂ Branch.Traced branches ts)
    (hr : w.Room (ts.flatMap Sketch.keys))
    (hm : Yields (Builder.mergeChannel branches) w merge w₁)
    (hc : YieldsAll (fun br => br.converge b merge) w₁ branches branches' w') :
    ∃ ls, List.Forall₂ (Sketch.Led merge.key) ts ls ∧
      (∀ k, ts.findSome? (fun t => t.tip.key?) = some k → k = merge.key) ∧
      w.Spent (ts.flatMap Sketch.keys) w' (Mark.keys ls.flatten ++ [merge.key]) ∧
      (branches'.map (fun br => br.registry.marks) = ls ∨
        ∃ l₁ l₂, (branches'.map fun br => br.registry.marks).flatten = l₁ ++
          .channel merge.key :: l₂ ∧ ls.flatten = l₁ ++ l₂) := by
  have hsupplied := ((Builder.mergeChannel_leaves branches).of_yields hm).spent
    (ts.flatMap Sketch.keys)
  have hroom : ∀ t ∈ ts, w₁.Room t.keys := by
    intro t ht k
    obtain ⟨before, after, rfl⟩ := List.append_of_mem ht
    have hk := (hr.of_spent hsupplied) k
    simp only [List.flatMap_append, List.flatMap_cons, List.count_append] at hk
    omega
  obtain ⟨hconverged, -, hspent⟩ := closed_all (R := Sketch.Converged merge.key)
    (fun hd hn hy => hd.converge hn hy) hd hroom hc
  have hfind := findSome_traced hd
  obtain ⟨ls, hled, hls⟩ :=
    Sketch.led_converge hconverged (Sketch.apart_of_nodup hr.nodup)
  have hfirst : ∀ k, ts.findSome? (fun t => t.tip.key?) = some k →
      k = merge.key := by
    intro k hk
    rcases Builder.of_yields_mergeChannel hm with ⟨hf, -⟩ | ⟨hf, -⟩
    · rw [hk, hf] at hfind
      simpa using hfind
    · rw [hk, hf] at hfind
      cases hfind
  refine ⟨ls, hled, hfirst, ?_, hls.imp_left And.right⟩
  rcases hls with ⟨hne, rfl⟩ | ⟨l₁, l₂, hps, hls⟩
  · -- No branch stood on the merge channel, so it was made.
    rcases Builder.of_yields_mergeChannel hm with ⟨hf, -⟩ | ⟨-, hkey, rfl⟩
    · rw [hf] at hfind
      obtain ⟨t, ht, hkey⟩ := List.exists_of_findSome?_eq_some hfind
      exact absurd hkey (hne t ht)
    · rw [hkey]
      have hmade := (Spent.next w).prepend (ts.flatMap Sketch.keys)
      rw [List.append_nil] at hmade
      exact hmade.trans (hspent.append _)
  · refine hsupplied.trans ⟨fun k => ?_, hspent.supply⟩
    have hk := hspent.count k
    rw [hps] at hk
    rw [hls]
    simp only [Mark.keys_append, Mark.keys_cons, Mark.key_channel,
      List.count_append, List.count_cons, List.count_nil] at hk ⊢
    omega

/-- The merge channel stands behind all branches, wherever it stood before. -/
theorem Builder.marks_mergedOn {b : Builder} {branches : List Branch}
    {merge : Channel} {ls : List (List Mark)}
    (hls : branches.map (fun br => br.registry.marks) = ls ∨
      ∃ l₁ l₂, (branches.map fun br => br.registry.marks).flatten = l₁ ++
        .channel merge.key :: l₂ ∧ ls.flatten = l₁ ++ l₂)
    (hn :
      (Mark.keys b.registry.marks ++ (Mark.keys ls.flatten ++ [merge.key])).Nodup) :
    (b.mergedOn branches merge).registry.marks = b.registry.marks ++ ls.flatten ++
      [.channel merge.key] := by
  have hflat : (branches.map Branch.registry).flatMap Registry.marks =
      (branches.map fun br => br.registry.marks).flatten := by
    rw [List.flatMap_def, List.map_map]
    rfl
  have habsorb : (Mark.keys b.registry.marks ++
      Mark.keys (branches.map fun br => br.registry.marks).flatten).Nodup →
      (b.absorb branches).registry.marks =
        b.registry.marks ++ (branches.map fun br => br.registry.marks).flatten := by
    rw [← hflat]
    exact Registry.marks_foldl_extend
  rcases hls with rfl | ⟨l₁, l₂, hps, hls⟩
  · rw [← List.append_assoc, List.nodup_append] at hn
    have habsorb := habsorb hn.1
    have hnot : merge.key ∉ Mark.keys (b.absorb branches).registry.marks := by
      rw [habsorb, Mark.keys_append]
      exact fun hk => hn.2.2 _ hk _ List.mem_cons_self rfl
    show (if (b.absorb branches).registry.contains merge.key then
      (b.absorb branches).registry.relocateToEnd merge.key
      else (b.absorb branches).registry.add (.channel merge)).marks = _
    rw [if_neg (by rwa [Registry.contains_iff_marks]),
      Registry.marks_add_of_not_mem hnot, habsorb]
    rfl
  · have habsorb := habsorb ?_
    · rw [hps, ← List.append_assoc] at habsorb
      show (if (b.absorb branches).registry.contains merge.key then
        (b.absorb branches).registry.relocateToEnd merge.key
        else (b.absorb branches).registry.add (.channel merge)).marks = _
      rw [if_pos (by rw [Registry.contains_iff_marks, habsorb]; simp), hls]
      refine (Registry.marks_relocateToEnd_of_eq habsorb).trans ?_
      simp
    · rw [List.nodup_iff_count] at hn ⊢
      intro k
      have hk := hn k
      rw [hls] at hk
      rw [hps]
      simp only [Mark.keys_append, Mark.keys_cons, Mark.key_channel,
        List.count_append, List.count_cons, List.count_nil] at hk ⊢
      omega

/-- Flows that are run and led to a channel that none of them can stand on. -/
theorem closed_converge {flows : List (Channel × List Step)}
    {branches branches' : List Branch} {b' : Builder} {gather : Channel}
    {w₁ : Workshop} (hf : ∀ flow ∈ flows, Foreseen flow.2 ∧ Contained flow.2)
    (hr : ∀ flow ∈ flows, w.Room (flow.1.key :: placed flow.2))
    (hfree : (flows.map (fun flow => flow.1.key) ++ flows.flatMap fun flow =>
        placed flow.2).count gather.key + supply w.nextComponent gather.key = 0)
    (hy : YieldsAll b.runBranch w flows branches w₁)
    (hc : YieldsAll (fun br => br.converge b' gather) w₁ branches branches' w') :
    Closed flows (branches'.map fun br => br.registry.marks) ∧
    w.Spent (flows.map (fun flow => flow.1.key) ++ flows.flatMap fun flow =>
      placed flow.2) w'
      (Mark.keys (branches'.map fun br => br.registry.marks).flatten) := by
  obtain ⟨ts, hgrown, hroom, hspent⟩ := grown_runBranches hf hr hy
  obtain ⟨hconverged, hnodup, hspent'⟩ := closed_all
    (R := Sketch.Converged gather.key) (fun hd hn hy => hd.converge hn hy)
    hgrown.traced (Grown.room_flushed hroom) hc
  have hne : ∀ t ∈ ts.map Sketch.flushed, t.tip.key? ≠ some gather.key := by
    intro t ht hk
    have hpos :
        0 < ((ts.map Sketch.flushed).flatMap Sketch.keys).count gather.key :=
      List.count_pos_iff.2 (List.mem_flatMap.2 ⟨t, ht, Sketch.mem_keys_of_tip hk⟩)
    have hk := hspent.count gather.key
    rw [Grown.count_flushed] at hpos
    omega
  have hshut := Sketch.shut_of_led (Sketch.led_of_ne hconverged hne) hne
  refine ⟨hgrown.closed hshut hnodup, hspent.trans ⟨fun k => ?_, hspent'.supply⟩⟩
  rw [← Grown.count_flushed]
  exact hspent'.count k

/-- Subscribers are taken in without the channel that their parent has. -/
theorem Builder.marks_absorb_remaining {b : Builder} {branches : List Branch}
    {k : ComponentKey} (hk : k ∈ Mark.keys b.registry.marks)
    (hn : (Mark.keys b.registry.marks ++
        Mark.keys (Sketch.remaining k
          (branches.map fun br => br.registry.marks)).flatten).Nodup) :
    (b.absorb branches).registry.marks = b.registry.marks ++
      (Sketch.remaining k (branches.map fun br => br.registry.marks)).flatten := by
  have hremaining :
      (Sketch.remaining k (branches.map fun br => br.registry.marks)).flatten =
      (branches.map Branch.registry).flatMap fun r => r.marks.filter fun m =>
        m.key ∉ [k] := by
    simp [Sketch.remaining, List.flatMap_def, Function.comp_def]
  rw [hremaining] at hn ⊢
  exact Registry.marks_foldl_extend_shared [k] (by simpa using hk) hn

/-- The channel of a fan-out and its subscribers, registered behind what stood
there. -/
theorem Builder.marks_fanned {b : Builder} {branches : List Branch} {c : Channel}
    {base : List Mark} (hbase : b.registry.marks = base ++ [.channel c.key])
    (hn :
      (Mark.keys base ++
        ([c.key] ++
          Mark.keys (Sketch.remaining c.key
            (branches.map fun br => br.registry.marks)).flatten)).Nodup) :
    (b.absorb branches).registry.marks = base ++ .channel c.key ::
      (Sketch.remaining c.key
        (branches.map fun br => br.registry.marks)).flatten := by
  rw [Builder.marks_absorb_remaining (k := c.key), hbase, List.append_assoc,
    List.singleton_append]
  · simp [hbase]
  · simpa [hbase] using hn

end FlowAssembly
