import Mathlib.Data.List.Forall2
import FlowAssembly.Proofs.Sketch

/-!
# Sketches of branches

When a branch ends, the flows that it holds back are placed (`flushed`), and
it is given to its parent in one of two ways. Left open, it gets a reader for
the channel that it stands on (`Shut`). As a branch of a router it may instead
give that channel up, to stand behind all branches as their merge channel
(`Led`); what is left of the branch may then read a channel that is not in it,
and that is where endpoints come to be misplaced.

A subscriber gives up its first channel, which its parent registered already.
Before that channel there is either nothing or a flow that the subscriber
moved ahead of it (`Seeded`), and in the parent that flow begins right behind
the channel.
-/

namespace FlowAssembly

namespace Mark

/-- A list that is whole but for one channel, which it may read. -/
structure WholeBehind (k : ComponentKey) (l : List Mark) : Prop where
  quiet : Quiet l
  closed : ∀ j ∈ reads l, j = k ∨ j ∈ keys l

theorem Whole.behind {l : List Mark} (h : Whole l) (k : ComponentKey) :
    WholeBehind k l :=
  ⟨h.quiet, fun j hj => .inr (h.closed j hj)⟩

theorem nodup_parts {ls : List (List Mark)} (hn : (keys ls.flatten).Nodup) :
    ∀ l ∈ ls, (keys l).Nodup := by
  induction ls with
  | nil => simp
  | cons l ls ih =>
      rw [List.flatten_cons, keys_append, List.nodup_append] at hn
      rw [List.forall_mem_cons]
      exact ⟨hn.1, ih hn.2.1⟩

/-- Parts that are whole but for one channel, and share no key, read nothing
of each other. -/
theorem pairwise_of_wholeBehind {k : ComponentKey} {ls : List (List Mark)}
    (h : ∀ l ∈ ls, WholeBehind k l) (hk : k ∉ keys ls.flatten)
    (hn : (keys ls.flatten).Nodup) :
    ls.Pairwise fun l l' => ∀ j ∈ reads l', j ∉ keys l := by
  induction ls with
  | nil => exact .nil
  | cons l ls ih =>
      rw [List.flatten_cons, keys_append] at hn hk
      rw [List.mem_append, not_or] at hk
      refine .cons (fun l' hl j hj hjl => ?_)
        (ih (fun l' hl => h l' (List.mem_cons_of_mem l hl)) hk.2
          (List.nodup_append.1 hn).2.1)
      rcases (h l' (List.mem_cons_of_mem l hl)).closed j hj with rfl | hj
      · exact hk.1 hjl
      · refine (List.nodup_append.1 hn).2.2 j hjl j ?_ rfl
        rw [keys_flatten]
        exact List.mem_flatMap.2 ⟨l', hl, hj⟩

/-- Parts that were whole but for one channel are whole with that channel and
a reader of it behind them. -/
theorem whole_merge {m e : ComponentKey} {ls : List (List Mark)}
    (h : ∀ l ∈ ls, WholeBehind m l) :
    Whole (ls.flatten ++ [.channel m, .endpoint e (some m)]) := by
  constructor
  · rw [show ls.flatten ++ [channel m, endpoint e (some m)] =
      ls.flatten ++ [channel m] ++ [endpoint e (some m)] by simp]
    exact quiet_concat_endpoint _ e _
  · intro j hj
    rw [reads_append, List.mem_append] at hj
    rw [keys_append, List.mem_append]
    rcases hj with hj | hj
    · rw [reads_flatten] at hj
      obtain ⟨l, hl, hj⟩ := List.mem_flatMap.1 hj
      rcases (h l hl).closed j hj with rfl | hj
      · exact .inr (by simp)
      · refine .inl ?_
        rw [keys_flatten]
        exact List.mem_flatMap.2 ⟨l, hl, hj⟩
    · obtain rfl : j = m := by simpa using hj
      exact .inr (by simp)

theorem crowded_merge {m e : ComponentKey} {ls : List (List Mark)}
    (h : ∀ l ∈ ls, WholeBehind m l) :
    crowded (ls.flatten ++ [.channel m, .endpoint e (some m)]) =
      ls.any crowded := by
  have hq : ∀ l ∈ ls, Quiet l := fun l hl => (h l hl).quiet
  rw [crowded_append (quiet_flatten hq), crowded_flatten hq]
  exact Bool.or_false _

theorem misplaced_merge {m e : ComponentKey} {ls : List (List Mark)}
    (h : ∀ l ∈ ls, WholeBehind m l)
    (hn : (keys (ls.flatten ++ [.channel m, .endpoint e (some m)])).Nodup) :
    misplaced (ls.flatten ++ [.channel m, .endpoint e (some m)]) =
      ls.any misplaced := by
  rw [keys_append] at hn
  have hm : m ∉ keys ls.flatten :=
    fun hk => (List.nodup_append.1 hn).2.2 m hk m (by simp) rfl
  have hapart := pairwise_of_wholeBehind h hm (List.nodup_append.1 hn).1
  rw [show ls.flatten ++ [channel m, endpoint e (some m)] = ls.flatten ++
      [channel m] ++ [endpoint e (some m)] by simp, misplaced_concat (by simp),
    misplaced, misplacedFrom_append,
    misplacedFrom_flatten [] (fun _ _ _ _ => Iff.rfl) hapart]
  exact Bool.or_false _

/-- The channel of a fan-out is whole with its subscribers behind it. -/
theorem whole_fan {k : ComponentKey} {ls : List (List Mark)}
    (h : ∀ l ∈ ls, WholeBehind k l) (hne : ls.flatten ≠ []) :
    Whole (.channel k :: ls.flatten) := by
  refine ⟨(quiet_flatten fun l hl => (h l hl).quiet).cons hne _, fun j hj => ?_⟩
  rw [reads_channel, reads_flatten] at hj
  rw [keys_cons, List.mem_cons, keys_flatten]
  obtain ⟨l, hl, hj⟩ := List.mem_flatMap.1 hj
  rcases (h l hl).closed j hj with rfl | hj
  · exact .inl rfl
  · exact .inr (List.mem_flatMap.2 ⟨l, hl, hj⟩)

theorem flatten_ne_nil_of_reads {k : ComponentKey} {ls : List (List Mark)}
    (h : ∀ l ∈ ls, k ∈ reads l) (hne : ls ≠ []) :
    ls.flatten ≠ [] := by
  intro hnil
  obtain ⟨l, hl⟩ := List.exists_mem_of_ne_nil ls hne
  have hread := h l hl
  rw [List.flatten_eq_nil_iff.1 hnil l hl] at hread
  cases hread

theorem misplaced_fan {k : ComponentKey} {ls : List (List Mark)}
    (h : ∀ l ∈ ls, WholeBehind k l) (hn : (keys (.channel k :: ls.flatten)).Nodup) :
    misplaced (.channel k :: ls.flatten) = ls.any (misplacedFrom [k]) := by
  rw [keys_cons, List.nodup_cons] at hn
  have hapart := pairwise_of_wholeBehind h hn.1 hn.2
  rw [misplaced, misplacedFrom]
  exact misplacedFrom_flatten [k] (fun _ _ _ _ => Iff.rfl) hapart

end Mark

namespace Sketch

variable {s t : Sketch}

/-- The sketch with parts added that stand on their own. -/
def extended (s : Sketch) (parts : List (List Mark)) : Sketch :=
  ⟨s.base ++ parts.flatten, .vacant, []⟩

theorem keys_extended (hv : s.tip = .vacant) (ht : s.taps = [])
    (parts : List (List Mark)) (k : ComponentKey) :
    (s.extended parts).keys.count k = s.keys.count k +
      (Mark.keys parts.flatten).count k := by
  simp [keys, extended, marks, hv, Tip.marks, ht]

theorem nodup_of_extended {parts : List (List Mark)}
    (hn : (s.extended parts).keys.Nodup) :
    (Mark.keys s.base ++ Mark.keys parts.flatten).Nodup := by
  rw [← Mark.keys_append]
  simpa [keys, extended, marks, Tip.marks] using hn

theorem Sound.extended (hs : s.Sound) {parts : List (List Mark)}
    (hp : ∀ p ∈ parts, Mark.Whole p) (hn : (s.extended parts).keys.Nodup) :
    (s.extended parts).Sound where
  base := hs.base.append (Mark.whole_flatten hp)
  behind k l ht := by cases ht
  vacant _ := rfl
  taps l hl := by cases hl
  distinct := hn

theorem Sound.outlook_extended (hs : s.Sound) (hv : s.tip = .vacant)
    {parts : List (List Mark)} (hp : ∀ p ∈ parts, Mark.Whole p)
    (hn : (s.extended parts).keys.Nodup) :
    (s.extended parts).outlook =
      ⟨.unset, s.outlook.crowded || parts.any Mark.crowded,
        s.outlook.misplaced || parts.any Mark.misplaced⟩ := by
  have hkeys := nodup_of_extended hn
  have hflat : (Mark.keys parts.flatten).Nodup := (List.nodup_append.1 hkeys).2.1
  rw [← Mark.keys_append] at hkeys
  have hq : ∀ p ∈ parts, Mark.Quiet p := fun p hm => (hp p hm).quiet
  simp only [outlook, Sketch.extended, hv, hs.vacant hv, Tip.landing, Tip.behind,
    Tip.marks, List.any_nil, Mark.crowded_append hs.base.quiet,
    Mark.crowded_flatten hq, (Mark.whole_flatten hp).misplaced_append hkeys,
    Mark.misplaced_flatten_of_whole hp hflat]
  simp [Mark.crowded, Mark.misplaced, Mark.misplacedFrom]

/-! ## The end of a branch -/

/-- The sketch with the flows held back in their place: ahead of a bare
channel, or behind what is there. -/
def flushed (s : Sketch) : Sketch :=
  match s.tip with
  | .vacant => s
  | .bare k => ⟨s.base ++ s.taps.flatten, .bare k, []⟩
  | .shared k l => ⟨s.base, .shared k (l ++ s.taps.flatten), []⟩

@[simp]
theorem key?_flushed (s : Sketch) : s.flushed.tip.key? = s.tip.key? := by
  unfold flushed
  split
  · rfl
  · next h => simp [h, Tip.key?]
  · next h => simp [h, Tip.key?]

theorem keys_flushed (s : Sketch) (j : ComponentKey) :
    s.flushed.keys.count j = s.keys.count j := by
  unfold flushed
  split
  · rfl
  · next h => simp [keys, marks, h, Tip.marks, List.count_cons]
  · next h => simp [keys, marks, h, Tip.marks, List.count_cons]

theorem Sound.taps_flushed (hs : s.Sound) : s.flushed.taps = [] := by
  unfold Sketch.flushed
  split
  · next h => exact hs.vacant h
  · rfl
  · rfl

theorem Sound.whole_taps (hs : s.Sound) : Mark.Whole s.taps.flatten :=
  Mark.whole_flatten fun l hl => (hs.taps l hl).whole

theorem Sound.flushed (hs : s.Sound) : s.flushed.Sound := by
  have hn : s.flushed.keys.Nodup := List.nodup_iff_count.2 fun j => by
    rw [keys_flushed]
    exact List.nodup_iff_count.1 hs.distinct j
  unfold Sketch.flushed at hn ⊢
  split at hn
  · exact hs
  · next k h =>
      exact ⟨hs.base.append hs.whole_taps, fun _ _ ht => (nomatch ht),
        fun ht => (nomatch ht), fun _ hl => (nomatch hl), hn⟩
  · next k l h =>
      obtain ⟨hne, hq, hr, hc⟩ := hs.behind k l h
      refine ⟨hs.base, fun k' l' ht => ?_, fun ht => (nomatch ht),
        fun _ hl => (nomatch hl), hn⟩
      cases ht
      refine ⟨by simp [hne], hq.append hs.whole_taps.quiet, by simp [hr],
        fun j hj => ?_⟩
      rw [Mark.reads_append, List.mem_append] at hj
      rw [Mark.keys_append, List.mem_append]
      rcases hj with hj | hj
      · exact (hc j hj).imp_right .inl
      · exact .inr (.inr (hs.whole_taps.closed j hj))

/-- Placing the flows held back does not change the outlook. -/
theorem Sound.outlook_flushed (hs : s.Sound) : s.flushed.outlook = s.outlook := by
  have hn := hs.distinct
  have htaps : ∀ l ∈ s.taps, Mark.Whole l := fun l hl => (hs.taps l hl).whole
  have hq : ∀ l ∈ s.taps, Mark.Quiet l := fun l hl => (htaps l hl).quiet
  have hflat : (Mark.keys s.taps.flatten).Nodup := by
    rw [keys, Mark.keys_append] at hn
    exact (List.nodup_append.1 hn).2.1
  unfold Sketch.flushed
  split
  · rfl
  · next k h =>
      have hkeys : (Mark.keys (s.base ++ s.taps.flatten)).Nodup := by
        simp only [keys, marks, h, Tip.marks, List.append_assoc, Mark.keys_append,
          List.nodup_append] at hn
        rw [Mark.keys_append, List.nodup_append]
        exact ⟨hn.1, hn.2.1.2.1,
          fun a ha b hb => hn.2.2 a ha b (List.mem_append_right _ hb)⟩
      simp only [outlook, h, Tip.landing, Tip.behind, Tip.marks, List.any_nil,
        Mark.crowded_append hs.base.quiet, Mark.crowded_flatten hq,
        hs.whole_taps.misplaced_append hkeys,
        Mark.misplaced_flatten_of_whole htaps hflat]
      simp [Mark.crowded, Mark.misplaced, Mark.misplacedFrom, Mark.reads?]
  · next k l h =>
      obtain ⟨hne, hquiet, -, -⟩ := hs.behind k l h
      have hkeys : (Mark.keys (.channel k :: l ++ s.taps.flatten)).Nodup := by
        simp only [keys, marks, h, Tip.marks, List.append_assoc] at hn
        rw [Mark.keys_append, List.nodup_append] at hn
        exact hn.2.1
      have hmisplaced := hs.whole_taps.misplaced_append hkeys
      rw [List.cons_append] at hmisplaced
      simp only [outlook, h, Tip.landing, Tip.behind, Tip.marks, List.any_nil,
        Mark.crowded_append hquiet, Mark.crowded_flatten hq, hmisplaced,
        Mark.misplaced_flatten_of_whole htaps hflat, Mark.opens_append,
        hne, if_false]
      simp [Bool.or_assoc]

/-! ## Branches left open -/

/-- What a branch comes to when it is left open: the channel that it stands on
gets a reader. -/
inductive Shut (t : Sketch) : List Mark → Prop
  | closed : t.tip = .vacant → Shut t t.base
  | read {reader : List Mark} : t.tip ≠ .vacant → Reader t.tip.key? reader →
      Shut t (t.wired [] reader).base

theorem Sound.whole_shut (ht : t.Sound) {p : List Mark} (hp : t.Shut p) :
    Mark.Whole p := by
  cases hp with
  | closed hv => exact ht.base
  | read hne hr =>
      rw [base_wired]
      exact Mark.whole_flatten (ht.whole_parts (by simp) hr)

theorem Sound.crowded_shut (ht : t.Sound) {p : List Mark} (hp : t.Shut p) :
    Mark.crowded p = t.outlook.close.crowded := by
  cases hp with
  | closed hv =>
      simp [outlook, Outlook.close, hv, ht.vacant hv, Tip.behind, Tip.landing,
        Landing.isSqueezed, Mark.crowded]
  | read hne hr =>
      rw [ht.crowded_wired (by simp) hr]
      simp

theorem Sound.misplaced_shut (ht : t.Sound) {p : List Mark} (hp : t.Shut p)
    (hn : (Mark.keys p).Nodup) :
    Mark.misplaced p = t.outlook.misplaced := by
  cases hp with
  | closed hv =>
      simp [outlook, hv, ht.vacant hv, Tip.marks, Mark.misplaced,
        Mark.misplacedFrom]
  | read hne hr =>
      rw [base_wired, ← keys_of_wired] at hn
      rw [ht.misplaced_wired (by simp) hr hn]
      simp

/-- Branches left open come out as foretold. -/
theorem outlook_shut {ts : List Sketch} {ps : List (List Mark)}
    (hshut : List.Forall₂ Shut ts ps) (hs : ∀ t ∈ ts, t.Sound)
    (hn : ∀ p ∈ ps, (Mark.keys p).Nodup) :
    ps.any Mark.crowded = (ts.map outlook).any (fun o => o.close.crowded) ∧
    ps.any Mark.misplaced = (ts.map outlook).any fun o => o.misplaced := by
  induction hshut with
  | nil => exact ⟨rfl, rfl⟩
  | @cons t p ts ps hp _ ih =>
      have ht := hs t List.mem_cons_self
      obtain ⟨hc, hmis⟩ := ih (fun t hm => hs t (List.mem_cons_of_mem _ hm))
        fun p hm => hn p (List.mem_cons_of_mem _ hm)
      rw [List.map_cons, List.any_cons, List.any_cons, List.any_cons, List.any_cons,
        hc, hmis, ht.crowded_shut hp,
        ht.misplaced_shut hp (hn p List.mem_cons_self)]
      exact ⟨rfl, rfl⟩

/-! ## Branches led together -/

/-- What a branch of a router comes to behind the router: the merge channel is
taken out of the branch that stood on it, and other branches get a reader for
the channel that they stand on. -/
inductive Led (m : ComponentKey) (t : Sketch) : List Mark → Prop
  | shut {p : List Mark} : t.tip.key? ≠ some m → t.Shut p → Led m t p
  | merged : t.tip.key? = some m → Led m t (t.base ++ t.tip.behind)

theorem shut_of_led {m : ComponentKey} {ts : List Sketch} {ps : List (List Mark)}
    (hled : List.Forall₂ (Led m) ts ps) (hne : ∀ t ∈ ts, t.tip.key? ≠ some m) :
    List.Forall₂ Shut ts ps := by
  induction hled with
  | nil => exact .nil
  | @cons t p ts ps hp _ ih =>
      refine .cons ?_ (ih fun t hm => hne t (List.mem_cons_of_mem _ hm))
      cases hp with
      | shut _ hp => exact hp
      | merged hm => exact absurd hm (hne t List.mem_cons_self)

theorem Sound.wholeBehind_led (ht : t.Sound) {m : ComponentKey} {p : List Mark}
    (hp : t.Led m p) :
    Mark.WholeBehind m p := by
  cases hp with
  | shut hne hp => exact (ht.whole_shut hp).behind m
  | merged hm =>
      cases htip : t.tip with
      | vacant =>
          rw [htip] at hm
          cases hm
      | bare k =>
          rw [Tip.behind, List.append_nil]
          exact ht.base.behind m
      | shared k l =>
          obtain rfl : k = m := by simpa [htip, Tip.key?] using hm
          obtain ⟨-, hq, -, hc⟩ := ht.behind k l htip
          refine ⟨ht.base.quiet.append hq, fun j hj => ?_⟩
          rw [Tip.behind, Mark.reads_append, List.mem_append] at hj
          rw [Tip.behind, Mark.keys_append, List.mem_append]
          rcases hj with hj | hj
          · exact .inr (.inl (ht.base.closed j hj))
          · exact (hc j hj).imp_right .inr

/-- A branch that gives its channel up is misplaced where something in it
reads that channel. -/
theorem Sound.outlook_merged (ht : t.Sound) (htaps : t.taps = []) {m : ComponentKey}
    (hm : t.tip.key? = some m) (hk : m ∉ Mark.keys (t.base ++ t.tip.behind)) :
    Mark.crowded (t.base ++ t.tip.behind) = t.outlook.merged.crowded ∧
    Mark.misplaced (t.base ++ t.tip.behind) = t.outlook.merged.misplaced := by
  cases htip : t.tip with
  | vacant =>
      rw [htip] at hm
      cases hm
  | bare k =>
      simp [Tip.behind, outlook, Outlook.merged, htip, htaps, Tip.marks,
        Tip.landing, Landing.isShared, Mark.crowded, Mark.misplaced,
        Mark.misplacedFrom, Mark.reads?]
  | shared k l =>
      obtain rfl : k = m := by simpa [htip, Tip.key?] using hm
      obtain ⟨-, -, hr, -⟩ := ht.behind k l htip
      rw [htip, Tip.behind] at hk
      have hmis : Mark.misplaced (t.base ++ l) = true :=
        Mark.misplacedFrom_of_reads (by simp [hr]) List.not_mem_nil hk
      rw [Tip.behind, Mark.crowded_append ht.base.quiet, hmis]
      simp [outlook, Outlook.merged, htip, htaps, Tip.behind, Tip.landing,
        Landing.isShared]

/-- Branches led together come out as foretold: the first channel that one of
them stands on is the merge channel. -/
theorem outlook_converged {ts : List Sketch} {ps : List (List Mark)}
    {m : ComponentKey} (hled : List.Forall₂ (Led m) ts ps)
    (hs : ∀ t ∈ ts, t.Sound ∧ t.taps = [])
    (hapart : ts.Pairwise fun t t' => ∀ k, t.tip.key? = some k →
      t'.tip.key? ≠ some k)
    (hm : ∀ k, ts.findSome? (fun t => t.tip.key?) = some k → k = m)
    (hk : m ∉ Mark.keys ps.flatten) (hn : (Mark.keys ps.flatten).Nodup) :
    ps.any Mark.crowded = (Outlook.converged (ts.map outlook)).any (fun o =>
      o.close.crowded) ∧
    ps.any Mark.misplaced = (Outlook.converged (ts.map outlook)).any fun o =>
      o.misplaced := by
  induction hled with
  | nil => exact ⟨rfl, rfl⟩
  | @cons t p ts ps hp hrest ih =>
      obtain ⟨ht, htaps⟩ := hs t List.mem_cons_self
      have hsrest : ∀ t ∈ ts, t.Sound ∧ t.taps = [] :=
        fun t hm => hs t (List.mem_cons_of_mem _ hm)
      rw [List.pairwise_cons] at hapart
      rw [List.flatten_cons, Mark.keys_append] at hk hn
      rw [List.mem_append, not_or] at hk
      have hnp := (List.nodup_append.1 hn).1
      have hnrest := (List.nodup_append.1 hn).2.1
      rw [List.map_cons, List.any_cons, List.any_cons]
      cases htip : t.tip.key? with
      | none =>
          have hvacant := Tip.key?_eq_none.1 htip
          have hshut : t.Shut p := by
            cases hp with
            | shut _ hp => exact hp
            | merged hm => simp [htip] at hm
          have hlanding : t.outlook.landing = .unset := by
            simp [outlook, hvacant, Tip.landing]
          obtain ⟨hc, hmis⟩ := ih hsrest hapart.2
            (fun k hf => hm k (by rw [List.findSome?_cons, htip]; exact hf))
            hk.2 hnrest
          rw [Outlook.converged, if_pos hlanding, List.any_cons, List.any_cons,
            hc, hmis, ht.crowded_shut hshut, ht.misplaced_shut hshut hnp]
          exact ⟨rfl, rfl⟩
      | some k =>
          obtain rfl : k = m := hm k (by rw [List.findSome?_cons, htip])
          have hlanding : t.outlook.landing ≠ .unset := by
            cases h : t.tip with
            | vacant => simp [h, Tip.key?] at htip
            | bare k | shared k l => simp [outlook, h, Tip.landing]
          have hmerged : p = t.base ++ t.tip.behind := by
            cases hp with
            | shut hne _ => exact absurd htip hne
            | merged _ => rfl
          -- The other branches stand on other channels, so each of them gets
          -- a reader for its own.
          have hshut : List.Forall₂ Shut ts ps :=
            shut_of_led hrest fun t' hm => hapart.1 t' hm _ htip
          obtain ⟨hcrest, hmrest⟩ := outlook_shut hshut
            (fun t hm => (hsrest t hm).1) (Mark.nodup_parts hnrest)
          subst hmerged
          obtain ⟨hc, hmis⟩ := ht.outlook_merged htaps htip hk.1
          rw [Outlook.converged, if_neg hlanding, List.any_cons, List.any_cons,
            hcrest, hmrest, hc, hmis]
          simp [Outlook.close, Outlook.merged, Landing.isSqueezed]

/-! ## Subscribers -/

/-- A flow that starts at a channel, after some of its steps: the channel is
still the tip, or it has its reader, and before it stands what was moved ahead
of it. -/
inductive Seeded (k : ComponentKey) (moved : Bool) (t : Sketch) : Prop
  | current : t.base = [] → t.tip = .bare k → moved = Mark.opens t.taps.flatten →
      Seeded k moved t
  | read (ahead : List Mark) (e : ComponentKey) : Mark.Whole ahead →
      (ahead = [] ∨ Mark.opens ahead = true) → moved = Mark.opens ahead →
      ahead ++ [.channel k, .endpoint e (some k)] <+: t.base → Seeded k moved t

/-- What a subscriber comes to: what it moved ahead of the channel that it
starts at, the channel, and its reader. -/
structure FromSeed (k : ComponentKey) (moved : Bool) (p : List Mark) : Prop where
  split : ∃ ahead e behind,
    p = ahead ++ .channel k :: .endpoint e (some k) :: behind ∧ Mark.Whole ahead ∧
    (ahead = [] ∨ Mark.opens ahead = true) ∧ moved = Mark.opens ahead

theorem Seeded.shut {k : ComponentKey} {moved : Bool} (hd : t.Seeded k moved)
    (ht : t.Sound) {p : List Mark} (hp : t.flushed.Shut p) :
    FromSeed k moved p := by
  cases hd with
  | current hbase htip hmoved =>
      have hflushed : t.flushed = ⟨t.taps.flatten, .bare k, []⟩ := by
        simp [flushed, htip, hbase]
      rw [hflushed] at hp
      cases hp with
      | closed hv => cases hv
      | read _ hr =>
          cases hr with
          | tip k e =>
              refine ⟨t.taps.flatten, e, [], by simp [wired, lead],
                ht.whole_taps, ?_, hmoved⟩
              rw [Mark.opens_flatten ht.taps]
              cases t.taps with
              | nil => exact .inl rfl
              | cons _ _ => exact .inr rfl
  | read ahead e hw ha hmoved hgrown =>
      obtain ⟨rest, hrest⟩ := hgrown
      have hbase : ∃ more,
          t.flushed.base = ahead ++ .channel k :: .endpoint e (some k) :: more := by
        unfold flushed
        split
        · exact ⟨rest, by simp [← hrest]⟩
        · exact ⟨rest ++ t.taps.flatten, by simp [← hrest]⟩
        · exact ⟨rest, by simp [← hrest]⟩
      obtain ⟨more, hmore⟩ := hbase
      cases hp with
      | closed hv => exact ⟨ahead, e, more, hmore, hw, ha, hmoved⟩
      | @read reader _ hr =>
          obtain ⟨more', hmore'⟩ := base_prefix_wired t.flushed [] reader
          rw [hmore, List.append_assoc, List.cons_append, List.cons_append]
            at hmore'
          exact ⟨ahead, e, more ++ more', hmore'.symm, hw, ha, hmoved⟩

/-- A subscriber begins with a channel. -/
theorem FromSeed.opens {k : ComponentKey} {moved : Bool} {p : List Mark}
    (hd : FromSeed k moved p) :
    Mark.opens p = true := by
  obtain ⟨ahead, e, behind, rfl, -, ha, -⟩ := hd.split
  rw [Mark.opens_append]
  split
  · rfl
  · next hne => exact ha.resolve_left hne

/-- What is left of a subscriber in its parent, which has the channel
already. -/
structure Subscribed (k : ComponentKey) (moved : Bool) (p q : List Mark) :
    Prop where
  behind : Mark.WholeBehind k q
  reads : k ∈ Mark.reads q
  opens : Mark.opens q = moved
  crowded : Mark.crowded q = Mark.crowded p
  misplaced : Mark.misplacedFrom [k] q = Mark.misplaced p
  count : ∀ j, (Mark.keys q).count j + [k].count j = (Mark.keys p).count j

theorem FromSeed.subscribed {k : ComponentKey} {moved : Bool} {p : List Mark}
    (hd : FromSeed k moved p) (hp : Mark.Whole p) (hn : (Mark.keys p).Nodup) :
    Subscribed k moved p (p.filter fun m => m.key ≠ k) := by
  obtain ⟨ahead, e, behind, rfl, hw, ha, hmoved⟩ := hd.split
  have hq : (ahead ++ .channel k :: .endpoint e (some k) :: behind).filter (fun m =>
      m.key ≠ k) = ahead ++ .endpoint e (some k) :: behind :=
    Mark.filter_ne_of_nodup (m := .channel k) hn
  have hk : k ∉ Mark.reads ahead := by
    intro hr
    rw [Mark.keys_append] at hn
    exact (List.nodup_append.1 hn).2.2 k (hw.closed k hr) k (by simp) rfl
  rw [hq]
  refine ⟨⟨hw.quiet.append ?_, fun j hj => ?_⟩, by simp, ?_, ?_, ?_, fun j => ?_⟩
  · have hlast :
        Mark.Quiet (ahead ++ [.channel k] ++ .endpoint e (some k) :: behind) := by
      rw [List.append_assoc]
      exact hp.quiet
    exact hlast.of_append
  · have hclosed := hp.closed j (by simpa using hj)
    simp only [Mark.keys_append, Mark.keys_cons, Mark.key_channel, List.mem_append,
      List.mem_cons] at hclosed ⊢
    rcases hclosed with h | h | h
    · exact .inr (.inl h)
    · exact .inl h
    · exact .inr (.inr h)
  · rw [hmoved, Mark.opens_append]
    split
    · next h =>
        rw [h]
        rfl
    · rfl
  · rw [Mark.crowded_append hw.quiet, Mark.crowded_append hw.quiet]
    simp [Mark.crowded, Mark.opens, Mark.isChannel]
  · rw [Mark.misplaced, Mark.misplacedFrom_move hk]
  · simp only [Mark.keys_append, Mark.keys_cons, Mark.key_channel,
      List.count_append, List.count_cons, List.count_nil]
    omega

end Sketch

end FlowAssembly
