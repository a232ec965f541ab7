import FlowAssembly.Proofs.StepTurns
import FlowAssembly.Proofs.Tracing

/-!
# What stays in one piece

Without fan-outs, what is done with stays as it is: endpoints and flows are
added behind the base of a sketch, side flows and held-back flows between the
base and the channel that the flow stands on, and a flow that is held back is
put somewhere as a whole. So a piece of the base, or of a flow that is held
back, is never broken up (`Sketch.Keeps`).

All that ever leaves its place is a channel that a flow stands on. Where a
branch ends on one, what stood ahead of it still does in the parent
(`Sketch.Takes`), whether the channel is read in its place or led away behind
the branches.
-/

namespace FlowAssembly

open Assembly

namespace Sketch

/-- The flow stands on no channel, or on one that nothing reads. -/
def Narrow (s : Sketch) : Prop :=
  ∀ k l, s.tip ≠ .shared k l

/-- The marks stand in one piece, which will not be broken up. -/
def Holds (s : Sketch) (l : List Mark) : Prop :=
  l <:+: s.base ∨ ∃ tap ∈ s.taps, l <:+: tap

/-- Whatever stands in one piece still does. -/
def Keeps (s s' : Sketch) : Prop :=
  ∀ l, s.Holds l → s'.Holds l

/-- What stood ahead of the channel of the branch is in one piece, and if
there is such a channel it comes somewhere behind that. -/
def Takes (s t : Sketch) : Prop :=
  ∃ gap, s.Holds (t.base ++ gap ++ t.tip.marks)

variable {s s₁ s' t : Sketch} {l l' p : List Mark} {sides : List (List Mark)}
  {reader : List Mark} {k : ComponentKey}

theorem narrow_of_vacant (h : s.tip = .vacant) : s.Narrow := by
  intro k l ht
  rw [h] at ht
  cases ht

theorem narrow_of_bare (h : s.tip = .bare k) : s.Narrow := by
  intro j l ht
  rw [h] at ht
  cases ht

theorem Narrow.cases (h : s.Narrow) : s.tip = .vacant ∨ ∃ k, s.tip = .bare k := by
  cases ht : s.tip with
  | vacant => exact .inl rfl
  | bare k => exact .inr ⟨k, rfl⟩
  | shared k l => exact absurd ht (h k l)

theorem Narrow.bare (h : s.Narrow) (hk : s.tip.key? = some k) :
    s.tip = .bare k := by
  rcases h.cases with ht | ⟨j, ht⟩
  · rw [ht] at hk
    cases hk
  · rw [ht] at hk ⊢
    rw [Option.some.inj hk]

/-! ## Pieces -/

theorem Holds.mono (h : s.Holds l) (hl : l' <:+: l) : s.Holds l' :=
  h.imp hl.trans fun ⟨tap, hm, ht⟩ => ⟨tap, hm, hl.trans ht⟩

theorem holds_iff_of_taps (h : s.taps = []) : s.Holds l ↔ l <:+: s.base := by
  simp [Holds, h]

theorem Keeps.refl (s : Sketch) : s.Keeps s := fun _ h => h

theorem Keeps.trans (h : s.Keeps s₁) (h' : s₁.Keeps s') : s.Keeps s' :=
  fun l hl => h' l (h l hl)

theorem keeps_of_base (ht : s.taps = []) (hb : s.base <+: s'.base) :
    s.Keeps s' := fun _ hl =>
      .inl (((holds_iff_of_taps ht).1 hl).trans hb.isInfix)

theorem keeps_held (s : Sketch) (flows : List (List Mark)) :
    s.Keeps (s.held flows) :=
  fun _ hl => hl.imp_right fun ⟨tap, hm, ht⟩ => ⟨tap, List.mem_append_left _ hm, ht⟩

theorem keeps_wired (s : Sketch) (sides : List (List Mark)) (reader : List Mark) :
    s.Keeps (s.wired sides reader) := by
  rintro l (hl | ⟨tap, hm, hl⟩)
  · exact .inl (hl.trans (base_prefix_wired s sides reader).isInfix)
  · have hflat : s.taps.flatten <:+ (s.wired sides reader).base :=
      List.suffix_append _ _
    exact .inl (hl.trans ((List.infix_of_mem_flatten hm).trans hflat.isInfix))

theorem Closes.keeps (h : s.Closes s₁) : s.Keeps s₁ := by
  cases h with
  | same _ => exact .refl s
  | read _ _ => exact keeps_wired s [] _

/-- What stands in one piece is in the base once the flows that are held back
are in their place. -/
theorem Holds.flushed (h : s.Holds l) (hn : s.Narrow)
    (hv : s.tip = .vacant → s.taps = []) : l <:+: s.flushed.base := by
  unfold Sketch.flushed
  rcases hn.cases with ht | ⟨k, ht⟩
  · rw [ht]
    exact (holds_iff_of_taps (hv ht)).1 h
  · rw [ht]
    rcases h with hl | ⟨tap, hm, hl⟩
    · exact hl.trans (List.prefix_append _ _).isInfix
    · exact hl.trans
        ((List.infix_of_mem_flatten hm).trans (List.suffix_append _ _).isInfix)

theorem Narrow.flushed (hn : s.Narrow) : s.flushed.Narrow := by
  unfold Sketch.flushed
  rcases hn.cases with ht | ⟨k, ht⟩
  · rw [ht]
    exact narrow_of_vacant ht
  · rw [ht]
    exact narrow_of_bare rfl

theorem taps_flushed_of_vacant (hv : s.tip = .vacant → s.taps = []) :
    s.flushed.taps = [] := by
  unfold Sketch.flushed
  split
  · next h => exact hv h
  · rfl
  · rfl

/-! ## Readers -/

theorem Reader.eq_of_some (h : Reader (some k) reader) :
    ∃ e, reader = [.endpoint e (some k)] := by
  cases h
  exact ⟨_, rfl⟩

/-! ## Branches that are taken in -/

theorem Takes.holds (h : s.Takes t) (hl : l <:+: t.base) : s.Holds l := by
  obtain ⟨gap, hbase⟩ := h
  rw [List.append_assoc] at hbase
  exact hbase.mono (hl.trans (List.prefix_append _ _).isInfix)

theorem Shut.prefix_of_narrow (hp : t.Shut p) (hn : t.Narrow) :
    t.base ++ t.tip.marks <+: p := by
  cases hp with
  | closed hv =>
      exact ⟨[], by simp [hv, Tip.marks]⟩
  | @read reader hne hr =>
      rcases hn.cases with ht | ⟨k, ht⟩
      · exact absurd ht hne
      · refine ⟨reader ++ t.taps.flatten, ?_⟩
        simp [wired, lead, ht, Tip.marks]

theorem takes_of_shut {ts : List Sketch} {ps : List (List Mark)}
    (hs : List.Forall₂ Shut ts ps) (hn : ∀ t ∈ ts, t.Narrow)
    (hp : ps.flatten <:+: s.base) : ∀ t ∈ ts, s.Takes t := by
  induction hs with
  | nil => exact List.forall_mem_nil _
  | @cons t p ts ps hone _ ih =>
      rw [List.forall_mem_cons] at hn ⊢
      rw [List.flatten_cons] at hp
      refine ⟨⟨[], .inl ?_⟩, ih hn.2 ((List.suffix_append _ _).isInfix.trans hp)⟩
      rw [List.append_nil]
      exact (hone.prefix_of_narrow hn.1).isInfix.trans
        ((List.prefix_append _ _).isInfix.trans hp)

/-- Branches that are led together on a channel: the one that ended on it has
it behind all the others. -/
theorem takes_of_led {m : ComponentKey} {ts : List Sketch} {ls : List (List Mark)}
    (hl : List.Forall₂ (Led m) ts ls) (hn : ∀ t ∈ ts, t.Narrow)
    (hp : ls.flatten ++ [.channel m] <:+: s.base) : ∀ t ∈ ts, s.Takes t := by
  induction hl with
  | nil => exact List.forall_mem_nil _
  | @cons t l ts ls hone _ ih =>
      rw [List.forall_mem_cons] at hn ⊢
      rw [List.flatten_cons, List.append_assoc] at hp
      refine ⟨?_, ih hn.2 ((List.suffix_append _ _).isInfix.trans hp)⟩
      cases hone with
      | shut _ hshut =>
          refine ⟨[], .inl ?_⟩
          rw [List.append_nil]
          exact (hshut.prefix_of_narrow hn.1).isInfix.trans
            ((List.prefix_append _ _).isInfix.trans hp)
      | merged hm =>
          have ht := hn.1.bare hm
          refine ⟨ls.flatten, .inl ?_⟩
          rw [ht] at hp ⊢
          simpa [Tip.behind, Tip.marks] using hp

end Sketch

/-! ## Branches of nested builders -/

namespace Builder

variable {b : Builder} {s : Sketch} {w w' : Workshop}

/-- Whichever builder a flow ends with, its branch has the flows that it holds
back in their place. -/
theorem Traced.intoBranch (hd : b.Traced s) (hn : s.keys.Nodup) {br : Branch}
    (hy : Yields b.intoBranch w br w') :
    br.Traced s.flushed ∧ w'.nextComponent = w.nextComponent := by
  obtain ⟨rfl, hnext⟩ := eq_toBranch hy
  refine ⟨⟨hd.marks_flushDeferred hn, ?_, Sketch.taps_flushed_of_vacant hd.vacant⟩,
    hnext⟩
  rw [Sketch.key?_flushed, ← hd.current]
  show (Branch.channel? b.toBranch).map Channel.key = _
  unfold Branch.channel? toBranch
  cases hp : b.cursor.pending with
  | some output =>
      -- A flow that stands on a channel has bound every output before it.
      have hvacant : s.tip = .vacant := Classical.byContradiction fun hne => by
        rw [hd.pending hne] at hp
        cases hp
      rw [hd.current, hvacant]
      rfl
  | none =>
      cases hc : b.cursor.channel with
      | none => simp [currentKey?, hc]
      | some source => cases source <;> simp [currentKey?, hc]

end Builder

end FlowAssembly
