import FlowAssembly.Proofs.Making

/-!
# The account of keys

The order of a flow can be told from its steps only as long as no component
stands in it twice. That is kept by an account, like that of the claims: a key
stands somewhere in the flow, or is set aside for a channel of the caller's
that comes later, or is still in the supply, and in all it counts once
(`Workshop.Room`). A step takes what it uses out of the supply, or out of what
was set aside (`Workshop.Spent`).
-/

namespace FlowAssembly

/-- Whether a key is still in the supply, when the counter of components
stands at the given number. -/
def supply (next : Nat) (k : ComponentKey) : Nat :=
  if next ≤ k.number then 1 else 0

theorem supply_succ (next : Nat) (k : ComponentKey) :
    supply next k = supply (next + 1) k + [(⟨next⟩ : ComponentKey)].count k := by
  obtain ⟨n⟩ := k
  simp only [supply, List.count_singleton, beq_iff_eq, ComponentKey.mk.injEq]
  by_cases h : next = n
  · simp [h]
  · simp only [h, if_false]
    split <;> split <;> omega

theorem supply_mono {next next' : Nat} (h : next ≤ next') (k : ComponentKey) :
    supply next' k ≤ supply next k := by
  unfold supply
  split <;> split <;> omega

namespace Workshop

/-- The keys stand once at most, and none of them is still in the supply. -/
def Room (w : Workshop) (keys : List ComponentKey) : Prop :=
  ∀ k, keys.count k + supply w.nextComponent k ≤ 1

/-- Between the workshops, keys came out of a budget and out of the supply. -/
structure Spent (w : Workshop) (budget : List ComponentKey) (w' : Workshop)
    (keys : List ComponentKey) :
    Prop where
  count : ∀ k, keys.count k + supply w'.nextComponent k ≤ budget.count k +
      supply w.nextComponent k
  supply : ∀ k, supply w'.nextComponent k ≤ supply w.nextComponent k

variable {w w₁ w' : Workshop} {budget keys others : List ComponentKey}

theorem room_iff : w.Room keys ↔
      keys.Nodup ∧ ∀ k ∈ keys, k.number < w.nextComponent := by
  constructor
  · intro hr
    refine ⟨List.nodup_iff_count.2 fun k => Nat.le_trans (Nat.le_add_right _ _)
      (hr k), fun k hm => ?_⟩
    have hk := hr k
    have hpos := List.count_pos_iff.2 hm
    unfold FlowAssembly.supply at hk
    split at hk
    · omega
    · omega
  · rintro ⟨hn, hmade⟩ k
    have hone := List.nodup_iff_count.1 hn k
    by_cases hm : k ∈ keys
    · rw [supply, if_neg (Nat.not_le.2 (hmade k hm))]
      omega
    · rw [List.count_eq_zero.2 hm, supply]
      split
      · omega
      · omega

theorem Room.nodup (hr : w.Room keys) : keys.Nodup := (room_iff.1 hr).1

theorem Room.of_append (hr : w.Room (keys ++ others)) : w.Room keys := by
  intro k
  have hk := hr k
  rw [List.count_append] at hk
  omega

theorem Room.swap {before between after : List ComponentKey}
    (hr : w.Room (before ++ between ++ after)) :
    w.Room (before ++ after ++ between) := by
  intro k
  have hk := hr k
  simp only [List.count_append] at hk ⊢
  omega

/-- A key that is in the supply stands nowhere yet. -/
theorem Room.next (hr : w.Room keys) :
    keys.count (⟨w.nextComponent⟩ : ComponentKey) = 0 := by
  have hk := hr ⟨w.nextComponent⟩
  simp only [FlowAssembly.supply, Nat.le_refl, if_true] at hk
  omega

theorem Room.of_spent (hr : w.Room budget) (hs : w.Spent budget w' keys) :
    w'.Room keys :=
  fun k => Nat.le_trans (hs.count k) (hr k)

/-- Room does not get less by itself. -/
theorem Room.mono (hr : w.Room keys)
    (hs : ∀ k,
      FlowAssembly.supply w'.nextComponent k ≤ FlowAssembly.supply w.nextComponent
      k) :
    w'.Room keys :=
  fun k => Nat.le_trans (Nat.add_le_add_left (hs k) _) (hr k)

namespace Spent

theorem refl (w : Workshop) (keys : List ComponentKey) : w.Spent keys w keys :=
  ⟨fun _ => Nat.le_refl _, fun _ => Nat.le_refl _⟩

theorem trans {between : List ComponentKey} (h : w.Spent budget w₁ between)
    (h' : w₁.Spent between w' keys) :
    w.Spent budget w' keys :=
  ⟨fun k => Nat.le_trans (h'.count k) (h.count k),
    fun k => Nat.le_trans (h'.supply k) (h.supply k)⟩

/-- Only the counter of components matters. -/
theorem congr (h : w₁.Spent budget w' keys)
    (hw : w.nextComponent = w₁.nextComponent) :
    w.Spent budget w' keys :=
  ⟨fun k => hw ▸ h.count k, fun k => hw ▸ h.supply k⟩

/-- What takes no part in a step stays as it is. -/
theorem append (h : w.Spent budget w' keys) (others : List ComponentKey) :
    w.Spent (budget ++ others) w' (keys ++ others) := by
  refine ⟨fun k => ?_, h.supply⟩
  have hk := h.count k
  simp only [List.count_append]
  omega

theorem prepend (h : w.Spent budget w' keys) (others : List ComponentKey) :
    w.Spent (others ++ budget) w' (others ++ keys) := by
  refine ⟨fun k => ?_, h.supply⟩
  have hk := h.count k
  simp only [List.count_append]
  omega

/-- What one part spends and what another spends after it are spent together. -/
theorem both {budget' keys' : List ComponentKey} (h : w.Spent budget w₁ keys)
    (h' : w₁.Spent budget' w' keys') :
    w.Spent (budget ++ budget') w' (keys ++ keys') :=
  (h.append budget').trans (h'.prepend keys)

/-- Flows are run out of what they start at and what they place. -/
theorem run {seeds placed spent : List ComponentKey}
    (h : w.Spent budget w₁ (others ++ seeds ++ placed))
    (h' : w₁.Spent (seeds ++ placed) w' spent) :
    w.Spent budget w' (others ++ spent) := by
  rw [List.append_assoc] at h
  exact h.trans (h'.prepend others)

/-- A key that is made next is taken out of the supply. -/
theorem next (w : Workshop) :
    w.Spent [] { w with nextComponent := w.nextComponent + 1 }
      [⟨w.nextComponent⟩] := by
  refine ⟨fun k => ?_, fun k => supply_mono (Nat.le_succ _) k⟩
  have hs := supply_succ w.nextComponent k
  simp only [List.count_nil]
  omega

theorem nextTwo (w : Workshop) :
    w.Spent [] { w with nextComponent := w.nextComponent + 1 + 1 }
      [⟨w.nextComponent⟩, ⟨w.nextComponent + 1⟩] :=
  (next w).trans
    ((next { w with nextComponent := w.nextComponent + 1 }).prepend
      [⟨w.nextComponent⟩])

end Spent

theorem Supplied.spent (h : w.Supplied w') (keys : List ComponentKey) :
    w.Spent keys w' keys :=
  ⟨fun k => Nat.add_le_add_left (supply_mono h.components k) _,
    fun k => supply_mono h.components k⟩

end Workshop

end FlowAssembly
