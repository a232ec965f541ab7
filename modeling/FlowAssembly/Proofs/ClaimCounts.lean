import FlowAssembly.ClaimBook

/-!
# Counting claims

How many claims a book has on one handler: in a session (`claimed`), and in a
session for one owner (`owned`). A book is `Single` when no handler is claimed
twice in a session. Every operation on books is described by what it does to
these numbers: claiming adds one where there was none, releasing takes only
from its owner, and renaming and moving carry the numbers of an owner along.
-/

namespace FlowAssembly

namespace ClaimBook

/-- How many claims on a handler a flow owns in a session. -/
def owned (b : ClaimBook) (session : SessionId) (owner : String)
    (handler : HandlerKey) : Nat :=
  b.claims.countP fun c => c.session = session ∧ c.owner = owner ∧
    c.handler.key = handler

/-- How many claims on a handler a session has. -/
def claimed (b : ClaimBook) (session : SessionId) (handler : HandlerKey) : Nat :=
  b.claims.countP fun c => c.session = session ∧ c.handler.key = handler

/-- No handler is claimed twice in a session. -/
def Single (b : ClaimBook) : Prop :=
  ∀ session handler, b.claimed session handler ≤ 1

theorem owned_le_claimed (b : ClaimBook) (session : SessionId) (owner : String)
    (handler : HandlerKey) :
    b.owned session owner handler ≤ b.claimed session handler := by
  refine List.countP_mono_left fun c _ hc => ?_
  simp only [decide_eq_true_eq] at hc ⊢
  exact ⟨hc.1, hc.2.2⟩

theorem find?_eq_none_iff {b : ClaimBook} {session : SessionId}
    {handler : HandlerKey} :
    b.find? session handler = none ↔ b.claimed session handler = 0 := by
  simp only [find?, claimed, List.find?_eq_none, List.countP_eq_zero]

theorem exists_claim_of_owned {b : ClaimBook} {session : SessionId} {owner : String}
    {handler : HandlerKey} (h : 0 < b.owned session owner handler) :
    ∃ c ∈ b.claims, c.session = session ∧ c.owner = owner ∧
      c.handler.key = handler := by
  obtain ⟨c, hc, hp⟩ := List.countP_pos_iff.1 h
  exact ⟨c, hc, by simpa using hp⟩

/-- Two claims on a handler in a session of a single book are the same claim. -/
theorem Single.eq_of_mem {b : ClaimBook} (hb : b.Single) {c d : Claim}
    (hc : c ∈ b.claims) (hd : d ∈ b.claims) (hs : c.session = d.session)
    (hk : c.handler.key = d.handler.key) : c = d := by
  have hone := hb d.session d.handler.key
  rw [claimed, List.countP_eq_length_filter] at hone
  have hc' : c ∈ b.claims.filter fun e =>
      e.session = d.session ∧ e.handler.key = d.handler.key := by
    simp [hc, hs, hk]
  have hd' : d ∈ b.claims.filter fun e =>
      e.session = d.session ∧ e.handler.key = d.handler.key := by
    simp [hd]
  match hl : b.claims.filter fun e =>
      e.session = d.session ∧ e.handler.key = d.handler.key with
  | [] => rw [hl] at hc'; cases hc'
  | [e] =>
      rw [hl, List.mem_singleton] at hc' hd'
      rw [hc', hd']
  | _ :: _ :: _ => rw [hl] at hone; simp at hone

/-- In a single book the claim that a flow owns is the claim that the session
holds. -/
theorem Single.find?_of_owned {b : ClaimBook} (hb : b.Single) {session : SessionId}
    {owner : String} {handler : HandlerKey}
    (h : 0 < b.owned session owner handler) :
    ∃ c, b.find? session handler = some c ∧ c.owner = owner := by
  obtain ⟨d, hd, hds, hdo, hdk⟩ := exists_claim_of_owned h
  match hf : b.find? session handler with
  | none =>
      have hzero := find?_eq_none_iff.1 hf
      have hle := b.owned_le_claimed session owner handler
      omega
  | some c =>
      have hc : c ∈ b.claims := List.mem_of_find?_eq_some hf
      have hp := List.find?_some hf
      simp only [decide_eq_true_eq] at hp
      have hcd : c = d :=
        hb.eq_of_mem hc hd (hp.1.trans hds.symm) (hp.2.trans hdk.symm)
      exact ⟨c, rfl, hcd ▸ hdo⟩

/-! ## Claiming -/

section Claim

variable {b b' : ClaimBook} {session : SessionId} {tag : HandlerTag}
  {owner : String}

theorem claim_ok (h : b.claim session tag owner = .ok b') :
    b.claimed session tag.key = 0 ∧ b' = ⟨b.claims ++ [⟨session, tag, owner⟩]⟩ := by
  rw [claim] at h
  split at h
  · cases h
  · next hf =>
      cases h
      exact ⟨find?_eq_none_iff.1 hf, rfl⟩

theorem owned_of_claim (h : b.claim session tag owner = .ok b') (s : SessionId)
    (o : String) (k : HandlerKey) :
    b'.owned s o k = b.owned s o k + if s = session ∧ o = owner ∧ k = tag.key
      then 1 else 0 := by
  obtain ⟨_, rfl⟩ := claim_ok h
  simp only [owned, List.countP_append, List.countP_singleton, decide_eq_true_eq]
  by_cases hnew : s = session ∧ o = owner ∧ k = tag.key
  · obtain ⟨rfl, rfl, rfl⟩ := hnew
    simp
  · rw [if_neg hnew, if_neg fun hc => hnew ⟨hc.1.symm, hc.2.1.symm, hc.2.2.symm⟩]

theorem single_of_claim (h : b.claim session tag owner = .ok b') (hb : b.Single) :
    b'.Single := by
  obtain ⟨hzero, rfl⟩ := claim_ok h
  intro s k
  have hs := hb s k
  simp only [claimed, List.countP_append, List.countP_singleton] at hs hzero ⊢
  split
  · next hnew =>
      simp only [decide_eq_true_eq] at hnew
      rw [← hnew.1, ← hnew.2]
      omega
  · omega

end Claim

/-! ## Releasing and forgetting -/

theorem owned_release_of_ne {b : ClaimBook} {session s : SessionId}
    {owner o : String} (h : (s, o) ≠ (session, owner)) (k : HandlerKey) :
    (b.release session owner).owned s o k = b.owned s o k := by
  simp only [owned, release, List.countP_filter]
  refine List.countP_congr fun c _ => ?_
  simp only [Bool.and_eq_true, decide_eq_true_eq]
  constructor
  · exact fun hc => hc.1
  · rintro ⟨rfl, rfl, rfl⟩
    exact ⟨⟨rfl, rfl, rfl⟩, fun hc => h (by rw [hc.1, hc.2])⟩

theorem Single.release {b : ClaimBook} (hb : b.Single) (session : SessionId)
    (owner : String) :
    (b.release session owner).Single :=
  fun s k => Nat.le_trans (List.Sublist.countP_le List.filter_sublist) (hb s k)

theorem owned_retain_of_mem {b : ClaimBook} {held : List HandlerKey}
    {k : HandlerKey} (h : k ∈ held) (session : SessionId) (owner : String) :
    (b.retain held).owned session owner k = b.owned session owner k := by
  simp only [owned, retain, List.countP_filter]
  refine List.countP_congr fun c _ => ?_
  simp only [Bool.and_eq_true, decide_eq_true_eq]
  constructor
  · exact fun hc => hc.1
  · rintro ⟨rfl, rfl, rfl⟩
    exact ⟨⟨rfl, rfl, rfl⟩, List.contains_iff_mem.2 h⟩

theorem Single.retain {b : ClaimBook} (hb : b.Single) (held : List HandlerKey) :
    (b.retain held).Single := fun s k =>
  Nat.le_trans (List.Sublist.countP_le List.filter_sublist) (hb s k)

/-! ## Renaming -/

section Rename

variable {b : ClaimBook} {session : SessionId} {owner newOwner : String}

theorem claimed_rename (s : SessionId) (k : HandlerKey) :
    (b.rename session owner newOwner).claimed s k = b.claimed s k := by
  simp only [claimed, rename, List.countP_map]
  refine List.countP_congr fun c _ => ?_
  simp only [Function.comp_apply]
  split <;> rfl

theorem Single.rename (hb : b.Single) :
    (b.rename session owner newOwner).Single := by
  intro s k
  rw [claimed_rename]
  exact hb s k

/-- The claims of the renamed flow go with it. -/
theorem owned_le_rename (k : HandlerKey) :
    b.owned session owner k ≤
      (b.rename session owner newOwner).owned session newOwner k := by
  simp only [owned, rename, List.countP_map]
  refine List.countP_mono_left fun c _ hc => ?_
  simp only [decide_eq_true_eq] at hc
  obtain ⟨rfl, rfl, rfl⟩ := hc
  simp

/-- No other flow loses a claim. -/
theorem owned_le_rename_of_ne {o : String} (ho : o ≠ owner) (s : SessionId)
    (k : HandlerKey) :
    b.owned s o k ≤ (b.rename session owner newOwner).owned s o k := by
  simp only [owned, rename, List.countP_map]
  refine List.countP_mono_left fun c _ hc => ?_
  simp only [decide_eq_true_eq] at hc
  obtain ⟨rfl, rfl, rfl⟩ := hc
  simp [ho]

end Rename

/-! ## Moving between sessions -/

section Transfer

variable {b b' : ClaimBook} {source target : SessionId} {owner : String}

theorem transfer_ok (h : b.transfer source target owner = .ok b') :
    (source = target ∧ b' = b) ∨
    (source ≠ target ∧
      (∀ c ∈ b.ownedBy source owner, b.claimed target c.handler.key = 0) ∧
      b' = ⟨b.claims.map fun c =>
          if c.session = source ∧ c.owner = owner then { c with session := target }
          else c⟩) := by
  rw [transfer] at h
  split at h
  · next hs =>
      cases h
      exact .inl ⟨hs, rfl⟩
  · next hs =>
      split at h
      · cases h
      · next hc =>
          cases h
          refine .inr ⟨hs, fun c hm => ?_, rfl⟩
          have hnone := List.findSome?_eq_none_iff.1 hc c hm
          exact find?_eq_none_iff.1 (Option.map_eq_none_iff.1 hnone)

/-- The claims of the moved flow go with it. -/
theorem owned_le_transfer (h : b.transfer source target owner = .ok b')
    (k : HandlerKey) :
    b.owned source owner k ≤ b'.owned target owner k := by
  rcases transfer_ok h with ⟨rfl, rfl⟩ | ⟨_, _, rfl⟩
  · exact Nat.le_refl _
  · simp only [owned, List.countP_map]
    refine List.countP_mono_left fun c _ hc => ?_
    simp only [decide_eq_true_eq] at hc
    obtain ⟨rfl, rfl, rfl⟩ := hc
    simp

/-- No other flow loses a claim. -/
theorem owned_le_transfer_of_ne (h : b.transfer source target owner = .ok b')
    {o : String} (ho : o ≠ owner) (s : SessionId) (k : HandlerKey) :
    b.owned s o k ≤ b'.owned s o k := by
  rcases transfer_ok h with ⟨rfl, rfl⟩ | ⟨_, _, rfl⟩
  · exact Nat.le_refl _
  · simp only [owned, List.countP_map]
    refine List.countP_mono_left fun c _ hc => ?_
    simp only [decide_eq_true_eq] at hc
    obtain ⟨rfl, rfl, rfl⟩ := hc
    simp [ho]

/-- Where a flow is moved, its handlers were unclaimed before, so none of them
is claimed twice afterwards. -/
theorem single_of_transfer (h : b.transfer source target owner = .ok b')
    (hb : b.Single) : b'.Single := by
  rcases transfer_ok h with ⟨rfl, rfl⟩ | ⟨hne, hfree, rfl⟩
  · exact hb
  · intro s k
    simp only [claimed, List.countP_map]
    by_cases hmoved : ∃ c ∈ b.ownedBy source owner, c.handler.key = k
    · -- A moved claim is on `k`, so `k` is claimed in the source alone: every
      -- claim counted was there.
      obtain ⟨d, hd, rfl⟩ := hmoved
      have hzero := List.countP_eq_zero.1 (hfree d hd)
      by_cases hs : s = target
      · refine Nat.le_trans (List.countP_mono_left fun c hc hp => ?_)
          (hb source d.handler.key)
        have hnot := hzero c hc
        simp only [Function.comp_apply, decide_eq_true_eq] at hp hnot ⊢
        split at hp
        · next hcs => exact ⟨hcs.1, hp.2⟩
        · exact absurd ⟨hp.1.trans hs, hp.2⟩ hnot
      · refine Nat.le_trans (List.countP_mono_left fun c hc hp => ?_)
          (hb s d.handler.key)
        simp only [Function.comp_apply, decide_eq_true_eq] at hp ⊢
        split at hp
        · exact absurd hp.1.symm hs
        · exact hp
    · refine Nat.le_trans (List.countP_mono_left fun c hc hp => ?_) (hb s k)
      simp only [Function.comp_apply, decide_eq_true_eq] at hp ⊢
      split at hp
      · next hcs =>
          have hm : c ∈ b.ownedBy source owner := by
            simp [ownedBy, ofSession, hc, hcs.1, hcs.2]
          exact absurd ⟨c, hm, hp.2⟩ hmoved
      · exact hp

end Transfer

end ClaimBook

end FlowAssembly
