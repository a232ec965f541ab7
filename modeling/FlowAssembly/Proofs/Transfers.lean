import Mathlib.Data.List.Perm.Basic
import FlowAssembly.Proofs.ClaimCounts
import FlowAssembly.Proofs.Visits

/-!
# Moving claims between sessions

A flow that goes over to another session takes its claims along: all of them,
or none. A claim `c` of the flow stands against a claim `d` of the target
(`Collides`) if both are on one handler. One such pair is enough to refuse the
move, the refusal names a pair, and the book is left as it was. Where there is
none, the claims of each session afterwards are told from those before, and
read as one list the book still holds the same handlers with the same owners
in the same places: only sessions were written over.
-/

namespace FlowAssembly

namespace ClaimBook

variable {b b' : ClaimBook} {source target : SessionId} {owner : String}

/-- A claim that a flow owns in one session, and a claim on the same handler
in another. -/
structure Collides (b : ClaimBook) (source target : SessionId) (owner : String)
    (c d : Claim) : Prop where
  moving : c ∈ b.ownedBy source owner
  held : d ∈ b.ofSession target
  handler : d.handler.key = c.handler.key

/-- What a move of claims between two sessions makes of a book. -/
structure Moved (b : ClaimBook) (source target : SessionId) (owner : String)
    (b' : ClaimBook) : Prop where
  gained :
    (b'.ofSession target).Perm (b.ofSession target ++ (b.ownedBy source owner).map
      fun c => { c with session := target })
  lost : b'.ofSession source = (b.ofSession source).filter fun c => c.owner ≠ owner
  others : ∀ session, session ≠ source → session ≠ target →
    b'.ofSession session = b.ofSession session
  holders : (b'.claims.map fun c => (c.handler, c.owner)) = b.claims.map fun c =>
    (c.handler, c.owner)
  single : b.Single → b'.Single

theorem mem_ofSession {session : SessionId} {c : Claim} :
    c ∈ b.ofSession session ↔ c ∈ b.claims ∧ c.session = session := by
  simp [ofSession]

theorem mem_ofSession_of_find? {session : SessionId} {handler : HandlerKey}
    {c : Claim} (h : b.find? session handler = some c) :
    c ∈ b.ofSession session ∧ c.handler.key = handler := by
  have hp := List.find?_some h
  simp only [decide_eq_true_eq] at hp
  exact ⟨mem_ofSession.2 ⟨List.mem_of_find?_eq_some h, hp.1⟩, hp.2⟩

theorem collides_of_conflict? {c d : Claim}
    (h : b.conflict? source target owner = some (c, d)) :
    b.Collides source target owner c d := by
  obtain ⟨e, he, hd⟩ := List.exists_of_findSome?_eq_some h
  obtain ⟨held, hf, heq⟩ := Option.map_eq_some_iff.1 hd
  obtain ⟨rfl, rfl⟩ := Prod.mk.inj heq
  obtain ⟨hheld, hkey⟩ := mem_ofSession_of_find? hf
  exact ⟨he, hheld, hkey⟩

/-- Where no pair is found, there is none. -/
theorem not_collides_of_conflict? (h : b.conflict? source target owner = none)
    (c d : Claim) :
    ¬ b.Collides source target owner c d := by
  rintro ⟨hc, hd, hkey⟩
  have hnone := Option.map_eq_none_iff.1 (List.findSome?_eq_none_iff.1 h c hc)
  obtain ⟨hmem, hs⟩ := mem_ofSession.1 hd
  have hnot := List.find?_eq_none.1 hnone d hmem
  simp [hs, hkey] at hnot

/-- A move that is refused names a claim of the flow and the owner of the
handler in the target. -/
theorem transfer_error {cause : FlowError}
    (h : b.transfer source target owner = .error cause) :
    ∃ c d, b.Collides source target owner c d ∧
      cause = .replyProducerReused c.handler.label d.owner := by
  rw [transfer] at h
  split at h
  · cases h
  · split at h
    · next c d hc =>
        cases h
        exact ⟨c, d, collides_of_conflict? hc, rfl⟩
    · cases h

/-- A single pair refuses the move. -/
theorem transfer_eq_error {c d : Claim} (hne : source ≠ target)
    (hcd : b.Collides source target owner c d) :
    ∃ cause, b.transfer source target owner = .error cause := by
  rw [transfer, if_neg hne]
  split
  · exact ⟨_, rfl⟩
  · next h => exact absurd hcd (not_collides_of_conflict? h c d)

theorem exists_transfer (hfree : ∀ c d, ¬ b.Collides source target owner c d) :
    ∃ b', b.transfer source target owner = .ok b' := by
  match h : b.transfer source target owner with
  | .ok b' => exact ⟨b', rfl⟩
  | .error cause =>
      obtain ⟨c, d, hcd, -⟩ := transfer_error h
      exact absurd hcd (hfree c d)

/-! ## What a move leaves in each session -/

section

variable (hne : source ≠ target) (h : b.transfer source target owner = .ok b')
include hne h

theorem claims_of_transfer : b'.claims = b.claims.map fun c =>
      if c.session = source ∧ c.owner = owner then { c with session := target }
        else c := by
  obtain ⟨heq, -⟩ | ⟨-, -, rfl⟩ := transfer_ok h
  · exact absurd heq hne
  · rfl

/-- The target has its old claims, and those of the flow besides. -/
theorem target_of_transfer :
    (b'.ofSession target).Perm (b.ofSession target ++ (b.ownedBy source owner).map
      fun c => { c with session := target }) := by
  simp only [ofSession, ownedBy, claims_of_transfer hne h]
  induction b.claims with
  | nil => exact .refl _
  | cons c claims ih =>
      by_cases hm : c.session = source ∧ c.owner = owner
      · obtain ⟨rfl, rfl⟩ := hm
        simpa [hne] using (ih.cons _).trans List.perm_middle.symm
      · by_cases ht : c.session = target
        · simpa [ht, hne.symm] using ih
        · by_cases hs : c.session = source
          · have ho : c.owner ≠ owner := fun ho => hm ⟨hs, ho⟩
            simpa [hs, ho, hne] using ih
          · simpa [ht, hs] using ih

/-- The source has its old claims without those of the flow. -/
theorem source_of_transfer :
    b'.ofSession source = (b.ofSession source).filter fun c => c.owner ≠ owner := by
  simp only [ofSession, claims_of_transfer hne h]
  induction b.claims with
  | nil => rfl
  | cons c claims ih =>
      by_cases hs : c.session = source
      · by_cases ho : c.owner = owner
        · simpa [hs, ho, hne.symm] using ih
        · simpa [hs, ho] using ih
      · simpa [hs] using ih

/-- The move passes by every other session. -/
theorem other_of_transfer {session : SessionId} (hs : session ≠ source)
    (ht : session ≠ target) :
    b'.ofSession session = b.ofSession session := by
  simp only [ofSession, claims_of_transfer hne h]
  induction b.claims with
  | nil => rfl
  | cons c claims ih =>
      by_cases hm : c.session = source ∧ c.owner = owner
      · simpa [hm, ht.symm, hs.symm] using ih
      · simp only [List.map_cons, if_neg hm, List.filter_cons, ih]

/-- Only sessions are written over: the book holds the same handlers with the
same owners. -/
theorem holders_of_transfer : (b'.claims.map fun c => (c.handler, c.owner)) =
    b.claims.map fun c => (c.handler, c.owner) := by
  rw [claims_of_transfer hne h, List.map_map]
  refine List.map_congr_left fun c _ => ?_
  simp only [Function.comp_apply]
  split <;> rfl

theorem moved_of_transfer : b.Moved source target owner b' :=
  ⟨target_of_transfer hne h, source_of_transfer hne h,
    fun _ => other_of_transfer hne h, holders_of_transfer hne h,
    single_of_transfer h⟩

end

end ClaimBook

open Assembly

/-- Moving the claims of a flow from one session to another is all or nothing,
whatever the claims are.

Into the session where they are already, nothing changes and none is moved.
Otherwise, if a handler that the flow has claimed in the source is claimed by
anyone in the target, the move fails with the handler of such a pair and its
owner in the target, and the workshop, the claims of both sessions with it, is
as it was. If there is no such handler the move succeeds and answers the
number of claims that the flow had in the source: those are now in the target
under the same owner, the source is without them and otherwise the same, and
every other session too. -/
theorem transfer_all_or_nothing (w : Workshop) (source target : SessionId)
    (owner : String) :
    (source = target → Yields (transferClaims source target owner) w 0 w) ∧
    (source ≠ target → (∃ c d, w.claims.Collides source target owner c d) →
      ∃ c d, w.claims.Collides source target owner c d ∧
        Stops (transferClaims source target owner) w
          (.flow (.replyProducerReused c.handler.label d.owner)) w) ∧
    (source ≠ target → (∀ c d, ¬ w.claims.Collides source target owner c d) →
      ∃ claims,
        Yields (transferClaims source target owner) w
          (w.claims.ownedBy source owner).length { w with claims } ∧
        w.claims.Moved source target owner claims) := by
  refine ⟨?_, ?_, ?_⟩
  · rintro rfl
    exact yields_transferClaims.2
      ⟨⟨w.claims, by simp [ClaimBook.transfer], rfl⟩, by simp⟩
  · rintro hne ⟨c, d, hcd⟩
    obtain ⟨cause, hcause⟩ := ClaimBook.transfer_eq_error hne hcd
    obtain ⟨c', d', hcd', rfl⟩ := ClaimBook.transfer_error hcause
    exact ⟨c', d', hcd', stops_transferClaims.2 ⟨_, hcause, rfl, rfl⟩⟩
  · intro hne hfree
    obtain ⟨claims, hclaims⟩ := ClaimBook.exists_transfer hfree
    exact ⟨claims,
      yields_transferClaims.2 ⟨⟨claims, hclaims, rfl⟩, by rw [if_neg hne]⟩,
      ClaimBook.moved_of_transfer hne hclaims⟩

/-- Flow `f` has claimed two handlers in session 1. Handler 2 is claimed by
`g` in session 2, so `f` cannot go there. Nothing stands against it in session
3. -/
theorem transfer_all_or_nothing_two_targets :
    let w : Workshop := { Workshop.start 1 1 with
      claims :=
        ⟨[⟨⟨1⟩, ⟨⟨1⟩, "a"⟩, "f"⟩, ⟨⟨2⟩, ⟨⟨2⟩, "b"⟩, "g"⟩, ⟨⟨1⟩, ⟨⟨2⟩, "b"⟩, "f"⟩]⟩ }
    (∃ c d, w.claims.Collides ⟨1⟩ ⟨2⟩ "f" c d ∧
      Stops (transferClaims ⟨1⟩ ⟨2⟩ "f") w
        (.flow (.replyProducerReused c.handler.label d.owner)) w) ∧
    ∃ claims, Yields (transferClaims ⟨1⟩ ⟨3⟩ "f") w 2 { w with claims } ∧
      w.claims.Moved ⟨1⟩ ⟨3⟩ "f" claims := by
  intro w
  refine ⟨(transfer_all_or_nothing w ⟨1⟩ ⟨2⟩ "f").2.1 (by decide)
    ⟨⟨⟨1⟩, ⟨⟨2⟩, "b"⟩, "f"⟩, ⟨⟨2⟩, ⟨⟨2⟩, "b"⟩, "g"⟩, by decide, by decide, rfl⟩, ?_⟩
  refine (transfer_all_or_nothing w ⟨1⟩ ⟨3⟩ "f").2.2 (by decide) ?_
  rintro c d ⟨-, hheld, -⟩
  cases hheld

end FlowAssembly
