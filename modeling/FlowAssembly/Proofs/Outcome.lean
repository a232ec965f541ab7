import FlowAssembly.Builder.Basic
import Mathlib.Data.List.Forall2

/-!
# What a step of assembly comes to

A step of assembly starts from a workshop and ends in one, and either answers
or fails on the way. Two judgments cover both ends: `Yields` says that a step
answers, with which value and in which workshop, and `Leaves` relates the
workshops before and after a step whatever came of it. A third, `Fails`, tells
the cause where a step fails. A chain of steps is taken apart by the rule of
`bind` for each; nothing below a primitive of the workshop is unfolded
anywhere else.

Dropping a builder on failure is invisible to `Yields`: a guarded call answers
exactly where the call does.
-/

namespace FlowAssembly

namespace Assembly

variable {α β : Type}

/-- What comes of a step: its answer or its failure, and the workshop that it
leaves. -/
def outcome (m : Assembly α) (w : Workshop) : Except Refusal α × Workshop :=
  StateT.run (ExceptT.run m) w

/-- The step answers `a` from the workshop `w`, and leaves `w'`. -/
def Yields (m : Assembly α) (w : Workshop) (a : α) (w' : Workshop) : Prop :=
  m.outcome w = (.ok a, w')

/-- The relation holds between the workshops before and after the step,
whether it answers or fails. -/
def Leaves (m : Assembly α) (P : Workshop → Workshop → Prop) : Prop :=
  ∀ w, P w (m.outcome w).2

theorem Leaves.of_yields {m : Assembly α} {P : Workshop → Workshop → Prop}
    (hm : m.Leaves P) {w w' : Workshop} {a : α} (h : Yields m w a w') : P w w' := by
  have hP := hm w
  rw [h] at hP
  exact hP

/-- A step is seen to answer by evaluating it, and so is anything that is
computed from the answer and the workshop that it leaves. -/
theorem exists_yields_in {m : Assembly α} {f : α → Workshop → β} {w : Workshop}
    {y : β} (h : (m.outcome w).1.toOption.map (f · (m.outcome w).2) = some y) :
    ∃ a w', Yields m w a w' ∧ f a w' = y := by
  unfold Yields
  match m.outcome w, h with
  | (.ok a, w'), h => exact ⟨a, w', rfl, Option.some.inj h⟩

theorem exists_yields {m : Assembly α} {f : α → β} {w : Workshop} {y : β}
    (h : (m.outcome w).1.toOption.map f = some y) :
    ∃ a w', Yields m w a w' ∧ f a = y :=
  exists_yields_in h

/-! ## Chains -/

@[simp]
theorem yields_pure {a b : α} {w w' : Workshop} : Yields (pure a) w b w' ↔
      b = a ∧ w' = w := by
  constructor
  · intro h
    have h : ((Except.ok a : Except Refusal α), w) = (.ok b, w') := h
    cases h
    exact ⟨rfl, rfl⟩
  · rintro ⟨rfl, rfl⟩
    rfl

theorem outcome_bind (m : Assembly α) (f : α → Assembly β) (w : Workshop) :
    (m >>= f).outcome w =
      match m.outcome w with
      | (.ok a, w₁) => (f a).outcome w₁
      | (.error cause, w₁) => (.error cause, w₁) := by
  unfold outcome ExceptT.run StateT.run
  simp only [bind, ExceptT.bind, ExceptT.mk, StateT.bind, ExceptT.bindCont]
  cases m w with
  | mk result w₁ => cases result <;> rfl

@[simp]
theorem yields_bind {m : Assembly α} {f : α → Assembly β} {w w' : Workshop}
    {b : β} :
    Yields (m >>= f) w b w' ↔ ∃ a w₁, Yields m w a w₁ ∧ Yields (f a) w₁ b w' := by
  unfold Yields
  rw [outcome_bind]
  constructor
  · intro h
    split at h
    · next a w₁ hm => exact ⟨a, w₁, hm, h⟩
    · next cause w₁ hm => cases h
  · rintro ⟨a, w₁, hm, hf⟩
    rw [hm]
    exact hf

@[simp]
theorem yields_map {m : Assembly α} {f : α → β} {w w' : Workshop} {b : β} :
    Yields (f <$> m) w b w' ↔ ∃ a, Yields m w a w' ∧ b = f a := by
  rw [map_eq_pure_bind, yields_bind]
  constructor
  · rintro ⟨a, w₁, hm, hf⟩
    obtain ⟨rfl, rfl⟩ := yields_pure.1 hf
    exact ⟨a, hm, rfl⟩
  · rintro ⟨a, hm, rfl⟩
    exact ⟨a, w', hm, yields_pure.2 ⟨rfl, rfl⟩⟩

/-- The step answers on each value of a list in turn, the workshop passed
along. -/
inductive YieldsAll (f : α → Assembly β) : Workshop → List α → List β →
    Workshop → Prop
  | nil (w : Workshop) : YieldsAll f w [] [] w
  | cons {w w₁ w' : Workshop} {a : α} {b : β} {as : List α} {bs : List β} :
      Yields (f a) w b w₁ → YieldsAll f w₁ as bs w' →
      YieldsAll f w (a :: as) (b :: bs) w'

theorem yieldsAll_of_mapM {f : α → Assembly β} {as : List α} {bs : List β}
    {w w' : Workshop} (h : Yields (as.mapM f) w bs w') :
    YieldsAll f w as bs w' := by
  induction as generalizing bs w with
  | nil =>
      obtain ⟨rfl, rfl⟩ := yields_pure.1 h
      exact .nil _
  | cons a as ih =>
      rw [List.mapM_cons] at h
      simp only [yields_bind, yields_pure] at h
      obtain ⟨b, w₁, hb, bs, w₂, hbs, rfl, rfl⟩ := h
      exact .cons hb (ih hbs)

theorem YieldsAll.mapM {f : α → Assembly β} {as : List α} {bs : List β}
    {w w' : Workshop} (h : YieldsAll f w as bs w') :
    Yields (as.mapM f) w bs w' := by
  induction h with
  | nil w => exact yields_pure.2 ⟨rfl, rfl⟩
  | cons hb _ ih =>
      rw [List.mapM_cons]
      exact yields_bind.2
        ⟨_, _, hb, yields_bind.2 ⟨_, _, ih, yields_pure.2 ⟨rfl, rfl⟩⟩⟩

/-- Steps that are the same one by one are the same in a row. -/
theorem mapM_eq_mapM {γ : Type} {f : α → Assembly γ} {g : β → Assembly γ}
    {as : List α} {bs : List β} (h : List.Forall₂ (fun a b => f a = g b) as bs) :
    as.mapM f = bs.mapM g := by
  induction h with
  | nil => rfl
  | cons ha _ ih => rw [List.mapM_cons, List.mapM_cons, ha, ih]

theorem YieldsAll.length_eq {f : α → Assembly β} {as : List α} {bs : List β}
    {w w' : Workshop} (h : YieldsAll f w as bs w') : bs.length = as.length := by
  induction h with
  | nil => rfl
  | cons _ _ ih => rw [List.length_cons, List.length_cons, ih]

theorem YieldsAll.of_cons {f : α → Assembly β} {a : α} {as : List α} {bs : List β}
    {w w' : Workshop} (h : YieldsAll f w (a :: as) bs w') :
    ∃ b bs' w₁, bs = b :: bs' ∧ Yields (f a) w b w₁ ∧ YieldsAll f w₁ as bs' w' := by
  cases h with
  | cons hy hys => exact ⟨_, _, _, rfl, hy, hys⟩

theorem YieldsAll.of_append {f : α → Assembly β} {as₁ as₂ : List α} {bs : List β}
    {w w' : Workshop} (h : YieldsAll f w (as₁ ++ as₂) bs w') :
    ∃ bs₁ bs₂ w₁, bs = bs₁ ++ bs₂ ∧ YieldsAll f w as₁ bs₁ w₁ ∧
      YieldsAll f w₁ as₂ bs₂ w' := by
  induction as₁ generalizing w bs with
  | nil => exact ⟨[], bs, w, rfl, .nil w, h⟩
  | cons a as₁ ih =>
      cases h with
      | @cons _ w₁ _ _ b _ bs hy hrest =>
          obtain ⟨bs₁, bs₂, w₂, rfl, h₁, h₂⟩ := ih hrest
          exact ⟨b :: bs₁, bs₂, w₂, rfl, .cons hy h₁, h₂⟩

@[simp]
theorem not_yields_throw {cause : Refusal} {w w' : Workshop} {a : α} :
    ¬ Yields (throw cause) w a w' := by
  intro h
  have h : ((Except.error cause : Except Refusal α), w) = (.ok a, w') := h
  cases h

@[simp]
theorem not_yields_fail {cause : FlowError} {w w' : Workshop} {a : α} :
    ¬ Yields (fail cause) w a w' := not_yields_throw

theorem outcome_tryCatch (m : Assembly α) (handle : Refusal → Assembly α)
    (w : Workshop) :
    (tryCatch m handle).outcome w =
      match m.outcome w with
      | (.ok a, w₁) => (.ok a, w₁)
      | (.error cause, w₁) => (handle cause).outcome w₁ := by
  unfold outcome ExceptT.run StateT.run
  simp only [tryCatch, tryCatchThe, MonadExceptOf.tryCatch, ExceptT.tryCatch,
    ExceptT.mk, bind, StateT.bind]
  cases m w with
  | mk result w₁ => cases result <;> rfl

/-! ## What a step leaves, whatever comes of it -/

namespace Leaves

variable {P Q : Workshop → Workshop → Prop}

theorem mono {m : Assembly α} (hm : m.Leaves P) (h : ∀ {w w'}, P w w' → Q w w') :
    m.Leaves Q :=
  fun w => h (hm w)

theorem pure [Std.Refl P] (a : α) : Leaves (pure a) P := fun w => Std.Refl.refl w

theorem throw [Std.Refl P] (cause : Refusal) :
    Leaves (throw cause : Assembly α) P :=
  fun w => Std.Refl.refl w

theorem fail [Std.Refl P] (cause : FlowError) :
    Leaves (fail cause : Assembly α) P :=
  throw _

theorem bind [Trans P P P] {m : Assembly α} {f : α → Assembly β} (hm : m.Leaves P)
    (hf : ∀ {w a w₁}, Yields m w a w₁ → (f a).Leaves P) : Leaves (m >>= f) P := by
  intro w
  rw [outcome_bind]
  have h := hm w
  split
  · next a w₁ hr =>
      rw [hr] at h
      exact Trans.trans h (hf hr w₁)
  · next cause w₁ hr =>
      rw [hr] at h
      exact h

theorem map [Std.Refl P] [Trans P P P] {m : Assembly α} {f : α → β}
    (hm : m.Leaves P) :
    Leaves (f <$> m) P := by
  rw [map_eq_pure_bind]
  exact bind hm fun _ => pure _

theorem mapM [Std.Refl P] [Trans P P P] {f : α → Assembly β} {l : List α}
    (hf : ∀ a ∈ l, (f a).Leaves P) : Leaves (l.mapM f) P := by
  induction l with
  | nil => exact pure []
  | cons a l ih =>
      rw [List.mapM_cons]
      refine bind (hf a List.mem_cons_self) fun _ => bind ?_ fun _ => pure _
      exact ih fun b hb => hf b (List.mem_cons_of_mem a hb)

theorem tryCatch [Trans P P P] {m : Assembly α} {handle : Refusal → Assembly α}
    (hm : m.Leaves P) (hh : ∀ cause, (handle cause).Leaves P) :
    Leaves (tryCatch m handle) P := by
  intro w
  rw [outcome_tryCatch]
  have h := hm w
  split
  · next a w₁ hr =>
      rw [hr] at h
      exact h
  · next cause w₁ hr =>
      rw [hr] at h
      exact Trans.trans h (hh cause w₁)

end Leaves

/-! ## The primitives of the workshop -/

@[simp]
theorem yields_newComponentKey {w w' : Workshop} {key : ComponentKey} :
    Yields newComponentKey w key w' ↔
      key = ⟨w.nextComponent⟩ ∧
      w' = { w with nextComponent := w.nextComponent + 1 } := by
  constructor
  · intro h
    cases h
    exact ⟨rfl, rfl⟩
  · rintro ⟨rfl, rfl⟩
    rfl

@[simp]
theorem yields_newHandler {behaviour : Behaviour} {w w' : Workshop}
    {handler : Handler} :
    Yields (newHandler behaviour) w handler w' ↔
      handler = ⟨⟨w.nextHandler⟩, behaviour⟩ ∧
      w' = { w with nextHandler := w.nextHandler + 1 } := by
  constructor
  · intro h
    cases h
    exact ⟨rfl, rfl⟩
  · rintro ⟨rfl, rfl⟩
    rfl

@[simp]
theorem yields_newSession {w w' : Workshop} {session : SessionId} :
    Yields newSession w session w' ↔
      session = ⟨w.nextSession⟩ ∧
      w' = { w with nextSession := w.nextSession + 1 } := by
  constructor
  · intro h
    cases h
    exact ⟨rfl, rfl⟩
  · rintro ⟨rfl, rfl⟩
    rfl

@[simp]
theorem yields_newFlowId {config : Config} {w w' : Workshop} {id : String} :
    Yields (newFlowId config) w id w' ↔
      id = config.flowId w.nextFlow ∧
      w' = { w with nextFlow := w.nextFlow + 1 } := by
  constructor
  · intro h
    cases h
    exact ⟨rfl, rfl⟩
  · rintro ⟨rfl, rfl⟩
    rfl

@[simp]
theorem yields_get {w w' state : Workshop} :
    Yields (get : Assembly Workshop) w state w' ↔ state = w ∧ w' = w := by
  constructor
  · intro h
    cases h
    exact ⟨rfl, rfl⟩
  · rintro ⟨rfl, rfl⟩
    rfl

@[simp]
theorem yields_set {state w w' : Workshop} {u : PUnit} : Yields (set state) w u w' ↔
      w' = state := by
  constructor
  · intro h
    have h : ((Except.ok u : Except Refusal PUnit), state) = (.ok u, w') := h
    cases h
    rfl
  · rintro rfl
    rfl

@[simp]
theorem yields_modify {f : Workshop → Workshop} {w w' : Workshop} {u : PUnit} :
    Yields (modify f : Assembly PUnit) w u w' ↔ w' = f w := by
  constructor
  · intro h
    cases h
    rfl
  · rintro rfl
    rfl

@[simp]
theorem yields_implicitChannel {w w' : Workshop} {c : Channel} :
    Yields implicitChannel w c w' ↔
      c = ⟨⟨w.nextComponent⟩, none, .direct, [], true, none⟩ ∧
        w' = { w with nextComponent := w.nextComponent + 1 } := by
  simp only [implicitChannel, yields_bind, yields_newComponentKey, yields_pure]
  constructor
  · rintro ⟨key, w₁, ⟨rfl, rfl⟩, rfl, rfl⟩
    exact ⟨rfl, rfl⟩
  · rintro ⟨rfl, rfl⟩
    exact ⟨_, _, ⟨rfl, rfl⟩, rfl, rfl⟩

@[simp]
theorem yields_boundChannel {id : Option String} {handler : Handler}
    {w w' : Workshop} {c : Channel} :
    Yields (boundChannel id handler) w c w' ↔
      c = ⟨⟨w.nextComponent⟩, id, .fixedSubscriber, [], false,
        some handler.subscriber⟩ ∧
      w' = { w with nextComponent := w.nextComponent + 1 } := by
  simp only [boundChannel, yields_bind, yields_newComponentKey, yields_pure]
  constructor
  · rintro ⟨key, w₁, ⟨rfl, rfl⟩, rfl, rfl⟩
    exact ⟨rfl, rfl⟩
  · rintro ⟨rfl, rfl⟩
    exact ⟨_, _, ⟨rfl, rfl⟩, rfl, rfl⟩

@[simp]
theorem yields_explicitChannel {kind : ChannelKind} {id : Option String}
    {datatypes : List String} {w w' : Workshop} {c : Channel} :
    Yields (explicitChannel kind id datatypes) w c w' ↔
      c = ⟨⟨w.nextComponent⟩, id, kind, datatypes, false, none⟩ ∧
      w' = { w with nextComponent := w.nextComponent + 1 } := by
  simp only [explicitChannel, yields_bind, yields_newComponentKey, yields_pure]
  constructor
  · rintro ⟨key, w₁, ⟨rfl, rfl⟩, rfl, rfl⟩
    exact ⟨rfl, rfl⟩
  · rintro ⟨rfl, rfl⟩
    exact ⟨_, _, ⟨rfl, rfl⟩, rfl, rfl⟩

@[simp]
theorem yields_attach {channel : Channel} {interceptor : Interceptor}
    {w w' : Workshop} {u : Unit} :
    Yields (attach channel interceptor) w u w' ↔
      w' = { w with attached := w.attached ++ [(channel.key, interceptor)] } :=
  yields_modify

@[simp]
theorem yields_addInterceptor {channel : Channel} {interceptor : Interceptor}
    {w w' : Workshop} {u : Unit} :
    Yields (addInterceptor channel interceptor) w u w' ↔
      channel.supportsInterceptors = true ∧
      w' = { w with attached := w.attached ++ [(channel.key, interceptor)] } := by
  unfold addInterceptor
  split
  · next h => simp [h]
  · next h => simp [h]

@[simp]
theorem yields_ensure {check : Except FlowError Unit} {w w' : Workshop} {u : Unit} :
    Yields (ensure check) w u w' ↔ check = .ok () ∧ w' = w := by
  cases check with
  | ok _ => simp [ensure]
  | error cause => simp [ensure]

@[simp]
theorem yields_updateClaims {change : ClaimBook → Except FlowError ClaimBook}
    {w w' : Workshop} {u : Unit} :
    Yields (updateClaims change) w u w' ↔
      ∃ claims, change w.claims = .ok claims ∧ w' = { w with claims } := by
  simp only [updateClaims, yields_bind, yields_get]
  constructor
  · rintro ⟨state, w₁, ⟨rfl, rfl⟩, h⟩
    split at h
    · next claims hc => exact ⟨claims, hc, yields_modify.1 h⟩
    · next cause hc => exact absurd h not_yields_fail
  · rintro ⟨claims, hc, rfl⟩
    refine ⟨w, w, ⟨rfl, rfl⟩, ?_⟩
    rw [hc]
    exact yields_modify.2 rfl

theorem updateClaims_leaves {P : Workshop → Workshop → Prop} [Std.Refl P]
    {change : ClaimBook → Except FlowError ClaimBook}
    (hc : ∀ {w claims}, change w.claims = .ok claims → P w { w with claims }) :
    (updateClaims change).Leaves P := by
  intro w
  have hget : (get : Assembly Workshop).outcome w = (.ok w, w) := rfl
  rw [updateClaims, outcome_bind, hget]
  dsimp only
  split
  · next claims h => exact hc h
  · exact Std.Refl.refl w

@[simp]
theorem yields_transferClaims {source target : SessionId} {owner : String}
    {w w' : Workshop} {moved : Nat} :
    Yields (transferClaims source target owner) w moved w' ↔
      (∃ claims, w.claims.transfer source target owner = .ok claims ∧
        w' = { w with claims }) ∧
      moved = if source = target then 0
        else (w.claims.ownedBy source owner).length := by
  simp only [transferClaims, yields_bind, yields_get, yields_updateClaims,
    yields_pure]
  constructor
  · rintro ⟨_, _, ⟨rfl, rfl⟩, _, _, hclaims, rfl, rfl⟩
    exact ⟨hclaims, rfl⟩
  · rintro ⟨hclaims, rfl⟩
    exact ⟨_, _, ⟨rfl, rfl⟩, (), _, hclaims, rfl, rfl⟩

theorem transferClaims_leaves {P : Workshop → Workshop → Prop} [Std.Refl P]
    {source target : SessionId} {owner : String}
    (hc : ∀ {w claims}, w.claims.transfer source target owner = .ok claims →
      P w { w with claims }) :
    (transferClaims source target owner).Leaves P := by
  intro w
  have hget : (get : Assembly Workshop).outcome w = (.ok w, w) := rfl
  have hleft :
      (updateClaims fun book => book.transfer source target owner).Leaves P :=
    updateClaims_leaves hc
  specialize hleft w
  rw [transferClaims, outcome_bind, hget]
  dsimp only
  rw [outcome_bind]
  split
  · next h =>
      rw [h] at hleft
      exact hleft
  · next h =>
      rw [h] at hleft
      exact hleft

@[simp]
theorem yields_release {session : SessionId} {owner : String} {w w' : Workshop}
    {u : Unit} :
    Yields (release session owner) w u w' ↔
      w' = { w with claims := w.claims.release session owner } :=
  yields_modify

/-! ## What a step fails with -/

section

/-- The step fails with the given cause. -/
def Fails (m : Assembly α) (w : Workshop) (cause : Refusal) : Prop :=
  (m.outcome w).1 = .error cause

variable {w : Workshop} {cause : Refusal}

@[simp]
theorem not_fails_pure {a : α} : ¬ Fails (pure a) w cause := nofun

@[simp]
theorem fails_throw {c : Refusal} : Fails (throw c : Assembly α) w cause ↔
      cause = c := by
  constructor
  · intro h
    have h : (Except.error c : Except Refusal α) = .error cause := h
    cases h
    rfl
  · rintro rfl
    rfl

@[simp]
theorem fails_fail {c : FlowError} : Fails (fail c : Assembly α) w cause ↔
      cause = .flow c :=
  fails_throw

@[simp]
theorem fails_bind {m : Assembly α} {f : α → Assembly β} :
    Fails (m >>= f) w cause ↔
      Fails m w cause ∨ ∃ a w₁, Yields m w a w₁ ∧ Fails (f a) w₁ cause := by
  unfold Fails Yields
  rw [outcome_bind]
  match m.outcome w with
  | (.ok a, w₁) =>
      constructor
      · exact fun h => .inr ⟨a, w₁, rfl, h⟩
      · rintro (h | ⟨_, _, h, hf⟩)
        · cases h
        · cases h
          exact hf
  | (.error c, w₁) =>
      constructor
      · intro h
        cases h
        exact .inl rfl
      · rintro (h | ⟨_, _, h, -⟩)
        · cases h
          rfl
        · cases h

@[simp]
theorem fails_ensure {check : Except FlowError Unit} :
    Fails (ensure check) w cause ↔ ∃ c, check = .error c ∧ cause = .flow c := by
  cases check with
  | ok _ => simp [ensure]
  | error c => simp [ensure]

theorem fails_updateClaims {change : ClaimBook → Except FlowError ClaimBook} :
    Fails (updateClaims change) w cause ↔
      ∃ c, change w.claims = .error c ∧ cause = .flow c := by
  have hget : ¬ Fails (get : Assembly Workshop) w cause := nofun
  simp only [updateClaims, fails_bind, yields_get, hget, false_or]
  constructor
  · rintro ⟨state, w₁, ⟨rfl, rfl⟩, h⟩
    split at h
    · cases h
    · next c hc => exact ⟨c, hc, fails_fail.1 h⟩
  · rintro ⟨c, hc, rfl⟩
    refine ⟨w, w, ⟨rfl, rfl⟩, ?_⟩
    rw [hc]
    exact fails_fail.2 rfl

end

end Assembly

namespace Builder

open Assembly

variable {α : Type}

/-- A guarded call answers exactly where the call does. -/
@[simp]
theorem yields_guarded {b : Builder} {call : Assembly α} {w w' : Workshop} {a : α} :
    Yields (b.guarded call) w a w' ↔ Yields call w a w' := by
  unfold Yields guarded
  rw [outcome_tryCatch]
  constructor
  · intro h
    split at h
    · next a₁ w₁ hc => rw [hc, h]
    · next cause w₁ hc =>
        have hb : Yields (b.discard >>= fun _ => throw cause) w₁ a w' := h
        simp at hb
  · intro h
    rw [h]

/-- Dropping a builder does not hide why its call failed. -/
@[simp]
theorem fails_guarded {b : Builder} {call : Assembly α} {w : Workshop}
    {cause : Refusal} :
    Fails (b.guarded call) w cause ↔ Fails call w cause := by
  have hdiscard : ∀ {w} {c cause : Refusal},
      Fails (b.discard >>= fun _ => (throw c : Assembly α)) w cause ↔
        cause = c := by
    intro w c cause
    unfold discard
    split
    · exact fails_throw
    · exact fails_throw
  unfold guarded
  rw [Fails, outcome_tryCatch, Fails]
  match call.outcome w with
  | (.ok a, w₁) => simp
  | (.error c, w₁) =>
      exact hdiscard.trans ⟨fun h => h ▸ rfl, fun h => by cases h; rfl⟩

@[simp]
theorem yields_ensureOpen {b : Builder} {attempted : String} {w w' : Workshop}
    {u : Unit} :
    Yields (b.ensureOpen attempted) w u w' ↔
      (∀ tail ∈ b.cursor.tail, tail.produces = true) ∧ w' = w := by
  unfold ensureOpen
  split
  · next tail ht =>
      split
      · next hp => simp [ht, hp]
      · next hp => simp [ht, hp]
  · next ht => simp [ht]

theorem yields_discard_of_nested {b : Builder} (hn : b.nested = true)
    {w w' : Workshop} {u : Unit} :
    Yields b.discard w u w' ↔ w' = w := by
  simp [discard, hn]

end Builder

end FlowAssembly
