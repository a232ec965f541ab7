import FlowAssembly.Proofs.Turns

/-!
# Readers

Which endpoints read a channel that the assembler made. A channel is open as
long as it has no reader. A list of components is `Fed` up to what is open
there if every other such channel has one reader in it, and no channel has
two. That goes for a channel by itself, which is open, and it is kept when
lists are put together whose made channels are apart, when an endpoint reads
what is open, and when a channel is registered along with its reader.
-/

namespace FlowAssembly

/-- The key of the channel that it reads from; a reference by name has none. -/
def Endpoint.inputKey? (e : Endpoint) : Option ComponentKey :=
  e.input.channel?.map Channel.key

/-- It reads the channel, and its handler is the one that the channel is bound
to, if any. -/
def Endpoint.Consumes (e : Endpoint) (c : Channel) : Prop :=
  e.input = .channel c ∧ ∀ s ∈ c.subscriber, s = e.handler.subscriber

theorem Endpoint.Consumes.inputKey {e : Endpoint} {c : Channel} (h : e.Consumes c) :
    e.inputKey? = some c.key := by
  rw [inputKey?, h.1]
  rfl

/-- Every made channel among the components has one reader among them, but for
the open ones, which have none. An endpoint reads only what is registered with
it. -/
structure Fed (cs : List Component) (opened : List Channel) : Prop where
  stands : ∀ o ∈ opened, o.key ∈ cs.map Component.key
  genuine : ∀ e, .endpoint e ∈ cs → ∀ k, e.inputKey? = some k →
    k ∈ cs.map Component.key
  read : ∀ c, .channel c ∈ cs → c.isMade = true → (∀ o ∈ opened, o.key ≠ c.key) →
    ∃ e, .endpoint e ∈ cs ∧ e.Consumes c
  once : ∀ c, .channel c ∈ cs → c.isMade = true → ∀ e e', .endpoint e ∈ cs →
    .endpoint e' ∈ cs → e.inputKey? = some c.key → e'.inputKey? = some c.key →
    e.key = e'.key
  unread : ∀ o ∈ opened, ∀ c, .channel c ∈ cs → c.isMade = true → c.key = o.key →
    c = o ∧ ∀ e, .endpoint e ∈ cs → e.inputKey? ≠ some c.key

namespace Fed

variable {cs cs' : List Component} {opened opened' : List Channel} {c : Channel}
  {e : Endpoint}

theorem nil : Fed [] [] where
  stands _ ho := absurd ho List.not_mem_nil
  genuine _ he := absurd he List.not_mem_nil
  read _ hc := absurd hc List.not_mem_nil
  once _ hc := absurd hc List.not_mem_nil
  unread _ ho := absurd ho List.not_mem_nil

/-- A channel by itself is open. -/
theorem single (c : Channel) : Fed [.channel c] [c] where
  stands o ho := by
    obtain rfl := List.mem_singleton.1 ho
    exact List.mem_singleton_self _
  genuine e he := by cases List.mem_singleton.1 he
  read c' hc' _ hopen := by
    cases List.mem_singleton.1 hc'
    exact absurd rfl (hopen c (List.mem_singleton_self c))
  once c' _ _ e e' he := by cases List.mem_singleton.1 he
  unread o ho c' hc' _ _ := by
    obtain rfl := List.mem_singleton.1 ho
    cases List.mem_singleton.1 hc'
    exact ⟨rfl, fun e he => by cases List.mem_singleton.1 he⟩

theorem source (s : Source) : Fed [.source s] [] where
  stands _ ho := absurd ho List.not_mem_nil
  genuine e he := by cases List.mem_singleton.1 he
  read c hc := by cases List.mem_singleton.1 hc
  once c hc := by cases List.mem_singleton.1 hc
  unread _ ho := absurd ho List.not_mem_nil

/-- Outputs make no difference, and neither does what is registered besides
under keys that are there. -/
theorem transport (h : Fed cs opened)
    (hk : ∀ k, k ∈ cs'.map Component.key ↔ k ∈ cs.map Component.key)
    (hc : ∀ c, .channel c ∈ cs' → c.isMade = true → .channel c ∈ cs)
    (he : ∀ e, .endpoint e ∈ cs' → ∃ e₀, .endpoint e₀ ∈ cs ∧ e₀.key = e.key ∧
      e₀.input = e.input)
    (he' : ∀ e, .endpoint e ∈ cs → ∃ e₀, .endpoint e₀ ∈ cs' ∧ e₀.input = e.input ∧
      e₀.handler = e.handler) :
    Fed cs' opened where
  stands o ho := (hk _).2 (h.stands o ho)
  genuine e hm k hinput := by
    obtain ⟨e₀, hm₀, -, hi⟩ := he e hm
    exact (hk k).2 (h.genuine e₀ hm₀ k (by rwa [Endpoint.inputKey?, hi]))
  read c hm hmade hopen := by
    obtain ⟨e, hm, hi, hs⟩ := h.read c (hc c hm hmade) hmade hopen
    obtain ⟨e₀, hm₀, hi₀, hh₀⟩ := he' e hm
    exact ⟨e₀, hm₀, hi₀.trans hi, hh₀ ▸ hs⟩
  once c hm hmade e₁ e₂ hm₁ hm₂ hi₁ hi₂ := by
    obtain ⟨e₃, hm₃, hk₃, hi₃⟩ := he e₁ hm₁
    obtain ⟨e₄, hm₄, hk₄, hi₄⟩ := he e₂ hm₂
    rw [← hk₃, ← hk₄]
    exact h.once c (hc c hm hmade) hmade e₃ e₄ hm₃ hm₄
      (by rwa [Endpoint.inputKey?, hi₃]) (by rwa [Endpoint.inputKey?, hi₄])
  unread o ho c hm hmade hkey := by
    obtain ⟨heq, hno⟩ := h.unread o ho c (hc c hm hmade) hmade hkey
    refine ⟨heq, fun e hm => ?_⟩
    obtain ⟨e₀, hm₀, -, hi⟩ := he e hm
    have hne := hno e₀ hm₀
    rwa [Endpoint.inputKey?, hi] at hne

/-- Nothing that counts is lost where parts become a whole. -/
theorem condense (h : Fed cs opened) (hc : Condenses cs cs')
    (hclear : Clear Channel.isMade cs) : Fed cs' opened :=
  h.transport (fun _ => hc.mem_keys_iff)
    (fun c hm hmade => (hc.mem_iff hclear (c := .channel c) hmade).1 hm)
    (fun e hm => ⟨e, (hc.mem_iff hclear (c := .endpoint e) rfl).1 hm, rfl, rfl⟩)
    fun e hm => ⟨e, (hc.mem_iff hclear (c := .endpoint e) rfl).2 hm, rfl, rfl⟩

/-- What stands apart is fed apart. -/
theorem append (h : Fed cs opened) (h' : Fed cs' opened')
    (hclear : Clear Channel.isMade (cs ++ cs')) :
    Fed (cs ++ cs') (opened ++ opened') := by
  -- A made channel that stands on one side is nothing to the other.
  have hapart : ∀ {c}, .channel c ∈ cs ++ cs' → c.isMade = true →
      c.key ∈ cs.map Component.key →
      c.key ∉ cs'.map Component.key :=
    fun hm hmade hk hk' => hclear.shared (.refl _) hk hk' _ hm hmade rfl
  have hleft : ∀ {c}, .channel c ∈ cs → c.isMade = true →
      c.key ∉ cs'.map Component.key :=
    fun hm hmade =>
      hapart (List.mem_append_left _ hm) hmade (List.mem_map_of_mem hm)
  have hright : ∀ {c}, .channel c ∈ cs' → c.isMade = true →
      c.key ∉ cs.map Component.key :=
    fun hm hmade hk =>
      hapart (List.mem_append_right _ hm) hmade hk (List.mem_map_of_mem hm)
  refine ⟨fun o ho => ?_, fun e hm k hi => ?_, fun c hm hmade hopen => ?_,
    fun c hm hmade e₁ e₂ hm₁ hm₂ hi₁ hi₂ => ?_, fun o ho c hm hmade hkey => ?_⟩
  · rw [List.map_append, List.mem_append]
    exact (List.mem_append.1 ho).imp (h.stands o) (h'.stands o)
  · rw [List.map_append, List.mem_append]
    exact (List.mem_append.1 hm).imp (fun hm => h.genuine e hm k hi)
      (fun hm => h'.genuine e hm k hi)
  · rcases List.mem_append.1 hm with hm | hm
    · obtain ⟨e, he, hcons⟩ :=
        h.read c hm hmade fun o ho => hopen o (List.mem_append_left _ ho)
      exact ⟨e, List.mem_append_left _ he, hcons⟩
    · obtain ⟨e, he, hcons⟩ :=
        h'.read c hm hmade fun o ho => hopen o (List.mem_append_right _ ho)
      exact ⟨e, List.mem_append_right _ he, hcons⟩
  · rcases List.mem_append.1 hm with hm | hm
    · have hin : ∀ e, .endpoint e ∈ cs ++ cs' → e.inputKey? = some c.key →
          .endpoint e ∈ cs :=
        fun e he hi =>
          (List.mem_append.1 he).resolve_right fun he =>
            hleft hm hmade (h'.genuine e he _ hi)
      exact h.once c hm hmade e₁ e₂ (hin e₁ hm₁ hi₁) (hin e₂ hm₂ hi₂) hi₁ hi₂
    · have hin : ∀ e, .endpoint e ∈ cs ++ cs' → e.inputKey? = some c.key →
          .endpoint e ∈ cs' :=
        fun e he hi =>
          (List.mem_append.1 he).resolve_left fun he =>
            hright hm hmade (h.genuine e he _ hi)
      exact h'.once c hm hmade e₁ e₂ (hin e₁ hm₁ hi₁) (hin e₂ hm₂ hi₂) hi₁ hi₂
  · rcases List.mem_append.1 hm with hm | hm
    · have ho : o ∈ opened := (List.mem_append.1 ho).resolve_right fun ho =>
        hleft hm hmade (hkey ▸ h'.stands o ho)
      obtain ⟨heq, hno⟩ := h.unread o ho c hm hmade hkey
      refine ⟨heq, fun e he hi => ?_⟩
      rcases List.mem_append.1 he with he | he
      · exact hno e he hi
      · exact hleft hm hmade (h'.genuine e he _ hi)
    · have ho : o ∈ opened' := (List.mem_append.1 ho).resolve_left fun ho =>
        hright hm hmade (hkey ▸ h.stands o ho)
      obtain ⟨heq, hno⟩ := h'.unread o ho c hm hmade hkey
      refine ⟨heq, fun e he hi => ?_⟩
      rcases List.mem_append.1 he with he | he
      · exact hright hm hmade (h.genuine e he _ hi)
      · exact hno e he hi

/-- What is open counts by its keys, and only where a made channel has one. -/
theorem reopen (h : Fed cs opened) (hs : opened' ⊆ opened)
    (ho : ∀ o ∈ opened, (∃ p ∈ opened', p.key = o.key) ∨
      ∀ c, .channel c ∈ cs → c.isMade = true → c.key ≠ o.key) :
    Fed cs opened' where
  stands o hm := h.stands o (hs hm)
  genuine := h.genuine
  read c hm hmade hopen := by
    refine h.read c hm hmade fun o hin hk => ?_
    rcases ho o hin with ⟨p, hp, hkey⟩ | hno
    · exact hopen p hp (hkey.trans hk)
    · exact hno c hm hmade hk.symm
  once := h.once
  unread o hm := h.unread o (hs hm)

theorem channel_of_mem_snoc (h : .channel c ∈ cs ++ [Component.endpoint e]) :
    .channel c ∈ cs :=
  (List.mem_append.1 h).resolve_right fun h => by cases List.mem_singleton.1 h

theorem endpoint_of_mem_snoc {e' : Endpoint}
    (h : .endpoint e' ∈ cs ++ [Component.endpoint e]) :
    .endpoint e' ∈ cs ∨ e' = e :=
  (List.mem_append.1 h).imp_right fun h =>
    Component.endpoint.inj (List.mem_singleton.1 h)

theorem perm (h : Fed cs opened) (hp : opened.Perm opened') : Fed cs opened' :=
  h.reopen hp.symm.subset fun o ho => .inl ⟨o, hp.subset ho, rfl⟩

/-- An endpoint that reads a name is nothing to any channel. -/
theorem named (h : Fed cs opened) (hi : e.inputKey? = none) :
    Fed (cs ++ [.endpoint e]) opened := by
  have hin : ∀ {e' : Endpoint} {k}, Component.endpoint e' ∈ cs ++ [.endpoint e] →
      e'.inputKey? = some k →
      Component.endpoint e' ∈ cs := by
    intro e' k hm hk
    refine (endpoint_of_mem_snoc hm).resolve_right ?_
    rintro rfl
    rw [hi] at hk
    cases hk
  have hkeys :
      cs.map Component.key ⊆ (cs ++ [Component.endpoint e]).map Component.key :=
    List.map_subset _ (List.subset_append_left _ _)
  refine ⟨fun o ho => hkeys (h.stands o ho),
    fun e' hm k hk => hkeys (h.genuine e' (hin hm hk) k hk),
    fun c hm hmade hopen => ?_, fun c hm hmade e₁ e₂ hm₁ hm₂ hi₁ hi₂ => ?_,
    fun o ho c hm hmade hkey => ?_⟩
  · obtain ⟨e', he', hcons⟩ := h.read c (channel_of_mem_snoc hm) hmade hopen
    exact ⟨e', List.mem_append_left _ he', hcons⟩
  · exact h.once c (channel_of_mem_snoc hm) hmade e₁ e₂ (hin hm₁ hi₁)
      (hin hm₂ hi₂) hi₁ hi₂
  · obtain ⟨heq, hno⟩ := h.unread o ho c (channel_of_mem_snoc hm) hmade hkey
    exact ⟨heq, fun e' hm' hk => hno e' (hin hm' hk) hk⟩

/-- An endpoint that reads an open channel closes it. -/
theorem close (h : Fed cs opened) (hp : opened.Perm (c :: opened'))
    (hi : e.input = .channel c)
    (hs : c.isMade = true → ∀ s ∈ c.subscriber, s = e.handler.subscriber)
    (hapart : ∀ p ∈ opened', p.key = c.key → ∀ c', .channel c' ∈ cs →
      c'.isMade = true → c'.key ≠ c.key) :
    Fed (cs ++ [.endpoint e]) opened' := by
  have hopen : c ∈ opened := hp.symm.subset List.mem_cons_self
  have hrest : ∀ p ∈ opened', p ∈ opened :=
    fun p hp' => hp.symm.subset (List.mem_cons_of_mem _ hp')
  have hinput : e.inputKey? = some c.key := by
    rw [Endpoint.inputKey?, hi]
    rfl
  have hkeys :
      cs.map Component.key ⊆ (cs ++ [Component.endpoint e]).map Component.key :=
    List.map_subset _ (List.subset_append_left _ _)
  have hother : ∀ {e' : Endpoint} {k}, Component.endpoint e' ∈ cs ++ [.endpoint e] →
      e'.inputKey? = some k → k ≠ c.key →
      Component.endpoint e' ∈ cs := by
    intro e' k hm hk hne
    refine (endpoint_of_mem_snoc hm).resolve_right ?_
    rintro rfl
    rw [hinput] at hk
    exact hne (Option.some.inj hk).symm
  refine ⟨fun p hp' => hkeys (h.stands p (hrest p hp')), fun e' hm k hk => hkeys ?_,
    fun c' hm hmade hclosed => ?_, fun c' hm hmade e₁ e₂ hm₁ hm₂ hi₁ hi₂ => ?_,
    fun p hp' c' hm hmade hkey => ?_⟩
  · by_cases hkc : k = c.key
    · exact hkc ▸ h.stands c hopen
    · exact h.genuine e' (hother hm hk hkc) k hk
  · have hm := channel_of_mem_snoc hm
    by_cases hkc : c'.key = c.key
    · obtain ⟨rfl, -⟩ := h.unread c hopen c' hm hmade hkc
      exact ⟨e, List.mem_append_right _ (List.mem_singleton_self _), hi, hs hmade⟩
    · obtain ⟨e', he', hcons⟩ := h.read c' hm hmade fun o ho => by
        rcases List.mem_cons.1 (hp.subset ho) with rfl | ho
        · exact Ne.symm hkc
        · exact hclosed o ho
      exact ⟨e', List.mem_append_left _ he', hcons⟩
  · have hm := channel_of_mem_snoc hm
    by_cases hkc : c'.key = c.key
    · have hno := (h.unread c hopen c' hm hmade hkc).2
      have hnew : ∀ e', .endpoint e' ∈ cs ++ [Component.endpoint e] →
          e'.inputKey? = some c'.key → e' = e :=
        fun e' hm' hk => (endpoint_of_mem_snoc hm').resolve_left fun hm' =>
          hno e' hm' hk
      rw [hnew e₁ hm₁ hi₁, hnew e₂ hm₂ hi₂]
    · exact h.once c' hm hmade e₁ e₂ (hother hm₁ hi₁ hkc)
        (hother hm₂ hi₂ hkc) hi₁ hi₂
  · have hm := channel_of_mem_snoc hm
    obtain ⟨heq, hno⟩ := h.unread p (hrest p hp') c' hm hmade hkey
    refine ⟨heq, fun e' hm' hk => hno e' (hother hm' hk fun hkc => ?_) hk⟩
    exact hapart p hp' (hkey.symm.trans hkc) c' hm hmade hkc

/-- A channel that is registered with its reader is never open. -/
theorem pass (h : Fed cs opened)
    (hclear : Clear Channel.isMade (cs ++ ([.channel c] ++ [.endpoint e])))
    (hi : e.input = .channel c)
    (hs : c.isMade = true → ∀ s ∈ c.subscriber, s = e.handler.subscriber) :
    Fed (cs ++ ([.channel c] ++ [.endpoint e])) opened := by
  rw [← List.append_assoc] at hclear ⊢
  have hclear := (Clear.append_iff.1 hclear).1
  refine (h.append (single c) hclear).close List.perm_append_comm hi hs
    fun p hp hk c' hm hmade => ?_
  have hstands := h.stands p hp
  rw [hk] at hstands
  exact hclear.shared (.refl _) hstands (List.mem_singleton_self c.key) _ hm hmade

/-- A channel of the caller's needs no reader. -/
theorem idle (h : Fed cs opened)
    (hclear : Clear Channel.isMade (cs ++ [.channel c])) (hc : c.isMade = false) :
    Fed (cs ++ [.channel c]) opened := by
  refine (h.append (single c) hclear).reopen (List.subset_append_left _ _)
    fun o ho => ?_
  rcases List.mem_append.1 ho with ho | ho
  · exact .inl ⟨o, ho, rfl⟩
  · obtain rfl := List.mem_singleton.1 ho
    refine .inr fun c' hm hmade hk => ?_
    rcases List.mem_append.1 hm with hm | hm
    · exact (Clear.append_iff.1 hclear).2.2 _ hm _ (List.mem_singleton_self _)
        (.inl hmade) hk
    · cases List.mem_singleton.1 hm
      rw [hc] at hmade
      cases hmade

end Fed

end FlowAssembly
