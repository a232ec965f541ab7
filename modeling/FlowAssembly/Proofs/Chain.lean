import FlowAssembly.Proofs.Outputs
import Mathlib.Data.List.Chain

/-!
# The main chain

The source of a flow and the endpoints that its own builder attaches make a
chain, whatever channels, markers, taps and branches lie between the calls:
each is bound to what the next one reads. Which endpoints these are is
computed from each call (`Step.links`), and not taken from a history. The only
gap is behind a router, which sends to its branches by itself; there the next
one is the bridge that reads the channel on which they converged. What comes
last in the chain is always in one of three states: its output is pending, or
it was bound to what the flow stands on, or it never replies.
-/

namespace FlowAssembly

open Assembly

/-- Whether it comes next in the chain. -/
def Link.chained (l : Link) : Bool :=
  l.role != .aside

/-- Whether it is the bridge behind the channel that branches converged on. -/
def Link.merges (l : Link) : Bool :=
  l.role == .merging

/-- The source and the endpoints that the builder at the bottom attached, in
order. -/
def chain (history : List Moment) : List Link :=
  (linksAt 1 history).filter Link.chained

/-- The recipient lists and the gatherers of the scatter-gathers of the
builder at the bottom. -/
def asides (history : List Moment) : List Link :=
  (linksAt 1 history).filter fun l => !l.chained

theorem chain_append (history history' : List Moment) :
    chain (history ++ history') = chain history ++ chain history' := by
  rw [chain, linksAt_append, List.filter_append]
  rfl

theorem asides_append (history history' : List Moment) :
    asides (history ++ history') = asides history ++ asides history' := by
  rw [asides, linksAt_append, List.filter_append]
  rfl

theorem chain_single {d : Desk} {link : Option Link} :
    chain [{ desks := [d], link }] = link.toList.filter Link.chained := by
  cases link <;> rfl

theorem asides_single {d : Desk} {link : Option Link} :
    asides [{ desks := [d], link }] = link.toList.filter fun l => !l.chained := by
  cases link <;> rfl

/-- A moment that tells nothing of the builder at the bottom. -/
theorem chain_beside {m : Moment} (h : m.link = none ∨ m.desks.length ≠ 1) :
    chain [m] = [] := by
  have hnone : m.linkAt 1 = none := by
    rcases h with hlink | hlen
    · rw [Moment.linkAt, hlink, ite_self]
    · exact if_neg hlen
  rw [chain, linksAt, List.filterMap_cons, hnone]
  rfl

/-- What replies is bound to what the next one reads. What does not is a
router, and the next one a merge bridge. -/
inductive Component.Feeds (merges : Bool) (x x' : Component) : Prop
  | output {target : Target} : x.replies = true → x.output? = some target →
      x'.input? = some target → Feeds merges x x'
  | branches {e e' : Endpoint} : x = .endpoint e →
      e.handler.producesReplies = false → e.handler.isRouter = true →
      merges = true → x' = .endpoint e' → e'.handler.behaviour = .bridge →
      Feeds merges x x'

/-- The components of two links stand there, and the first feeds the second. -/
def Follows (cs : List Component) (l l' : Link) : Prop :=
  ∃ x ∈ cs, ∃ x' ∈ cs, x.isWorker = true ∧ x'.isWorker = true ∧ x.key = l.key ∧
    x'.key = l'.key ∧ x.Feeds l'.merges x'

/-- The second is the first, up to an output. -/
def Component.Resembles (x y : Component) : Prop :=
  y = x ∨ ∃ target, y = x.withOutput target

/-- A component becomes another one when a turn gives it the output that it
did not have, if anything. -/
def Component.Becomes (x y : Component) : Prop :=
  y = x ∨ x.replies = true ∧ x.output? = none ∧ ∃ target, y = x.withOutput target

namespace Component

variable {x y x' y' : Component} {merges : Bool}

namespace Resembles

theorem key (h : x.Resembles y) : y.key = x.key := by
  rcases h with rfl | ⟨target, rfl⟩
  · rfl
  · exact key_withOutput target x

theorem isWorker (h : x.Resembles y) : y.isWorker = x.isWorker := by
  rcases h with rfl | ⟨target, rfl⟩
  · rfl
  · exact isWorker_withOutput target x

theorem label (h : x.Resembles y) : y.label = x.label := by
  rcases h with rfl | ⟨target, rfl⟩
  · rfl
  · cases x <;> rfl

theorem replies (h : x.Resembles y) : y.replies = x.replies := by
  rcases h with rfl | ⟨target, rfl⟩
  · rfl
  · exact replies_withOutput target x

end Resembles

theorem Becomes.resembles (h : x.Becomes y) : x.Resembles y :=
  h.imp_right fun h => h.2.2

theorem Becomes.eq_of_output (h : x.Becomes y) {target : Target}
    (ho : x.output? = some target) : y = x := by
  rcases h with rfl | ⟨-, hnone, -⟩
  · rfl
  · rw [ho] at hnone
    cases hnone

theorem Becomes.eq_of_oneWay (h : x.Becomes y) (hr : x.replies = false) :
    y = x := by
  rcases h with rfl | ⟨hreplies, -⟩
  · rfl
  · rw [hr] at hreplies
    cases hreplies

theorem Feeds.becomes (h : x.Feeds merges x') (hx : x.Becomes y)
    (hx' : x'.Becomes y') : y.Feeds merges y' := by
  cases h with
  | output hr ho hi =>
      obtain rfl := hx.eq_of_output ho
      refine .output hr ho ?_
      rcases hx' with rfl | ⟨-, -, target, rfl⟩
      · exact hi
      · rwa [input?_withOutput]
  | @branches e e' he hr hrouter hm he' hb =>
      obtain rfl := hx.eq_of_oneWay (he ▸ hr)
      rcases hx' with rfl | ⟨-, -, target, rfl⟩
      · exact .branches he hr hrouter hm he' hb
      · have hbound :
            x'.withOutput target = .endpoint { e' with output := some target } :=
          he' ▸ rfl
        exact .branches he hr hrouter hm hbound hb

end Component

/-! ## The last of the chain -/

/-- How a component stands at the end of the chain: its output is pending, or
it was bound to what the flow stands on, or it does not reply, and then it is
a router if branches are to converge. -/
inductive Desk.Trails (d : Desk) (x : Component) : Prop
  | pending {output : PendingOutput} : x.replies = true →
      d.builder.cursor.pending = some output → output.component = x.key → Trails d x
  | bound {s : ChannelSource} {target : Target} : x.replies = true →
      d.builder.cursor.pending = none → d.builder.cursor.channel = some s →
      s.target? = some target → x.output? = some target → Trails d x
  | oneWay {e : Endpoint} : x = .endpoint e → e.handler.producesReplies = false →
      ¬ d.builder.Open → (d.merge ≠ none → e.handler.isRouter = true) → Trails d x

/-- The links of a chain stand on a desk, each feeds the next, and the last
one trails. -/
structure Desk.Chained (d : Desk) (links : List Link) : Prop where
  present : ∀ l ∈ links, ∃ x ∈ d.registered, x.isWorker = true ∧ x.key = l.key
  follows : links.IsChain (Follows d.registered)
  last : ∀ l ∈ links.getLast?, ∃ x ∈ d.registered, x.isWorker = true ∧
    x.key = l.key ∧ d.Trails x
  /-- The tail of the builder is what comes last in the chain. -/
  tip : ∀ tail ∈ d.builder.cursor.tail, ∃ l ∈ links.getLast?, ∃ x ∈ d.registered,
    x.isWorker = true ∧ x.key = l.key ∧ x.label = tail.label

section

variable {brought : Channel → Prop} {d d' : Desk} {ds : List Desk} {deal : Deal}
  {links : List Link} {l : Link} {link : Option Link} {m : Moment} {n n' : Nat}

theorem Follows.carry {cs cs' : List Component} {f : Component → Component}
    {l l' : Link} (h : Follows cs l l')
    (hf : ∀ x ∈ cs, x.isWorker = true → f x ∈ cs' ∧ x.Becomes (f x)) :
    Follows cs' l l' := by
  obtain ⟨x, hx, x', hx', hw, hw', hk, hk', hfeeds⟩ := h
  obtain ⟨hm, hb⟩ := hf x hx hw
  obtain ⟨hm', hb'⟩ := hf x' hx' hw'
  exact ⟨f x, hm, f x', hm', hb.resembles.isWorker.trans hw,
    hb'.resembles.isWorker.trans hw', hb.resembles.key.trans hk,
    hb'.resembles.key.trans hk', hfeeds.becomes hb hb'⟩

namespace Desk.Chained

variable {f : Component → Component}

theorem nil (h : d.builder.cursor.tail = none) : d.Chained [] where
  present _ hl := absurd hl List.not_mem_nil
  follows := .nil
  last _ hl := absurd hl (Option.not_mem_none _)
  tip tail hm := by
    rw [h] at hm
    cases hm

/-- What stands there stays, but for an output that is set. -/
theorem carry (h : d.Chained links)
    (hf : ∀ x ∈ d.registered, x.isWorker = true → f x ∈ d'.registered ∧
      x.Becomes (f x))
    (ht : ∀ x, x.Becomes (f x) → d.Trails x → d'.Trails (f x))
    (htail : ∀ tail ∈ d'.builder.cursor.tail, tail ∈ d.builder.cursor.tail) :
    d'.Chained links where
  present l hl := by
    obtain ⟨x, hx, hw, hk⟩ := h.present l hl
    obtain ⟨hm, hb⟩ := hf x hx hw
    exact ⟨f x, hm, hb.resembles.isWorker.trans hw, hb.resembles.key.trans hk⟩
  follows := h.follows.imp fun _ _ hfollows => hfollows.carry hf
  last l hl := by
    obtain ⟨x, hx, hw, hk, htrails⟩ := h.last l hl
    obtain ⟨hm, hb⟩ := hf x hx hw
    exact ⟨f x, hm, hb.resembles.isWorker.trans hw, hb.resembles.key.trans hk,
      ht x hb htrails⟩
  tip tail hmem := by
    obtain ⟨l, hl, x, hx, hw, hk, hlabel⟩ := h.tip tail (htail tail hmem)
    obtain ⟨hm, hb⟩ := hf x hx hw
    exact ⟨l, hl, f x, hm, hb.resembles.isWorker.trans hw,
      hb.resembles.key.trans hk, hb.resembles.label.trans hlabel⟩

/-- One more link: what came last feeds it. -/
theorem snoc (h : d.Chained links)
    (hf : ∀ x ∈ d.registered, x.isWorker = true → f x ∈ d'.registered ∧
      x.Becomes (f x))
    {e : Endpoint} (he : .endpoint e ∈ d'.registered) (hk : e.key = l.key)
    (ht : d'.Trails (.endpoint e))
    (htail : ∀ tail ∈ d'.builder.cursor.tail, tail.label = e.label)
    (hfeeds : ∀ x, x.Becomes (f x) → d.Trails x →
      (f x).Feeds l.merges (.endpoint e)) : d'.Chained (links ++ [l]) := by
  refine ⟨fun l' hl' => ?_, ?_, fun l' hl' => ?_, fun tail hmem => ?_⟩
  · rcases List.mem_append.1 hl' with hl' | hl'
    · obtain ⟨x, hx, hw, hk⟩ := h.present l' hl'
      obtain ⟨hm, hb⟩ := hf x hx hw
      exact ⟨f x, hm, hb.resembles.isWorker.trans hw, hb.resembles.key.trans hk⟩
    · obtain rfl := List.mem_singleton.1 hl'
      exact ⟨_, he, rfl, hk⟩
  · rw [List.isChain_append]
    refine ⟨h.follows.imp fun _ _ hfollows => hfollows.carry hf,
      List.isChain_singleton _, fun last hlast l' hl' => ?_⟩
    obtain rfl : l = l' := by simpa using hl'
    obtain ⟨x, hx, hw, hkx, htrails⟩ := h.last last hlast
    obtain ⟨hm, hb⟩ := hf x hx hw
    exact ⟨f x, hm, _, he, hb.resembles.isWorker.trans hw, rfl,
      hb.resembles.key.trans hkx, hk, hfeeds x hb htrails⟩
  · obtain rfl : l = l' := by simpa using hl'
    exact ⟨_, he, rfl, hk, ht⟩
  · exact ⟨l, by simp, _, he, rfl, hk, (htail tail hmem).symm⟩

end Desk.Chained

/-- What an endpoint or a source becomes in a turn stands behind it. -/
theorem Tidy.becomes {own : Channel → Bool} (h : Tidy own brought (d :: ds) n)
    (he : deal.Explains brought d n d' n') :
    ∀ x ∈ d.registered, x.isWorker = true →
      x.settled deal.bound ∈ d'.registered ∧ x.Becomes (x.settled deal.bound) := by
  intro x hx hw
  have hbecomes : x.Becomes (x.settled deal.bound) := h.settled he hx
  have hmarked : (x.settled deal.bound).marked own = true :=
    Component.marked_of_isWorker (hbecomes.resembles.isWorker.trans hw)
  exact ⟨(h.mem_registered he hmarked).2 (.inl ⟨x, hx, rfl⟩), hbecomes⟩

/-- Where the flow stands as before, what comes last in the chain trails as
before. -/
theorem Desk.Trails.carry {x y : Component} (h : d.Trails x) (hb : x.Becomes y)
    (hc : d'.builder.cursor.channel = d.builder.cursor.channel)
    (ht : d'.builder.cursor.tail = d.builder.cursor.tail)
    (hp : d'.builder.cursor.pending = d.builder.cursor.pending)
    (hm : ¬ d.builder.Open → d'.merge ≠ none → d.merge ≠ none) : d'.Trails y := by
  cases h with
  | pending hr ho hk =>
      exact .pending (hb.resembles.replies.trans hr) (hp.trans ho)
        (hk.trans hb.resembles.key.symm)
  | bound hr ho hs htarget hout =>
      obtain rfl := hb.eq_of_output hout
      exact .bound hr (hp.trans ho) (hc.trans hs) htarget hout
  | @oneWay e he hr hopen hrouter =>
      obtain rfl := hb.eq_of_oneWay (he ▸ hr)
      refine .oneWay he hr ?_ fun hne => hrouter (hm hopen hne)
      rwa [Builder.Open, hc, ht]

theorem Builder.settled_pending {b : Builder} {output : PendingOutput}
    {x : Component} (hp : b.cursor.pending = some output)
    (hk : output.component = x.key) (target : Target) :
    x.settled (b.binding target) = x.withOutput target := by
  rw [binding, hp]
  exact if_pos hk.symm

theorem Component.output_withOutput {x : Component} (h : x.replies = true)
    (target : Target) :
    (x.withOutput target).output? = some target := by
  cases x with
  | channel c => cases h
  | endpoint e => rfl
  | source s => rfl

theorem Desk.chained_append (hd : d.Chained links)
    (htidy : Tidy (fun _ => false) brought (d :: ds) n) {s : ChannelSource}
    {rest : List Channel} (ho : d.builder.Open)
    (hc : d.builder.cursor.channel = none)
    (hp : (d.channels.map Component.channel).Perm
      (Builder.sourceChannels s ++ rest.map Component.channel)) :
    ({ d with builder := d.builder.appended s, channels := rest } : Desk).Chained
      links := by
  refine hd.carry (htidy.becomes (explains_append hp)) (fun x hb ht => ?_) nofun
  cases ht with
  | @pending output hr hpending hk =>
      cases htarget : s.target? with
      | some target =>
          have hx : x.settled ((some target).bind d.builder.binding) =
              x.withOutput target :=
            Builder.settled_pending hpending hk target
          rw [hx]
          exact .bound ((Component.replies_withOutput target x).trans hr)
            (d.builder.pending_appended htarget) (d.builder.channel_appended s)
            htarget (Component.output_withOutput hr target)
      | none =>
          cases s with
          | channel | named => cases htarget
          | fixedSubscriber id => exact .pending hr hpending hk
  | bound _ _ hs =>
      rw [hc] at hs
      cases hs
  | oneWay _ _ hopen => exact absurd ho hopen

/-- The next endpoint reads what the output is bound to, whether that is done
now or was done before. -/
theorem Desk.Trails.feeds {x : Component} (h : d.Trails x) (ho : d.builder.Open)
    {e : Endpoint} {input : ResolvedInput} {channels rest : List Channel}
    (hr : Reads e.handler d.builder.cursor.channel channels input rest)
    (hi : e.input = input.target) (merges : Bool) :
    (x.settled (d.builder.binding input.target)).Feeds merges (.endpoint e) := by
  cases h with
  | @pending output hreplies hpending hk =>
      rw [Builder.settled_pending hpending hk]
      exact .output ((Component.replies_withOutput _ x).trans hreplies)
        (Component.output_withOutput hreplies _) (congrArg some hi)
  | @bound s target hreplies hpending hs htarget hout =>
      have hbinding : d.builder.binding input.target = none := by
        rw [Builder.binding, hpending]; rfl
      have hinput : input.target = target := by
        rw [hs] at hr
        cases hr <;> cases htarget <;> rfl
      rw [hbinding]
      exact .output hreplies hout (congrArg some (hi.trans hinput))
  | oneWay _ _ hopen => exact absurd ho hopen

/-- An endpoint that was attached trails. -/
theorem Desk.trails_wired {b : Builder} {input : ResolvedInput}
    {sides : List Registry} {e : Endpoint} (hb : d.builder = b.wired input sides e)
    (hm : d.merge ≠ none → e.handler.producesReplies = true ∨
      e.handler.isRouter = true) : d.Trails (.endpoint e) := by
  have hcursor := b.cursor_wired input sides e
  rw [← hb] at hcursor
  cases hr : e.handler.producesReplies with
  | true => exact .pending hr (by rw [hcursor]; exact if_pos hr) rfl
  | false =>
      refine .oneWay rfl hr (fun hopen => ?_) fun hne =>
        (hm hne).resolve_left (by rw [hr]; exact Bool.false_ne_true)
      have htail := hopen (by rw [hcursor]) ⟨e.label, e.handler.producesReplies⟩
        (by rw [hcursor]; rfl)
      rw [show e.handler.producesReplies = false from hr] at htail
      cases htail

theorem Builder.tail_wired {b : Builder} {input : ResolvedInput}
    {sides : List Registry} {e : Endpoint} :
    ∀ tail ∈ (b.wired input sides e).cursor.tail, tail.label = e.label := by
  rw [cursor_wired]
  rintro tail ⟨⟩
  rfl

/-- Where the flow stands on nothing and nothing is pending, only what does
not reply can trail. -/
theorem Desk.Trails.feeds_merge {x : Component} (h : d.Trails x)
    (hc : d.builder.cursor.channel = none) (hp : d.builder.cursor.pending = none)
    (hm : d.merge ≠ none) {e : Endpoint} (hb : e.handler.behaviour = .bridge) :
    x.Feeds true (.endpoint e) := by
  cases h with
  | pending _ hpending =>
      rw [hp] at hpending
      cases hpending
  | bound _ _ hs =>
      rw [hc] at hs
      cases hs
  | oneWay hx hr _ hrouter => exact .branches hx hr (hrouter hm) rfl rfl hb

theorem Work.chained (h : Work brought d n link d' n') (hd : d.Chained links)
    (htidy : Tidy (fun _ => false) brought (d :: ds) n) :
    d'.Chained (links ++ link.toList.filter Link.chained) := by
  obtain ⟨deal, he⟩ := h.explains (htidy.sound d List.mem_cons_self).meets
  have hstays : ∀ {d' : Desk} {n'}, deal.Explains brought d n d' n' →
      d'.builder.cursor.channel = d.builder.cursor.channel →
      d'.builder.cursor.tail = d.builder.cursor.tail →
      d'.builder.cursor.pending = d.builder.cursor.pending →
      (¬ d.builder.Open → d'.merge ≠ none → d.merge ≠ none) →
      d'.Chained (links ++ []) := by
    intro d' n' he hc ht hp hm
    rw [List.append_nil]
    exact hd.carry (htidy.becomes he)
      (fun x hb htrails => htrails.carry hb hc ht hp hm)
      (by rw [ht]; exact fun _ => id)
  cases h with
  | idle hr hc => exact hstays he (by rw [hc]) (by rw [hc]) (by rw [hc]) fun _ => id
  | take | shed | tend => exact hstays he rfl rfl rfl fun _ => id
  | @post c reader => cases reader <;> exact hstays he rfl rfl rfl fun _ => id
  | meetReady ho | meetBare ho =>
      exact hstays he rfl rfl rfl fun hopen => absurd ho hopen
  | part => exact hstays he rfl rfl rfl fun _ hne => absurd rfl hne
  | stow _ _ hs => cases hs <;> exact hstays he rfl rfl rfl fun _ => id
  | append ho hc hp =>
      rw [Option.toList_none, List.filter_nil, List.append_nil]
      exact Desk.chained_append hd htidy ho hc hp
  | @attach e input sides kept rest _ ho hbr _ hmerge hr hi hfresh =>
      obtain ⟨b, branches, channels, merge⟩ := d
      obtain rfl : branches = sides ++ kept := hbr
      have he := @Desk.explains_attach brought n b sides kept channels rest merge
        e input hr hfresh
      have hmem := (htidy.mem_registered he rfl).2
        (.inr (List.mem_append_right _ (List.mem_singleton_self _)))
      exact hd.snoc (htidy.becomes he) hmem rfl
        (Desk.trails_wired rfl fun hne => (hmerge hne).2) Builder.tail_wired
        fun x _ htrails => htrails.feeds ho hr hi false
  | @merge m e _ hm _ hc hp hb hi hfresh =>
      obtain ⟨b, branches, channels, merge⟩ := d
      obtain rfl : merge = some m := hm
      have hmeets := (htidy.sound _ List.mem_cons_self).meets
      have he :=
        @Desk.explains_merge brought n b branches channels m e hmeets hfresh hp
      have hmem := (htidy.mem_registered he rfl).2
        (.inr (List.mem_append_right _ (List.mem_singleton_self _)))
      exact hd.snoc (htidy.becomes he) hmem rfl
        (Desk.trails_wired rfl fun _ => .inl (Handler.replies_of_isBridge hb).1)
        Builder.tail_wired fun x _ htrails => htrails.feeds_merge hc hp (by simp) hb

end

/-! ## Along a run -/

/-- The desk at the bottom has the chain of the moments so far. -/
def Chained (past : List Moment) (ds : List Desk) : Prop :=
  ∃ d ∈ ds.getLast?, d.Chained (chain past)

/-- A turn that attaches nothing to the chain. -/
theorem Chained.beside {past : List Moment} {m : Moment} {d : Desk}
    (hd : d.Chained (chain past)) (hm : m.link = none ∨ m.desks.length ≠ 1)
    (hlast : d ∈ m.desks.getLast?) : Chained (past ++ [m]) m.desks := by
  refine ⟨d, hlast, ?_⟩
  rwa [chain_append, chain_beside hm, List.append_nil]

theorem Desk.Chained.beside {d d' : Desk} {links : List Link} (h : d.Chained links)
    (hb : d'.builder = d.builder) (hm : d'.merge = d.merge)
    (hr : d.registered ⊆ d'.registered) : d'.Chained links :=
  h.carry (f := id) (fun x hx _ => ⟨hr hx, .inl rfl⟩)
    (fun x hx ht => ht.carry hx (by rw [hb]) (by rw [hb])
      (by rw [hb]) fun _ => by rw [hm]; exact id) (by rw [hb]; exact fun _ => id)

theorem Chained.turn {brought : Channel → Prop} {past : List Moment}
    {ds : List Desk} {m : Moment} {n n' : Nat} (h : Chained past ds)
    (htidy : Tidy (fun _ => false) brought ds n) (ht : Turn brought ds n m n') :
    Chained (past ++ [m]) m.desks := by
  obtain ⟨bottom, hlast, hd⟩ := h
  cases ht with
  | @work d d' ds link _ _ hw =>
      cases ds with
      | nil =>
          obtain rfl : d = bottom := by simpa using hlast
          refine ⟨d', rfl, ?_⟩
          rw [chain_append, chain_single]
          exact hw.chained hd htidy
      | cons => exact .beside hd (.inr (by simp)) hlast
  | @push d ds c rest =>
      cases ds with
      | nil =>
          obtain rfl : d = bottom := by simpa using hlast
          exact .beside (d := { d with channels := rest })
            (hd.beside rfl rfl (List.Subset.refl _)) (.inl rfl) rfl
      | cons => exact .beside hd (.inl rfl) hlast
  | @pop b d ds =>
      cases ds with
      | nil =>
          obtain rfl : d = bottom := by simpa using hlast
          refine .beside (d := { d with branches := d.branches ++ [b.toBranch] })
            (hd.beside rfl rfl ?_) (.inl rfl) rfl
          rw [Desk.registered, Desk.registered, Desk.branched, Desk.branched,
            List.flatMap_append, ← List.append_assoc]
          exact List.subset_append_left _ _
      | cons => exact .beside hd (.inl rfl) hlast
  | fresh => exact .beside hd (.inl rfl) hlast

theorem Builder.Started.chained {s : Start} {b : Builder} {n n' : Nat}
    (h : b.Started s n n') :
    Chained [.first b] [{ builder := b }] := by
  refine ⟨{ builder := b }, rfl, ?_⟩
  cases h with
  | bare _ ht hp =>
      have hchain : chain [.first b] = [] :=
        chain_beside (.inl (by rw [Moment.first, hp]; rfl))
      rw [hchain]
      exact .nil ht
  | channel _ _ hc =>
      have hchain : chain [.first b] = [] :=
        chain_beside (.inl (by rw [Moment.first, hc]; rfl))
      rw [hchain]
      exact .nil (by rw [hc])
  | @source src hr _ _ hc =>
      have hchain : chain [.first b] = [⟨src.key, .next⟩] := by
        rw [Moment.first, chain_single, hc]
        rfl
      have hmem : .source src ∈ ({ builder := b } : Desk).registered := by
        rw [Desk.registered_plain, Builder.components_eq, hr]
        exact List.mem_append_left _ (List.mem_singleton_self _)
      rw [hchain]
      refine ⟨?_, .singleton _, ?_, ?_⟩
      · rw [List.forall_mem_singleton]
        exact ⟨_, hmem, rfl, rfl⟩
      · rintro l ⟨⟩
        exact ⟨_, hmem, rfl, rfl, .pending rfl (by rw [hc]) rfl⟩
      · rw [hc]
        rintro tail ⟨⟩
        exact ⟨_, rfl, _, hmem, rfl, rfl, rfl⟩

theorem Chained.along : Kept (fun _ => True) fun brought past ds n =>
    Tidy (fun _ => false) brought ds n ∧ Chained past ds :=
  Tidy.kept_with nofun (fun _ _ => rfl) (fun _ h _ => h.chained)
    (fun htidy h ht => h.turn htidy ht) fun h _ => h

/-! ## What the chain leaves out -/

/-- Whether it is an endpoint of a scatter-gather besides its own. -/
def Component.isScatterEnd : Component → Bool
  | .endpoint e => e.handler.isScatterEnd
  | .channel _ | .source _ => false

theorem Component.Resembles.isScatterEnd {x y : Component} (h : x.Resembles y) :
    y.isScatterEnd = x.isScatterEnd := by
  rcases h with rfl | ⟨target, rfl⟩
  · rfl
  · cases x <;> rfl

theorem Builder.resembles_bound (b : Builder) (target : Target) (x : Component) :
    x.Resembles (b.bound target x) := by
  unfold bound
  cases b.cursor.pending with
  | none => exact .inl rfl
  | some output =>
      by_cases hk : x.key = output.component
      · exact .inr ⟨target, if_pos hk⟩
      · exact .inl (if_neg hk)

theorem Builder.resembles_boundBy (b : Builder) (s : ChannelSource)
    (x : Component) : x.Resembles (b.boundBy s x) := by
  unfold boundBy
  cases s.target? with
  | none => exact .inl rfl
  | some target => exact b.resembles_bound target x

/-- The keys of what was registered in a branch on the way. -/
def branchedKeys (history : List Moment) : List ComponentKey :=
  history.flatMap fun m => m.desks.flatMap fun d => d.branched.map Component.key

/-- It is in the chain, or it came from a branch, or it is the recipient list
or the gatherer that a scatter-gather of the chain has besides its own
endpoint. -/
def Component.Placed (history : List Moment) (x : Component) : Prop :=
  x.key ∈ (chain history).map Link.key ∨ x.key ∈ branchedKeys history ∨
    x.key ∈ (asides history).map Link.key ∧ x.isScatterEnd = true

theorem Component.Placed.of_resembles {x y : Component} {history : List Moment}
    (h : y.Placed history) (hr : y.Resembles x) : x.Placed history := by
  unfold Placed
  rw [hr.key, hr.isScatterEnd]
  exact h

theorem Component.Placed.mono {x : Component} {past history : List Moment}
    (h : x.Placed past) :
    x.Placed (past ++ history) := by
  unfold Placed branchedKeys
  rw [chain_append, asides_append, List.map_append, List.map_append,
    List.flatMap_append, List.mem_append, List.mem_append, List.mem_append]
  exact h.imp .inl (.imp .inl (.imp_left .inl))

section

variable {brought : Channel → Prop} {d d' : Desk} {ds : List Desk}
  {link : Option Link} {past : List Moment} {m : Moment} {n n' : Nat}

theorem Builder.traces_wired {b : Builder} {input : ResolvedInput}
    {sides : List Registry} {e : Endpoint} {x : Component}
    (hx : x ∈ (b.wired input sides e).components) (hw : x.isWorker = true) :
    (∃ y ∈ b.components ++ sides.flatMap Registry.components, y.Resembles x) ∨
    x = .endpoint e := by
  have hparts := (b.condenses_wired input sides e).subperm.subset hx
  simp only [List.mem_append, List.mem_singleton] at hparts
  rcases hparts with (hx | rfl) | hx
  · obtain ⟨y, hy, rfl⟩ := List.mem_map.1 hx
    have hsame := b.resembles_bound input.target y
    rcases List.mem_append.1 hy with hy | hy
    · refine .inl ⟨y, ?_, hsame⟩
      rcases List.mem_append.1 hy with hy | hy
      · exact List.mem_append_left _ (List.mem_append_left _ hy)
      · exact List.mem_append_right _ hy
    · obtain ⟨c, -, rfl⟩ := List.mem_map.1 hy
      rw [hsame.isWorker] at hw
      cases hw
  · exact .inr rfl
  · exact .inl ⟨x, List.mem_append_left _ (List.mem_append_right _ hx), .inl rfl⟩

/-- What stands in a builder behind a turn stood on its desk before, or it is
the link of the turn, and then it is in the chain unless it is an end of a
scatter-gather. -/
theorem Work.traces (h : Work brought d n link d' n') {x : Component}
    (hx : x ∈ d'.builder.components) (hw : x.isWorker = true) :
    (∃ y ∈ d.registered, y.Resembles x) ∨
    ∃ l ∈ link, l.key = x.key ∧
      (l.chained = true ∨ l.chained = false ∧ x.isScatterEnd = true) := by
  have hbuilder : x ∈ d.builder.components → ∃ y ∈ d.registered, y.Resembles x :=
    fun hm => ⟨x, List.mem_append_left _ hm, .inl rfl⟩
  have hsource : ∀ s, ∀ {y : Component}, y ∈ Builder.sourceChannels s →
      ¬ y.isWorker = true := by
    rintro (c | name | id) y hy
    · obtain rfl := List.mem_singleton.1 hy
      exact Bool.false_ne_true
    · cases hy
    · cases hy
  cases h with
  | idle hr hc =>
      rw [Builder.components_congr hr hc] at hx
      exact .inl (hbuilder hx)
  | take | shed | tend | meetReady | meetBare | part => exact .inl (hbuilder hx)
  | @append s =>
      rcases List.mem_append.1 ((d.builder.condenses_appended s).subperm.subset hx)
        with hx | hx
      · obtain ⟨y, hy, rfl⟩ := List.mem_map.1 hx
        have hsame := d.builder.resembles_boundBy s y
        rcases List.mem_append.1 hy with hy | hy
        · exact .inl ⟨y, List.mem_append_left _ (List.mem_append_left _ hy), hsame⟩
        · rw [hsame.isWorker] at hw
          exact absurd hw (hsource s hy)
      · exact .inl (hbuilder (List.mem_append_right _ hx))
  | @attach e input sides kept rest _ _ hbr =>
      rcases Builder.traces_wired hx hw with ⟨y, hy, hsame⟩ | rfl
      swap
      · exact .inr ⟨_, rfl, rfl, .inl rfl⟩
      refine .inl ⟨y, ?_, hsame⟩
      rcases List.mem_append.1 hy with hy | hy
      · exact List.mem_append_left _ hy
      · rw [List.flatMap_map] at hy
        obtain ⟨br, hm, hy⟩ := List.mem_flatMap.1 hy
        exact List.mem_append_right _
          (List.mem_flatMap.2 ⟨br, hbr ▸ List.mem_append_left _ hm, hy⟩)
  | stow _ _ hs =>
      have hparts : x ∈ d.builder.components ++ d.branches.flatMap fun br =>
          br.registry.components := by
        cases hs with
        | absorb => exact (d.builder.condenses_absorb d.branches).subperm.subset hx
        | hold => exact (d.builder.condenses_holding d.branches).subperm.subset hx
      exact .inl ⟨x, hparts, .inl rfl⟩
  | @merge m e =>
      rcases Builder.traces_wired hx hw with ⟨y, hy, hsame⟩ | rfl
      swap
      · exact .inr ⟨_, rfl, rfl, .inl rfl⟩
      refine .inl ⟨y, ?_, hsame⟩
      rw [List.flatMap_nil, List.append_nil] at hy
      rcases List.mem_append.1
        ((d.builder.condenses_mergedOn d.branches m.channel).subperm.subset hy)
        with hy | hy
      · exact hy
      · obtain rfl := List.mem_singleton.1 hy
        rw [hsame.isWorker] at hw
        cases hw
  | @post c reader rest _ _ _ hr =>
      rcases List.mem_append.1
        ((d.builder.condenses_posted c reader).subperm.subset hx) with hx | hx
      · rcases List.mem_append.1 hx with hx | hx
        · exact .inl (hbuilder hx)
        · obtain rfl := List.mem_singleton.1 hx
          cases hw
      · obtain ⟨e, he, rfl⟩ := List.mem_map.1 hx
        rw [Option.mem_toList] at he
        exact .inr ⟨_, Option.mem_map_of_mem _ he, rfl, .inr ⟨rfl, (hr e he).2.1⟩⟩

/-- The worker that stands in the builder at the bottom is placed by the
moments so far. -/
structure Placed (past : List Moment) (ds : List Desk) : Prop where
  last : ∃ m ∈ past, m.desks = ds
  placed : ∀ d ∈ ds.getLast?, ∀ x ∈ d.builder.components, x.isWorker = true →
    x.Placed past

namespace Placed

theorem aside (h : Placed past ds)
    (hm : ∀ d' ∈ m.desks.getLast?, ∃ d ∈ ds.getLast?, d.builder = d'.builder) :
    Placed (past ++ [m]) m.desks where
  last := ⟨m, by simp, rfl⟩
  placed d' hd' x hx hw := by
    obtain ⟨d, hd, hb⟩ := hm d' hd'
    exact (h.placed d hd x (hb ▸ hx) hw).mono

theorem work (h : Placed past [d]) (hw : Work brought d n link d' n') :
    Placed (past ++ [{ desks := [d'], link }]) [d'] where
  last := ⟨_, List.mem_append_right _ (List.mem_singleton_self _), rfl⟩
  placed d₁ hd₁ x hx hworker := by
    obtain rfl : d' = d₁ := by simpa using hd₁
    rcases hw.traces hx hworker with ⟨y, hy, hsame⟩ | ⟨l, hl, hk, hrole⟩
    · refine Component.Placed.of_resembles ?_ hsame
      rcases List.mem_append.1 hy with hy | hy
      · exact (h.placed d rfl y hy (hsame.isWorker.symm.trans hworker)).mono
      · obtain ⟨last, hlast, hdesks⟩ := h.last
        refine Component.Placed.mono
          (.inr (.inl (List.mem_flatMap.2 ⟨last, hlast, ?_⟩)))
        rw [hdesks, List.flatMap_singleton]
        exact List.mem_map_of_mem hy
    · obtain rfl : link = some l := hl
      unfold Component.Placed
      rw [← hk]
      rcases hrole with hchained | ⟨haside, hend⟩
      · left
        rw [chain_append, chain_single, List.map_append, Option.toList_some,
          List.filter_singleton, hchained]
        exact List.mem_append_right _ (List.mem_singleton_self _)
      · refine .inr (.inr ⟨?_, hend⟩)
        rw [asides_append, asides_single, List.map_append, Option.toList_some,
          List.filter_singleton, haside]
        exact List.mem_append_right _ (List.mem_singleton_self _)

theorem turn (h : Placed past ds) (ht : Turn brought ds n m n') :
    Placed (past ++ [m]) m.desks := by
  cases ht with
  | @work d d' ds link _ _ hw =>
      cases ds with
      | nil => exact h.work hw
      | cons top below => exact h.aside fun d' hd' => ⟨d', hd', rfl⟩
  | @push d ds c rest =>
      cases ds with
      | nil =>
          refine h.aside fun d' hd' => ⟨d, rfl, ?_⟩
          obtain rfl : { d with channels := rest } = d' := by simpa using hd'
          rfl
      | cons top below => exact h.aside fun d' hd' => ⟨d', hd', rfl⟩
  | @pop b d ds =>
      cases ds with
      | nil =>
          refine h.aside fun d' hd' => ⟨d, rfl, ?_⟩
          obtain rfl : { d with branches := d.branches ++ [b.toBranch] } = d' := by
            simpa using hd'
          rfl
      | cons top below => exact h.aside fun d' hd' => ⟨d', hd', rfl⟩
  | fresh => exact h.aside fun d' hd' => ⟨d', hd', rfl⟩

theorem first {s : Start} {b : Builder} {n n' : Nat} (h : b.Started s n n') :
    Placed [.first b] [{ builder := b }] where
  last := ⟨_, List.mem_singleton_self _, rfl⟩
  placed d hd x hx hw := by
    obtain rfl : { builder := b } = d := by simpa using hd
    rw [Builder.components_eq] at hx
    cases h with
    | bare hr _ _ hc =>
        rw [hr, hc] at hx
        cases hx
    | channel _ hr hc =>
        rw [hr, hc] at hx
        obtain rfl := List.mem_singleton.1 hx
        cases hw
    | source hr _ _ hc =>
        rw [hr, hc] at hx
        obtain rfl := List.mem_singleton.1 hx
        left
        rw [Moment.first, chain_single, hc]
        exact List.mem_singleton_self _

theorem along {usable : Channel → Prop} :
    Kept usable fun _ past ds _ => Placed past ds where
  start _ hy := first (Start.started hy)
  bring h _ := h
  turn h ht := h.turn ht
  forget h := h
  wait h _ := h

end Placed

end

variable {program : List Step} {g : FlowGraph} {history : List Moment}

/-- The tail of the builder, if it has one, is what comes last in the chain. -/
def Builder.EndsChain (b : Builder) (links : List Link) : Prop :=
  ∀ tail ∈ b.cursor.tail, ∃ l ∈ links.getLast?, ∃ x ∈ b.components,
    x.isWorker = true ∧ x.key = l.key ∧ x.label = tail.label

/-- After each call the tail of the builder is what comes last in the chain so
far. -/
theorem Underway.chain_tail {b : Builder} {w : Workshop} {past : List Moment}
    (h : Underway (fun _ => True) program b w past) : b.EndsChain (chain past) := by
  obtain ⟨-, d, hlast, hd⟩ := h.kept Chained.along
  obtain rfl : { builder := b } = d := by simpa using hlast
  have htip := hd.tip
  rwa [Desk.registered_plain] at htip

/-- In a finished flow the source and the endpoints that its own builder
attached, those of `Step.links` for each call, make a chain: whatever comes
between two calls, what replies is bound to what the next one reads. What does
not reply is a router, and the next one is the bridge behind the channel on
which its branches converged. All else came from branches, or it is the
recipient list or the gatherer of a scatter-gather of the chain. After each
call on the way the chain so far ends on what the builder attached last. -/
theorem chain_connected (h : Finished (fun _ => True) program g history) :
    (∀ l ∈ chain history, ∃ x ∈ g.components, x.isWorker = true ∧ x.key = l.key) ∧
    (chain history).IsChain (Follows g.components) ∧
    (∀ x ∈ g.components, x.isWorker = true → x.Placed history) ∧
    ∀ calls b w past, Underway (fun _ => True) calls b w past → past <+: history →
      b.EndsChain (chain past) := by
  obtain ⟨-, b, -, _, -, -, -, -, hg, -, ⟨htidy, d, hlast, hd⟩, hplaced⟩ :=
    h.kept (Chained.along.and Placed.along)
  obtain rfl : { builder := b } = d := by simpa using hlast
  have hstays : ∀ x, x.isWorker = true → (x ∈ g.components ↔ x ∈ b.components) := by
    intro x hw
    rw [hg]
    exact htidy.mem_flushed (Component.marked_of_isWorker hw)
  have hkept : ∀ x ∈ ({ builder := b } : Desk).registered, x.isWorker = true →
      x ∈ g.components ∧ x.Becomes x := by
    intro x hx hw
    rw [Desk.registered_plain] at hx
    exact ⟨(hstays x hw).2 hx, .inl rfl⟩
  refine ⟨fun l hl => ?_, hd.follows.imp fun _ _ hfollows =>
    hfollows.carry (f := id) hkept, fun x hx hw => ?_,
    fun calls b w past hu _ => hu.chain_tail⟩
  · obtain ⟨x, hx, hw, hk⟩ := hd.present l hl
    exact ⟨x, (hkept x hx hw).1, hw, hk⟩
  · exact hplaced.placed _ rfl x ((hstays x hw).1 hx) hw

/-- A chain from a source past a marker, a tap, a channel that needs a bridge,
a fan-out, a router whose branches converge and a scatter-gather; each
endpoint or source is listed with the keys of what it reads and is bound to,
and those of the chain are listed again by their keys. -/
theorem chain_connected_throughout :
    let program : List Step :=
      [.handle .bridge, .channel (.fixedSubscriber none),
        .handle (.custom "gateway" true true []),
        .wireTap {} (.flow [.log .info none]),
        .channel (.channel (.new .direct (some "next") [] [])),
        .publishSubscribe {} [[.handle .bridge]],
        .route { strategy := .header "kind" } [("a", .flow [.handle .bridge]),
          ("b", .flow [.handle .bridge])],
        .scatterGather {} (.recipients {} [(none, .flow [.handle .bridge])]),
        .handle .bridge]
    let keys : Option Target → Option Nat := fun target => do
      let .channel c ← target | none
      return c.key.number
    ∃ g history, Finished (fun _ => True) program g history ∧
      (g.components.filter Component.isWorker).map
          (fun c => (c.key.number, keys c.input?, keys c.output?)) =
        [(1, none, some 2), (3, some 2, some 4), (5, some 4, some 7),
          (12, some 7, some 11), (9, some 8, none), (10, some 6, none),
          (14, some 11, some 13), (15, some 13, none), (21, some 13, none),
          (18, some 16, some 20), (19, some 17, some 20), (22, some 20, some 27),
          (28, some 27, some 31), (29, some 25, none), (26, some 23, some 24),
          (30, some 24, none), (32, some 31, none)] ∧
      (chain history).map (fun l => l.key.number) =
        [1, 3, 5, 12, 14, 21, 22, 28, 32] ∧
      (asides history).map (fun l => l.key.number) = [29, 30] ∧
      (chain history).IsChain (Follows g.components) := by
  intro program keys
  let start : Start :=
    .source { componentType := "ticker", id := none, mode := .messageDriven,
              lifecycle := {} }
  obtain ⟨b₀, w₀, hmake, hlinks⟩ := exists_yields_in (m := start.make)
    (f := fun b w => (b.cursor.pending.map fun output => output.component.number,
        (linksAlong program b w).map fun l => (l.key.number, l.chained)))
    (w := .start 1 1)
    (y :=
      (some 1,
        [(3, true), (5, true), (12, true), (14, true), (21, true), (22, true),
          (28, true), (29, false), (30, false), (32, true)])) (by decide +kernel)
  obtain ⟨⟨b, g⟩, w', hy, hwires⟩ := exists_yields (m := do
      let b ← start.make
      let b ← assembleSteps b program
      return (b, ← b.finish))
    (f := fun (b, g) =>
      (b.cursor.channel.isNone,
        (g.components.filter Component.isWorker).map fun c =>
          (c.key.number, keys c.input?, keys c.output?)))
    (w := .start 1 1)
    (y :=
      (true,
        [(1, none, some 2), (3, some 2, some 4), (5, some 4, some 7),
          (12, some 7, some 11), (9, some 8, none), (10, some 6, none),
          (14, some 11, some 13), (15, some 13, none), (21, some 13, none),
          (18, some 16, some 20), (19, some 17, some 20), (22, some 20, some 27),
          (28, some 27, some 31), (29, some 25, none), (26, some 23, some 24),
          (30, some 24, none), (32, some 31, none)])) (by decide +kernel)
  simp only [yields_bind, yields_pure, Prod.mk.injEq, Option.isNone_iff_eq_none]
    at hy hwires hlinks
  obtain ⟨b₀', w₀', hmake', _, w₁, hsteps, _, _, hfinish, ⟨rfl, rfl⟩, rfl⟩ := hy
  obtain ⟨rfl, rfl⟩ := hmake.eq hmake'
  obtain ⟨hnone, hwires⟩ := hwires
  obtain ⟨hfirst, hlinks⟩ := hlinks
  have hstart : Underway (fun _ => True) [] b₀ w₀ [.first b₀] :=
    .start (by simp [start, Start.brought]) hmake
  obtain ⟨past, hunderway, hpast⟩ := hstart.exists_steps (by decide) hsteps
  obtain ⟨last, h, hlast⟩ := hunderway.exists_finished hfinish
  have hall : (linksAt 1 (past ++ last)).map (fun l => (l.key.number, l.chained)) =
      (1, true) :: (linksAlong program b₀ w₀).map fun l =>
        (l.key.number, l.chained) := by
    have hclosing : b.closing w'.nextComponent = [] := by
      rw [Builder.closing, hnone]
    obtain ⟨output, hpending, hnumber⟩ := Option.map_eq_some_iff.1 hfirst
    rw [linksAt_append, hlast, hclosing, List.append_nil, hpast, List.map_append]
    rw [show linksAt 1 [.first b₀] = [⟨output.component, .next⟩] by
      rw [Moment.first, hpending]
      rfl, ← hnumber]
    rfl
  have hkeys : ∀ p : Bool → Bool,
      ((linksAt 1 (past ++ last)).filter fun l => p l.chained).map (fun l =>
        l.key.number) =
      ((((linksAt 1 (past ++ last)).map fun l => (l.key.number, l.chained)).filter
          fun x => p x.2).map Prod.fst) := by
    intro p
    rw [List.filter_map, List.map_map]
    rfl
  rw [hall, hlinks] at hkeys
  exact ⟨g, _, h, hwires, hkeys id, hkeys not, (chain_connected h).2.1⟩

end FlowAssembly
