import FlowAssembly.Proofs.Numerals
import FlowAssembly.Proofs.Paths
import Mathlib.Data.List.Forall2

/-!
# What paths address

A node of a value is reached by going into objects by the names of their
members and into arrays by the places of their items (`Json.Reaches`). A path
does not say which of the two a segment is for: `0` is a member of an object
and an item of an array, and it is the value at hand that decides. So the walk
of an expression is compared with all accesses that its segments can be read
as, and at most one of these readings fits a value.

The other way round, each node has a path: every access is written as a
segment, and a segment that is neither empty nor holds a full stop comes back
when the path is cut. Only the last segment may not end in a blank, which
would be taken for a blank behind the path.
-/

namespace FlowAssembly

/-- A step into a value: to the member of an object under a name, or to the
item of an array at a place. -/
inductive Access where
  | member (name : String)
  | item (place : Nat)
deriving DecidableEq, Repr

namespace Access

/-- The access as a segment. -/
def text : Access → List Char
  | .member name => name.toList
  | .item place => Nat.toDigits 10 place

/-- The segment may be read as the access: as the name of a member, or as the
place of an item in 64 bits. -/
inductive Spelled : Access → List Char → Prop
  | member (name : String) : Spelled (.member name) name.toList
  | item {place : Nat} {segment : List Char} : Text.Denotes segment place →
      place ≤ Text.limit64 → Spelled (.item place) segment

end Access

namespace Json

/-- The access leads from a value to one of its children. -/
inductive Child : Json → Access → Json → Prop
  | member {fields : List (String × Json)} {name : String} {child : Json} :
      fields.lookup name = some child → Child (.object fields) (.member name) child
  | item {items : List Json} {place : Nat} {child : Json} :
      items[place]? = some child → Child (.array items) (.item place) child

/-- The accesses lead from a value to a node inside it. -/
inductive Reaches : Json → List Access → Json → Prop
  | here (value : Json) : Reaches value [] value
  | into {value child node : Json} {a : Access} {path : List Access} :
      value.Child a child → Reaches child path node → Reaches value (a :: path) node

/-- The segment leads nowhere from a value: an object has no such member, an
array no such item, and from anything else no segment leads on. -/
inductive Stuck (segment : List Char) : Json → Prop
  | object {fields : List (String × Json)} :
      fields.lookup (String.ofList segment) = none → Stuck segment (.object fields)
  | array {items : List Json} :
      (∀ place, Text.Denotes segment place → place ≤ Text.limit64 →
        items.length ≤ place) → Stuck segment (.array items)
  | null : Stuck segment .null
  | bool (value : Bool) : Stuck segment (.bool value)
  | number (value : Number) : Stuck segment (.number value)
  | string (value : String) : Stuck segment (.string value)

end Json

namespace Expression

open Text

variable {value child node : Json} {segment : List Char}
  {segments before after : List (List Char)} {m : Message}

/-! ## One step -/

theorem step_eq_some_iff : step value segment = some child ↔
      ∃ a, Access.Spelled a segment ∧ value.Child a child := by
  constructor
  · intro h
    cases value with
    | object fields =>
        refine ⟨.member (String.ofList segment), ?_, .member h⟩
        have hspelled := Access.Spelled.member (String.ofList segment)
        rwa [String.toList_ofList] at hspelled
    | array items =>
        obtain ⟨place, hplace, hchild⟩ := Option.bind_eq_some_iff.1 h
        obtain ⟨hdenotes, hle⟩ := bounded?_eq_some_iff.1 hplace
        exact ⟨.item place, .item hdenotes hle, .item hchild⟩
    | null | bool | number | string => cases h
  · rintro ⟨a, hspelled, hchild⟩
    cases hchild with
    | member hget =>
        cases hspelled
        rw [step, String.ofList_toList]
        exact hget
    | item hget =>
        cases hspelled with
        | item hdenotes hle =>
            rw [step, bounded?_eq_some_iff.2 ⟨hdenotes, hle⟩]
            exact hget

theorem step_eq_none_iff : step value segment = none ↔ value.Stuck segment := by
  constructor
  · intro h
    cases value with
    | object fields => exact .object h
    | array items =>
        refine .array fun place hdenotes hle => ?_
        rw [step, bounded?_eq_some_iff.2 ⟨hdenotes, hle⟩] at h
        exact List.getElem?_eq_none_iff.1 h
    | null => exact .null
    | bool value => exact .bool value
    | number value => exact .number value
    | string value => exact .string value
  · intro h
    cases h with
    | object hnone => exact hnone
    | array hnone =>
        refine Option.bind_eq_none_iff.2 fun place hplace => ?_
        obtain ⟨hdenotes, hle⟩ := bounded?_eq_some_iff.1 hplace
        exact List.getElem?_eq_none_iff.2 (hnone place hdenotes hle)
    | null | bool | number | string => rfl

/-! ## Walks -/

theorem walk_append (value : Json) (before after : List (List Char)) :
    walk value (before ++ after) = (walk value before).bind fun node =>
      walk node after := by
  induction before generalizing value with
  | nil => rfl
  | cons segment before ih =>
      rw [List.cons_append, walk, walk, Option.bind_assoc]
      exact congrArg _ (funext ih)

/-- A walk ends at a node that its segments can be read as the accesses to. -/
theorem walk_eq_some_iff :
    walk value segments = some node ↔
      ∃ path, List.Forall₂ Access.Spelled path segments ∧
        value.Reaches path node := by
  induction segments generalizing value with
  | nil =>
      constructor
      · intro h
        obtain rfl := Option.some.inj h
        exact ⟨[], .nil, .here value⟩
      · rintro ⟨path, hspelled, hreaches⟩
        cases hspelled
        cases hreaches
        rfl
  | cons segment segments ih =>
      rw [walk, Option.bind_eq_some_iff]
      constructor
      · rintro ⟨child, hstep, hwalk⟩
        obtain ⟨a, hspelled, hchild⟩ := step_eq_some_iff.1 hstep
        obtain ⟨path, hpath, hreaches⟩ := ih.1 hwalk
        exact ⟨a :: path, .cons hspelled hpath, .into hchild hreaches⟩
      · rintro ⟨path, hpath, hreaches⟩
        cases hpath with
        | cons hspelled hrest =>
            cases hreaches with
            | into hchild hreaches =>
                exact ⟨_, step_eq_some_iff.2 ⟨_, hspelled, hchild⟩,
                  ih.2 ⟨_, hrest, hreaches⟩⟩

/-- A walk fails where it gets stuck at a segment. -/
theorem walk_eq_none_iff : walk value segments = none ↔
      ∃ before segment after node, segments = before ++ segment :: after ∧
        walk value before = some node ∧
        node.Stuck segment := by
  constructor
  · intro h
    induction segments generalizing value with
    | nil => cases h
    | cons segment segments ih =>
        rw [walk] at h
        cases hstep : step value segment with
        | none =>
            exact ⟨[], segment, segments, value, rfl, rfl, step_eq_none_iff.1 hstep⟩
        | some child =>
            rw [hstep, Option.bind_some] at h
            obtain ⟨before, stuck, after, node, rfl, hwalk, hstuck⟩ := ih h
            refine ⟨segment :: before, stuck, after, node, rfl, ?_, hstuck⟩
            rw [walk, hstep]
            exact hwalk
  · rintro ⟨before, segment, after, node, rfl, hwalk, hstuck⟩
    rw [walk_append, hwalk, Option.bind_some, walk, step_eq_none_iff.2 hstuck]
    rfl

theorem evaluate_eq_ok_iff {e : Expression} : e.evaluate m = .ok node ↔
      walk m.asValue e.segments = some node := by
  unfold evaluate
  cases walk m.asValue e.segments <;> simp

theorem evaluate_eq_error_iff {e : Expression} {cause : ExpressionError} :
    e.evaluate m = .error cause ↔
      walk m.asValue e.segments = none ∧ cause = .unresolved e.source := by
  unfold evaluate
  cases walk m.asValue e.segments <;> simp [eq_comm]

end Expression

/-! ## Segments behind a root -/

namespace Text

theorem segments_append (before after : List Char) :
    segments (before ++ '.' :: after) = segments before ++ segments after := by
  induction before with
  | nil => rfl
  | cons c rest ih =>
      rw [List.cons_append, segments, segments, ih]
      split
      · rfl
      · cases hs : segments rest with
        | nil => exact absurd hs (segments_ne_nil rest)
        | cons first others => rfl

theorem exists_joined_cons (first : List Char) (rest : List (List Char)) :
    ∃ more, joined (first :: rest) = first ++ more := by
  cases rest with
  | nil => exact ⟨[], (List.append_nil first).symm⟩
  | cons second others => exact ⟨_, rfl⟩

/-- Joined segments end as the last of them does, unless that is empty. -/
theorem getLast?_joined {parts : List (List Char)} {last : List Char}
    (h : parts.getLast? = some last) (hne : last ≠ []) :
    (joined parts).getLast? = last.getLast? := by
  induction parts with
  | nil => cases h
  | cons first rest ih =>
      cases rest with
      | nil =>
          obtain rfl := Option.some.inj h
          rfl
      | cons second others =>
          rw [List.getLast?_cons_cons] at h
          obtain ⟨c, hc⟩ := Option.ne_none_iff_exists'.1 fun hnone =>
            hne (List.getLast?_eq_none_iff.1 hnone)
          rw [joined, List.getLast?_append, List.getLast?_cons, ih h, hc]
          rfl

end Text

namespace Expression

open Text

variable {root : List Char} {rest : List (List Char)}

theorem IsRoot.not_isBlank (h : IsRoot root) : ∀ c ∈ root, ¬ isBlank c := by
  have hall : root.all (fun c => !isBlank c) = true := by
    rcases h with rfl | rfl <;> decide
  intro c hc hblank
  have hnot := List.all_eq_true.1 hall c hc
  rw [hblank] at hnot
  cases hnot

/-- Segments that do not end in a blank stay as they are behind a root. -/
theorem trim_joined (hroot : IsRoot root) (hrest : ∀ s ∈ rest, s ≠ [])
    (hlast : ∀ s ∈ rest.getLast?, ∀ c ∈ s.getLast?, ¬ isBlank c) :
    trim (joined (root :: rest)) = joined (root :: rest) := by
  have hne : root ≠ [] := by rcases hroot with rfl | rfl <;> decide
  refine trim_eq_iff.2 ⟨⟨[], [], by simp⟩, fun c hc => ?_, fun c hc => ?_⟩
  · obtain ⟨more, hmore⟩ := exists_joined_cons root rest
    rw [hmore, List.head?_append_of_ne_nil _ hne] at hc
    exact hroot.not_isBlank c (List.mem_of_mem_head? hc)
  · cases hend : rest.getLast? with
    | none =>
        obtain rfl := List.getLast?_eq_none_iff.1 hend
        exact hroot.not_isBlank c (List.mem_of_mem_getLast? hc)
    | some last =>
        have hwhole : (root :: rest).getLast? = some last := by
          rw [List.getLast?_cons, hend]
          rfl
        rw [getLast?_joined hwhole (hrest last (List.mem_of_getLast? hend))] at hc
        exact hlast last hend c hc

theorem parse_joined (hroot : IsRoot root) (hrest : ∀ s ∈ rest, s ≠ [] ∧ '.' ∉ s)
    (hlast : ∀ s ∈ rest.getLast?, ∀ c ∈ s.getLast?, ¬ isBlank c) :
    parse (String.ofList (joined (root :: rest))) =
      .ok ⟨String.ofList (joined (root :: rest))⟩ := by
  have htrim : trim (String.ofList (joined (root :: rest))).toList =
      joined (root :: rest) := by
    rw [String.toList_ofList]
    exact trim_joined hroot (fun s hs => (hrest s hs).1) hlast
  have hpath : IsPath (joined (root :: rest)) := by
    refine ⟨root, rest, hroot, fun s hs => ?_, rfl⟩
    rcases List.mem_cons.1 hs with rfl | hs
    · rcases hroot with rfl | rfl <;> decide
    · exact hrest s hs
  have hsource : IsPath (trim (String.ofList (joined (root :: rest))).toList) := by
    rwa [htrim]
  have hparse := parse_of_isPath hsource
  rwa [htrim] at hparse

end Expression

namespace Access

open Text

/-- The accesses can be written as segments of a path: no name of a member is
empty or holds a full stop, the last one does not end in a blank, and places
have 64 bits. -/
structure Addressable (path : List Access) : Prop where
  names : ∀ name, .member name ∈ path → name ≠ "" ∧ '.' ∉ name.toList
  last : ∀ name, path.getLast? = some (.member name) →
    ∀ c ∈ name.toList.getLast?, ¬ isBlank c
  places : ∀ place, .item place ∈ path → place ≤ limit64

variable {a : Access} {path : List Access}

theorem digitsOf_toDigits (place : Nat) : DigitsOf (Nat.toDigits 10 place) place :=
  ⟨0, rfl⟩

theorem Addressable.spelled (h : Addressable path) :
    List.Forall₂ Spelled path (path.map text) := by
  rw [List.forall₂_map_right_iff, List.forall₂_same]
  intro a ha
  cases a with
  | member name => exact .member name
  | item place => exact .item (.inl (digitsOf_toDigits place)) (h.places place ha)

/-- A digit is neither a full stop nor a blank. -/
theorem not_isBlank_of_isDecimalDigit {c : Char} (h : isDecimalDigit c) :
    c ≠ '.' ∧ ¬ isBlank c := by
  obtain ⟨hlow, hhigh⟩ := isDecimalDigit_iff.1 h
  constructor
  · rintro rfl
    revert h
    decide
  · simp [isBlank, blankRanges]
    omega

theorem Addressable.segments (h : Addressable path) :
    ∀ s ∈ path.map text, s ≠ [] ∧ '.' ∉ s := by
  intro s hs
  obtain ⟨a, ha, rfl⟩ := List.mem_map.1 hs
  cases a with
  | member name =>
      obtain ⟨hne, hstop⟩ := h.names name ha
      exact ⟨fun hnil => hne (String.toList_eq_nil_iff.1 hnil), hstop⟩
  | item place =>
      refine ⟨Nat.toDigits_ne_nil, fun hmem => ?_⟩
      exact (not_isBlank_of_isDecimalDigit
        (isDecimalDigit_of_digitsOf (digitsOf_toDigits place) hmem)).1 rfl

theorem Addressable.ending (h : Addressable path) :
    ∀ s ∈ (path.map text).getLast?, ∀ c ∈ s.getLast?, ¬ isBlank c := by
  intro s hs c hc
  rw [List.getLast?_map] at hs
  obtain ⟨a, ha, rfl⟩ := Option.map_eq_some_iff.1 hs
  cases a with
  | member name => exact h.last name ha c hc
  | item place =>
      have hdigit := isDecimalDigit_of_digitsOf (digitsOf_toDigits place)
        (List.mem_of_getLast? hc)
      exact (not_isBlank_of_isDecimalDigit hdigit).2

end Access

/-- The path of accesses behind a root, with a full stop between each two
segments. -/
def Expression.pathTo (root : String) (path : List Access) : String :=
  String.ofList (Text.joined (root.toList :: path.map Access.text))

namespace Expression

open Text

variable {m : Message} {value node : Json} {path : List Access}

theorem segments_pathTo {root : String} (hroot : IsRoot root.toList)
    (h : Access.Addressable path) :
    segments ⟨pathTo root path⟩ = root.toList :: path.map Access.text := by
  rw [segments, pathTo, String.toList_ofList]
  refine segments_joined (List.cons_ne_nil _ _) fun s hs => ?_
  rcases List.mem_cons.1 hs with rfl | hs
  · rcases hroot with hroot | hroot <;> rw [hroot] <;> decide
  · exact (h.segments s hs).2

theorem pathTo_member (root name : String) :
    pathTo root [.member name] = root ++ "." ++ name := by
  refine String.toList_inj.1 ?_
  have hstop : ".".toList = ['.'] := rfl
  simp [pathTo, joined, Access.text, hstop]

theorem parse_pathTo {root : String} (hroot : IsRoot root.toList)
    (h : Access.Addressable path) :
    parse (pathTo root path) = .ok ⟨pathTo root path⟩ :=
  parse_joined hroot h.segments h.ending

/-- The path to a node is walked from the member of the message that its root
names. -/
theorem walk_pathTo {root : String} (hroot : IsRoot root.toList)
    (h : Access.Addressable path)
    (hvalue : [("headers", .object m.headers), ("payload", m.payload)].lookup
      root = some value) :
    walk m.asValue (segments ⟨pathTo root path⟩) =
      walk value (path.map Access.text) := by
  rw [segments_pathTo hroot h, walk, Message.asValue, step, String.ofList_toList,
    hvalue, Option.bind_some]

theorem evaluate_pathTo {root : String} (hroot : IsRoot root.toList)
    (h : Access.Addressable path)
    (hvalue : [("headers", .object m.headers), ("payload", m.payload)].lookup
      root = some value)
    (hreaches : value.Reaches path node) :
    evaluate ⟨pathTo root path⟩ m = .ok node := by
  rw [evaluate_eq_ok_iff, walk_pathTo hroot h hvalue]
  exact walk_eq_some_iff.2 ⟨path, h.spelled, hreaches⟩

theorem walk_singleton (value : Json) (segment : List Char) :
    walk value [segment] = step value segment := by
  rw [walk]
  cases step value segment <;> rfl

/-- An expression is evaluated by the accesses that its segments can be read
as. It has the value that they lead to from the message, and it is refused
with its text where they get stuck at some segment.

Every node of the payload and of the headers that can be written down has a
path, which is parsed as it is and has the node as its value. The path of a
header has the value of the header if the message has one, and is refused if
not. And a path may be cut at any full stop: its end is looked up in the value
of its beginning. -/
theorem paths_address (m : Message) :
    (∀ e : Expression,
      (∀ node, e.evaluate m = .ok node ↔
        ∃ path, List.Forall₂ Access.Spelled path e.segments ∧
          m.asValue.Reaches path node) ∧
      ∀ cause, e.evaluate m = .error cause ↔
        cause = .unresolved e.source ∧ ∃ before segment after path node,
          e.segments = before ++ segment :: after ∧
          List.Forall₂ Access.Spelled path before ∧
          m.asValue.Reaches path node ∧ node.Stuck segment) ∧
    (∀ root value path node,
      (root, value) ∈ [("payload", m.payload), ("headers", .object m.headers)] →
      Access.Addressable path → value.Reaches path node →
      parse (pathTo root path) = .ok ⟨pathTo root path⟩ ∧
      evaluate ⟨pathTo root path⟩ m = .ok node) ∧
    (∀ name, Access.Addressable [.member name] →
      parse ("headers." ++ name) = .ok ⟨"headers." ++ name⟩ ∧
      evaluate ⟨"headers." ++ name⟩ m = match m.header? name with
        | some value => .ok value
        | none => .error (.unresolved ("headers." ++ name))) ∧
    ∀ (p : Expression) (q : String) node,
      evaluate ⟨p.source ++ "." ++ q⟩ m = .ok node ↔
        ∃ value, p.evaluate m = .ok value ∧
          walk value (Text.segments q.toList) = some node := by
  refine ⟨fun e => ⟨fun node => ?_, fun cause => ?_⟩, ?_, ?_, ?_⟩
  · rw [evaluate_eq_ok_iff, walk_eq_some_iff]
  · rw [evaluate_eq_error_iff, walk_eq_none_iff, and_comm]
    refine and_congr_right' ⟨?_, ?_⟩
    · rintro ⟨before, segment, after, node, hsplit, hwalk, hstuck⟩
      obtain ⟨path, hpath, hreaches⟩ := walk_eq_some_iff.1 hwalk
      exact ⟨before, segment, after, path, node, hsplit, hpath, hreaches, hstuck⟩
    · rintro ⟨before, segment, after, path, node, hsplit, hpath, hreaches, hstuck⟩
      exact ⟨before, segment, after, node, hsplit,
        walk_eq_some_iff.2 ⟨path, hpath, hreaches⟩, hstuck⟩
  · intro root value path node hmem haddress hreaches
    rcases List.mem_cons.1 hmem with heq | hmem
    · obtain ⟨rfl, rfl⟩ := Prod.mk.inj heq
      exact ⟨parse_pathTo (.inl rfl) haddress,
        evaluate_pathTo (.inl rfl) haddress rfl hreaches⟩
    · obtain ⟨rfl, rfl⟩ := Prod.mk.inj (List.mem_singleton.1 hmem)
      exact ⟨parse_pathTo (.inr rfl) haddress,
        evaluate_pathTo (.inr rfl) haddress rfl hreaches⟩
  · intro name haddress
    have htext : "headers." ++ name = pathTo "headers" [.member name] :=
      (pathTo_member "headers" name).symm
    have hwalk : walk m.asValue (segments ⟨pathTo "headers" [.member name]⟩) =
        m.header? name := by
      rw [walk_pathTo (.inr rfl) haddress rfl, List.map_singleton, walk_singleton,
        step, Access.text, String.ofList_toList]
      rfl
    rw [htext]
    refine ⟨parse_pathTo (.inr rfl) haddress, ?_⟩
    cases hheader : m.header? name with
    | some value => exact evaluate_eq_ok_iff.2 (hwalk.trans hheader)
    | none => exact evaluate_eq_error_iff.2 ⟨hwalk.trans hheader, rfl⟩
  · intro p q node
    have hsegments : segments ⟨p.source ++ "." ++ q⟩ = p.segments ++
          Text.segments q.toList := by
      have hstop : ".".toList = ['.'] := rfl
      rw [segments, String.toList_append, String.toList_append, hstop,
        List.append_assoc, List.singleton_append, segments_append]
      rfl
    rw [evaluate_eq_ok_iff, hsegments, walk_append, Option.bind_eq_some_iff]
    exact exists_congr fun value => and_congr_left' evaluate_eq_ok_iff.symm

/-- Digits are a place in an array, and there a sign and zeros may stand ahead
of them; in an object they are a name, and there nothing may. -/
theorem paths_address_nested :
    let path : List Access := [.member "items", .item 1, .member "01"]
    let m : Message := ⟨[("+1", .string "header")],
      .object
        [("items", .array [.null, .object [("1", .null), ("01", .string "node")]])]⟩
    (Access.Addressable path ∧ m.payload.Reaches path (.string "node") ∧
      evaluate ⟨pathTo "payload" path⟩ m = .ok (.string "node")) ∧
    (Access.Addressable [.member "+1"] ∧
      evaluate ⟨"headers." ++ "+1"⟩ m = .ok (.string "header")) ∧
    evaluate ⟨"payload.items.+001.01"⟩ m = .ok (.string "node") := by
  intro path m
  obtain ⟨hevaluate, hnode, hheader, -⟩ := paths_address m
  have hpath : Access.Addressable path :=
    ⟨by simp [path], by simp [path, isBlank, blankRanges], by simp [path, limit64]⟩
  have hname : Access.Addressable [.member "+1"] :=
    ⟨by simp, by simp [isBlank, blankRanges], by simp⟩
  have hreaches : m.payload.Reaches path (.string "node") :=
    .into (.member rfl) (.into (.item rfl) (.into (.member rfl) (.here _)))
  refine ⟨⟨hpath, hreaches,
      (hnode "payload" _ path _ List.mem_cons_self hpath hreaches).2⟩,
    ⟨hname, (hheader "+1" hname).2⟩, ?_⟩
  refine ((hevaluate ⟨"payload.items.+001.01"⟩).1 _).2
    ⟨.member "payload" :: path, ?_, .into (.member rfl) hreaches⟩
  have hplace : Denotes "+001".toList 1 := .inr ⟨"001".toList, rfl, 2, rfl⟩
  exact .cons (.member _)
    (.cons (.member _) (.cons (.item hplace (by decide)) (.cons (.member _) .nil)))

end Expression

end FlowAssembly
