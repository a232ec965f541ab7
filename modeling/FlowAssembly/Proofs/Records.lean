import Mathlib.Data.String.Basic
import Mathlib.Data.List.Basic
import FlowAssembly.Graph.Descriptor
import FlowAssembly.Message

/-!
# What is written as a record is read back

A descriptor leaves out what has its usual value, and a message may list its
headers in any order. Neither loses anything.

The argument for both is about objects only. An object whose names are
distinct, and are those of the record that is read, gives exactly its own
fields (`record?_object`), and a name is then found where it was written
(`List.lookup_append`). So a field that is left out under a condition is found
under that condition, and a descriptor reads back field by field.

A message needs one thing more. Its headers are in ascending order with
canonical values (`Fields.Canonical`), which `withHeader` keeps. Fields of
that kind are settled by what stands under each name (`Canonical.ext`), and
`canonicalFields` answers fields of that kind, with the last value given for
each name. So it answers the headers again, in whatever order they were
listed.
-/

namespace FlowAssembly

/-! ## Canonical values -/

namespace Fields

@[simp] theorem lookup_ite (name : String) (condition : Prop) [Decidable condition]
    (first second : List (String × Json)) :
    (if condition then first else second).lookup name =
      if condition then first.lookup name else second.lookup name :=
  apply_ite ..

/-- A field with what an option holds stands where there is something. -/
@[simp] theorem lookup_toList (name key : String) (write : α → Json)
    (value : Option α) :
    (value.toList.map fun a => (key, write a)).lookup name = if name == key
      then value.map write else none := by
  cases value with
  | none => simp
  | some a =>
      rw [Option.toList_some, List.map_singleton, List.lookup_cons]
      cases name == key <;> rfl

/-- Where no name stands twice, the order of the fields does not matter. -/
theorem lookup_of_perm {listed fields : List (String × Json)}
    (hlisted : listed.Perm fields) (h : (fields.map Prod.fst).Nodup)
    (name : String) : listed.lookup name = fields.lookup name := by
  have hnodup : (listed.map Prod.fst).Nodup := (hlisted.map Prod.fst).nodup_iff.2 h
  apply Option.ext
  intro value
  rw [lookup_eq_some_iff_mem hnodup, lookup_eq_some_iff_mem h, hlisted.mem_iff]

/-- Fields in ascending order of their names, with canonical values. -/
structure Canonical (fields : Fields) : Prop where
  ascending : fields.Pairwise fun a b => a.1 < b.1
  values : ∀ field ∈ fields, field.2.canonical = field.2

namespace Canonical

theorem nil : Canonical [] :=
  ⟨.nil, by simp⟩

theorem tail {field : String × Json} {rest : Fields}
    (h : Canonical (field :: rest)) : Canonical rest :=
  ⟨h.ascending.of_cons, fun other hother => h.values other (.tail _ hother)⟩

theorem nodup {fields : Fields} (h : Canonical fields) :
    (fields.map Prod.fst).Nodup :=
  List.pairwise_map.2 (h.ascending.imp ne_of_lt)

/-- A name that comes before the first one is not among the fields. -/
theorem lookup_of_lt {name : String} {fields : Fields}
    (h : ∀ field ∈ fields, name < field.1) :
    fields.lookup name = none :=
  List.lookup_eq_none_iff.2 fun field hfield =>
    bne_iff_ne.2 (ne_of_lt (h field hfield))

/-- The fields are settled by what stands under each name. -/
theorem ext {fields others : Fields} (h : Canonical fields) (h' : Canonical others)
    (hget : ∀ name, fields.lookup name = others.lookup name) : fields = others := by
  induction fields generalizing others with
  | nil =>
      cases others with
      | nil => rfl
      | cons other _ =>
          obtain ⟨key, value⟩ := other
          simpa [List.lookup_cons] using hget key
  | cons field rest ih =>
      obtain ⟨key, value⟩ := field
      cases others with
      | nil => simpa [List.lookup_cons] using hget key
      | cons other others =>
          obtain ⟨key', value'⟩ := other
          have before := (List.pairwise_cons.1 h.ascending).1
          have before' := (List.pairwise_cons.1 h'.ascending).1
          -- The smaller of the two first names would be missing on the other
          -- side.
          obtain hkey | rfl | hkey := lt_trichotomy key key'
          · have hmissing : others.lookup key = none :=
              lookup_of_lt fun x hx => hkey.trans (before' x hx)
            simpa [List.lookup_cons, beq_false_of_ne hkey.ne, hmissing]
              using hget key
          · obtain rfl : value = value' := by
              simpa [List.lookup_cons] using hget key
            refine congrArg _ (ih h.tail h'.tail fun name => ?_)
            by_cases hname : name = key
            · subst hname
              rw [lookup_of_lt before, lookup_of_lt before']
            · simpa [List.lookup_cons, beq_false_of_ne hname] using hget name
          · have hmissing : rest.lookup key' = none :=
              lookup_of_lt fun x hx => hkey.trans (before x hx)
            simpa [List.lookup_cons, beq_false_of_ne hkey.ne, hmissing]
              using (hget key').symm

theorem mem_insert {name : String} {value : Json} {fields : Fields}
    {field : String × Json} (h : field ∈ Fields.insert name value fields) :
    field = (name, value) ∨ field ∈ fields := by
  induction fields with
  | nil => simpa [Fields.insert] using h
  | cons first rest ih =>
      obtain ⟨key, old⟩ := first
      unfold Fields.insert at h
      split at h
      · simpa using h
      · split at h
        · obtain h | h := List.mem_cons.1 h
          · exact .inl h
          · exact .inr (.tail _ h)
        · obtain h | h := List.mem_cons.1 h
          · exact .inr (h ▸ .head _)
          · exact (ih h).imp_right (.tail _)

/-- Setting a field keeps the order. -/
theorem insert {name : String} {value : Json} {fields : Fields}
    (h : Canonical fields) (hvalue : value.canonical = value) :
    Canonical (Fields.insert name value fields) := by
  refine ⟨?_, fun field hfield => ?_⟩
  · induction fields with
    | nil => simp [Fields.insert]
    | cons field rest ih =>
        obtain ⟨key, old⟩ := field
        have before := (List.pairwise_cons.1 h.ascending).1
        unfold Fields.insert
        split
        · next hlt =>
          refine List.pairwise_cons.2
            ⟨List.forall_mem_cons.2 ⟨hlt, fun x hx => ?_⟩, h.ascending⟩
          exact hlt.trans (before x hx)
        · next hlt =>
          split
          · next heq =>
            subst heq
            exact List.pairwise_cons.2 ⟨before, h.tail.ascending⟩
          · next hne =>
            refine List.pairwise_cons.2 ⟨fun x hx => ?_, ih h.tail⟩
            obtain rfl | hx := mem_insert hx
            · exact lt_of_le_of_ne (not_lt.1 hlt) (Ne.symm hne)
            · exact before x hx
  · obtain rfl | hfield := mem_insert hfield
    · exact hvalue
    · exact h.values field hfield

end Canonical

end Fields

namespace Json

open Fields

/-- Under each name stands the last value given for it. -/
theorem lookup_canonicalFields (fields : List (String × Json)) (name : String) :
    (canonicalFields fields).lookup name =
      (fields.reverse.lookup name).map canonical := by
  induction fields with
  | nil => simp [canonicalFields]
  | cons field rest ih =>
      obtain ⟨key, value⟩ := field
      rw [List.reverse_cons, List.lookup_append]
      simp only [canonicalFields]
      split
      · next hlater =>
        by_cases hname : name = key
        · subst hname
          obtain ⟨later, hfound⟩ :
            ∃ later, rest.reverse.lookup name = some later := by
            rw [ih, Option.isSome_map] at hlater
            exact Option.isSome_iff_exists.1 hlater
          simp [ih, hfound]
        · simp [ih, List.lookup_cons, beq_false_of_ne hname]
      · next hlater =>
        by_cases hname : name = key
        · subst hname
          have hmissing : rest.reverse.lookup name = none := by
            simpa only [ih, Option.isSome_map, Option.not_isSome_iff_eq_none]
              using hlater
          simp [lookup_insert_self, hmissing]
        · simp [lookup_insert_of_ne hname, ih, List.lookup_cons,
            beq_false_of_ne hname]

/-- Fields in order are left as they are. -/
theorem canonicalFields_eq {fields : Fields} (h : Canonical fields) :
    canonicalFields fields = fields := by
  induction fields with
  | nil => rfl
  | cons field rest ih =>
      obtain ⟨key, value⟩ := field
      have before := (List.pairwise_cons.1 h.ascending).1
      simp only [canonicalFields, ih h.tail, Canonical.lookup_of_lt before,
        h.values (key, value) (.head _)]
      cases rest with
      | nil => rfl
      | cons next others => simp [Fields.insert, before next (.head _)]

mutual

/-- What is canonical stays as it is. -/
theorem canonical_canonical :
    ∀ value : Json, value.canonical.canonical = value.canonical
  | .array items => by simp only [canonical, canonicalItems_canonicalItems items]
  | .object fields => by
      have h := canonical_canonicalFields fields
      rw [canonical, canonical, canonicalFields_eq h]
  | .null | .bool _ | .number _ | .string _ => by simp only [canonical]

theorem canonicalItems_canonicalItems : ∀ items : List Json,
    canonicalItems (canonicalItems items) = canonicalItems items
  | [] => rfl
  | item :: rest => by
      simp only [canonicalItems, canonical_canonical item,
        canonicalItems_canonicalItems rest]

theorem canonical_canonicalFields :
    ∀ fields : List (String × Json), Canonical (canonicalFields fields)
  | [] => .nil
  | (name, value) :: rest => by
      have h := canonical_canonicalFields rest
      simp only [canonicalFields]
      split
      · exact h
      · exact h.insert (canonical_canonical value)

end

/-- Fields that are listed in another order are put in order again. -/
theorem canonicalFields_of_perm {listed : List (String × Json)} {fields : Fields}
    (h : Canonical fields) (hlisted : listed.Perm fields) :
    canonicalFields listed = fields := by
  refine (canonical_canonicalFields listed).ext h fun name => ?_
  have hfrom : listed.reverse.lookup name = fields.lookup name :=
    lookup_of_perm ((List.reverse_perm listed).trans hlisted) h.nodup name
  rw [lookup_canonicalFields, hfrom]
  cases hvalue : fields.lookup name with
  | none => rfl
  | some value => rw [Option.map_some, h.values _ (mem_of_lookup hvalue)]

/-! ## Records -/

@[simp] theorem Record.get?_mk (fields : List (String × Json)) (byPosition : Bool)
    (name : String) :
    (Record.mk fields byPosition).get? name = fields.lookup name :=
  rfl

/-- An object with no field but those of the record, each once, gives its own
fields. -/
theorem record?_object {names : List String} {fields : List (String × Json)}
    (h : (fields.map Prod.fst).Sublist names) (hnames : names.Nodup) :
    record? names (.object fields) = some ⟨fields, false⟩ := by
  have hall : fields.filter (fun field => names.contains field.1) = fields :=
    List.filter_eq_self.2 fun field hfield => by
      simpa using h.subset (List.mem_map_of_mem hfield)
  simp only [record?, hall]
  rw [if_pos (h.nodup hnames)]

/-- A field that is left out when it has its usual value is read as that
value. -/
theorem Record.getD_eq_some {r : Record} {name : String} {given : Option Json}
    {fallback a : α} {read : Json → Option α} (hgiven : r.get? name = given)
    (hread : given.elim (some fallback) read = some a) :
    r.getD name fallback read = some a := by
  subst hgiven
  unfold getD
  cases h : r.get? name <;> simpa [h] using hread

/-- A list that was written item by item is read item by item. -/
theorem mapM_map_eq_some {read : β → Option α} {write : α → β}
    (h : ∀ a, read (write a) = some a) (l : List α) :
    (l.map write).mapM read = some l := by
  induction l with
  | nil => rfl
  | cons a l ih => simp [h, ih]

end Json

/-! ## Descriptors -/

theorem Category.ofJson?_name (c : Category) :
    ofJson? (.string c.name) = some c := by
  cases c <;> rfl

namespace GraphEdge

theorem ofJson?_toJson (e : GraphEdge) : ofJson? e.toJson = some e := by
  have hkind : Json.choice? EdgeKind.names (.string e.kind.name) = some e.kind := by
    cases e.kind <;> rfl
  have hrecord : Json.record? fieldNames e.toJson = _ :=
    Json.record?_object (List.Sublist.refl _) (by decide)
  simp [ofJson?, hrecord, List.lookup_cons, Json.asString?, hkind]

end GraphEdge

namespace ComponentDescriptor

theorem ofJson?_toJson (c : ComponentDescriptor) : ofJson? c.toJson = some c := by
  rw [ofJson?, toJson, Json.record?_object ?names (by decide)]
  case names =>
    -- The three fields that are always there, and after them the four that
    -- may be left out.
    simp only [List.map_append]
    suffices List.Sublist _ (["name", "category", "component_type"] ++
        ["implicit"] ++ ["input"] ++ ["output"] ++ ["interceptors"]) from this
    refine .append (.append (.append (.append (.refl _) ?_) ?_) ?_) ?_
    · cases c.implicit <;> simp
    · cases c.input <;> simp
    · cases c.output <;> simp
    · cases c.interceptors <;> simp
  generalize hr : Json.Record.mk _ false = r
  have hname : r.get? "name" = some (.string c.name) := by simp [← hr]
  have hcategory : r.get? "category" = some (.string c.category.name) := by
    simp [← hr, List.lookup_cons]
  have htype : r.get? "component_type" = some (.string c.componentType) := by
    simp [← hr, List.lookup_cons]
  have himplicit : r.getD "implicit" false Json.asBool? = some c.implicit := by
    have hgiven : r.get? "implicit" = if c.implicit then some (.bool true)
          else none := by
      simp [← hr, List.lookup_append, List.lookup_cons]
    exact Json.Record.getD_eq_some hgiven (by cases c.implicit <;> rfl)
  have hinput : r.getD "input" none Json.asOptionalString? = some c.input := by
    have hgiven : r.get? "input" = c.input.map .string := by
      simp [← hr, List.lookup_append, List.lookup_cons]
    exact Json.Record.getD_eq_some hgiven (by cases c.input <;> rfl)
  have houtput : r.getD "output" none Json.asOptionalString? = some c.output := by
    have hgiven : r.get? "output" = c.output.map .string := by
      simp [← hr, List.lookup_append, List.lookup_cons]
    exact Json.Record.getD_eq_some hgiven (by cases c.output <;> rfl)
  have hinterceptors :
      r.getD "interceptors" [] (fun value =>
        value.asArray?.bind (List.mapM Json.asString?)) = some c.interceptors := by
    have hgiven : r.get? "interceptors" =
        if c.interceptors.isEmpty then none
        else some (.array (c.interceptors.map .string)) := by
      simp [← hr, List.lookup_append, List.lookup_cons]
    refine Json.Record.getD_eq_some hgiven ?_
    split
    · next hnone => rw [List.isEmpty_iff.1 hnone, Option.elim_none]
    · have hread : ∀ name, Json.asString? (.string name) = some name := fun _ => rfl
      exact Json.mapM_map_eq_some hread c.interceptors
  simp only [hname, hcategory, htype, himplicit, hinput, houtput, hinterceptors,
    Json.asString?, Category.ofJson?_name, Option.bind_eq_bind, Option.bind_some]

end ComponentDescriptor

namespace FlowDescriptor

theorem ofJson?_toJson (d : FlowDescriptor) : ofJson? d.toJson = some d := by
  have hrecord : Json.record? fieldNames d.toJson = _ :=
    Json.record?_object (List.Sublist.refl _) (by decide)
  have hinput : Json.asOptionalString? (Json.ofOption Json.string d.inputChannel) =
      some d.inputChannel := by
    cases d.inputChannel <;> rfl
  simp [ofJson?, hrecord, List.lookup_cons, Json.Record.nullable?, Json.asString?,
    Json.asArray?, hinput, Json.mapM_map_eq_some ComponentDescriptor.ofJson?_toJson,
    Json.mapM_map_eq_some GraphEdge.ofJson?_toJson]

end FlowDescriptor

/-! ## Messages -/

namespace Message

/-- The message with headers set one after another. -/
def withHeaders (m : Message) (headers : List (String × Json)) : Message :=
  headers.foldl (fun m header => m.withHeader header.1 header.2) m

/-- The object of a message whose headers are gone through in some order. -/
def listing (m : Message) (headers : List (String × Json)) : Json :=
  .object [("headers", .object headers), ("payload", m.payload)]

/-- A message that was put together from any values. -/
structure Canonical (m : Message) : Prop where
  headers : Fields.Canonical m.headers
  payload : m.payload.canonical = m.payload

theorem canonical_new (payload : Json) : (new payload).Canonical :=
  ⟨.nil, Json.canonical_canonical payload⟩

theorem Canonical.withHeader {m : Message} (h : m.Canonical) (name : String)
    (value : Json) :
    (m.withHeader name value).Canonical :=
  ⟨h.headers.insert (Json.canonical_canonical value), h.payload⟩

theorem Canonical.withHeaders {m : Message} (h : m.Canonical)
    (headers : List (String × Json)) :
    (m.withHeaders headers).Canonical := by
  induction headers generalizing m with
  | nil => exact h
  | cons header rest ih => exact ih (h.withHeader header.1 header.2)

theorem payload_withHeaders (m : Message) (headers : List (String × Json)) :
    (m.withHeaders headers).payload = m.payload := by
  induction headers generalizing m with
  | nil => rfl
  | cons header rest ih => exact ih (m.withHeader header.1 header.2)

/-- Of the values set for a header the last one stands; where none was set,
what stood before. -/
theorem header?_withHeaders (m : Message) (headers : List (String × Json))
    (name : String) :
    (m.withHeaders headers).header? name =
      ((headers.reverse.lookup name).map Json.canonical).or (m.header? name) := by
  induction headers generalizing m with
  | nil => rfl
  | cons header rest ih =>
      obtain ⟨key, value⟩ := header
      have hstep : (m.withHeaders ((key, value) :: rest)) =
          (m.withHeader key value).withHeaders rest :=
        rfl
      rw [hstep, ih, List.reverse_cons, List.lookup_append]
      by_cases hname : name = key
      · subst hname
        cases rest.reverse.lookup name <;> simp [header?_withHeader_self]
      · simp [header?_withHeader_of_ne m hname, List.lookup_cons,
          beq_false_of_ne hname]

/-- The record of a message is read back, whatever the order of its headers. -/
theorem Canonical.ofJson?_listing {m : Message} (h : m.Canonical)
    {headers : List (String × Json)} (hheaders : headers.Perm m.headers) :
    ofJson? (m.listing headers) = some m := by
  have hrecord : Json.record? fieldNames (m.listing headers) = _ :=
    Json.record?_object (List.Sublist.refl _) (by decide)
  simp [ofJson?, hrecord, List.lookup_cons, Json.Record.getD, headersOf?,
    Json.canonicalFields_of_perm h.headers hheaders, h.payload]

/-- The object of a message does not depend on the order in which its headers
are gone through. -/
theorem Canonical.canonical_listing {m : Message} (h : m.Canonical)
    {headers : List (String × Json)} (hheaders : headers.Perm m.headers) :
    (m.listing headers).canonical = m.asValue := by
  have horder : "headers" < "payload" := by decide
  simp [listing, asValue, Json.canonical, Json.canonicalFields,
    Json.canonicalFields_of_perm h.headers hheaders, Fields.insert,
    horder, h.payload]

end Message

/-! ## Round trips -/

/-- Every descriptor is read back from what is written for it. A message that
was put together from a payload and headers holds for each name the value that
was set last. The object that paths start from is what is written for the
message; it is the same whatever order the headers are gone through in, and
the message is read back from it in each of these orders. -/
theorem records_read_back :
    (∀ d : FlowDescriptor, FlowDescriptor.ofJson? d.toJson = some d) ∧
    ∀ (payload : Json) (headers : List (String × Json)),
      let m := (Message.new payload).withHeaders headers
      m.payload = payload.canonical ∧
      (∀ name, m.header? name = (headers.reverse.lookup name).map Json.canonical) ∧
      m.asValue = m.toJson ∧
      Message.ofJson? m.asValue = some m ∧
      ∀ listed : List (String × Json), listed.Perm m.headers →
        (m.listing listed).canonical = m.asValue ∧
        Message.ofJson? (m.listing listed) = some m := by
  refine ⟨FlowDescriptor.ofJson?_toJson, fun payload headers => ?_⟩
  intro m
  have hm : m.Canonical := (Message.canonical_new payload).withHeaders headers
  have hheader (name : String) :
      m.header? name = (headers.reverse.lookup name).map Json.canonical := by
    have hnone : (Message.new payload).header? name = none := rfl
    rw [Message.header?_withHeaders, hnone, Option.or_none]
  exact ⟨Message.payload_withHeaders .., hheader, rfl, hm.ofJson?_listing (.refl _),
    fun listed hlisted =>
      ⟨hm.canonical_listing hlisted, hm.ofJson?_listing hlisted⟩⟩

/-- A message with one header set twice, read back from a record that has its
headers in descending order. -/
theorem records_read_back_descending :
    let m := (Message.new (.string "ping")).withHeaders
      [("type", .string "low"), ("size", .ofNat 2), ("type", .string "high")]
    let listed := [("type", .string "high"), ("size", .ofNat 2)]
    m.header? "type" = some (.string "high") ∧ listed.Perm m.headers ∧
      Message.ofJson? (m.listing listed) = some m := by
  intro m listed
  obtain ⟨-, hheader, -, -, horder⟩ := records_read_back.2 (.string "ping")
    [("type", .string "low"), ("size", .ofNat 2), ("type", .string "high")]
  have hheaders : m.headers = [("size", .ofNat 2), ("type", .string "high")] := rfl
  have hlisted : listed.Perm m.headers := hheaders ▸ .swap ..
  refine ⟨?_, hlisted, (horder listed hlisted).2⟩
  rw [hheader]
  rfl

end FlowAssembly
