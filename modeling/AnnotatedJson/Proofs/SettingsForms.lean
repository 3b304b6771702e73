/-
  Settings written in other ways.

  A client need not write settings as they are printed: members come in any order, among members that
  mean nothing, and a field goes by any of its names.

  * `RecordForm`: the other ways to write a record, given those of its fields;
  * `fields?_of_found`, `RecordForm.fields?`: the fields of a record are found in each of its forms;
  * `Settings.Form`: the other ways to write settings;
  * `Settings.ofClient?_form`: settings are read back from every form, alone or as a section.
-/
import Mathlib
import AnnotatedJson.Settings.Reader
import AnnotatedJson.Proofs.Places

namespace AnnotatedJson

/-! ## Fields and their names -/

/-- The names that a field goes by. -/
def RecordField.names (f : RecordField) : List String := f.name :: f.aliases

theorem RecordField.hasName_iff {f : RecordField} {name : String} :
    f.hasName name = true ↔ name ∈ f.names := by
  rw [hasName, names, Bool.or_eq_true, beq_iff_eq, List.contains_iff_mem, List.mem_cons, eq_comm]

/-- A field with the ways in which its value may be written: from the first value the second is made. -/
structure FieldForm where
  field : RecordField
  value : Json → Json → Prop

/-- The ways to write a record: each member goes by a name of its field and has a value written in one
    of the field's ways, members that no field goes by are added, and all come in any order. -/
inductive RecordForm (fields : List FieldForm) : Json → Json → Prop
  | intro {members renamed extra written : List (String × Json)} :
      List.Forall₂ (fun m m' => ∃ f ∈ fields, m.1 ∈ f.field.names ∧ m'.1 ∈ f.field.names ∧
        f.value m.2 m'.2) members renamed →
      (∀ m ∈ extra, ∀ f ∈ fields, m.1 ∉ f.field.names) →
      written.Perm (renamed ++ extra) →
      RecordForm fields (.object members) (.object written)

/-- The ways to write an array, given those of its items. -/
inductive ArrayForm (item : Json → Json → Prop) : Json → Json → Prop
  | intro {items written : List Json} : List.Forall₂ item items written →
      ArrayForm item (.array items) (.array written)

/-! ## Finding fields -/

section
variable {fields : List RecordField} {found members renamed extra : List (String × Json)}

/-- Where each field is found once, the values that are found are the values of the fields. -/
theorem fields?_of_found (longer : Bool)
    (h : List.Forall₂ (fun f m => members.filter (fun x => f.hasName x.1) = [m]) fields found) :
    (Json.object members).fields? longer fields = some (found.map fun m => some m.2) := by
  simp only [Json.fields?]
  induction h with
  | nil => rfl
  | cons hm _ ih => simp [List.mapM_cons, hm, ih]

theorem filter_names_eq_nil {f : RecordField} (h : ∀ m ∈ members, m.1 ∉ f.names) :
    members.filter (fun x => f.hasName x.1) = [] := by
  rw [List.filter_eq_nil_iff]
  intro m hm hname
  exact h m hm (RecordField.hasName_iff.1 hname)

theorem notMem_names_of_disjoint {f : RecordField}
    (h : List.Forall₂ (fun g m => m.1 ∈ g.names) fields renamed)
    (hf : ∀ g ∈ fields, f.names.Disjoint g.names) : ∀ m ∈ renamed, m.1 ∉ f.names := by
  induction h with
  | nil => simp
  | cons hm _ ih =>
    obtain ⟨hhead, htail⟩ := List.forall_mem_cons.1 hf
    exact List.forall_mem_cons.2 ⟨fun hname => hhead hname hm, ih htail⟩

/-- Among members that each go by a name of their own field, every field is found once. -/
theorem found_renamed (h : List.Forall₂ (fun f m => m.1 ∈ f.names) fields renamed)
    (hapart : fields.Pairwise fun f g => f.names.Disjoint g.names) :
    List.Forall₂ (fun f m => renamed.filter (fun x => f.hasName x.1) = [m]) fields renamed := by
  induction h with
  | nil => exact .nil
  | @cons f m fields renamed hm hrest ih =>
    obtain ⟨hhead, htail⟩ := List.pairwise_cons.1 hapart
    refine .cons ?_ (((List.forall₂_and_left _ _).2 ⟨hhead, ih htail⟩).imp ?_)
    · have hnone := filter_names_eq_nil (notMem_names_of_disjoint hrest hhead)
      rw [List.filter_cons, if_pos (RecordField.hasName_iff.2 hm), hnone]
    · rintro g m' ⟨hdisjoint, hfound⟩
      have hname : ¬ g.hasName m.1 = true := fun hg => hdisjoint hm (RecordField.hasName_iff.1 hg)
      rw [List.filter_cons, if_neg hname, hfound]

/-- Members that no field goes by and the order of the members change nothing. -/
theorem found_written (h : List.Forall₂ (fun f m => m.1 ∈ f.names) fields renamed)
    (hapart : fields.Pairwise fun f g => f.names.Disjoint g.names)
    (hextra : ∀ m ∈ extra, ∀ f ∈ fields, m.1 ∉ f.names) (hperm : members.Perm (renamed ++ extra)) :
    List.Forall₂ (fun f m => members.filter (fun x => f.hasName x.1) = [m]) fields renamed := by
  have hnone : ∀ f ∈ fields, extra.filter (fun x => f.hasName x.1) = [] :=
    fun f hf => filter_names_eq_nil fun m hm => hextra m hm f hf
  refine ((List.forall₂_and_left _ _).2 ⟨hnone, found_renamed h hapart⟩).imp ?_
  rintro f m ⟨hf, hfound⟩
  have hfilter := hperm.filter fun x => f.hasName x.1
  rw [List.filter_append, hfound, hf, List.append_nil] at hfilter
  exact List.perm_singleton.1 hfilter

end

/-! ## Records in their forms -/

/-- No name belongs to two fields. -/
def FieldsApart (fields : List FieldForm) : Prop :=
  fields.Pairwise fun f g => f.field.names.Disjoint g.field.names

theorem FieldsApart.eq_of_name {fields : List FieldForm} (h : FieldsApart fields) {f g : FieldForm}
    (hf : f ∈ fields) (hg : g ∈ fields) {name : String} (hname : name ∈ f.field.names)
    (hname' : name ∈ g.field.names) : f = g := by
  by_contra hne
  have : Std.Symm fun f g : FieldForm => f.field.names.Disjoint g.field.names := ⟨fun _ _ h => h.symm⟩
  exact List.Pairwise.forall h hf hg hne hname hname'

variable {record : List (FieldForm × Json)}

/-- Each value of a record is found in each of its forms, under one of its field's names. -/
theorem renamed_of_members {renamed : List (String × Json)} (hapart : FieldsApart (record.map Prod.fst))
    (h : List.Forall₂ (fun m m' => ∃ f ∈ record.map Prod.fst, m.1 ∈ f.field.names ∧
      m'.1 ∈ f.field.names ∧ f.value m.2 m'.2) (record.map fun x => (x.1.field.name, x.2)) renamed) :
    List.Forall₂ (fun x m => m.1 ∈ x.1.field.names ∧ x.1.value x.2 m.2) record renamed := by
  rw [List.forall₂_map_left_iff] at h
  have hmem : ∀ x ∈ record, x.1 ∈ record.map Prod.fst := fun x hx => List.mem_map_of_mem hx
  refine ((List.forall₂_and_left _ _).2 ⟨hmem, h⟩).imp ?_
  rintro x m ⟨hx, f, hf, hname, hname', hvalue⟩
  obtain rfl : x.1 = f := hapart.eq_of_name hx hf List.mem_cons_self hname
  exact ⟨hname', hvalue⟩

/-- **The values of a record are read from each of its forms.** -/
theorem RecordForm.fields? (record : List (FieldForm × Json))
    (hapart : FieldsApart (record.map Prod.fst))
    {v : Json} (h : RecordForm (record.map Prod.fst)
    (.object (record.map fun x => (x.1.field.name, x.2))) v)
    (longer : Bool) :
    ∃ values, v.fields? longer (record.map fun x => x.1.field) = some (values.map some) ∧
      List.Forall₂ (fun x w => x.1.value x.2 w) record values := by
  cases h with
  | @intro _ renamed extra written hmembers hextra hperm =>
    have hrenamed := renamed_of_members hapart hmembers
    have hnames : List.Forall₂ (fun f m => m.1 ∈ f.names) (record.map fun x => x.1.field) renamed :=
      List.forall₂_map_left_iff.2 (hrenamed.imp fun _ _ h => h.1)
    have hfields : (record.map fun x => x.1.field).Pairwise fun f g => f.names.Disjoint g.names := by
      rw [FieldsApart, List.pairwise_map] at hapart
      exact List.pairwise_map.2 hapart
    have hextra' : ∀ m ∈ extra, ∀ f ∈ record.map fun x => x.1.field, m.1 ∉ f.names := by
      intro m hm f hf
      obtain ⟨x, hx, rfl⟩ := List.mem_map.1 hf
      exact hextra m hm x.1 (List.mem_map_of_mem hx)
    refine ⟨renamed.map Prod.snd, ?_, List.forall₂_map_right_iff.2 (hrenamed.imp fun _ _ h => h.2)⟩
    rw [fields?_of_found longer (found_written hnames hfields hextra' hperm), List.map_map]
    rfl

/-! ## Bindings, the cache, settings -/

/-- The fields of a binding. -/
def SchemaBinding.fieldForms : List FieldForm :=
  [⟨⟨"label", []⟩, Eq⟩, ⟨⟨"schema", ["schemaUri"]⟩, Eq⟩,
    ⟨⟨"isAmisStyleSchema", ["is_amis_style_schema"]⟩, Eq⟩]

/-- The fields of the table of bindings. -/
def bindingsFieldForms : List FieldForm :=
  [⟨⟨"map", []⟩, ArrayForm (RecordForm SchemaBinding.fieldForms)⟩]

/-- The fields of the settings of the cache. -/
def CacheSettings.fieldForms : List FieldForm :=
  [⟨⟨"maxEntries", ["max_entries"]⟩, Eq⟩, ⟨⟨"cleanupIntervalSecs", ["cleanup_interval_secs"]⟩, Eq⟩,
    ⟨⟨"ttlSecs", ["ttl_secs"]⟩, Eq⟩]

/-- The fields of settings. -/
def Settings.fieldForms : List FieldForm :=
  [⟨⟨"schema", []⟩, RecordForm bindingsFieldForms⟩, ⟨⟨"validate", []⟩, Eq⟩,
    ⟨⟨"cache", []⟩, RecordForm CacheSettings.fieldForms⟩]

/-- The ways to write settings, all from the first of them. -/
def Settings.Form : Json → Json → Prop := RecordForm Settings.fieldForms

/-- The sizes among the settings of the cache have 64 bits. -/
structure CacheSettings.Sized (c : CacheSettings) : Prop where
  maxEntries : c.maxEntries < 0x10000000000000000
  cleanupIntervalSecs : c.cleanupIntervalSecs < 0x10000000000000000
  ttlSecs : ∀ n ∈ c.ttlSecs, n < 0x10000000000000000

theorem asSize?_ofNat {n : Nat} (h : n < 0x10000000000000000) : (Json.ofNat n).asSize? = some n := by
  have hnat : (Json.ofNat n).asNat? = some n := rfl
  rw [Json.asSize?, hnat, Option.filter_some, if_pos (by simpa using h)]

theorem asOptionalSize?_ofOption {size : Option Nat} (h : ∀ n ∈ size, n < 0x10000000000000000) :
    (Json.ofOption (size.map .ofNat)).asOptionalSize? = some size := by
  cases size with
  | none => rfl
  | some n =>
    have hsize := asSize?_ofNat (h n rfl)
    show (Json.ofNat n).asSize?.map some = some (some n)
    rw [hsize, Option.map_some]

section
variable (longer : Bool) {v : Json}

theorem SchemaBinding.ofJson?_form {b : SchemaBinding} (h : RecordForm fieldForms b.toJson v) :
    ofJson? longer v = some b := by
  obtain ⟨values, hvalues, hforms⟩ := RecordForm.fields?
    (fieldForms.zip [.string b.label, .string b.schema, .bool b.amisStyle])
    (by simp [FieldsApart, fieldForms, RecordField.names]) h longer
  simp only [fieldForms, List.zip_cons_cons, List.zip_nil_left, List.forall₂_cons_left_iff,
    List.forall₂_nil_left_iff] at hforms
  obtain ⟨_, _, rfl, ⟨_, _, rfl, ⟨_, _, rfl, rfl, rfl⟩, rfl⟩, rfl⟩ := hforms
  have hfields : v.fields? longer [⟨"label", []⟩, ⟨"schema", ["schemaUri"]⟩,
      ⟨"isAmisStyleSchema", ["is_amis_style_schema"]⟩] =
    some [some (.string b.label), some (.string b.schema), some (.bool b.amisStyle)] := hvalues
  rw [ofJson?, hfields]
  rfl

theorem mapM_ofJson?_form {bs : List SchemaBinding} {written : List Json}
    (h : List.Forall₂ (RecordForm SchemaBinding.fieldForms) (bs.map SchemaBinding.toJson) written) :
    written.mapM (SchemaBinding.ofJson? longer) = some bs := by
  induction bs generalizing written with
  | nil =>
    rw [List.map_nil, List.forall₂_nil_left_iff] at h
    subst h
    rfl
  | cons b bs ih =>
    rw [List.map_cons, List.forall₂_cons_left_iff] at h
    obtain ⟨w, ws, hw, hws, rfl⟩ := h
    simp [List.mapM_cons, SchemaBinding.ofJson?_form longer hw, ih hws]

theorem bindingsOfJson?_form {bs : List SchemaBinding}
    (h : RecordForm bindingsFieldForms (.object [("map", .array (bs.map SchemaBinding.toJson))]) v) :
    bindingsOfJson? longer v = some bs := by
  obtain ⟨values, hvalues, hforms⟩ := RecordForm.fields?
    (bindingsFieldForms.zip [.array (bs.map SchemaBinding.toJson)])
    (by simp [FieldsApart, bindingsFieldForms]) h longer
  simp only [bindingsFieldForms, List.zip_cons_cons, List.zip_nil_left, List.forall₂_cons_left_iff,
    List.forall₂_nil_left_iff] at hforms
  obtain ⟨_, _, hmap, rfl, rfl⟩ := hforms
  cases hmap with
  | @intro _ written hitems =>
    have hfields : v.fields? longer [⟨"map", []⟩] = some [some (.array written)] := hvalues
    rw [bindingsOfJson?, hfields]
    exact mapM_ofJson?_form longer hitems

theorem CacheSettings.ofJson?_form {c : CacheSettings} (hc : c.Sized)
    (h : RecordForm fieldForms c.toJson v) : ofJson? longer v = some c := by
  obtain ⟨values, hvalues, hforms⟩ := RecordForm.fields?
    (fieldForms.zip [.ofNat c.maxEntries, .ofNat c.cleanupIntervalSecs,
      .ofOption (c.ttlSecs.map .ofNat)])
    (by simp [FieldsApart, fieldForms, RecordField.names]) h longer
  simp only [fieldForms, List.zip_cons_cons, List.zip_nil_left, List.forall₂_cons_left_iff,
    List.forall₂_nil_left_iff] at hforms
  obtain ⟨_, _, rfl, ⟨_, _, rfl, ⟨_, _, rfl, rfl, rfl⟩, rfl⟩, rfl⟩ := hforms
  have hfields : v.fields? longer [⟨"maxEntries", ["max_entries"]⟩,
      ⟨"cleanupIntervalSecs", ["cleanup_interval_secs"]⟩, ⟨"ttlSecs", ["ttl_secs"]⟩] =
    some [some (.ofNat c.maxEntries), some (.ofNat c.cleanupIntervalSecs),
      some (.ofOption (c.ttlSecs.map .ofNat))] := hvalues
  rw [ofJson?, hfields]
  simp [readField?, asSize?_ofNat hc.maxEntries, asSize?_ofNat hc.cleanupIntervalSecs,
    asOptionalSize?_ofOption hc.ttlSecs]

theorem Settings.ofValue?_form {s : Settings} (hs : s.cache.Sized) (h : Settings.Form s.toJson v) :
    ofValue? longer v = some s := by
  obtain ⟨values, hvalues, hforms⟩ := RecordForm.fields?
    (fieldForms.zip [.object [("map", .array (s.bindings.map SchemaBinding.toJson))], .bool s.validate,
      s.cache.toJson])
    (by simp [FieldsApart, fieldForms, RecordField.names]) h longer
  simp only [fieldForms, List.zip_cons_cons, List.zip_nil_left, List.forall₂_cons_left_iff,
    List.forall₂_nil_left_iff] at hforms
  obtain ⟨schema, _, hschema, ⟨_, _, rfl, ⟨cache, _, hcache, rfl, rfl⟩, rfl⟩, rfl⟩ := hforms
  have hfields : v.fields? longer [⟨"schema", []⟩, ⟨"validate", []⟩, ⟨"cache", []⟩] =
    some [some schema, some (.bool s.validate), some cache] := hvalues
  rw [ofValue?, hfields]
  simp [readField?, bindingsOfJson?_form longer hschema, CacheSettings.ofJson?_form longer hs hcache,
    Json.asBool?]

end

namespace Settings

/-- **Settings survive the client's form.**  However a client writes settings, with other names for
    their fields, in another order and among members that mean nothing, they are read back: from the
    value itself, unless it has a section of its own, and from every object that has the value as
    its section. -/
theorem ofClient?_form {s : Settings} (hs : s.cache.Sized) {v : Json} (h : Form s.toJson v) :
    (v.member? clientSection = none → ofClient? v = some s) ∧
    ∀ outer : List (String × Json), (outer.map (·.1)).Nodup → (clientSection, v) ∈ outer →
      ofClient? (.object outer) = some s := by
  have hread : ofJson? v = some s := ofValue?_form false hs h
  constructor
  · intro hnone
    cases h
    rw [ofClient?, hnone, Option.getD_none, hread]
    simp
  · intro outer hnodup hmem
    have hsection : (Json.object outer).member? clientSection = some v := Json.lookup_of_mem hnodup hmem
    rw [ofClient?, hsection, Option.getD_some, hread]
    simp

-- In each of the four objects the first member has been moved behind the others and a comment.
theorem ofClient?_form_aliased :
    Settings.ofClient? (.object [("other", .bool false), ("amisLanguageServer", .object [
      ("validate", .bool true),
      ("cache", .object [("cleanup_interval_secs", .ofNat 0), ("ttl_secs", .null), ("$comment", .null),
        ("max_entries", .ofNat 4)]),
      ("$comment", .null),
      ("schema", .object [("$comment", .null), ("map", .array [.object [
        ("schemaUri", .string "file:///form.json"), ("is_amis_style_schema", .bool true),
        ("$comment", .null), ("label", .string "form")]])])])]) =
    some ⟨[⟨"form", "file:///form.json", true⟩], true, ⟨4, 0, none⟩⟩ := by
  have hbinding : RecordForm SchemaBinding.fieldForms
      (SchemaBinding.toJson ⟨"form", "file:///form.json", true⟩)
      (.object [("schemaUri", .string "file:///form.json"), ("is_amis_style_schema", .bool true),
        ("$comment", .null), ("label", .string "form")]) :=
    @RecordForm.intro _ _ [("label", _), ("schemaUri", _), ("is_amis_style_schema", _)]
      [("$comment", _)] _ (by simp [SchemaBinding.fieldForms, RecordField.names])
      (by simp [SchemaBinding.fieldForms, RecordField.names]) (List.perm_append_singleton _ [_, _, _])
  have hschema : RecordForm bindingsFieldForms
      (.object [("map", .array [SchemaBinding.toJson ⟨"form", "file:///form.json", true⟩])])
      (.object [("$comment", .null),
        ("map", .array [.object [("schemaUri", .string "file:///form.json"),
        ("is_amis_style_schema", .bool true), ("$comment", .null), ("label", .string "form")]])]) :=
    @RecordForm.intro _ _ [("map", _)] [("$comment", .null)] _
      (.cons ⟨_, .head _, .head _, .head _, .intro (.cons hbinding .nil)⟩ .nil)
      (by simp [bindingsFieldForms, RecordField.names]) (List.perm_append_singleton _ [_])
  have hcache : RecordForm CacheSettings.fieldForms (CacheSettings.toJson ⟨4, 0, none⟩)
      (.object [("cleanup_interval_secs", .ofNat 0), ("ttl_secs", .null), ("$comment", .null),
        ("max_entries", .ofNat 4)]) :=
    @RecordForm.intro _ _ [("max_entries", _), ("cleanup_interval_secs", _), ("ttl_secs", _)]
      [("$comment", _)] _ (by simp [CacheSettings.fieldForms, RecordField.names, Json.ofOption])
      (by simp [CacheSettings.fieldForms, RecordField.names]) (List.perm_append_singleton _ [_, _, _])
  have hsettings : Form (toJson ⟨[⟨"form", "file:///form.json", true⟩], true, ⟨4, 0, none⟩⟩) _ :=
    @RecordForm.intro _ _ [("schema", _), ("validate", .bool true), ("cache", _)]
      [("$comment", .null)] _
      (.cons ⟨_, .head _, .head _, .head _, hschema⟩
        (.cons ⟨_, .tail _ (.head _), .head _, .head _, rfl⟩
        (.cons ⟨_, .tail _ (.tail _ (.head _)), .head _, .head _, hcache⟩ .nil)))
      (by simp [fieldForms, RecordField.names]) (List.perm_append_singleton _ [_, _, _])
  exact (ofClient?_form ⟨by decide, by decide, by simp⟩ hsettings).2 _ (by decide) (.tail _ (.head _))

end Settings

end AnnotatedJson
