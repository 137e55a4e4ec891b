import StoryManifest.Proofs.Merging
import StoryManifest.Proofs.Source.Export

/-!
What is extracted from a story that exports written metadata. The export is the only declaration and the
parts of the metadata are the only candidates, one after the other; merging them gives every name its
property, and nothing has to be left out on the way.
-/

namespace StoryManifest.Story

open Source (Node Program IsArgs IsExport IsMetadata FitsReal OfObjects)
open Literal (IsLiteral HasMembers)

/-! ### The declaration -/

section

variable {P : Node → Prop} (hP : OfObjects P) (place : Source.Place) {n : Node} (h : IsExport P n)

include hP h

theorem topLevelOf_export : ∃ object, P object ∧
    topLevelOf (Source.Parser.build .program place [n]) = { defaultValue := some object } := by
  obtain ⟨object, hvalue, hobject⟩ := h.value
  have hlabel : n.label = .named .exportStatement := by simpa [Node.is] using h.statement
  have hobjectLabel : object.label = .named .object := by simpa [Node.is] using hP.object hobject
  have hunwrap : object.unwrap = object := by
    obtain ⟨label, role, start, stop, text, children⟩ := object
    obtain rfl : label = .named .object := hobjectLabel
    rfl
  refine ⟨object, hobject, ?_⟩
  have hchildren : (Source.Parser.build .program place [n]).namedChildren = [n] := by
    simp [Source.Parser.build, Node.namedChildren, Node.isNamed, hlabel]
  have hdefault : isDefaultExport n = true := h.default
  rw [topLevelOf, hchildren]
  simp [TopLevel.add, TopLevel.addExport, isVariables, Node.is, hlabel, hdefault, hvalue, hunwrap,
    hobjectLabel]

theorem declarations_export : ∃ object, P object ∧
    declarations (Source.Parser.build .program place [n]) = [⟨.defaultExport, none, object, none⟩] := by
  obtain ⟨object, hobject, htop⟩ := topLevelOf_export hP place h
  refine ⟨object, hobject, ?_⟩
  rw [declarations, htop]
  simp [found, Fields.find?, distinctNodes]

end

/-! ### The candidates -/

/-- A candidate has an entry for each field of a record. -/
structure Holds (part : Part) (fields : Fields Value) (c : Candidate) : Prop where
  part : c.part = part
  entries : c.entries.map (fun e => (e.name, e.value)) = fields

/-- Named members give an entry each and leave nothing to report. -/
theorem entries_of_members (p : Program) (label : String) :
    ∀ {es : List Literal.Entry} {fields : Fields Value},
    es.map (fun e => (e.key, Literal.evaluate e.value)) = fields.map (fun f => (.named f.1, f.2)) →
    (es.filterMap candidateEntryOf?).map (fun e => (e.name, e.value)) = fields ∧
      es.filterMap (skippedOf? p label) = []
  | [], [], _ => ⟨rfl, rfl⟩
  | [], _ :: _, h => by cases h
  | _ :: _, [], h => by cases h
  | e :: es, f :: fields, h => by
    rw [List.map_cons, List.map_cons] at h
    obtain ⟨hhead, htail⟩ := List.cons.inj h
    obtain ⟨hkey, hvalue⟩ := Prod.mk.inj hhead
    obtain ⟨hentries, hskipped⟩ := entries_of_members p label htail
    simp [candidateEntryOf?, skippedOf?, hkey, hvalue, hentries, hskipped, Literal.Key.name?]

theorem candidateOf_literal (p : Program) (d : Declaration) (label : String) (part : Part)
    {fields : Fields Value} {n : Node} (h : IsLiteral (.record fields) n) :
    ∃ c, candidateOf p d label part n = ([c], []) ∧ Holds part fields c ∧ c.position = n.start.byte := by
  obtain ⟨hobject, hmembers⟩ := h.members fields rfl
  obtain ⟨hentries, hskipped⟩ := entries_of_members p label hmembers
  refine ⟨⟨part, d.provenance, label, n.start.byte, n.line, _⟩, ?_, ⟨rfl, hentries⟩, rfl⟩
  rw [candidateOf, if_pos hobject]
  simp only [hskipped]

theorem mergeSort_pair {α : Type} {le : α → α → Bool} {a b : α} (h : le a b = true) :
    [a, b].mergeSort le = [a, b] := List.mergeSort_of_pairwise (by simp [h])

theorem partsOf_metadata {A T : Fields Value} {object : Node}
    (h : IsMetadata (.record A) (.record T) object) : ∃ args types,
      partsOf object = [(.args, args), (.argTypes, types)] ∧ IsLiteral (.record A) args ∧
        IsLiteral (.record T) types ∧ args.start.byte ≤ types.start.byte := by
  obtain ⟨args, types, hentries, hargs, htypes, hle⟩ := h.entries
  refine ⟨args, types, ?_, hargs, htypes, hle⟩
  have hof : Part.ofKey? "args" = some .args ∧ Part.ofKey? "argTypes" = some .argTypes := by decide
  rw [partsOf, hentries]
  simp [Literal.Key.name?, hof.1, hof.2, hargs.unwrap, htypes.unwrap, mergeSort_pair, hle]

theorem candidatesOf_metadata (p : Program) {A T : Fields Value} {object : Node}
    (h : IsMetadata (.record A) (.record T) object) : ∃ args types,
      candidatesOf p ⟨.defaultExport, none, object, none⟩ = ([args, types], []) ∧
        Holds .args A args ∧ Holds .argTypes T types ∧ args.position ≤ types.position := by
  obtain ⟨a, t, hparts, ha, ht, hle⟩ := partsOf_metadata h
  obtain ⟨args, hargs, hargsHolds, hargsPosition⟩ :=
    candidateOf_literal p ⟨.defaultExport, none, object, none⟩ ("default export." ++ Part.args.key)
      .args ha
  obtain ⟨types, htypes, htypesHolds, htypesPosition⟩ :=
    candidateOf_literal p ⟨.defaultExport, none, object, none⟩ ("default export." ++ Part.argTypes.key)
      .argTypes ht
  refine ⟨args, types, ?_, hargsHolds, htypesHolds, by rw [hargsPosition, htypesPosition]; exact hle⟩
  simp [candidatesOf, Declaration.isObject, Declaration.label, h.object, hparts, hargs, htypes]

/-- The candidates of a program that exports metadata are its two parts. -/
theorem locate_export (v : Source.Variant) (text : List Char) (place : Source.Place)
    {A T : Fields Value} {n : Node} (h : IsExport (IsMetadata (.record A) (.record T)) n) : ∃ args types ds,
      locate ⟨v, text, Source.Parser.build .program place [n]⟩ = ⟨ds, [args, types], []⟩ ∧
        Holds .args A args ∧ Holds .argTypes T types := by
  obtain ⟨object, hobject, hdeclarations⟩ := declarations_export (Source.ofObjects_isMetadata _ _) place h
  obtain ⟨args, types, hcandidates, hargs, htypes, hle⟩ :=
    candidatesOf_metadata ⟨v, text, Source.Parser.build .program place [n]⟩ hobject
  refine ⟨args, types, [⟨.defaultExport, none, object, none⟩], ?_, hargs, htypes⟩
  rw [locate, hdeclarations]
  simp [hcandidates, mergeSort_pair, hle]

/-! ### Nothing is left out -/

/-- An entry that merging takes in whole: a static value, or a record whose default value is static. -/
def Quiet : Reading → Prop
  | (.args, e) => ¬e.value.Marked
  | (.argTypes, e) => ∃ fields, e.value = .record fields ∧
      ∀ x, Fields.find? "defaultValue" fields = some x → ¬x.Marked

theorem staticDefault_snd {label : String} {e : CandidateEntry} {x : Value} (h : ¬x.Marked) :
    (staticDefault label e x).2 = [] := by
  simp [staticDefault, (Value.unsupportedKind_eq_none x).mpr h]

theorem reportedOf_quiet {part : Part} {e : CandidateEntry} (h : Quiet (part, e)) (label : String) :
    reportedOf part label e = [] := by
  rw [reportedOf]
  cases part with
  | args => exact staticDefault_snd h
  | argTypes =>
    obtain ⟨fields, hfields, hdefault⟩ := h
    cases hx : Fields.find? "defaultValue" fields with
    | none => simp [update, hfields, hx]
    | some x => simpa [update, hfields, hx] using staticDefault_snd (hdefault x hx)

/-- Entries that are taken in whole leave nothing to report. -/
theorem diagnostics_merge {cs : List Candidate} (h : ∀ r ∈ readings cs, Quiet r) :
    (merge cs).diagnostics = [] := by
  rw [diagnostics_merge_eq, List.flatMap_eq_nil_iff]
  refine fun c hc => List.flatMap_eq_nil_iff.mpr fun e he => reportedOf_quiet (h (c.part, e) ?_) _
  exact List.mem_flatMap.mpr ⟨c, hc, List.mem_map_of_mem he⟩

/-! ### Two candidates -/

theorem eraseDups_of_nodup : ∀ {ks : List String}, ks.Nodup → ks.eraseDups = ks
  | [], _ => rfl
  | k :: ks, h => by
    rw [List.nodup_cons] at h
    have hrest : ks.filter (fun j => !j == k) = ks :=
      List.filter_eq_self.mpr fun j hj => by simpa using fun hjk : j = k => h.1 (hjk ▸ hj)
    rw [List.eraseDups_cons, hrest, eraseDups_of_nodup h.2]

section

variable {A R : Fields Value} {args types : Candidate} (hargs : Holds .args A args)
  (htypes : Holds .argTypes R types)

include hargs htypes

/-- What merging sees of the readings of two candidates. -/
theorem readings_pair : (readings [args, types]).map (fun r => (r.1, r.2.name, r.2.value)) =
    A.map (fun f => (Part.args, f)) ++ R.map fun f => (Part.argTypes, f) := by
  rw [← hargs.entries, ← htypes.entries]
  simp [readings, hargs.part, htypes.part, Function.comp_def]

theorem namesOf_pair (hA : A.keys.Nodup) (hR : R.keys.Nodup) :
    namesOf (readings [args, types]) = A.keys ++ R.keys.filter (· ∉ A.keys) := by
  have hnames : (readings [args, types]).map (·.2.name) = A.keys ++ R.keys := by
    have h := congrArg (List.map fun t : Part × String × Value => t.2.1) (readings_pair hargs htypes)
    simpa [Fields.keys, Function.comp_def] using h
  have hremoved : R.keys.removeAll A.keys = R.keys.filter (· ∉ A.keys) := by
    simp [List.removeAll]
  rw [namesOf, hnames, List.eraseDups_append, eraseDups_of_nodup hA, hremoved,
    eraseDups_of_nodup (hR.filter _)]

/-- The last that two candidates give for a name: the second one counts first. -/
theorem lastOf_pair {α : Type} (give : Part → Value → Option α) (name : String) (hA : A.keys.Nodup)
    (hR : R.keys.Nodup) : lastOf give (readings [args, types]) name =
      ((R.find? name).bind (give .argTypes)).or ((A.find? name).bind (give .args)) := by
  have hview : lastOf give (readings [args, types]) name =
      ((((readings [args, types]).map fun r => (r.1, r.2.name, r.2.value)).filter
        (·.2.1 = name)).filterMap fun t => give t.1 t.2.2).getLast? := by
    simp [lastOf, List.filter_map, List.filterMap_map, Function.comp_def]
  have hfilter : ∀ (part : Part) {fields : Fields Value}, fields.keys.Nodup →
      ((fields.map fun f => (part, f)).filter (·.2.1 = name)).filterMap (fun t => give t.1 t.2.2) =
        ((fields.find? name).bind (give part)).toList := by
    intro part fields hfields
    have hkey := Fields.filter_key name hfields
    rw [List.filter_map, List.filterMap_map]
    show ((List.filter (·.1 = name) fields).filterMap fun f => give part f.2) = _
    rw [hkey]
    cases fields.find? name with
    | none => rfl
    | some v => cases h : give part v <;> simp [h]
  have hlast : ∀ o : Option α, o.toList.getLast? = o := by rintro (- | x) <;> rfl
  rw [hview, readings_pair hargs htypes, List.filter_append, List.filterMap_append, hfilter .args hA,
    hfilter .argTypes hR, List.getLast?_append, hlast, hlast]

end

/-! ### Descriptions -/

/-- What the second part of metadata may say of a property. -/
structure Description where
  type : Option String
  description : Option String
  default : Option Value

namespace Description

/-- The fields of a description; what it lacks is left out. -/
def fields (d : Description) : Fields Value :=
  (d.type.map fun name => ("type", .record [("name", .text name)])).toList ++
    (d.description.map fun text => ("description", .text text)).toList ++
    (d.default.map fun v => ("defaultValue", v)).toList

/-- A record has the fields of a description, in whatever order. -/
def WrittenAs (d : Description) (v : Value) : Prop :=
  ∃ fields, v = .record fields ∧ List.Perm fields d.fields

/-- The default value is a plain one, if there is one. -/
def Fits (d : Description) : Prop := ∀ v ∈ d.default, v.Plain FitsReal

variable {d : Description} {v : Value}

theorem nodup_fields (d : Description) : d.fields.keys.Nodup := by
  obtain ⟨_ | _, _ | _, _ | _⟩ := d <;> simp [fields]

theorem plain_fields (h : d.Fits) : ∀ e ∈ d.fields, e.2.Plain FitsReal := by
  intro e he
  simp only [fields, List.mem_append, Option.mem_toList, Option.map_eq_some_iff] at he
  obtain (⟨name, -, rfl⟩ | ⟨text, -, rfl⟩) | ⟨x, hx, rfl⟩ := he
  · exact .record (by simp) (by simpa using .text name)
  · exact .text text
  · exact h x hx

theorem WrittenAs.plain (h : d.WrittenAs v) (hd : d.Fits) : v.Plain FitsReal := by
  obtain ⟨fields, rfl, hperm⟩ := h
  refine .record ((hperm.map Prod.fst).nodup_iff.mpr d.nodup_fields) fun e he => ?_
  exact plain_fields hd e (hperm.mem_iff.mp he)

/-- Looking up a field of a record is looking it up in the description. -/
theorem WrittenAs.described? (h : d.WrittenAs v) (key : String) :
    described? key .argTypes v = d.fields.find? key := by
  obtain ⟨fields, rfl, hperm⟩ := h
  exact Fields.find?_perm hperm d.nodup_fields key

theorem WrittenAs.type (h : d.WrittenAs v) :
    describedType? .argTypes v = d.type.bind PropertyType.ofDeclared? := by
  have hfield : d.fields.find? "type" = d.type.map fun name => .record [("name", .text name)] := by
    obtain ⟨_ | _, _ | _, _ | _⟩ := d <;> simp [fields, Fields.find?]
  rw [describedType?, h.described?, hfield]
  cases d.type <;> simp [typeName?, Value.field?, Fields.find?, Value.asText?]

theorem WrittenAs.description (h : d.WrittenAs v) :
    describedText? .argTypes v = d.description := by
  have hfield : d.fields.find? "description" = d.description.map .text := by
    obtain ⟨_ | _, _ | _, _ | _⟩ := d <;> simp [fields, Fields.find?]
  rw [describedText?, h.described?, hfield]
  cases d.description <;> simp [Value.asText?]

theorem WrittenAs.default (h : d.WrittenAs v) (hd : d.Fits) :
    describedDefault? .argTypes v = d.default := by
  have hfield : d.fields.find? "defaultValue" = d.default := by
    obtain ⟨_ | _, _ | _, _ | _⟩ := d <;> simp [fields, Fields.find?]
  rw [describedDefault?, h.described?, hfield]
  cases hx : d.default with
  | none => rfl
  | some x => simp [unmarked?, (hd x hx).not_marked]

end Description

/-- The property that a value in the first part of metadata and a description in the second make. -/
def describedProperty (name : String) (given : Option Value) (d : Option Description) : Property :=
  let default := given.or (d.bind Description.default)
  { name
    type := (((d.bind Description.type).bind PropertyType.ofDeclared?).or
      (default.bind PropertyType.ofValue?)).getD .unknown
    description := d.bind Description.description
    default
    isList := default.any Value.isList }

/-- A text that exports metadata whose parts have given texts. -/
def exportText (args argTypes : String) : String :=
  "export default \x7b args: " ++ args ++ ", argTypes: " ++ argTypes ++ " \x7d;"

theorem exportText_eq (args argTypes : List Char) :
    exportText (String.ofList args) (String.ofList argTypes) =
      String.ofList (Source.exportChars args argTypes) := by
  have h : exportText (String.ofList args) (String.ofList argTypes) =
      String.ofList (Source.exportWord ++ ' ' :: (Source.defaultWord ++ ' ' :: '\x7b' :: ' ' ::
        (Source.argsWord ++ [':', ' ']))) ++ String.ofList args ++
      String.ofList (',' :: ' ' :: (Source.argTypesWord ++ [':', ' '])) ++ String.ofList argTypes ++
      String.ofList [' ', '\x7d', ';'] := rfl
  rw [h, ← String.ofList_append, ← String.ofList_append, ← String.ofList_append,
    ← String.ofList_append]
  congr 1
  simp only [Source.exportChars, Source.defaultExportChars, Source.metadataChars, List.append_assoc,
    List.cons_append,
    List.nil_append]

/-! ### Extraction -/

section

variable {A R : Fields Value} {T : Fields Description} {args types : Candidate}
  (hargs : Holds .args A args) (htypes : Holds .argTypes R types)
  (hA : (Value.record A).Plain FitsReal) (hT : T.keys.Nodup)
  (hR : Fields.Related (fun d v => d.Fits ∧ d.WrittenAs v) T R)

include hT hR

theorem plain_written : (Value.record R).Plain FitsReal := by
  refine .record (hR.keys_eq ▸ hT) fun e he => ?_
  obtain ⟨d, hfits, hwritten⟩ := hR.exists_of_mem he
  exact hwritten.plain hfits

include hargs htypes hA

/-- What only descriptions give. -/
theorem lastOf_described {α : Type} {give : Part → Value → Option α} {f : Description → Option α}
    (hgiven : ∀ v, give .args v = none)
    (hdescribed : ∀ d v, d.Fits → d.WrittenAs v → give .argTypes v = f d) (name : String) :
    lastOf give (readings [args, types]) name = (T.find? name).bind f := by
  have hnone : (A.find? name).bind (give .args) = none := by
    cases A.find? name <;> simp [hgiven]
  have hkeys : R.keys.Nodup := hR.keys_eq ▸ hT
  rw [lastOf_pair hargs htypes give name hA.nodup_keys hkeys, hnone, Option.or_none]
  exact hR.bind_find? (fun d v h => hdescribed d v h.1 h.2) name

theorem lastOf_given (name : String) :
    lastOf givenDefault? (readings [args, types]) name = A.find? name := by
  have hkeys : R.keys.Nodup := hR.keys_eq ▸ hT
  have hnone : (R.find? name).bind (givenDefault? .argTypes) = none := by
    cases R.find? name <;> rfl
  rw [lastOf_pair hargs htypes givenDefault? name hA.nodup_keys hkeys, hnone, Option.none_or]
  cases hx : A.find? name with
  | none => rfl
  | some x => simp [givenDefault?, unmarked?, (hA.of_find? hx).not_marked]

theorem propertyOf_pair (name : String) : propertyOf (readings [args, types]) name =
    describedProperty name (A.find? name) (T.find? name) := by
  have htype := lastOf_described hargs htypes hA hT hR (fun _ => rfl)
    (fun d v _ h => Description.WrittenAs.type h) name
  have hdescription := lastOf_described hargs htypes hA hT hR (fun _ => rfl)
    (fun d v _ h => Description.WrittenAs.description h) name
  have hdescribed := lastOf_described hargs htypes hA hT hR (fun _ => rfl)
    (fun d v hd h => Description.WrittenAs.default h hd) name
  have hdefault : defaultOf (readings [args, types]) name =
      (A.find? name).or ((T.find? name).bind Description.default) := by
    rw [defaultOf, lastOf_given hargs htypes hA hT hR, hdescribed]
  rw [propertyOf, describedProperty, hdefault, htype, hdescription, Option.bind_assoc]
  generalize (A.find? name).or ((T.find? name).bind Description.default) = default
  congr 1
  obtain _ | v := default
  · rfl
  · cases v <;> rfl

omit hT in
theorem quiet_pair : ∀ r ∈ readings [args, types], Quiet r := by
  rintro ⟨part, e⟩ hr
  have hmem : (part, e.name, e.value) ∈
      A.map (fun f => (Part.args, f)) ++ R.map fun f => (Part.argTypes, f) :=
    readings_pair hargs htypes ▸ List.mem_map.mpr ⟨(part, e), hr, rfl⟩
  rcases List.mem_append.mp hmem with h | h
  · obtain ⟨f, hf, hfe⟩ := List.mem_map.mp h
    obtain ⟨rfl, rfl⟩ := Prod.mk.inj hfe
    exact (hA.of_find? (Fields.find?_of_mem hA.nodup_keys hf)).not_marked
  · obtain ⟨f, hf, hfe⟩ := List.mem_map.mp h
    obtain ⟨rfl, rfl⟩ := Prod.mk.inj hfe
    obtain ⟨d, hfits, hwritten⟩ := hR.exists_of_mem hf
    have hplain : e.value.Plain FitsReal := hwritten.plain hfits
    obtain ⟨fields, hvalue : e.value = .record fields, -⟩ := hwritten
    rw [hvalue] at hplain
    exact ⟨fields, hvalue, fun x hx => (hplain.of_find? hx).not_marked⟩

end

/-- A story that exports a record of plain values and descriptions of properties, both written as JSON,
is extracted in every variant and with nothing to report. Each key of the first part has a property, in
order, then each key that only the second part has. -/
theorem extract_exportText (v : Source.Variant) (sp : Json.Spacing) {A : Fields Value}
    {T : Fields Description} {R : Fields Value} (hA : (Value.record A).Plain FitsReal)
    (hT : T.keys.Nodup) (hR : Fields.Related (fun d r => d.Fits ∧ d.WrittenAs r) T R) :
    ∃ args argTypes, Json.write sp 0 (.record A) = some args ∧
      Json.write sp 0 (.record R) = some argTypes ∧
      (Program.ofText v (exportText args argTypes)).map extract =
        .ok ⟨(A.keys ++ T.keys.filter (· ∉ A.keys)).map fun k =>
          describedProperty k (A.find? k) (T.find? k), []⟩ := by
  have hplain := plain_written hT hR
  refine ⟨_, _, Json.write_of_not_marked sp 0 hA.not_marked,
    Json.write_of_not_marked sp 0 hplain.not_marked, ?_⟩
  obtain ⟨place, n, hexport, hprogram⟩ := Source.ofText_exportChars v sp hA hplain rfl
  obtain ⟨args, types, ds, hlocate, hargs, htypes⟩ := locate_export v
    (Source.exportChars (Json.chars sp 0 (.record A)) (Json.chars sp 0 (.record R))) place hexport
  rw [exportText_eq, hprogram]
  have hproperties : (merge [args, types]).properties =
      (A.keys ++ T.keys.filter (· ∉ A.keys)).map fun k =>
        describedProperty k (A.find? k) (T.find? k) := by
    rw [(merge_reads [args, types]).properties, namesOf_pair hargs htypes hA.nodup_keys
      (hR.keys_eq ▸ hT), hR.keys_eq]
    exact List.map_congr_left fun k _ => propertyOf_pair hargs htypes hA hT hR k
  have hdiagnostics := diagnostics_merge (quiet_pair hargs htypes hA hR)
  simp only [Except.map, extract, hlocate, hproperties, hdiagnostics, List.nil_append]
  rw [Diagnostic.sortByLine, List.mergeSort_nil]

/-- Descriptions of a size, which the first part of metadata has too, and of a list. -/
def chipDescriptions : Fields Description :=
  [("size", ⟨some "Number", some "in \"px\"\n", some (.number (.integer 4))⟩),
    ("tags", ⟨some "array", none, some (.list [.null, .bool true])⟩)]

theorem extract_exportText_chip :
    ∃ args argTypes,
      Json.write .compact 0 (.record [("lab\\el", .text "\x00\u1F600\x7d"),
        ("size", .number (.integer (-3)))]) = some args ∧
      Json.write .compact 0 (.record [
        ("size", .record [("defaultValue", .number (.integer 4)),
          ("type", .record [("name", .text "Number")]), ("description", .text "in \"px\"\n")]),
        ("tags", .record [("type", .record [("name", .text "array")]),
          ("defaultValue", .list [.null, .bool true])])]) = some argTypes ∧
      (Program.ofText .tsx (exportText args argTypes)).map extract = .ok
        ⟨[⟨"lab\\el", .string, none, some (.text "\x00\u1F600\x7d"), false⟩,
          ⟨"size", .number, some "in \"px\"\n", some (.number (.integer (-3))), false⟩,
          ⟨"tags", .object, none, some (.list [.null, .bool true]), true⟩], []⟩ := by
  have hsize : (⟨some "Number", some "in \"px\"\n", some (.number (.integer 4))⟩ : Description).Fits := by
    rintro v ⟨⟩
    exact .number (by decide)
  have htags : (⟨some "array", none, some (.list [.null, .bool true])⟩ : Description).Fits := by
    rintro v ⟨⟩
    exact .list (by simp [Value.Plain.null, Value.Plain.bool])
  refine extract_exportText .tsx .compact (T := chipDescriptions) (.record (by decide) ?_) (by decide)
    (.cons ⟨rfl, hsize, _, rfl, ?_⟩ (.cons ⟨rfl, htags, _, rfl, .refl _⟩ .nil))
  · simpa using ⟨.text _, .number (by decide)⟩
  · exact .trans (.swap _ _ _) (.cons _ (.swap _ _ _))

/-! ### One argument -/

/-- The candidate of a program that exports the first part of metadata is this part. -/
theorem locate_exportArgs (v : Source.Variant) (text : List Char) (place : Source.Place) {A : Fields Value}
    {n : Node} (h : IsExport (IsArgs (.record A)) n) : ∃ args ds,
      locate ⟨v, text, Source.Parser.build .program place [n]⟩ = ⟨ds, [args], []⟩ ∧ Holds .args A args := by
  obtain ⟨object, hobject, hdeclarations⟩ := declarations_export (Source.ofObjects_isArgs _) place h
  obtain ⟨a, hentries, ha⟩ := hobject.entries
  obtain ⟨args, hargs, hholds, -⟩ := candidateOf_literal ⟨v, text, Source.Parser.build .program place [n]⟩
    ⟨.defaultExport, none, object, none⟩ ("default export." ++ Part.args.key) .args ha
  have hkey : Part.ofKey? "args" = some .args := by decide
  have hparts : partsOf object = [(.args, a)] := by
    rw [partsOf, hentries]
    simp [Literal.Key.name?, hkey, ha.unwrap]
  have hcandidates : candidatesOf ⟨v, text, Source.Parser.build .program place [n]⟩
      ⟨.defaultExport, none, object, none⟩ = ([args], []) := by
    simp [candidatesOf, Declaration.isObject, Declaration.label, hobject.object, hparts, hargs]
  refine ⟨args, [⟨.defaultExport, none, object, none⟩], ?_, hholds⟩
  rw [locate, hdeclarations]
  simp [hcandidates]

/-- A single argument gives a single property. -/
theorem properties_merge_argument {args : Candidate} {name : String} {x : Value}
    (h : Holds .args [(name, x)] args) (hx : ¬x.Marked) :
    (merge [args]).properties = [describedProperty name (some x) none] := by
  obtain ⟨e, hentries, hname, hvalue⟩ : ∃ e, args.entries = [e] ∧ e.name = name ∧ e.value = x := by
    obtain ⟨e, hentries, he⟩ := List.map_eq_singleton_iff.mp h.entries
    exact ⟨e, hentries, Prod.mk.inj he⟩
  have hreadings : readings [args] = [(.args, e)] := by simp [readings, hentries, h.part]
  have hlast : ∀ {α : Type} (give : Part → Value → Option α),
      lastOf give [(.args, e)] name = give .args x := fun give => by
    cases hgive : give .args x <;> simp [lastOf, hname, hvalue, hgive]
  have hdefault : defaultOf [(.args, e)] name = some x := by
    simp [defaultOf, hlast, givenDefault?, unmarked?, hx]
  have hproperty : propertyOf [(.args, e)] name = describedProperty name (some x) none := by
    rw [propertyOf, describedProperty, hdefault, hlast, hlast]
    cases x <;> rfl
  have hnames : namesOf [(.args, e)] = [name] := by rw [namesOf, List.map_singleton, hname]; rfl
  rw [(merge_reads [args]).properties, hreadings, hnames, List.map_singleton, hproperty]

end StoryManifest.Story
