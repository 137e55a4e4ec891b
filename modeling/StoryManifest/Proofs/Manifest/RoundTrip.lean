import StoryManifest.Manifest.Reader
import StoryManifest.Proofs.Json.Reading

/-!
The round trip of a manifest through its text. Each record is read field by field into a draft that
ends up holding every field that was written, so the manifest that is read is the one that was written,
with absent fields absent and the keys of default values in their order.
-/

namespace StoryManifest

/-! ### Drafts -/

namespace Json

section

variable {σ α : Type} {fields : List (DraftField σ)} {inner : Nat} {sp : Spacing}

/-- A member whose field is still absent is put into the draft. -/
theorem readDraftMember_field {name : String} {required : Bool} {read : Nat → Reader α}
    {get : σ → Option α} {put : σ → α → σ} {draft : σ} {text : List Char} {a : α}
    (hfind : fields.find? (·.name == name) = some (.of name required read get put))
    (hget : get draft = none) (hread : Reads (read inner) text a) {rest : List Char} (hr : Ends rest) :
    readDraftMember fields inner name draft (':' :: (sp.gap ++ (text ++ rest))) =
      .ok (put draft a, rest) := by
  have happly := hread.apply (blanks_gap sp) hr
  simp [readDraftMember, hfind, DraftField.of, hget, readColon_cons, happly, bind, Except.bind,
    Except.map]

theorem ReadsMembers.field {name : String} {required : Bool} {read : Nat → Reader α}
    {get : σ → Option α} {put : σ → α → σ} {draft last : σ} {text : List Char} {a : α}
    {texts : List (List Char)}
    (hfind : fields.find? (·.name == name) = some (.of name required read get put))
    (hget : get draft = none) (hread : Reads (read inner) text a)
    (hrest : ReadsMembers (readDraftMember fields inner) sp (put draft a) texts last) :
    ReadsMembers (readDraftMember fields inner) sp draft (memberChars sp name text :: texts) last :=
  .cons (readDraftMember_field hfind hget hread) hrest

/-- A record is read when its members fill the draft with all that it needs. -/
theorem reads_record {empty last : σ} {finish : σ → Option α} {texts : List (List Char)} {a : α}
    (hmembers : ReadsMembers (readDraftMember fields inner) sp empty texts last)
    (hrequired : (fields.all fun f => !f.required || f.present last) = true)
    (hfinish : finish last = some a) (depth : Nat) :
    Reads (readRecord fields empty finish (inner + 1)) (row sp depth '\x7b' '\x7d' texts) a :=
  .of_start (by decide) (by decide) fun _ hs => by
    simp only [readRecord, readDraft, hs, readMembers_rowBody hmembers, hrequired, if_true,
      closeRecord_cons, hfinish, bind, Except.bind, pure, Except.pure]

end

/-! ### Fields of any record -/

theorem reads_flag (sp : Spacing) (depth : Nat) (b : Bool) :
    Reads readBool (chars sp depth (.bool b)) b := by
  cases b <;>
  exact .of_start (by decide) (by decide) fun _ hs => by rw [readBool, hs]; rfl

theorem reads_nullable (s : String) : Reads (readNullable readString) (quoted s) (some s) :=
  .of_start (by decide) (by decide) fun {_ rest} hr hs => by
    have hread : readString ('"' :: ((s.toList.flatMap escape ++ ['"']) ++ rest)) = .ok (s, rest) :=
      (reads_string s).apply Blanks.nil hr
    rw [readNullable, hs]
    show Except.map _ (readString _) = _
    rw [hread]
    rfl

theorem reads_texts (sp : Spacing) (depth inner : Nat) (texts : List String) :
    Reads (readTexts (inner + 1)) (chars sp depth (.ofTexts texts)) texts := by
  have htexts : List.Forall₂ (Reads readString) (itemChars sp (depth + 1) (texts.map .text)) texts := by
    rw [itemChars_eq, List.map_map, List.forall₂_map_left_iff, List.forall₂_same]
    exact fun s _ => reads_string s
  exact reads_list htexts

end Json

open Json

/-! ### Properties -/

theorem PropertyType.read_name (type : PropertyType) : PropertyType.read type.name = .ok type := by
  cases type <;> rfl

theorem PropertyType.reads (depth : Nat) (type : PropertyType) :
    Reads (PropertyType.reader depth) (quoted type.name) type :=
  .of_start (by decide) (by decide) fun _ hs => by
    simp only [List.append_assoc, List.cons_append, List.nil_append] at hs
    simp only [PropertyType.reader, hs, readStringBody_append, PropertyType.read_name, bind,
      Except.bind, pure, Except.pure]

/-- What is known of a property once all that was written of it is read. -/
def PropertyDraft.ofProperty (p : Property) : PropertyDraft :=
  { name := some p.name
    type := some p.type
    description := p.description.map some
    default := p.default
    isList := some p.isList }

theorem PropertyDraft.finish_ofProperty : ∀ p : Property, (ofProperty p).finish = some p
  | ⟨_, _, none, _, _⟩ => rfl
  | ⟨_, _, some _, _, _⟩ => rfl

/-- The fields of a property are read, the default value perhaps as another one. -/
theorem PropertyDraft.reads_fields (sp : Spacing) (depth inner : Nat) :
    ∀ (p : Property) {default : Option Value},
    Option.Rel (fun v a => Reads (readValue inner) (chars sp depth v) a) p.default default →
    ∃ fields, p.toValue = .record fields ∧
      ReadsMembers (readDraftMember PropertyDraft.fields inner) sp { } (fieldChars sp depth fields)
        (ofProperty { p with default })
  | ⟨name, type, description, _, isList⟩, _, hdefault => by
    refine ⟨_, rfl, ?_⟩
    have hname := reads_string name
    have htype := PropertyType.reads inner type
    have hflag := reads_flag sp depth isList
    cases description with
    | none =>
      cases hdefault with
      | none => exact .field rfl rfl hname (.field rfl rfl htype (.field rfl rfl hflag (.nil _)))
      | some hv =>
        exact .field rfl rfl hname (.field rfl rfl htype (.field rfl rfl hv (.field rfl rfl hflag (.nil _))))
    | some d =>
      have htext := reads_nullable d
      cases hdefault with
      | none =>
        exact .field rfl rfl hname (.field rfl rfl htype
          (.field rfl rfl htext (.field rfl rfl hflag (.nil _))))
      | some hv =>
        exact .field rfl rfl hname (.field rfl rfl htype
          (.field rfl rfl htext (.field rfl rfl hv (.field rfl rfl hflag (.nil _)))))

/-- A property is read when its default value is. -/
theorem Property.reads_default {sp : Spacing} {depth inner : Nat} {p : Property} {default : Option Value}
    (h : Option.Rel (fun v a => Reads (readValue inner) (chars sp (depth + 1) v) a) p.default default) :
    Reads (Property.reader (inner + 1)) (chars sp depth p.toValue) { p with default } := by
  obtain ⟨fields, hfields, hmembers⟩ := PropertyDraft.reads_fields sp (depth + 1) inner p h
  rw [hfields]
  exact reads_record hmembers rfl (PropertyDraft.finish_ofProperty _) depth

theorem Property.reads (sp : Spacing) (depth inner : Nat) {p : Property}
    (h : ∀ v, p.default = some v → v.Plain FitsWord ∧ v.nesting ≤ inner) :
    Reads (Property.reader (inner + 1)) (chars sp depth p.toValue) p := by
  show Reads _ _ { p with default := p.default }
  refine reads_default ?_
  cases hdefault : p.default with
  | none => exact .none
  | some v => exact .some (reads_value sp (h v hdefault).1 (depth + 1) inner (h v hdefault).2)

/-! ### Components and manifests -/

/-- The default values are plain and nest at most so deep. -/
def ComponentRecord.DefaultsWithin (depth : Nat) (r : ComponentRecord) : Prop :=
  ∀ p ∈ r.props, ∀ v, p.default = some v → v.Plain FitsWord ∧ v.nesting ≤ depth

theorem ComponentRecord.DefaultsWithin.mono {r : ComponentRecord} {depth limit : Nat}
    (h : r.DefaultsWithin depth)
    (hle : depth ≤ limit) : r.DefaultsWithin limit :=
  fun p hp v hv => ⟨(h p hp v hv).1, Nat.le_trans (h p hp v hv).2 hle⟩

/-- What is known of a component once all that was written of it is read. -/
def ComponentDraft.ofRecord (r : ComponentRecord) : ComponentDraft :=
  { name := some r.name
    version := some r.version
    displayName := some r.displayName
    baseDir := some r.baseDir
    module := some r.module
    files := some r.files
    props := some r.props
    packages := some r.packages }

theorem chars_list (sp : Spacing) (depth : Nat) {β : Type} (toValue : β → Value) (vs : List β) :
    chars sp depth (.list (vs.map toValue)) =
      row sp depth '[' ']' (vs.map fun v => chars sp (depth + 1) (toValue v)) := by
  rw [chars, itemChars_eq, List.map_map]
  rfl

/-- A component is read when its properties are. -/
theorem ComponentRecord.reads_props {sp : Spacing} {depth inner : Nat} {r : ComponentRecord}
    {props : List Property}
    (h : Reads (readList Property.reader (inner + 2))
      (chars sp (depth + 1) (.list (r.props.map Property.toValue)))
      props) : Reads (ComponentRecord.reader (inner + 3)) (chars sp depth r.toValue) { r with props } := by
  obtain ⟨fields, hfields, hmembers⟩ : ∃ fields, r.toValue = .record fields ∧
      ReadsMembers (readDraftMember ComponentDraft.fields (inner + 2)) sp { }
        (fieldChars sp (depth + 1) fields) (.ofRecord { r with props }) :=
    ⟨_, rfl,
      .field rfl rfl (reads_string r.name) <|
      .field rfl rfl (reads_string r.version) <|
      .field rfl rfl (reads_string r.displayName) <|
      .field rfl rfl (reads_string r.baseDir) <|
      .field rfl rfl (reads_string r.module) <|
      .field rfl rfl (reads_texts sp (depth + 1) (inner + 1) r.files) <|
      .field rfl rfl h <|
      .field rfl rfl (reads_texts sp (depth + 1) (inner + 1) r.packages) <|
      .nil _⟩
  have hfinish : (ComponentDraft.ofRecord { r with props }).finish = some { r with props } := rfl
  rw [hfields]
  exact reads_record hmembers rfl hfinish depth

theorem ComponentRecord.reads (sp : Spacing) (depth inner : Nat) {r : ComponentRecord}
    (h : r.DefaultsWithin inner) :
    Reads (ComponentRecord.reader (inner + 3)) (chars sp depth r.toValue) r := by
  show Reads _ _ { r with props := r.props }
  refine reads_props ?_
  rw [chars_list]
  refine reads_list ?_
  rw [List.forall₂_map_left_iff, List.forall₂_same]
  exact fun p hp => p.reads sp (depth + 2) inner (h p hp)

/-- A manifest is read when its components are. -/
theorem Manifest.reads_components {sp : Spacing} {inner : Nat} {m : Manifest}
    {components : List ComponentRecord}
    (h : Reads (readList ComponentRecord.reader (inner + 4))
      (chars sp 1 (.list (m.components.map ComponentRecord.toValue))) components) :
    Reads (Manifest.reader (inner + 5)) (chars sp 0 m.toValue) ⟨components⟩ := by
  obtain ⟨fields, hfields, hmembers⟩ : ∃ fields, m.toValue = .record fields ∧
      ReadsMembers (readDraftMember Manifest.fields (inner + 4)) sp none (fieldChars sp 1 fields)
        (some components) :=
    ⟨_, rfl, .field rfl rfl h (.nil _)⟩
  have hfinish : (some components).map Manifest.mk = some ⟨components⟩ := rfl
  rw [hfields]
  exact reads_record hmembers rfl hfinish 0

theorem Manifest.reads (sp : Spacing) (inner : Nat) {m : Manifest}
    (h : ∀ r ∈ m.components, r.DefaultsWithin inner) :
    Reads (Manifest.reader (inner + 5)) (chars sp 0 m.toValue) m := by
  show Reads _ _ (Manifest.mk m.components)
  refine reads_components ?_
  rw [chars_list]
  refine reads_list ?_
  rw [List.forall₂_map_left_iff, List.forall₂_same]
  exact fun r hr => r.reads sp 2 inner (h r hr)

/-! ### No marker in a manifest -/

theorem Value.not_marked_ofTexts (texts : List String) : ¬(Value.ofTexts texts).Marked := by
  rw [Value.ofTexts, Value.marked_list]
  rintro ⟨v, hv, hmarked⟩
  obtain ⟨s, -, rfl⟩ := List.mem_map.mp hv
  cases hmarked

theorem Property.not_marked_toValue {p : Property} (h : ∀ v, p.default = some v → ¬v.Marked) :
    ¬p.toValue.Marked := by
  rw [toValue, Value.marked_record]
  rintro ⟨e, he, hmarked⟩
  simp only [List.mem_append, List.mem_cons, List.not_mem_nil, or_false, Option.mem_toList,
    Option.map_eq_some_iff] at he
  rcases he with (((rfl | rfl) | ⟨d, -, rfl⟩) | ⟨v, hv, rfl⟩) | rfl
  · cases hmarked
  · cases hmarked
  · cases hmarked
  · exact h v hv hmarked
  · cases hmarked

theorem Manifest.not_marked_toValue {m : Manifest}
    (h : ∀ r ∈ m.components, ∀ p ∈ r.props, ∀ v, p.default = some v → ¬v.Marked) :
    ¬m.toValue.Marked := by
  rw [toValue, Value.marked_record]
  rintro ⟨e, he, hmarked⟩
  obtain rfl := List.mem_singleton.mp he
  obtain ⟨v, hv, hmarked⟩ := Value.marked_list.mp hmarked
  obtain ⟨r, hr, rfl⟩ := List.mem_map.mp hv
  rw [ComponentRecord.toValue, Value.marked_record] at hmarked
  obtain ⟨e, he, hmarked⟩ := hmarked
  simp only [List.mem_cons, List.not_mem_nil, or_false] at he
  rcases he with rfl | rfl | rfl | rfl | rfl | rfl | rfl | rfl
  iterate 5 cases hmarked
  · exact Value.not_marked_ofTexts _ hmarked
  · obtain ⟨v, hv, hmarked⟩ := Value.marked_list.mp hmarked
    obtain ⟨p, hp, rfl⟩ := List.mem_map.mp hv
    exact p.not_marked_toValue (h r hr p hp) hmarked
  · exact Value.not_marked_ofTexts _ hmarked

/-! ### The round trip -/

/-- The text of a manifest without markers. -/
theorem Manifest.text?_eq {m : Manifest}
    (h : ∀ r ∈ m.components, ∀ p ∈ r.props, ∀ v, p.default = some v → ¬v.Marked) :
    m.text? = some (String.ofList (chars .indented 0 m.toValue) ++ "\n") := by
  rw [text?, Json.pretty, write_of_not_marked .indented 0 (not_marked_toValue h), Option.map_some]

theorem toList_line (cs : List Char) : (String.ofList cs ++ "\n").toList = cs ++ ['\n'] := by
  rw [String.toList_append, String.toList_ofList]
  rfl

theorem ends_lineEnd : Ends ['\n'] := ⟨'\n', [], rfl, by simp⟩

theorem Manifest.ofText_of_reads {cs : List Char} {m : Manifest} (h : Reads (reader depthLimit) cs m) :
    ofText (String.ofList cs ++ "\n") = .ok m := by
  have hread : reader depthLimit (cs ++ ['\n']) = .ok (m, ['\n']) := h.apply Blanks.nil ends_lineEnd
  have hskip : skipBlanks ['\n'] = [] := rfl
  rw [ofText, readWhole, toList_line, hread]
  simp only [hskip, bind, Except.bind, pure, Except.pure]

/-- Manifests whose default values are plain are the same where their texts are. -/
theorem Manifest.eq_of_text? {m n : Manifest} {text : String} (hm : ∀ r ∈ m.components, r.DefaultsWithin 122)
    (hn : ∀ r ∈ n.components, r.DefaultsWithin 122) (hmtext : m.text? = some text)
    (hntext : n.text? = some text) : m = n := by
  have hread : ∀ {k : Manifest}, (∀ r ∈ k.components, r.DefaultsWithin 122) → k.text? = some text →
      ofText text = .ok k := fun hk htext => by
    rw [text?_eq fun r hr p hp v hv => (hk r hr p hp v hv).1.not_marked] at htext
    exact Option.some.inj htext ▸ ofText_of_reads (reads .indented 122 hk)
  exact Except.ok.inj ((hread hm hmtext).symm.trans (hread hn hntext))

/-- A manifest whose default values are plain has a text, from which the same manifest is read, and the
manifest that is read has the same text. Five of the brackets that may be open at once are those around
a default value. -/
theorem Manifest.ofText_text? (m : Manifest) (h : ∀ r ∈ m.components, r.DefaultsWithin 122) :
    ∃ text, m.text? = some text ∧ Manifest.ofText text = .ok m ∧
      ∀ n, Manifest.ofText text = .ok n → n.text? = some text := by
  have htext := text?_eq fun r hr p hp v hv => (h r hr p hp v hv).1.not_marked
  have hof := ofText_of_reads (reads .indented 122 h)
  refine ⟨_, htext, hof, fun n hn => ?_⟩
  rw [hof] at hn
  rw [← Except.ok.inj hn, htext]

/-- A manifest with a nested default value, a default value that is null and an absent one. -/
def Manifest.ofCard : Manifest :=
  let size : Value := .record
    [("a\"b", .list [.number (.integer (-9223372036854775808)),
        .number (.integer 18446744073709551615), .null]),
      ("\\é\x01", .text "\n")]
  ⟨[{ name := "card"
      version := "0.0.1"
      displayName := "CARD"
      baseDir := "components/Card"
      module := "Card.tsx"
      files := ["*.tsx"]
      props := [⟨"size", .object, some "\t", some size, false⟩, ⟨"on", .null, none, some .null, false⟩,
        .bare "tag" .unknown]
      packages := [] }]⟩

theorem Manifest.ofText_text?_ofCard : (∀ r ∈ Manifest.ofCard.components, r.DefaultsWithin 122) ∧
    ∃ text, Manifest.ofCard.text? = some text ∧ Manifest.ofText text = .ok Manifest.ofCard ∧
      ∀ n, Manifest.ofText text = .ok n → n.text? = some text := by
  have h : ∀ r ∈ Manifest.ofCard.components, r.DefaultsWithin 122 := by
    intro r hr p hp v hv
    obtain rfl := List.mem_singleton.mp hr
    simp only [List.mem_cons, List.not_mem_nil, or_false] at hp
    rcases hp with rfl | rfl | rfl
    · obtain rfl := Option.some.inj hv
      refine ⟨.record (by decide) ?_, by decide⟩
      simp only [List.forall_mem_cons]
      refine ⟨.list ?_, .text _, by simp⟩
      simp only [List.forall_mem_cons]
      exact ⟨.number (by decide), .number (by decide), .null, by simp⟩
    · obtain rfl := Option.some.inj hv
      exact ⟨.null, by decide⟩
    · cases hv
  exact ⟨h, Manifest.ofText_text? Manifest.ofCard h⟩

end StoryManifest
