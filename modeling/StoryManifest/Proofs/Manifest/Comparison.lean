import StoryManifest.Proofs.Manifest.Keyed
import StoryManifest.Proofs.Related

/-!
What the comparison of two manifests says. Of each name the last component stands for it, so where names are
unique the comparison is exact: what is new and what is gone are differences of the two lists of names, what
changed are the common names of components that are not alike, and nothing differs exactly when one manifest
is the other one in some order.
-/

namespace StoryManifest

/-- The names of the components in order. -/
def Manifest.names (m : Manifest) : List String := m.components.map (·.name)

theorem Manifest.mem_names {m : Manifest} {r : ComponentRecord} (h : r ∈ m.components) : r.name ∈ m.names :=
  List.mem_map_of_mem h

/-- Components of one name are one, where names are unique. -/
theorem Manifest.eq_of_name_eq {m : Manifest} (hm : m.names.Nodup) {r s : ComponentRecord}
    (hr : r ∈ m.components) (hs : s ∈ m.components) (h : r.name = s.name) : r = s :=
  List.inj_on_of_nodup_map hm hr hs h

theorem Manifest.nodup_components {m : Manifest} (hm : m.names.Nodup) : m.components.Nodup := hm.of_map _

namespace Comparison

variable {a b m : Manifest} {r s : ComponentRecord} {name : String}

/-! ### The component that stands for a name -/

theorem last?_eq_none_iff : last? m name = none ↔ name ∉ m.names := by
  simp [last?, Manifest.names]

theorem last?_spec (h : last? m name = some r) : r ∈ m.components ∧ r.name = name := by
  have hname := List.find?_some h
  exact ⟨List.mem_reverse.mp (List.mem_of_find?_eq_some h), by simpa using hname⟩

theorem exists_last? (h : name ∈ m.names) : ∃ r, last? m name = some r :=
  Option.ne_none_iff_exists'.mp (mt last?_eq_none_iff.mp (not_not.mpr h))

/-- Where names are unique, the component of a name stands for it. -/
theorem last?_name (hm : m.names.Nodup) (hr : r ∈ m.components) : last? m r.name = some r := by
  obtain ⟨s, hs⟩ := exists_last? (Manifest.mem_names hr)
  obtain ⟨hmem, hname⟩ := last?_spec hs
  rw [hs, Manifest.eq_of_name_eq hm hmem hr hname]

/-! ### What is new, gone or changed -/

theorem isNew_eq (other : Manifest) (r : ComponentRecord) :
    isNew other r = decide (r.name ∉ other.names) := by
  rw [isNew, Bool.eq_iff_iff, Option.isNone_iff_eq_none, last?_eq_none_iff, decide_eq_true_iff]

theorem isChanged_iff (ha : a.Keyed) (hr : r.Keyed) :
    isChanged a r = true ↔ ∃ s, last? a r.name = some s ∧ ¬s.Alike r := by
  unfold isChanged
  cases hlast : last? a r.name with
  | none => simp
  | some s =>
    have hs : s.Keyed := ha s (last?_spec hlast).1
    simp [← ComponentRecord.same_iff hs hr]

theorem added_eq (a b : Manifest) : (of a b).added = b.names.filter (· ∉ a.names) := by
  have hnew : isNew a = fun r => decide (r.name ∉ a.names) := funext (isNew_eq a)
  simp only [of, hnew, Manifest.names, List.filter_map, Function.comp_def]

theorem removed_eq (a b : Manifest) : (of a b).removed = a.names.filter (· ∉ b.names) := added_eq b a

theorem changed_sublist (a b : Manifest) : (of a b).changed.Sublist b.names :=
  List.filter_sublist.map _

/-- What changed are the names that some component has which is not alike to the one that stands for it. -/
theorem mem_changed_iff (ha : a.Keyed) (hb : b.Keyed) : name ∈ (of a b).changed ↔
    ∃ r ∈ b.components, r.name = name ∧ ∃ s, last? a name = some s ∧ ¬s.Alike r := by
  simp only [of, List.mem_map, List.mem_filter]
  constructor
  · rintro ⟨r, ⟨hr, hchanged⟩, rfl⟩
    exact ⟨r, hr, rfl, (isChanged_iff ha (hb r hr)).mp hchanged⟩
  · rintro ⟨r, hr, rfl, h⟩
    exact ⟨r, ⟨hr, (isChanged_iff ha (hb r hr)).mpr h⟩, rfl⟩

theorem isEmpty_iff {c : Comparison} : c.isEmpty = true ↔ c.added = [] ∧ c.removed = [] ∧
    c.changed = [] := by
  simp [isEmpty, and_assoc]

/-! ### Unique names -/

/-- Both manifests have a component of a name, and the two are not alike. -/
def Differs (a b : Manifest) (name : String) : Prop :=
  ∃ s ∈ a.components, ∃ r ∈ b.components, s.name = name ∧ r.name = name ∧ ¬s.Alike r

theorem Differs.symm (h : Differs a b name) : Differs b a name := by
  obtain ⟨s, hs, r, hr, hsname, hrname, hnot⟩ := h
  exact ⟨r, hr, s, hs, hrname, hsname, fun h => hnot h.symm⟩

theorem mem_changed_iff_differs (ha : a.Keyed) (hb : b.Keyed) (hna : a.names.Nodup) :
    name ∈ (of a b).changed ↔ Differs a b name := by
  rw [mem_changed_iff ha hb]
  constructor
  · rintro ⟨r, hr, hrname, s, hs, hnot⟩
    obtain ⟨hmem, hsname⟩ := last?_spec hs
    exact ⟨s, hmem, r, hr, hsname, hrname, hnot⟩
  · rintro ⟨s, hs, r, hr, rfl, hrname, hnot⟩
    exact ⟨r, hr, hrname, s, last?_name hna hs, hnot⟩

/-- No name is in two of the lists, or in one of them twice. -/
theorem nodup_of (ha : a.Keyed) (hb : b.Keyed) (hna : a.names.Nodup) (hnb : b.names.Nodup) :
    ((of a b).added ++ (of a b).removed ++ (of a b).changed).Nodup := by
  rw [added_eq, removed_eq]
  refine ((hnb.filter _).append (hna.filter _) ?_).append ((changed_sublist a b).nodup hnb) ?_
  · intro name hadded hremoved
    simp only [List.mem_filter, decide_eq_true_iff] at hadded hremoved
    exact hadded.2 hremoved.1
  · intro name hnew hchanged
    obtain ⟨s, hs, r, hr, rfl, hrname, -⟩ := (mem_changed_iff_differs ha hb hna).mp hchanged
    have hmema := Manifest.mem_names hs
    have hmemb := Manifest.mem_names hr
    rw [hrname] at hmemb
    simp only [List.mem_append, List.mem_filter, decide_eq_true_iff] at hnew
    rcases hnew with hadded | hremoved
    · exact hadded.2 hmema
    · exact hremoved.2 hmemb

/-- Nothing is gone exactly when the other manifest has all names. -/
theorem removed_eq_nil_iff : (of a b).removed = [] ↔ a.names ⊆ b.names := by
  simp [removed_eq, List.filter_eq_nil_iff, List.subset_def]

theorem added_eq_nil_iff : (of a b).added = [] ↔ b.names ⊆ a.names := removed_eq_nil_iff

/-- Where both manifests have the same names, the components that stand for them in one manifest, in the
order of the other one, are all of its components. -/
theorem exists_perm (hna : a.names.Nodup) (hnb : b.names.Nodup) (hab : a.names ⊆ b.names)
    (hba : b.names ⊆ a.names) : ∃ records, records.Perm a.components ∧
      List.Forall₂ (fun s r => r ∈ b.components ∧ last? a r.name = some s) records b.components := by
  let standing (r : ComponentRecord) : ComponentRecord := (last? a r.name).getD r
  have hstanding : ∀ r ∈ b.components, last? a r.name = some (standing r) := fun r hr => by
    obtain ⟨s, hs⟩ := exists_last? (hba (Manifest.mem_names hr))
    simp [standing, hs]
  have hnames : (b.components.map standing).map (·.name) = b.names := by
    rw [List.map_map]
    exact List.map_congr_left fun r hr => (last?_spec (hstanding r hr)).2
  have hnodup : (b.components.map standing).Nodup := .of_map (·.name) (hnames ▸ hnb)
  refine ⟨b.components.map standing, ?_, ?_⟩
  · refine (List.perm_ext_iff_of_nodup hnodup (Manifest.nodup_components hna)).mpr fun s => ?_
    rw [List.mem_map]
    constructor
    · rintro ⟨r, hr, rfl⟩
      exact (last?_spec (hstanding r hr)).1
    · intro hs
      obtain ⟨r, hr, hname⟩ := List.mem_map.mp (hab (Manifest.mem_names hs))
      have hlast := hstanding r hr
      rw [hname, last?_name hna hs] at hlast
      exact ⟨r, hr, (Option.some.inj hlast).symm⟩
  · rw [List.forall₂_map_left_iff, List.forall₂_same]
    exact fun r hr => ⟨hr, hstanding r hr⟩

theorem names_eq_of_forall₂ {records : List ComponentRecord}
    (h : List.Forall₂ ComponentRecord.Alike records b.components) : records.map (·.name) = b.names :=
  forall₂_map_eq h fun _ _ halike => halike.name

/-- Nothing differs exactly when one manifest is the other one in some order. -/
theorem isEmpty_of_iff_perm (ha : a.Keyed) (hb : b.Keyed) (hna : a.names.Nodup) (hnb : b.names.Nodup) :
    (of a b).isEmpty = true ↔
      ∃ records, records.Perm a.components ∧ List.Forall₂ ComponentRecord.Alike records b.components := by
  rw [isEmpty_iff, added_eq_nil_iff, removed_eq_nil_iff, List.eq_nil_iff_forall_not_mem]
  constructor
  · rintro ⟨hba, hab, hchanged⟩
    obtain ⟨records, hperm, hrecords⟩ := exists_perm hna hnb hab hba
    refine ⟨records, hperm, hrecords.imp fun s r h => ?_⟩
    obtain ⟨hr, hs⟩ := h
    by_contra hnot
    exact hchanged r.name ((mem_changed_iff ha hb).mpr ⟨r, hr, rfl, s, hs, hnot⟩)
  · rintro ⟨records, hperm, hrecords⟩
    have hnames : a.names.Perm b.names := names_eq_of_forall₂ hrecords ▸ (hperm.map _).symm
    refine ⟨hnames.symm.subset, hnames.subset, fun name hname => ?_⟩
    obtain ⟨s, hs, r, hr, rfl, hrname, hnot⟩ := (mem_changed_iff_differs ha hb hna).mp hname
    obtain ⟨s', hs', halike⟩ := exists_of_mem_right hrecords hr
    rw [Manifest.eq_of_name_eq hna hs (hperm.subset hs') (hrname.symm.trans halike.name.symm)] at hnot
    exact hnot halike

/-- Where names are unique, a comparison is exact. The new names are those of the expected manifest that
the current one lacks, the lost ones are the other way round, and the changed ones are the names of both
whose components are not alike, all in their order and each name once; exchanging the manifests
exchanges what is new and what is lost; and nothing differs exactly when one manifest is the other one
in some order. -/
theorem exact_of_unique_names {a b : Manifest} (ha : a.Keyed) (hb : b.Keyed) (hna : a.names.Nodup)
    (hnb : b.names.Nodup) :
    (of a b).added = b.names.filter (· ∉ a.names) ∧ (of a b).removed = a.names.filter (· ∉ b.names) ∧
    (of a b).changed.Sublist b.names ∧ (∀ name, name ∈ (of a b).changed ↔ Differs a b name) ∧
    ((of a b).added ++ (of a b).removed ++ (of a b).changed).Nodup ∧
    (of b a).added = (of a b).removed ∧ (of b a).removed = (of a b).added ∧
    (∀ name, name ∈ (of b a).changed ↔ name ∈ (of a b).changed) ∧
    ((of a b).isEmpty = true ↔
      ∃ records, records.Perm a.components ∧ List.Forall₂ ComponentRecord.Alike records b.components) := by
  refine ⟨added_eq a b, removed_eq a b, changed_sublist a b, fun name => mem_changed_iff_differs ha hb hna,
    nodup_of ha hb hna hnb, rfl, rfl, fun name => ?_, isEmpty_of_iff_perm ha hb hna hnb⟩
  rw [mem_changed_iff_differs ha hb hna, mem_changed_iff_differs hb ha hnb]
  exact ⟨Differs.symm, Differs.symm⟩

/-- A manifest of two components. -/
def formText : String :=
  "\x7b\"components\":[[\"field\",\"1\",\"F\",\".\",\"\",[]," ++
    "[[\"size\",\"object\",null,\x7b\"a\":1,\"b\":2\x7d,false]]]," ++
    "[\"label\",\"1\",\"L\",\".\",\"\",[],[]]]\x7d"

/-- The same components in another order, one of them with another version, and a third one. -/
def grownFormText : String :=
  "\x7b\"components\":[[\"label\",\"2\",\"L\",\".\",\"\",[],[]]," ++
    "[\"legend\",\"1\",\"L\",\".\",\"\",[],[]]," ++
    "[\"field\",\"1\",\"F\",\".\",\"\",[],[[\"size\",\"object\",null,\x7b\"b\":2,\"a\":1\x7d,false]]]]\x7d"

theorem ok_of_toOption {ε α : Type} {x : Except ε α} {a : α} (h : x.toOption = some a) : x = .ok a := by
  cases x with
  | error e => cases h
  | ok a' => exact congrArg Except.ok (Option.some.inj h)

theorem exact_of_unique_names_formText : ∃ a b, Manifest.ofText formText = .ok a ∧
    Manifest.ofText grownFormText = .ok b ∧ a.names.Nodup ∧ b.names.Nodup ∧
    of a b = ⟨["legend"], [], ["label"]⟩ ∧ Differs a b "label" ∧ ¬Differs a b "field" := by
  have hread : ((Manifest.ofText formText).toOption.any fun a =>
      (Manifest.ofText grownFormText).toOption.any fun b =>
      decide (a.names.Nodup ∧ b.names.Nodup ∧ of a b = ⟨["legend"], [], ["label"]⟩)) = true := by
    decide +kernel
  obtain ⟨a, ha, hread⟩ := (Option.any_eq_true _ _).mp hread
  obtain ⟨b, hb, hread⟩ := (Option.any_eq_true _ _).mp hread
  obtain ⟨hna, hnb, hof⟩ := of_decide_eq_true hread
  have ha := ok_of_toOption ha
  have hb := ok_of_toOption hb
  obtain ⟨-, -, -, hchanged, -⟩ :=
    exact_of_unique_names (Manifest.keyed_ofText ha) (Manifest.keyed_ofText hb) hna hnb
  rw [hof] at hchanged
  exact ⟨a, b, ha, hb, hna, hnb, hof, (hchanged "label").mp (by decide),
    fun h => absurd ((hchanged "field").mpr h) (by decide)⟩

/-! ### The same components -/

/-- The same components in the same order have alike components that stand for a name. -/
theorem rel_last? (h : List.Forall₂ ComponentRecord.Alike a.components b.components) (name : String) :
    Option.Rel ComponentRecord.Alike (last? a name) (last? b name) := by
  rw [last?, last?, ← List.head?_filter, ← List.head?_filter]
  exact rel_head? (forall₂_filter (List.forall₂_reverse_iff.mpr h) fun _ _ hrs => by rw [hrs.name])

theorem added_of_same (h : List.Forall₂ ComponentRecord.Alike a.components b.components) :
    (of a b).added = [] :=
  added_eq_nil_iff.mpr (names_eq_of_forall₂ h ▸ List.Subset.refl _)

theorem removed_of_same (h : List.Forall₂ ComponentRecord.Alike a.components b.components) :
    (of a b).removed = [] :=
  removed_eq_nil_iff.mpr (names_eq_of_forall₂ h ▸ List.Subset.refl _)

theorem mem_changed_of_same (ha : a.Keyed) (hb : b.Keyed)
    (h : List.Forall₂ ComponentRecord.Alike a.components b.components) :
    name ∈ (of a b).changed ↔ ∃ r ∈ b.components, r.name = name ∧ ∃ s, last? b name = some s ∧
      ¬s.Alike r := by
  rw [mem_changed_iff ha hb]
  have hlast := rel_last? h name
  generalize last? a name = x, last? b name = y at hlast
  cases hlast with
  | none => simp
  | @some s s' hs =>
    have hiff : ∀ r : ComponentRecord, s.Alike r ↔ s'.Alike r := fun r =>
      ⟨fun h => hs.symm.trans h, fun h => hs.trans h⟩
    simp [hiff]

theorem isEmpty_of_same_iff (ha : a.Keyed) (hb : b.Keyed)
    (h : List.Forall₂ ComponentRecord.Alike a.components b.components) :
    (of a b).isEmpty = true ↔ ∀ r ∈ b.components, ∀ s ∈ b.components, r.name = s.name → r.Alike s := by
  have hempty : (of a b).isEmpty = true ↔ (of a b).changed = [] := by
    simp [isEmpty_iff, added_of_same h, removed_of_same h]
  rw [hempty, List.eq_nil_iff_forall_not_mem]
  constructor
  · intro hchanged r hr s hs hname
    obtain ⟨q, hq⟩ := exists_last? (Manifest.mem_names hr)
    have halike : ∀ p ∈ b.components, p.name = r.name → q.Alike p := fun p hp hpname => by
      by_contra hnot
      exact hchanged r.name ((mem_changed_of_same ha hb h).mpr ⟨p, hp, hpname, q, hq, hnot⟩)
    exact (halike r hr rfl).symm.trans (halike s hs hname.symm)
  · intro hsame name hname
    obtain ⟨r, hr, hrname, s, hs, hnot⟩ := (mem_changed_of_same ha hb h).mp hname
    obtain ⟨hmem, hsname⟩ := last?_spec hs
    exact hnot (hsame s hmem r hr (hsname.trans hrname.symm))

/-- Comparing what was built with the same components finds nothing new or lost, and what it says has
changed are the names with a component that is not alike to the last one of the name. So it finds nothing
exactly when all components of one name are alike. -/
theorem built_compared_with_same {t t' : FileTree} {s s' : BuildSettings} {d e : Build}
    (hd : Build.of? t s = some d) (he : Build.of? t' s' = some e)
    (h : List.Forall₂ ComponentRecord.Alike d.manifest.components e.manifest.components) :
    (of d.manifest e.manifest).added = [] ∧ (of d.manifest e.manifest).removed = [] ∧
    (of d.manifest e.manifest).changed.Sublist e.manifest.names ∧
    (∀ name, name ∈ (of d.manifest e.manifest).changed ↔ ∃ r ∈ e.manifest.components, r.name = name ∧
      ∃ s, last? e.manifest name = some s ∧ ¬s.Alike r) ∧
    ((of d.manifest e.manifest).isEmpty = true ↔
      ∀ r ∈ e.manifest.components, ∀ s ∈ e.manifest.components, r.name = s.name → r.Alike s) :=
  ⟨added_of_same h, removed_of_same h, changed_sublist _ _,
    fun _ => mem_changed_of_same (Build.keyed hd) (Build.keyed he) h,
    isEmpty_of_same_iff (Build.keyed hd) (Build.keyed he) h⟩

/-- A project with two stories in one directory. -/
def twoStoriesProject : FileTree :=
  { nodes := [(["lib"], .directory), (["lib", "Box"], .directory),
      (["lib", "Box", "Box.ts"], .file (.text "")),
      (["lib", "Box", "Box.stories.ts"], .file (.text "export default \x7bargs:\x7ba:1\x7d\x7d;")),
      (["lib", "Box", "Wide.stories.ts"], .file (.text "export default \x7bargs:\x7bb:1\x7d\x7d;"))]
    current := [] }

theorem discover?_twoStoriesProject : discover? twoStoriesProject { } "lib" =
    some ["lib/Box/Box.stories.ts", "lib/Box/Wide.stories.ts"] := by
  have hbase : twoStoriesProject.locate "lib" = .ok ["lib"] := by decide +kernel
  exact discover?_of_sorted hbase (by decide +kernel) (by decide +kernel) (by decide +kernel)

/-- Two components of one name that are not alike are said to have changed, whatever they are
compared with. -/
theorem changed_twoStoriesProject : ∃ d, Build.of? twoStoriesProject { directory := "lib" } = some d ∧
    of d.manifest d.manifest = ⟨[], [], ["box"]⟩ := by
  have hd := Build.of?_of_discover? (s := { directory := "lib" }) discover?_twoStoriesProject
  exact ⟨_, hd, by decide +kernel⟩

theorem built_compared_with_same_twoStoriesProject : ∃ d,
    Build.of? twoStoriesProject { directory := "lib" } = some d ∧
    List.Forall₂ ComponentRecord.Alike d.manifest.components d.manifest.components ∧
    ∃ r ∈ d.manifest.components, r.name = "box" ∧ ∃ s, last? d.manifest "box" = some s ∧ ¬s.Alike r := by
  have hd := Build.of?_of_discover? (s := { directory := "lib" }) discover?_twoStoriesProject
  have hsame (rs : List ComponentRecord) : List.Forall₂ ComponentRecord.Alike rs rs :=
    List.forall₂_same.mpr fun r _ => .refl r
  obtain ⟨-, -, -, hchanged, -⟩ := built_compared_with_same hd hd (hsame _)
  exact ⟨_, hd, hsame _, (hchanged "box").mp (by decide +kernel)⟩

end Comparison

end StoryManifest
