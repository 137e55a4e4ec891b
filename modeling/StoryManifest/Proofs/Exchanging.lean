import StoryManifest.Proofs.Merging

/-!
The order of the parts of metadata. Default values are given by one part and described by the other, and
what is declared of a property by the other part alone, so of the two parts it does not matter which is
read first: only the order of the properties and of what is reported can tell. Reading everything once
more changes no property, since the last that was read of each field is read last again.
-/

namespace StoryManifest.Story

variable {α : Type} {give : Part → Value → Option α} {part : Part} {rs ss : List Reading} {name : String}

/-! ### Entries of one part -/

/-- Only entries of a part give something. -/
def GivenIn (part : Part) (give : Part → Value → Option α) : Prop := ∀ q v, q ≠ part → give q v = none

theorem givenIn_givenDefault? : GivenIn .args givenDefault? := by
  rintro (_ | _) v hq
  · exact absurd rfl hq
  · rfl

theorem givenIn_described? (key : String) : GivenIn .argTypes (described? key) := by
  rintro (_ | _) v hq
  · rfl
  · exact absurd rfl hq

theorem givenIn_describedDefault? : GivenIn .argTypes describedDefault? := fun q v hq => by
  rw [describedDefault?, givenIn_described? _ q v hq, Option.bind_none]

theorem givenIn_describedText? : GivenIn .argTypes describedText? := fun q v hq => by
  rw [describedText?, givenIn_described? _ q v hq, Option.bind_none]

theorem givenIn_describedType? : GivenIn .argTypes describedType? := fun q v hq => by
  rw [describedType?, givenIn_described? _ q v hq, Option.bind_none, Option.bind_none]

/-- The last of a row is the last of its end, or else of its start. -/
theorem lastOf_append (give : Part → Value → Option α) (rs ss : List Reading) (name : String) :
    lastOf give (rs ++ ss) name = (lastOf give ss name).or (lastOf give rs name) := by
  rw [lastOf, List.filter_append, List.filterMap_append, List.getLast?_append]
  rfl

/-- The entries of the other part give nothing. -/
theorem GivenIn.lastOf_eq_none (h : GivenIn part give) (hrs : ∀ r ∈ rs, r.1 ≠ part) (name : String) :
    lastOf give rs name = none := by
  rw [lastOf, List.getLast?_eq_none_iff, List.filterMap_eq_nil_iff]
  exact fun r hr => h _ _ (hrs r (List.mem_of_mem_filter hr))

/-- Of entries of different parts, the ones give what the others do not. -/
theorem GivenIn.lastOf_comm (h : GivenIn part give) (hparts : ∀ r ∈ rs, ∀ s ∈ ss, r.1 ≠ s.1)
    (name : String) :
    lastOf give (rs ++ ss) name = lastOf give (ss ++ rs) name := by
  rw [lastOf_append, lastOf_append]
  by_cases hrs : ∀ r ∈ rs, r.1 ≠ part
  · rw [h.lastOf_eq_none hrs, Option.or_none, Option.none_or]
  · obtain ⟨r, hr, hpart⟩ := not_forall₂.mp hrs
    have hss : ∀ s ∈ ss, s.1 ≠ part := fun s hs hs' => hparts r hr s hs ((not_not.mp hpart).trans hs'.symm)
    rw [h.lastOf_eq_none hss, Option.or_none, Option.none_or]

/-! ### Names and fields -/

theorem mem_namesOf : name ∈ namesOf rs ↔ ∃ r ∈ rs, r.2.name = name := by
  rw [namesOf, List.mem_eraseDups, List.mem_map]

theorem namesOf_perm (h : rs.Perm ss) : (namesOf rs).Perm (namesOf ss) := by
  rw [List.perm_ext_iff_of_nodup (nodup_namesOf rs) (nodup_namesOf ss)]
  intro name
  simp only [mem_namesOf, h.mem_iff]

/-- A property is what is last given of its fields. -/
theorem propertyOf_congr (hgiven : lastOf givenDefault? rs name = lastOf givenDefault? ss name)
    (hdefault : lastOf describedDefault? rs name = lastOf describedDefault? ss name)
    (htype : lastOf describedType? rs name = lastOf describedType? ss name)
    (htext : lastOf describedText? rs name = lastOf describedText? ss name) :
    propertyOf rs name = propertyOf ss name := by
  rw [propertyOf, propertyOf, defaultOf, defaultOf, hgiven, hdefault, htype, htext]

/-- Neighbours of different parts may be exchanged. -/
theorem propertyOf_exchange (hparts : ∀ r ∈ rs, ∀ s ∈ ss, r.1 ≠ s.1) (before after : List Reading)
    (name : String) :
    propertyOf (before ++ (rs ++ ss) ++ after) name = propertyOf (before ++ (ss ++ rs) ++ after) name := by
  have hlast : ∀ {β : Type} {part : Part} {give : Part → Value → Option β}, GivenIn part give →
      lastOf give (before ++ (rs ++ ss) ++ after) name =
        lastOf give (before ++ (ss ++ rs) ++ after) name := by
    intro β part give h
    rw [lastOf_append give _ after, lastOf_append give _ after, lastOf_append give before,
      lastOf_append give before, h.lastOf_comm hparts]
  exact propertyOf_congr (hlast givenIn_givenDefault?) (hlast givenIn_describedDefault?)
    (hlast givenIn_describedType?) (hlast givenIn_describedText?)

/-- Entries that are read once more give what they gave. -/
theorem propertyOf_twice (rs : List Reading) (name : String) :
    propertyOf (rs ++ rs) name = propertyOf rs name := by
  have hlast : ∀ {β : Type} (give : Part → Value → Option β),
      lastOf give (rs ++ rs) name = lastOf give rs name := fun give => by
    rw [lastOf_append, Option.or_self]
  exact propertyOf_congr (hlast _) (hlast _) (hlast _) (hlast _)

theorem namesOf_twice (rs : List Reading) : namesOf (rs ++ rs) = namesOf rs := by
  have hnone : (rs.map (·.2.name)).removeAll (rs.map (·.2.name)) = [] := by
    rw [List.removeAll, List.filter_eq_nil_iff]
    simp
  rw [namesOf, List.map_append, List.eraseDups_append, hnone, List.eraseDups_nil, List.append_nil, namesOf]

/-! ### Candidates -/

theorem readings_append (cs ds : List Candidate) : readings (cs ++ ds) = readings cs ++ readings ds :=
  List.flatMap_append

theorem part_of_mem_readings {c : Candidate} {r : Reading} (h : r ∈ readings [c]) : r.1 = c.part := by
  rw [readings, List.flatMap_singleton] at h
  obtain ⟨e, -, rfl⟩ := List.mem_map.mp h
  rfl

/-- The property of a name among those that were gathered. -/
def Merged.property? (m : Merged) (name : String) : Option Property := m.properties.find? (·.name = name)

theorem property?_merge (cs : List Candidate) (name : String) : (merge cs).property? name =
    if name ∈ namesOf (readings cs) then some (propertyOf (readings cs) name) else none := by
  have hname : ((fun q : Property => decide (q.name = name)) ∘ propertyOf (readings cs)) =
      fun n => decide (n = name) := rfl
  rw [Merged.property?, (merge_reads cs).properties, List.find?_map, hname]
  split
  · rename_i h
    obtain ⟨n, hn⟩ := Option.isSome_iff_exists.mp
      (List.find?_isSome.mpr ⟨name, h, by simp⟩ :
        ((namesOf (readings cs)).find? fun n => decide (n = name)).isSome = true)
    obtain rfl : n = name := by simpa using List.find?_some hn
    rw [hn, Option.map_some]
  · rename_i h
    have hnone : (namesOf (readings cs)).find? (fun n => decide (n = name)) = none :=
      List.find?_eq_none.mpr fun n hn hn' => h (of_decide_eq_true hn' ▸ hn)
    rw [hnone, Option.map_none]

/-- Candidates of different parts that follow one another may be exchanged: there are the same names,
each with the same property, and the same diagnostics, all in an order that may be another one. And
merging candidates twice in a row gives the same properties as merging them once. -/
theorem merge_exchange (cs : List Candidate) :
    (∀ (before after : List Candidate) (c d : Candidate), cs = before ++ c :: d :: after → c.part ≠ d.part →
      (∀ name, (merge (before ++ d :: c :: after)).property? name = (merge cs).property? name) ∧
      (merge (before ++ d :: c :: after)).properties.Perm (merge cs).properties ∧
      (merge (before ++ d :: c :: after)).diagnostics.Perm (merge cs).diagnostics) ∧
    (merge (cs ++ cs)).properties = (merge cs).properties := by
  refine ⟨?_, ?_⟩
  · rintro before after c d rfl h
    have hsplit : ∀ a b : Candidate, readings (before ++ a :: b :: after) =
        readings before ++ (readings [a] ++ readings [b]) ++ readings after := fun a b => by
      rw [List.append_cons, List.append_cons, readings_append, readings_append, readings_append,
        List.append_assoc (readings before)]
    have hparts : ∀ r ∈ readings [d], ∀ s ∈ readings [c], r.1 ≠ s.1 := fun r hr s hs hrs =>
      h ((part_of_mem_readings hs).symm.trans (hrs.symm.trans (part_of_mem_readings hr)))
    have hproperty : ∀ name, propertyOf (readings (before ++ d :: c :: after)) name =
        propertyOf (readings (before ++ c :: d :: after)) name := fun name => by
      rw [hsplit, hsplit, propertyOf_exchange hparts]
    have hcandidates : (before ++ d :: c :: after).Perm (before ++ c :: d :: after) :=
      (List.Perm.swap c d after).append_left before
    have hnames : (namesOf (readings (before ++ d :: c :: after))).Perm
        (namesOf (readings (before ++ c :: d :: after))) :=
      namesOf_perm (hcandidates.flatMap_right _)
    refine ⟨fun name => ?_, ?_, ?_⟩
    · rw [property?_merge, property?_merge, hproperty]
      exact if_congr hnames.mem_iff rfl rfl
    · rw [(merge_reads _).properties, (merge_reads _).properties,
        List.map_congr_left fun name _ => hproperty name]
      exact hnames.map _
    · rw [diagnostics_merge_eq, diagnostics_merge_eq]
      exact hcandidates.flatMap_right _
  · rw [(merge_reads _).properties, (merge_reads _).properties, readings_append, namesOf_twice]
    exact List.map_congr_left fun name _ => propertyOf_twice _ name

/-- Default values of which one cannot be evaluated. -/
def givenSizes : Candidate :=
  { part := .args, provenance := .defaultExport, declaration := "default export.args", position := 0,
    line := 1
    entries := [⟨"size", .text "large", 1⟩, ⟨"wide", .unsupported "identifier", 1⟩] }

/-- Descriptions of two properties, of which one is described twice, the first time by no record. -/
def describedSizes : Candidate :=
  { part := .argTypes, provenance := .defaultExport, declaration := "default export.argTypes", position := 1
    line := 1
    entries := [⟨"wide", .record [("defaultValue", .bool true)], 1⟩, ⟨"size", .text "number", 1⟩,
      ⟨"size", .record [("type", .text "number"), ("defaultValue", .number (.integer 12))], 1⟩] }

theorem merge_exchange_sizes : givenSizes.part ≠ describedSizes.part ∧
    (merge [givenSizes, describedSizes]).properties.map (fun q => (q.name, q.type)) =
      [("size", .number), ("wide", .boolean)] ∧
    (merge [describedSizes, givenSizes]).properties.map (fun q => (q.name, q.type)) =
      [("wide", .boolean), ("size", .number)] ∧
    (∀ name, (merge [describedSizes, givenSizes]).property? name =
      (merge [givenSizes, describedSizes]).property? name) ∧
    (merge [describedSizes, givenSizes]).properties.Perm (merge [givenSizes, describedSizes]).properties ∧
    (merge [describedSizes, givenSizes]).diagnostics.Perm (merge [givenSizes, describedSizes]).diagnostics ∧
    (merge [givenSizes, describedSizes, givenSizes, describedSizes]).properties =
      (merge [givenSizes, describedSizes]).properties := by
  have hparts : givenSizes.part ≠ describedSizes.part := by decide
  have hexchange := merge_exchange [givenSizes, describedSizes]
  obtain ⟨hproperty, hproperties, hdiagnostics⟩ := hexchange.1 [] [] givenSizes describedSizes rfl hparts
  exact ⟨hparts, by decide +kernel, by decide +kernel, hproperty, hproperties, hdiagnostics, hexchange.2⟩

end StoryManifest.Story
