import StoryManifest.Proofs.Correspondence
import StoryManifest.Proofs.Source.Excerpt

/-!
The order of the statements does not matter to what is located. Two programs are compared by their
statements, taken out of the texts: statements with one excerpt offer the same to the rules, and what an
offer comes to depends on the offers after it only where a name is bound twice or several values are
exported by default. A statement that offers nothing may stand anywhere.
-/

namespace StoryManifest.Story

open Source (Node Program Likeness parsed ofText_eq_parsed)

/-! ### What is told of declarations -/

/-- What is told of a declaration: its rule, the name, the part of metadata and the text of the value. -/
structure Finding where
  provenance : Provenance
  name : Option String
  part : Option Part
  text : String
  deriving DecidableEq, Repr

def findingOf (p : Program) (d : Declaration) : Finding :=
  ⟨d.provenance, d.name, d.part, p.textOf d.node⟩

/-- What is told of the located declarations. -/
def findings (p : Program) : List Finding := (declarations p.root).map (findingOf p)

/-! ### Statements of two programs -/

/-- The statement exports something by default, a value or by a name. -/
def exportsDefault (s : Node) : Bool :=
  s.is .exportStatement && (isDefaultExport s || !(defaultAliases s).isEmpty)

/-- A node of one program is a node of another, somewhere else in the text. -/
def Alike (p q : Program) (m n : Node) : Prop := ∃ a b, p.excerpt a m = q.excerpt b n

section

variable {p q : Program}

theorem Alike.textOf_eq {m n : Node} (h : Alike p q m n) : p.textOf m = q.textOf n := by
  obtain ⟨a, b, h⟩ := h
  rw [Program.excerpt_eq, Program.excerpt_eq, Source.Excerpt.mk.injEq] at h
  exact h.2.2.2.2.1

/-- Nodes with one excerpt are alike, and so are their children, one by one. -/
theorem likeness_alike (p q : Program) : Likeness (Alike p q) := by
  refine Source.likeness_of_children ?_ ?_ ?_
  · rintro m n ⟨a, b, h⟩
    simpa using congrArg Source.Excerpt.label h
  · rintro m n ⟨a, b, h⟩
    rw [Program.excerpt_eq, Program.excerpt_eq, Source.Excerpt.mk.injEq] at h
    exact h.2.2.2.1
  · rintro m n ⟨a, b, h⟩
    rw [Program.excerpt_eq, Program.excerpt_eq, Source.Excerpt.mk.injEq] at h
    refine (forall₂_of_map_eq h.2.2.2.2.2).imp fun c d hcd => .same ?_ ⟨a, b, hcd⟩
    rw [Program.excerpt_eq, Program.excerpt_eq, Source.Excerpt.mk.injEq] at hcd
    exact hcd.2.1

theorem Declaration.Same.findingOf_eq {d e : Declaration} (h : d.Same (Alike p q) e) :
    findingOf p d = findingOf q e := by
  rw [findingOf, findingOf, h.provenance, h.name, h.part, h.node.textOf_eq]

theorem exportsDefault_eq {m n : Node} (h : Alike p q m n) : exportsDefault m = exportsDefault n := by
  have hR := likeness_alike p q
  rw [exportsDefault, exportsDefault, ← hR.is_eq h, ← isDefaultExport_eq hR h]
  cases hkind : m.is .exportStatement with
  | false => rfl
  | true =>
    cases hdefault : isDefaultExport m with
    | true => rfl
    | false => rw [defaultAliases_eq hR h hkind hdefault]

end

/-- A statement that offers nothing may be left out when it exports nothing by default. -/
theorem offeredIn_remove {s : Node} (hnames : defaultNamesOf s = []) (hinitializers : initializersOf s = [])
    (hoffers : offersOf s = []) (ss ts : List Node) : offeredIn (ss ++ s :: ts) = offeredIn (ss ++ ts) := by
  simp [offeredIn, hinitializers, hnames, hoffers]

/-- A statement that no rule looks at may be left out. -/
theorem offeredIn_insert {s : Node} (h : IsSilent s.label) (ss ts : List Node) :
    offeredIn (ss ++ s :: ts) = offeredIn (ss ++ ts) := by
  obtain ⟨hnames, hinitializers, hoffers⟩ := nil_of_isSilent h
  exact offeredIn_remove hnames hinitializers hoffers ss ts

/-! ### Statements in another order -/

theorem nil_of_not_exportsDefault {s : Node} (h : exportsDefault s = false) :
    exportedValue? s = none ∧ defaultNamesOf s = [] := by
  cases hexport : s.is .exportStatement <;> cases hdefault : isDefaultExport s <;>
    simp_all [exportsDefault, exportedValue?, defaultNamesOf]

namespace Offer

/-- With no name bound twice and one value at most, it does not matter what is offered later. -/
theorem declarations_eq_flatMap (defaultName : Option String) (bound : List String) {os : List Offer}
    (hvalues : (os.filterMap value?).length ≤ 1) (hnames : ((os.filterMap binding?).map Prod.fst).Nodup) :
    declarations defaultName bound os = os.flatMap fun o =>
      (o.declaration? defaultName bound []).toList := by
  induction os with
  | nil => rfl
  | cons o os ih =>
    have hrest := ih
      (Nat.le_trans ((List.sublist_cons_self o os).filterMap value?).length_le hvalues)
      (hnames.sublist (((List.sublist_cons_self o os).filterMap binding?).map Prod.fst))
    have ho : o.declaration? defaultName bound os = o.declaration? defaultName bound [] := by
      cases o with
      | value n =>
        cases hn : n.is .identifier with
        | true => simp [declaration?, hn]
        | false =>
          have hnone : ∀ o ∈ os, o.value? = none := by simpa [value?, hn] using hvalues
          have hany : os.any (·.value?.isSome) = false := by simpa using hnone
          rw [declaration?, declaration?, hany]
          rfl
      | binding exported name n =>
        have hnotMem : name ∉ (os.filterMap binding?).map Prod.fst := (List.nodup_cons.mp hnames).1
        have hany : os.any (binds name) = false := by
          refine List.any_eq_false.mpr fun o ho hbinds => hnotMem ?_
          cases he : o.binding? with
          | none => simp [binds, he] at hbinds
          | some e =>
            have hname : e.1 = name := by simpa [binds, he] using hbinds
            exact hname ▸ List.mem_map_of_mem (List.mem_filterMap.mpr ⟨o, ho, he⟩)
        rw [declaration?, declaration?, hany]
        rfl
      | assignment a => rfl
    rw [declarations, hrest, ho, List.flatMap_cons]

theorem declaration?_congr {bound bound' : List String} (hbound : ∀ name, name ∈ bound ↔ name ∈ bound')
    (defaultName : Option String) (later : List Offer) (o : Offer) :
    o.declaration? defaultName bound later = o.declaration? defaultName bound' later := by
  cases o with
  | value | binding => rfl
  | assignment a => simp only [declaration?, hbound]

end Offer

section

variable {ss ts : List Node}

theorem eq_of_perm_of_length_le_one {α : Type} {xs ys : List α} (h : xs.Perm ys) (hxs : xs.length ≤ 1) :
    xs = ys := by
  match xs, hxs with
  | [], _ => exact h.nil_eq
  | [x], _ => exact (List.perm_singleton.mp h.symm).symm

/-- One statement at most that exports by default has at most one value for it. -/
theorem length_values_le_one (h : (ss.filter exportsDefault).length ≤ 1) :
    ((ss.flatMap offersOf).filterMap Offer.value?).length ≤ 1 := by
  have hvalues : (ss.flatMap offersOf).filterMap Offer.value? =
      (ss.filter exportsDefault).flatMap fun s =>
        ((exportedValue? s).filter (!·.is .identifier)).toList := by
    rw [flatMap_filter_of_nil fun s hs => by rw [(nil_of_not_exportsDefault hs).1]; rfl]
    simp only [List.filterMap_flatMap, filterMap_offersOf_value]
  rw [hvalues]
  match ss.filter exportsDefault, h with
  | [], _ => exact Nat.zero_le 1
  | [s], _ => simp [Option.length_toList_le]

/-- What a statement comes to on its own. -/
def offeredBy (defaultName : Option String) (bound : List String) (s : Node) : List Declaration :=
  (offersOf s).flatMap fun o => (o.declaration? defaultName bound []).toList

theorem offeredIn_eq_flatMap (hnames : ((ss.flatMap initializersOf).map Prod.fst).Nodup)
    (hdefault : (ss.filter exportsDefault).length ≤ 1) : offeredIn ss =
      ss.flatMap
        (offeredBy (ss.flatMap defaultNamesOf).getLast? ((ss.flatMap initializersOf).map Prod.fst)) := by
  have hbindings : (ss.flatMap offersOf).filterMap Offer.binding? = ss.flatMap initializersOf := by
    simp only [List.filterMap_flatMap, filterMap_offersOf_binding]
  rw [offeredIn, Offer.declarations_eq_flatMap _ _ (length_values_le_one hdefault) (hbindings ▸ hnames),
    List.flatMap_assoc]
  rfl

/-- The order of statements does not matter when no name is bound twice and one of them at most exports by
default. -/
theorem perm_offeredIn (h : ss.Perm ts) (hnames : ((ss.flatMap initializersOf).map Prod.fst).Nodup)
    (hdefault : (ss.filter exportsDefault).length ≤ 1) : (offeredIn ss).Perm (offeredIn ts) := by
  have hbound := (h.flatMap_right initializersOf).map Prod.fst
  have hfilter : ss.filter exportsDefault = ts.filter exportsDefault :=
    eq_of_perm_of_length_le_one (h.filter _) hdefault
  have hlast : ss.flatMap defaultNamesOf = ts.flatMap defaultNamesOf := by
    rw [← flatMap_filter_of_nil (fun s hs => (nil_of_not_exportsDefault hs).2), hfilter,
      flatMap_filter_of_nil (fun s hs => (nil_of_not_exportsDefault hs).2)]
  have hofferedBy :
      offeredBy (ts.flatMap defaultNamesOf).getLast? ((ss.flatMap initializersOf).map Prod.fst) =
      offeredBy (ts.flatMap defaultNamesOf).getLast? ((ts.flatMap initializersOf).map Prod.fst) := by
    funext s
    rw [offeredBy, offeredBy, funext (Offer.declaration?_congr (fun _ => hbound.mem_iff) _ [])]
  rw [offeredIn_eq_flatMap hnames hdefault,
    offeredIn_eq_flatMap (hbound.nodup_iff.mp hnames) (hfilter ▸ hdefault), hlast, hofferedBy]
  exact h.flatMap_right _

end

/-! ### Programs -/

section

variable {v w : Source.Variant} {text text' : String} {p q : Program}

theorem alike_of_map_eq {ss ts : List Node}
    (h : ss.map (fun s => p.excerpt s.start.byte s) = ts.map fun t => q.excerpt t.start.byte t) :
    List.Forall₂ (Alike p q) ss ts :=
  (forall₂_of_map_eq h).imp fun _ _ h => ⟨_, _, h⟩

/-- Statements put in another order are alike to the same statements, put in another order. -/
theorem exists_alike_perm {ss ts : List Node}
    (h : (ss.map fun s => p.excerpt s.start.byte s).Perm (ts.map fun t => q.excerpt t.start.byte t)) :
    ∃ us, List.Forall₂ (Alike p q) ss us ∧ us.Perm ts := by
  have hexcerpts : List.Forall₂ (fun x t => x = q.excerpt t.start.byte t)
      (ts.map fun t => q.excerpt t.start.byte t) ts :=
    List.forall₂_map_left_iff.mpr (List.forall₂_same.mpr fun _ _ => rfl)
  obtain ⟨us, hus, hperm⟩ := List.perm_comp_forall₂ h hexcerpts
  exact ⟨us, (List.forall₂_map_left_iff.mp hus).imp fun _ _ h => ⟨_, _, h⟩, hperm⟩

theorem findings_eq (h : Program.ofText v text = .ok p) :
    findings p = (offeredIn p.root.namedChildren).map (findingOf p) := by
  obtain ⟨b, horder⟩ := Source.inOrder_root h
  rw [findings, declarations_eq horder, offered_eq]

/-- The order of the statements does not matter to what is located. With no name of a variable bound twice
and at most one statement that exports by default, the statements may be put in any order, and the
findings are the same but for their order. And a statement that declares no variables and is neither an
export nor an expression may be put in or taken out anywhere, whatever it holds inside: the findings and
the properties stay the same. -/
theorem findings_rearranged (hp : Program.ofText v text = .ok p) (hq : Program.ofText w text' = .ok q) :
    ((boundNames p.root).Nodup → (p.root.namedChildren.filter exportsDefault).length ≤ 1 →
      p.statements.Perm q.statements → (findings p).Perm (findings q)) ∧
    ∀ before x after, p.statements = before ++ after → q.statements = before ++ x :: after →
      IsSilent x.label →
      findings p = findings q ∧ (extract p).properties = (extract q).properties := by
  constructor
  · intro hnames hdefault hperm
    obtain ⟨us, halike, hus⟩ := exists_alike_perm hperm
    have hnames' : ((us.flatMap initializersOf).map Prod.fst).Nodup := by
      rw [← initialized_eq (likeness_alike p q) halike]
      exact hnames
    have hdefault' : (us.filter exportsDefault).length ≤ 1 := by
      rw [← (forall₂_filter halike fun _ _ => exportsDefault_eq).length_eq]
      exact hdefault
    rw [findings_eq hp, findings_eq hq,
      forall₂_map_eq (offeredIn_same (likeness_alike p q) halike) fun _ _ h => h.findingOf_eq]
    exact (perm_offeredIn hus hnames' hdefault').map _
  · intro before x after hbefore hafter hsilent
    obtain ⟨ss, ss', hss, hss₁, hss₂⟩ := List.map_eq_append_iff.mp hbefore
    obtain ⟨ts, ts', hts, hts₁, hts₂⟩ := List.map_eq_append_iff.mp hafter
    obtain ⟨t, us, rfl, rfl, hus⟩ := List.map_eq_cons_iff.mp hts₂
    have halike : List.Forall₂ (Alike p q) (ss ++ ss') (ts ++ us) := alike_of_map_eq (by
      rw [List.map_append, List.map_append, hss₁, hss₂, hts₁, hus])
    obtain ⟨b, hp⟩ := Source.inOrder_root hp
    obtain ⟨b', hq⟩ := Source.inOrder_root hq
    have hdeclarations : List.Forall₂ (Declaration.Same (Alike p q)) (declarations p.root)
        (declarations q.root) := by
      rw [declarations_eq hp, declarations_eq hq, offered_eq, offered_eq, hss, hts,
        offeredIn_insert (by simpa using hsilent)]
      exact offeredIn_same (likeness_alike p q) halike
    exact ⟨forall₂_map_eq hdeclarations fun _ _ h => h.findingOf_eq,
      (extract_same (likeness_alike p q) hp hq hdeclarations).2⟩

end

/-- An assignment to metadata before the variable that it is for. -/
def assignedFirst : String := "x.args=\x7b\x7d;const x=\x7b\x7d;export default x;"

/-- The same statements, the last one first. -/
def assignedLast : String := "export default x;const x=\x7b\x7d;x.args=\x7b\x7d;"

/-- A condition put in that makes an assignment of its own. -/
def assignedInside : String := "x.args=\x7b\x7d;if(x)\x7bx.args=1\x7dconst x=\x7b\x7d;export default x;"

theorem findings_rearranged_assigned : ∃ p q r : Program,
    Program.ofText .tsx assignedFirst = .ok p ∧ Program.ofText .tsx assignedLast = .ok q ∧
    Program.ofText .tsx assignedInside = .ok r ∧ (findings p).Perm (findings q) ∧
    findings p = findings r ∧ (extract p).properties = (extract r).properties := by
  let p := parsed .tsx assignedFirst
  let q := parsed .tsx assignedLast
  let r := parsed .tsx assignedInside
  have ⟨hp, hq, hr, hnames, hdefault, hperm, hafter, hsilent⟩ :
      (Source.syntaxFault? p.root).isNone = true ∧ (Source.syntaxFault? q.root).isNone = true ∧
      (Source.syntaxFault? r.root).isNone = true ∧ (boundNames p.root).Nodup ∧
      (p.root.namedChildren.filter exportsDefault).length ≤ 1 ∧ p.statements.Perm q.statements ∧
      r.statements = p.statements.take 1 ++ r.statements.getD 1 (r.excerpt 0 r.root) :: p.statements.drop 1 ∧
      IsSilent (r.statements.getD 1 (r.excerpt 0 r.root)).label := by decide +kernel
  have hp := ofText_eq_parsed .tsx assignedFirst hp
  have hq := ofText_eq_parsed .tsx assignedLast hq
  have hr := ofText_eq_parsed .tsx assignedInside hr
  refine ⟨_, _, _, hp, hq, hr, (findings_rearranged hp hq).1 hnames hdefault hperm, ?_⟩
  exact (findings_rearranged hp hr).2 _ _ _ (List.take_append_drop 1 p.statements).symm hafter hsilent

end StoryManifest.Story
