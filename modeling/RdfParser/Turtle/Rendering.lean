/-
  Turtle/Rendering.lean --- writing a document in a normal form.

  A document can be written down again from its items, with one blank between any two
  tokens and every item on a line of its own.  The spellings of the terms are kept.  What
  is written in this way has the same items, provided that the spellings are those that
  the grammar can read in their positions; and the items of a document are.
-/
import RdfParser.Turtle.Items

set_option autoImplicit false

namespace RdfParser.Turtle

open RdfParser.Foundation RdfParser.Rdf RdfParser.Peg RdfParser.Peg.Rule

/-! ## The normal form -/

def VerbTree.render : VerbTree → Bytes
  | .term leaf => leaf.text
  | .a => [char 'a']

mutual

def ObjectTree.render : ObjectTree → Bytes
  | .term leaf => leaf.text
  | .collection members => char '(' :: (members.renderMembers ++ bytes " )")
  | .blankNodePropertyList list => bytes "[ " ++ (list.render ++ bytes " ]")

/-- The members of a collection. -/
def ObjectsTree.renderMembers : ObjectsTree → Bytes
  | .nil => []
  | .cons object objects => char ' ' :: (object.render ++ objects.renderMembers)

/-- The objects behind the first one. -/
def ObjectsTree.renderFurther : ObjectsTree → Bytes
  | .nil => []
  | .cons object objects => bytes " , " ++ (object.render ++ objects.renderFurther)

def ListTree.render : ListTree → Bytes
  | .last verb object objects =>
      verb.render ++ char ' ' :: (object.render ++ objects.renderFurther)
  | .more verb object objects next =>
      verb.render ++ char ' ' :: (object.render ++ (objects.renderFurther ++
        (bytes " ; " ++ next.render)))

end

def SubjectTree.render : SubjectTree → Bytes
  | .term leaf => leaf.text
  | .collection members => char '(' :: (members.renderMembers ++ bytes " )")

def StatementTree.render : StatementTree → Bytes
  | .tripleSeq1 subject list => subject.render ++ char ' ' :: (list.render ++ bytes " .")
  | .tripleSeq2 list none => bytes "[ " ++ (list.render ++ (bytes " ]" ++ bytes " ."))
  | .tripleSeq2 list (some more) =>
      bytes "[ " ++ (list.render ++ (bytes " ]" ++ char ' ' :: (more.render ++ bytes " .")))

/-- Directives keep their layout. -/
def Item.render : Item → Bytes
  | .triples statement => statement.render
  | .directive d layout pre iri => d.text layout pre iri

/-- One item a line. -/
def renderItems : List Item → Bytes
  | [] => []
  | item :: items => item.render ++ char '\n' :: renderItems items

/-! ## What the grammar can read -/

/-- A spelling of an IRI. -/
def Leaf.isIri : Leaf → Bool
  | .iri _ => true
  | _ => false

/-- A spelling of a blank node. -/
def Leaf.isBlankNode : Leaf → Bool
  | .blankNodeLabel _ | .anon _ => true
  | _ => false

def VerbTree.Writable : VerbTree → Prop
  | .term leaf => leaf.WellFormed ∧ leaf.isIri = true
  | .a => True

mutual

def ObjectTree.Writable : ObjectTree → Prop
  | .term leaf => leaf.Readable false ∧ leaf.Unmistakable
  | .collection members => members.Writable
  | .blankNodePropertyList list => list.Writable

def ObjectsTree.Writable : ObjectsTree → Prop
  | .nil => True
  | .cons object objects => object.Writable ∧ objects.Writable

def ListTree.Writable : ListTree → Prop
  | .last verb object objects => verb.Writable ∧ object.Writable ∧ objects.Writable
  | .more verb object objects next =>
      verb.Writable ∧ object.Writable ∧ objects.Writable ∧ next.Writable

end

def SubjectTree.Writable : SubjectTree → Prop
  | .term leaf => leaf.WellFormed ∧ (leaf.isIri = true ∨ leaf.isBlankNode = true)
  | .collection members => members.Writable

def StatementTree.Writable : StatementTree → Prop
  | .tripleSeq1 subject list => subject.Writable ∧ list.Writable
  | .tripleSeq2 list more => list.Writable ∧ ∀ other ∈ more, other.Writable

def Item.Writable : Item → Prop
  | .triples statement => statement.Writable
  | .directive d layout pre iri => d.Admits layout ∧ Matches turtle .pnameNs (pnameToken pre) ∧
      Matches turtle .iriref (irirefToken iri) ∧ (d = .sparqlPrefix → layout.afterKeyword ≠ [])

/-! ## What is written is derived -/

section Rendering

variable {input rest : Bytes} {leaf : Leaf}

/-- A blank in front of anything. -/
theorem gap_blank (rest : Bytes) : Gap (char ' ' :: rest) rest :=
  ⟨[char ' '], .space (by decide) .nil, rfl⟩

theorem mark_blank (c : Char) (rest : Bytes) : Mark c (char ' ' :: char c :: rest) rest :=
  gap_blank _

theorem delimited_blank (rest : Bytes) : Delimited (char ' ' :: rest) :=
  delimited_cons (by decide) rest

theorem Leaf.reads_object (h : leaf.Readable false) (hplain : leaf.Unmistakable)
    (hrest : Delimited rest) : leaf.ReadAs false .term (leaf.text ++ rest) rest := by
  have hvar : leaf.isVar = false := h.allowed.resolve_right Bool.false_ne_true
  exact ⟨h, rfl, Leaf.delimited h.wellFormed hvar hplain hrest⟩

theorem Leaf.reads_verb (h : leaf.WellFormed) (hiri : leaf.isIri = true) (hrest : Delimited rest) :
    leaf.ReadAs false .predicate (leaf.text ++ rest) rest := by
  cases leaf with
  | iri i =>
      obtain ⟨_, hrun, hessence⟩ := IriLeaf.delimited h hrest
      obtain ⟨_, hinner, hsame⟩ := ref_inner rfl hrun
      have hbody : Yields (turtle .predicate) (i.text ++ rest) (.ok rest) i.actions :=
        ⟨_, hinner, hsame.symm.trans hessence⟩
      exact ⟨⟨h, .inl rfl⟩, rfl, .ref rfl hbody⟩
  | _ => cases hiri

theorem Leaf.reads_subject (h : leaf.WellFormed)
    (hsubject : leaf.isIri = true ∨ leaf.isBlankNode = true) (hrest : Delimited rest) :
    ∃ name ∈ subjectRules false, leaf.ReadAs false name (leaf.text ++ rest) rest := by
  cases leaf with
  | iri i => exact ⟨.iri, by decide, ⟨h, .inl rfl⟩, rfl, IriLeaf.delimited h hrest⟩
  | blankNodeLabel text =>
      exact ⟨.blankNode, by decide, ⟨h, .inl rfl⟩, rfl, blankNodeLabel_delimited h hrest⟩
  | anon text => exact ⟨.blankNode, by decide, ⟨h, .inl rfl⟩, rfl, portable_anon h rest⟩
  | _ => rcases hsubject with h | h <;> cases h

theorem VerbTree.derives_render {verb : VerbTree} (h : verb.Writable) (rest : Bytes) :
    verb.Derives false (verb.render ++ char ' ' :: rest) (char ' ' :: rest) := by
  cases verb with
  | term leaf => exact ⟨.predicate, by decide, leaf.reads_verb h.1 h.2 (delimited_blank rest)⟩
  | a =>
      refine ⟨rfl, fun after t hrun => ?_⟩
      obtain ⟨_, hbody, -⟩ := hrun.ref_ok
      have hiri : Run turtle (.ref .iri) (bytes "a" ++ char ' ' :: rest) (.ok after) _ := .ref hbody
      have hangle : ∀ c ∈ (bytes "a").head?, c ≠ char '<' := by
        intro c hc
        obtain rfl := Option.mem_some_iff.mp hc
        decide
      exact iri_stops hangle (by decide) (by decide) (by decide) hiri

theorem ObjectsTree.renderMembers_delimited (objects : ObjectsTree) (hrest : Delimited rest) :
    Delimited (objects.renderMembers ++ rest) := by
  cases objects with
  | nil => exact hrest
  | cons object objects => exact delimited_blank _

theorem ObjectsTree.renderFurther_delimited (objects : ObjectsTree) (hrest : Delimited rest) :
    Delimited (objects.renderFurther ++ rest) := by
  cases objects with
  | nil => exact hrest
  | cons object objects => exact delimited_blank _

theorem parenthesized_render {members : ObjectsTree}
    (hmembers : ∀ rest, Delimited rest → members.Members false (members.renderMembers ++ rest) rest)
    (rest : Bytes) :
    Parenthesized (members.Members false)
      (char '(' :: (members.renderMembers ++ bytes " )") ++ rest) rest := by
  refine ⟨_, _, ?_, hmembers (bytes " )" ++ rest) (delimited_blank _), mark_blank ')' rest⟩
  rw [List.cons_append, List.append_assoc]

theorem bracketed_render {list : ListTree}
    (hlist : ∀ rest, Delimited rest → list.Derives false (list.render ++ rest) rest)
    (rest : Bytes) :
    Bracketed (list.Derives false) (bytes "[ " ++ (list.render ++ (bytes " ]" ++ rest))) rest :=
  ⟨_, _, _, rfl, gap_blank _, hlist _ (delimited_blank _), mark_blank ']' rest⟩

theorem pair_render {verb : VerbTree} {object : ObjectTree} {objects : ObjectsTree}
    (hverb : verb.Writable)
    (hobject : ∀ rest, Delimited rest → object.Derives false (object.render ++ rest) rest)
    (hobjects : objects.Further false (objects.renderFurther ++ rest) rest)
    (hrest : Delimited rest) :
    PairDerives false verb (object.Derives false) (objects.Further false)
      (verb.render ++ char ' ' :: (object.render ++ (objects.renderFurther ++ rest))) rest :=
  ⟨_, _, _, VerbTree.derives_render hverb _, gap_blank _,
    hobject _ (objects.renderFurther_delimited hrest), hobjects⟩

mutual

theorem ObjectTree.derives_render : ∀ (object : ObjectTree) (rest : Bytes), object.Writable →
    Delimited rest → object.Derives false (object.render ++ rest) rest
  | .term leaf, rest, h, hrest => leaf.reads_object h.1 h.2 hrest
  | .collection members, rest, h, hrest =>
      parenthesized_render (fun rest hrest => members.members_render rest h hrest) rest
  | .blankNodePropertyList list, rest, h, hrest => by
      have hlist := bracketed_render (fun rest hrest => list.derives_render rest h hrest) rest
      simpa only [ObjectTree.Derives, ObjectTree.render, List.append_assoc] using hlist

theorem ObjectsTree.members_render : ∀ (objects : ObjectsTree) (rest : Bytes), objects.Writable →
    Delimited rest → objects.Members false (objects.renderMembers ++ rest) rest
  | .nil, rest, h, hrest => rfl
  | .cons object objects, rest, h, hrest => by
      have hobject := object.derives_render _ h.1 (objects.renderMembers_delimited hrest)
      rw [← List.append_assoc] at hobject
      exact ⟨_, _, gap_blank _, hobject, objects.members_render rest h.2 hrest⟩

theorem ObjectsTree.further_render : ∀ (objects : ObjectsTree) (rest : Bytes), objects.Writable →
    Delimited rest → objects.Further false (objects.renderFurther ++ rest) rest
  | .nil, rest, h, hrest => rfl
  | .cons object objects, rest, h, hrest => by
      have hobject := object.derives_render _ h.1 (objects.renderFurther_delimited hrest)
      rw [← List.append_assoc] at hobject
      exact ⟨_, _, _, mark_blank ',' _, gap_blank _, hobject, objects.further_render rest h.2 hrest⟩

theorem ListTree.derives_render : ∀ (list : ListTree) (rest : Bytes), list.Writable →
    Delimited rest → list.Derives false (list.render ++ rest) rest
  | .last verb object objects, rest, ⟨hverb, hobject, hobjects⟩, hrest => by
      have hpair := pair_render hverb (fun rest hrest => object.derives_render rest hobject hrest)
        (objects.further_render rest hobjects hrest) hrest
      refine ⟨rest, ?_, .refl⟩
      simpa only [ListTree.render, List.append_assoc, List.cons_append] using hpair
  | .more verb object objects next, rest, ⟨hverb, hobject, hobjects, hnext⟩, hrest => by
      have hnext := next.derives_render rest hnext hrest
      have hsemicolon : Delimited (bytes " ; " ++ (next.render ++ rest)) := delimited_blank _
      have hpair := pair_render hverb (fun rest hrest => object.derives_render rest hobject hrest)
        (objects.further_render _ hobjects hsemicolon) hsemicolon
      refine ⟨bytes " ; " ++ (next.render ++ rest), _, _, _, ?_, .refl, mark_blank ';' _,
        gap_blank _, hnext⟩
      simpa only [ListTree.render, List.append_assoc, List.cons_append] using hpair

end

theorem SubjectTree.derives_render {subject : SubjectTree} (h : subject.Writable)
    (hrest : Delimited rest) : subject.Derives false (subject.render ++ rest) rest := by
  cases subject with
  | term leaf => exact leaf.reads_subject h.1 h.2 hrest
  | collection members =>
      exact ⟨rfl, parenthesized_render (fun rest hrest => members.members_render rest h hrest) rest⟩

theorem StatementTree.derives_render {statement : StatementTree} (h : statement.Writable)
    (rest : Bytes) : statement.Derives false (statement.render ++ rest) rest := by
  cases statement with
  | tripleSeq1 subject list =>
      have hlist := list.derives_render (bytes " ." ++ rest) h.2 (delimited_blank _)
      refine ⟨_, _, _, ?_, gap_blank _, hlist, mark_blank '.' rest⟩
      simpa only [StatementTree.render, List.append_assoc, List.cons_append] using
        SubjectTree.derives_render h.1 (delimited_blank _)
  | tripleSeq2 list more =>
      have hbracket := fun after => bracketed_render
        (fun rest hrest => list.derives_render rest h.1 hrest) after
      cases more with
      | none =>
          refine ⟨bytes " ." ++ rest, ?_, mark_blank '.' rest⟩
          simpa only [StatementTree.render, List.append_assoc] using hbracket (bytes " ." ++ rest)
      | some more =>
          have hmore := more.derives_render (bytes " ." ++ rest) (h.2 more rfl) (delimited_blank _)
          refine ⟨_, _, _, ?_, gap_blank _, hmore, mark_blank '.' rest⟩
          simpa only [StatementTree.render, List.append_assoc, List.cons_append] using
            hbracket (char ' ' :: (more.render ++ (bytes " ." ++ rest)))

theorem Item.derives_render {item : Item} (h : item.Writable) {gap : Bytes} (hgap : IsLayout gap)
    (rest : Bytes) : item.Derives (gap ++ (item.render ++ rest)) rest := by
  cases item with
  | triples statement => exact ⟨_, ⟨gap, hgap, rfl⟩, StatementTree.derives_render h rest⟩
  | directive d layout pre iri =>
      obtain ⟨hadmits, hname, hiri, hapart⟩ := h
      exact ⟨_, ⟨gap, hgap, rfl⟩, hadmits, hname, hiri, rfl, hapart⟩

theorem items_render {items : List Item} (h : ∀ item ∈ items, item.Writable) {gap : Bytes}
    (hgap : IsLayout gap) :
    ∃ last, ItemsDerive items (gap ++ renderItems items) last ∧ Gap last [] := by
  induction items generalizing gap with
  | nil => exact ⟨_, rfl, gap, hgap, rfl⟩
  | cons item items ih =>
      obtain ⟨hitem, hitems⟩ := List.forall_mem_cons.mp h
      have hnewline : IsLayout [char '\n'] := .space (by decide) .nil
      obtain ⟨last, hderives, hlast⟩ := ih hitems hnewline
      exact ⟨last, ⟨_, item.derives_render hitem hgap _, hderives⟩, hlast⟩

/-- The normal form has the items it is written from. -/
theorem renderItems_derives {items : List Item} (hne : items ≠ [])
    (h : ∀ item ∈ items, item.Writable) : DocumentDerives items (renderItems items) :=
  ⟨hne, items_render h .nil⟩

/-! ## What is derived can be written -/

theorem Leaf.ReadAs.unmistakable (h : leaf.ReadAs false .term input rest) : leaf.Unmistakable := by
  cases leaf with
  | iri i =>
      cases i with
      | iriref text => trivial
      | prefixedName name =>
          intro hboolean
          have hinput : input = name ++ rest := h.text
          have hbegins : BeginsBoolean input := by
            rw [hinput]
            exact hboolean.imp (·.trans (List.prefix_append name rest))
              (·.trans (List.prefix_append name rest))
          obtain ⟨word, after, -, -, hterm, -⟩ := boolean_term hbegins
          cases (h.yields.unique hterm).2
  | _ => trivial

theorem Leaf.isIri_of_actions {i : IriLeaf} (h : leaf.actions = i.actions) : leaf.isIri = true := by
  cases leaf with
  | iri i => rfl
  | numericLiteral kind text =>
      have hlength := congrArg List.length h
      cases i <;> cases hlength
  | _ => cases i <;> cases h

theorem VerbTree.Derives.writable {verb : VerbTree} (h : verb.Derives false input rest) :
    verb.Writable := by
  cases verb with
  | a => trivial
  | term leaf =>
      obtain ⟨name, hname, hreadable, -, t, hrun, hessence⟩ := h
      obtain rfl := List.mem_singleton.mp hname
      obtain ⟨i, -, -, hactions⟩ := predicate_leaf hrun
      exact ⟨hreadable.wellFormed, Leaf.isIri_of_actions (hessence.symm.trans hactions)⟩

theorem Leaf.isBlankNode_of_run {t : Trace RuleName}
    (h : Run turtle (.ref .blankNode) input (.ok rest) t) (hactions : essence t = leaf.actions) :
    leaf.isBlankNode = true := by
  obtain ⟨inner, text, -, -, -, hessence⟩ := ref_essence h
  have hlast : leaf.actions.getLast? = some (.blankNode, []) := by
    rw [← hactions, hessence]
    exact List.getLast?_concat
  cases leaf with
  | blankNodeLabel text => rfl
  | anon text => rfl
  | iri i => cases i <;> cases hlast
  | rdfLiteral text suffix =>
      rw [Leaf.actions, ← List.cons_append, List.getLast?_concat] at hlast
      cases hlast
  | _ => cases hlast

theorem SubjectTree.term_writable {name : RuleName} (hname : name ∈ subjectRules false)
    (h : leaf.ReadAs false name input rest) : (SubjectTree.term leaf).Writable := by
  obtain ⟨hreadable, -, t, hrun, hessence⟩ := h
  refine ⟨hreadable.wellFormed, ?_⟩
  rcases List.mem_cons.mp hname with rfl | hname
  · obtain ⟨i, -, -, hactions⟩ := iri_leaf hrun
    exact .inl (Leaf.isIri_of_actions (hessence.symm.trans hactions))
  · obtain rfl := List.mem_singleton.mp hname
    exact .inr (Leaf.isBlankNode_of_run hrun hessence)

mutual

theorem ObjectTree.writable : ∀ (object : ObjectTree) {input rest : Bytes},
    object.Derives false input rest → object.Writable
  | .term _, _, _, h => ⟨h.readable, h.unmistakable⟩
  | .collection members, _, _, ⟨_, _, _, hmembers, _⟩ => members.members_writable hmembers
  | .blankNodePropertyList list, _, _, ⟨_, _, _, _, _, hlist, _⟩ => list.derives_writable hlist

theorem ObjectsTree.members_writable : ∀ (objects : ObjectsTree) {input rest : Bytes},
    objects.Members false input rest → objects.Writable
  | .nil, _, _, _ => trivial
  | .cons object objects, _, _, ⟨_, _, _, hobject, hobjects⟩ =>
      ⟨object.writable hobject, objects.members_writable hobjects⟩

theorem ObjectsTree.further_writable : ∀ (objects : ObjectsTree) {input rest : Bytes},
    objects.Further false input rest → objects.Writable
  | .nil, _, _, _ => trivial
  | .cons object objects, _, _, ⟨_, _, _, _, _, hobject, hobjects⟩ =>
      ⟨object.writable hobject, objects.further_writable hobjects⟩

theorem ListTree.derives_writable : ∀ (list : ListTree) {input rest : Bytes},
    list.Derives false input rest → list.Writable
  | .last _ object objects, _, _, ⟨_, ⟨_, _, _, hverb, _, hobject, hobjects⟩, _⟩ =>
      ⟨hverb.writable, object.writable hobject, objects.further_writable hobjects⟩
  | .more _ object objects next, _, _,
      ⟨_, _, _, _, ⟨_, _, _, hverb, _, hobject, hobjects⟩, _, _, _, hnext⟩ =>
      ⟨hverb.writable, object.writable hobject, objects.further_writable hobjects,
        next.derives_writable hnext⟩

end

theorem StatementTree.Derives.writable {statement : StatementTree}
    (h : statement.Derives false input rest) : statement.Writable := by
  cases statement with
  | tripleSeq1 subject list =>
      obtain ⟨_, _, _, hsubject, -, hlist, -⟩ := h
      refine ⟨?_, list.derives_writable hlist⟩
      cases subject with
      | term leaf =>
          obtain ⟨name, hname, hleaf⟩ := hsubject
          exact SubjectTree.term_writable hname hleaf
      | collection members =>
          obtain ⟨-, _, _, -, hmembers, -⟩ := hsubject
          exact members.members_writable hmembers
  | tripleSeq2 list more =>
      cases more with
      | none =>
          obtain ⟨_, ⟨_, _, _, -, -, hlist, -⟩, -⟩ := h
          exact ⟨list.derives_writable hlist, fun _ hmem => by cases hmem⟩
      | some more =>
          obtain ⟨_, _, _, ⟨_, _, _, -, -, hlist, -⟩, -, hmore, -⟩ := h
          refine ⟨list.derives_writable hlist, fun other hmem => ?_⟩
          obtain rfl := Option.mem_some_iff.mp hmem
          exact more.derives_writable hmore

theorem ItemsDerive.writable {items : List Item} (h : ItemsDerive items input rest) :
    ∀ item ∈ items, item.Writable := by
  induction items generalizing input with
  | nil => exact fun _ hmem => by cases hmem
  | cons first items ih =>
      obtain ⟨_, hfirst, hitems⟩ := h
      refine List.forall_mem_cons.mpr ⟨?_, ih hitems⟩
      cases first with
      | directive d layout pre iri =>
          obtain ⟨_, -, hderives⟩ := hfirst
          exact ⟨hderives.admits, hderives.pnameNs, hderives.iriref, hderives.apart⟩
      | triples statement =>
          obtain ⟨_, -, hstatement⟩ := hfirst
          exact hstatement.writable

theorem DocumentDerives.normalForm {items : List Item} {document : Bytes}
    (h : DocumentDerives items document) : DocumentDerives items (renderItems items) := by
  obtain ⟨hne, _, hitems, -⟩ := h
  exact renderItems_derives hne hitems.writable

/-- Items can be read back from their normal form exactly if their spellings can stand where
they do, and the items of any document can. -/
theorem renderItems_roundTrip {items : List Item} :
    (DocumentDerives items (renderItems items) ↔ items ≠ [] ∧ ∀ item ∈ items, item.Writable) ∧
      ∀ document, DocumentDerives items document → DocumentDerives items (renderItems items) := by
  refine ⟨⟨?_, fun h => renderItems_derives h.1 h.2⟩, fun document h => h.normalForm⟩
  rintro ⟨hne, _, hitems, -⟩
  exact ⟨hne, hitems.writable⟩

end Rendering

end RdfParser.Turtle
