/-
  Turtle/Lines.lean --- triples written line by line.

  The identifiers of the three terms of a triple, with blanks between them and a full stop
  behind, are a statement again.  The triples of a document come back from such lines as
  they were, provided that their terms are legible, and under any prefixes.
-/
import RdfParser.Turtle.Places
import RdfParser.Turtle.Printing

set_option autoImplicit false

namespace RdfParser.Turtle

open RdfParser.Foundation RdfParser.Rdf RdfParser.Peg RdfParser.Peg.Rule

/-! ## Lines -/

/-- A triple on a line of its own. -/
def writeTriple (t : Triple false) : Bytes :=
  t.subject.identifier ++ char ' ' :: (t.predicate.identifier ++ char ' ' ::
    (t.object.identifier ++ bytes " .\n"))

def writeTriples (triples : List (Triple false)) : Bytes := triples.flatMap writeTriple

/-! ## The spelling of a term -/

/-- A suffix that needs no prefix stands for the same under any prefixes. -/
theorem Suffix.literal_anywhere {suffix : Suffix} (hsuffix : suffix.WellFormed) {body : Bytes}
    {t : Term} (h : suffix.literal [] [] body = .ok t) (prefixMap : PrefixMap) :
    suffix.literal prefixMap [] body = .ok t := by
  cases suffix with
  | plain => exact h
  | langtag text => exact h
  | typeTag i =>
      cases i with
      | iriref text => exact h
      | prefixedName name =>
          simp only [literal, prefixedName_uri (solid_of_matches hsuffix rfl),
            PrefixMap.find_nil] at h
          cases h

/-- A spelling in which the identifier of the term is read as the term. -/
structure SpellsOut (t : Term) (leaf : Leaf) : Prop where
  text : leaf.text = t.identifier
  wellFormed : leaf.WellFormed
  isVar : leaf.isVar = false
  unmistakable : leaf.Unmistakable
  anon : ∀ text, leaf ≠ .anon text
  element : ∀ prefixMap n, leaf.element false prefixMap [] n = .ok t

theorem MatchesWhole.matches {name : RuleName} {text : Bytes} (h : MatchesWhole name text) :
    Matches turtle name text := by
  obtain ⟨t, hrun⟩ := h
  exact ⟨[], t, by rwa [List.append_nil]⟩

theorem uriRef_spellsOut {uri : Bytes} (h : Legible (uriRef uri)) :
    SpellsOut (uriRef uri) (.iri (.iriref (uriRef uri).identifier)) where
  text := rfl
  wellFormed := MatchesWhole.matches h
  isVar := rfl
  unmistakable := trivial
  anon := by simp
  element prefixMap n := by
    have htoken : (uriRef uri).identifier = irirefToken uri := rfl
    rw [htoken, Leaf.element, iriref_uri]
    rfl

theorem bNode_spellsOut {label : Bytes} (h : Legible (bNode label)) :
    SpellsOut (bNode label) (.blankNodeLabel (bNode label).identifier) where
  text := rfl
  wellFormed := MatchesWhole.matches h
  isVar := rfl
  unmistakable := trivial
  anon := by simp
  element prefixMap n := by
    have htoken : (bNode label).identifier = bytes "_:" ++ label := rfl
    rw [htoken, Leaf.element, blankNodeLabel_element]
    rfl

/-- A legible literal is read as its value between double quotes and what is printed
behind it. -/
theorem literal_spellsOut {value : Bytes} {lang type : Option Bytes}
    (h : Legible (literal value lang type)) :
    ∃ leaf, SpellsOut (literal value lang type) leaf := by
  have hkind : (literal value lang type).nodeType = .literal := by
    unfold literal
    repeat' split
    all_goals rfl
  unfold Legible at h
  rw [hkind] at h
  obtain ⟨trace, hrun, hmem⟩ := h
  rw [literal_value] at hmem
  obtain ⟨text, suffix, _, hinput, hstring, hsuffix, hessence⟩ := rdfLiteral_parts hrun
  have htext : quoted value = text := by
    rw [← mem_essence rfl, hessence, turtleString_mem] at hmem
    exact hmem
  subst htext
  have hmatches : Matches turtle .turtleString (quoted value) := ⟨_, _, hinput ▸ hstring⟩
  rw [List.append_nil] at hinput
  have hprinted : suffix.text = printedSuffix lang type := by
    rw [literal_identifier] at hinput
    exact (List.append_cancel_left hinput).symm
  have hliteral := Suffix.literal_of_printed hsuffix hprinted value
  refine ⟨.rdfLiteral (quoted value) suffix, hinput.symm, ⟨hmatches, hsuffix⟩, rfl, trivial,
    by simp, fun prefixMap n => ?_⟩
  have hquoted : quoted value = char '"' :: (value ++ [char '"']) := rfl
  simp only [Leaf.element, hquoted, turtleString_body,
    Suffix.literal_anywhere hsuffix hliteral prefixMap]
  rfl

theorem Constructed.spellsOut {t : Term} (ht : Constructed t) (h : Legible t) :
    ∃ leaf, SpellsOut t leaf := by
  cases ht with
  | uriRef uri => exact ⟨_, uriRef_spellsOut h⟩
  | bNode label => exact ⟨_, bNode_spellsOut h⟩
  | literal value lang type => exact literal_spellsOut h

/-! ## Reading the lines -/

theorem SpellsOut.subject {t : Term} {leaf : Leaf} (h : SpellsOut t leaf)
    (prefixMap : PrefixMap) :
    (SubjectTree.term leaf).resolve false prefixMap [] = .ok (.term t) := by
  have helement := h.element prefixMap 0
  cases leaf with
  | anon text => exact absurd rfl (h.anon text)
  | _ => simp only [SubjectTree.resolve, helement, Except.map]

theorem SpellsOut.object {t : Term} {leaf : Leaf} (h : SpellsOut t leaf)
    (prefixMap : PrefixMap) :
    (ObjectTree.term leaf).resolve false prefixMap [] = .ok (.term t) := by
  have helement := h.element prefixMap 0
  cases leaf with
  | anon text => exact absurd rfl (h.anon text)
  | _ => simp only [ObjectTree.resolve, Leaf.resolve, helement, Except.map]

/-- A triple whose terms can be written where they stand. -/
structure Expressible (t : Triple false) : Prop where
  allowed : rdfPlaces.Hold t
  subject : Legible t.subject
  predicate : Legible t.predicate
  object : Legible t.object

/-- The statement of a triple. -/
def lineStatement (t : Triple false) : Statement false :=
  .tripleSeq1 (.term t.subject) (.last t.predicate (.term t.object) .nil)

/-- A line is the normal form of a statement that stands for its triple. -/
theorem Expressible.line {t : Triple false} (h : Expressible t) :
    ∃ statement : StatementTree, statement.Writable ∧
      statement.render ++ [char '\n'] = writeTriple t ∧
      ∀ prefixMap, statement.resolve false prefixMap [] = .ok (lineStatement t) := by
  obtain ⟨⟨hsubject, ⟨uri, huri⟩, hobject⟩, hlegible₁, hlegible₂, hlegible₃⟩ := h
  have hfront : ∃ leaf, SpellsOut t.subject leaf ∧
      (leaf.isIri = true ∨ leaf.isBlankNode = true) := by
    rcases hsubject with ⟨uri, hterm⟩ | ⟨label, hterm⟩
    · rw [hterm] at hlegible₁ ⊢
      exact ⟨_, uriRef_spellsOut hlegible₁, .inl rfl⟩
    · rw [hterm] at hlegible₁ ⊢
      exact ⟨_, bNode_spellsOut hlegible₁, .inr rfl⟩
  have hmiddle : ∃ leaf, SpellsOut t.predicate leaf ∧ leaf.isIri = true := by
    rw [huri] at hlegible₂ ⊢
    exact ⟨_, uriRef_spellsOut hlegible₂, rfl⟩
  obtain ⟨subject, hs, hplace⟩ := hfront
  obtain ⟨predicate, hp, hiri⟩ := hmiddle
  obtain ⟨object, ho⟩ := Constructed.spellsOut hobject hlegible₃
  refine ⟨.tripleSeq1 (.term subject) (.last (.term predicate) (.term object) .nil), ?_, ?_, ?_⟩
  · exact ⟨⟨hs.wellFormed, hplace⟩, ⟨hp.wellFormed, hiri⟩,
      ⟨⟨ho.wellFormed, .inl ho.isVar⟩, ho.unmistakable⟩, trivial⟩
  · simp only [StatementTree.render, SubjectTree.render, ListTree.render, VerbTree.render,
      ObjectTree.render, ObjectsTree.renderFurther, hs.text, hp.text, ho.text, writeTriple,
      List.append_nil, List.append_assoc, List.cons_append]
    rfl
  · intro prefixMap
    have hverb : (VerbTree.term predicate).resolve false prefixMap [] = .ok t.predicate :=
      hp.element prefixMap 0
    simp only [StatementTree.resolve, ListTree.resolve, ObjectsTree.resolve, hs.subject, hverb,
      ho.object, bind, Except.bind, pure, Except.pure, lineStatement]

theorem lines_items {triples : List (Triple false)} (h : ∀ t ∈ triples, Expressible t) :
    ∃ items : List Item, (∀ item ∈ items, item.Writable) ∧
      renderItems items = writeTriples triples ∧
      ∀ prefixMap, resolveItems items prefixMap [] = .ok (triples.map lineStatement) := by
  induction triples with
  | nil => exact ⟨[], List.forall_mem_nil _, rfl, fun _ => rfl⟩
  | cons t triples ih =>
      obtain ⟨ht, htriples⟩ := List.forall_mem_cons.mp h
      obtain ⟨statement, hwritable, hrender, hresolve⟩ := ht.line
      obtain ⟨items, hitems, hrenders, hresolves⟩ := ih htriples
      refine ⟨.triples statement :: items, List.forall_mem_cons.mpr ⟨hwritable, hitems⟩, ?_, ?_⟩
      · rw [writeTriples, List.flatMap_cons, ← hrender, List.append_assoc, List.singleton_append,
          renderItems, hrenders]
        rfl
      · intro prefixMap
        simp only [resolveItems, hresolve, hresolves, bind, Except.bind, pure, Except.pure,
          List.map_cons]

/-- A statement of one triple inserts this triple. -/
theorem denoteAll_lines (triples : List (Triple false)) (n : Nat) :
    denoteAll (triples.map lineStatement) n = triples := by
  induction triples generalizing n with
  | nil => rfl
  | cons t triples ih => exact congrArg (t :: ·) (ih _)

theorem lines_derive {triples : List (Triple false)} (hne : triples ≠ [])
    (h : ∀ t ∈ triples, Expressible t) :
    ∃ items, DocumentDerives items (writeTriples triples) ∧
      ∀ prefixMap, resolveItems items prefixMap [] = .ok (triples.map lineStatement) := by
  obtain ⟨items, hitems, hrender, hresolve⟩ := lines_items h
  have hitems_ne : items ≠ [] := by
    rintro rfl
    have hnil : triples.map lineStatement = [] := (Except.ok.inj (hresolve [])).symm
    exact hne (List.map_eq_nil_iff.mp hnil)
  exact ⟨items, hrender ▸ renderItems_derives hitems_ne hitems, hresolve⟩

theorem lines_deliver {triples : List (Triple false)} (hne : triples ≠ [])
    (h : ∀ t ∈ triples, Expressible t) (prefixMap : PrefixMap) :
    Delivers prefixMap (writeTriples triples) triples := by
  obtain ⟨items, hderives, hresolve⟩ := lines_derive hne h
  refine hderives.means.mpr ⟨_, hresolve prefixMap, ?_⟩
  have hnested : ∀ st ∈ triples.map lineStatement, st.wellNested = true := by
    intro st hst
    obtain ⟨t, -, rfl⟩ := List.mem_map.mp hst
    rfl
  have hinserted := bookAfter_inserted (b := (initialState false prefixMap).book) ⟨rfl, rfl⟩ hnested
  rw [denoteAll_lines] at hinserted
  exact hinserted

/-- The triples of an accepted document are read back from their lines, in their order and
under any prefixes, if the identifiers of their terms are legible. -/
theorem lines_roundTrip {prefixMap : PrefixMap} {document : Bytes} {final : State false}
    (h : Accepts prefixMap document final) (hunglued : Unglued document)
    (hne : final.inserted ≠ [])
    (hlegible : ∀ t ∈ final.inserted, Legible t.subject ∧ Legible t.predicate ∧ Legible t.object)
    (prefixMap' : PrefixMap) :
    Delivers prefixMap' (writeTriples final.inserted) final.inserted := by
  obtain ⟨items, hderives⟩ := h.items hunglued
  have hallowed := hderives.placed ⟨final, h, rfl⟩
  refine lines_deliver hne (fun t ht => ?_) prefixMap'
  obtain ⟨hsubject, hpredicate, hobject⟩ := hlegible t ht
  exact ⟨hallowed t ht, hsubject, hpredicate, hobject⟩

/-- `<s> <p> "o"@en .` -/
def taggedTriple : Triple false :=
  ⟨uriRef (bytes "s"), uriRef (bytes "p"), literal (bytes "o") (some (bytes "en")) none⟩

theorem taggedTriple_expressible : Expressible taggedTriple where
  allowed := ⟨.inl ⟨_, rfl⟩, ⟨_, rfl⟩, .literal (bytes "o") (some (bytes "en")) none⟩
  subject := ⟨_, exec_sound 40 rfl⟩
  predicate := ⟨_, exec_sound 40 rfl⟩
  object := ⟨_, exec_sound 40 rfl, by decide⟩

theorem taggedTriple_roundTrip : ∃ final, Accepts [] (bytes "<s> <p> \"o\"@en .\n") final ∧
    final.inserted = [taggedTriple] ∧
    Delivers [] (writeTriples final.inserted) final.inserted := by
  have hall : ∀ t ∈ [taggedTriple], Expressible t :=
    List.forall_mem_singleton.mpr taggedTriple_expressible
  obtain ⟨items, hderives, -⟩ := lines_derive (by simp) hall
  obtain ⟨final, haccepts, hinserted⟩ := lines_deliver (by simp) hall []
  refine ⟨final, haccepts, hinserted, ?_⟩
  refine lines_roundTrip haccepts hderives.unglued (by simp [hinserted]) ?_ []
  intro t ht
  have hexpressible := hall t (hinserted ▸ ht)
  exact ⟨hexpressible.subject, hexpressible.predicate, hexpressible.object⟩

end RdfParser.Turtle
