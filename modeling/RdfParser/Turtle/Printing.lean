/-
  Turtle/Printing.lean --- printing a term and parsing it again.

  The identifier of a term is made of raw pieces of the document.  It is read back as
  the same term exactly when the pieces are also legal between the delimiters they are
  printed with.
-/
import RdfParser.Turtle.Elements
import RdfParser.Turtle.ParseTerm

set_option autoImplicit false

namespace RdfParser.Turtle

open RdfParser.Foundation RdfParser.Rdf RdfParser.Peg RdfParser.Peg.Rule

/-! ## The terms of a document -/

/-- Built by a constructor, or never set. -/
def Held (t : Element false) : Prop := t = ({} : Term) ∨ Constructed t

theorem Held.supplies : Supplies Held where
  rdfFirst := .inr (Constructed.uriRef _)
  rdfRest := .inr (Constructed.uriRef _)
  rdfNil := .inr (Constructed.uriRef _)
  unlabeledNode _ := .inr (Constructed.bNode _)

theorem apply_held {rule : RuleName} {text : Bytes} {s s' : State false} (hs : Held s.element)
    (h : apply rule text s = .ok s') : Held s'.element := by
  unfold apply at h
  split at h
  all_goals first
    | (rw [State.processPredicateObjectListInner_basic h]; exact hs)
    | (rw [State.processCollection_basic h]; exact .inr (Constructed.bNode _))
    | (rw [State.processBlankNodePropertyList_basic h]; exact .inr (Constructed.bNode _))
    | replace h := State.lift_ok h
    | rw [Except.ok.injEq] at h
      subst h
  all_goals first
    | exact hs
    | (rw [s.processVerb_basic]; exact hs)
    | (rw [State.processTripleSeq_basic]; exact hs)
    | skip
  -- what is left are the actions of the term level
  all_goals generalize s'.toBasicState = basic at h ⊢
  all_goals
    simp only [Action.base, Action.sparqlBase, Action.prefixID, Action.sparqlPrefix,
      Action.prefixedName, Action.iriref, Action.anon, Action.booleanLiteral, Action.double,
      Action.decimal, Action.integer, Action.numericLiteral, Action.rdfLiteral,
      Action.rdfLiteralTypeTag, Action.langtag, Action.turtleString, Action.blankNode,
      Action.verbA, Action.blankNodeLabel, Action.var, bind, Except.bind, pure,
      Except.pure] at h
    repeat' split at h
  all_goals cases h
  all_goals first
    | exact hs
    | exact .inr (Constructed.uriRef _)
    | exact .inr (Constructed.bNode _)
    | exact .inr (Constructed.literal _ none none)
    | exact .inr (Constructed.literal _ none (some _))
    | exact .inr (Constructed.literal text none (some xsdBoolean))
    | exact .inr (Constructed.literal _ (some _) none)

/-- Every term of a triple of an accepted document is held. -/
theorem Accepts.held {prefixMap : PrefixMap} {document : Bytes} {final : State false}
    (h : Accepts prefixMap document final) : ∀ t ∈ final.inserted, TripleIn Held t := by
  obtain ⟨_, -, trace, -, hrun⟩ := h
  have hdefault : Held (Element.default false) := .inl rfl
  have hall : final.ElementsIn Held := by
    refine runActions_induction (P := fun _ s => State.ElementsIn Held s) ?_ ?_ hrun
    · exact ⟨hdefault, hdefault, hdefault, List.forall_mem_nil _, List.forall_mem_nil _,
        List.forall_mem_nil _, List.forall_mem_nil _, List.forall_mem_nil _,
        List.forall_mem_nil _⟩
    · intro _ rule text s s' hs happly
      exact apply_elements Held.supplies hs happly (apply_held hs.element happly)
  exact hall.inserted

/-! ## Printing and parsing -/

/-- `getValue`. -/
def termValue (t : Term) : Bytes := t.value.stringView t.identifier

/-- The language tag of a literal. -/
def termLang (t : Term) : Bytes := t.lang.stringView t.identifier

/-- The datatype of a literal. -/
def termDataType (t : Term) : Bytes := t.dataType.stringView t.identifier

/-- Parsing the identifier gives an equal term of the same kind, with the same value,
language and datatype. -/
def RoundTrips (t : Term) : Prop :=
  ∃ t', ParsesTerm t.identifier (.ok t') ∧ t'.nodeType = t.nodeType ∧ (t' == t) = true ∧
    termValue t' = termValue t ∧ termLang t' = termLang t ∧ termDataType t' = termDataType t

/-- The rule matches the text from end to end. -/
def MatchesWhole (name : RuleName) (text : Bytes) : Prop :=
  ∃ trace, Run turtle (.ref name) text (.ok []) trace

/-- A value between double quotes. -/
def quoted (value : Bytes) : Bytes := bytes "\"" ++ value ++ bytes "\""

/-- The identifier is well formed as what it is printed as: the IRI between its angle
brackets, the label behind `_:`, and for a literal the value between its quotes and
what follows them. -/
def Legible (t : Term) : Prop :=
  match t.nodeType with
  | .none => True
  | .uriRef => MatchesWhole .iriref t.identifier
  | .bNode => MatchesWhole .blankNodeLabel t.identifier
  | .literal => ∃ trace, Run turtle (.ref .rdfLiteral) t.identifier (.ok []) trace ∧
      (.turtleString, quoted (termValue t)) ∈ trace

/-! ### Which alternative reads the identifier -/

/-- Behind `<` a term is an `IRIREF`. -/
theorem term_of_iriref {more : Bytes} {outcome : Outcome} {actions : Trace RuleName}
    (h : Yields (.ref .iriref) (char '<' :: more) outcome actions) :
    Yields (.ref .term) (char '<' :: more) outcome actions := by
  have hliteral := refused_fails (b := char '<') (by decide) .literal (by decide) rfl more
  have hblank := refused_fails (b := char '<') (by decide) .blankNode (by decide) rfl more
  have hname := refused_fails (b := char '<') (by decide) .prefixedName (by decide) rfl more
  exact .ref rfl (hliteral.skip (hblank.skip (.ref rfl (h.only hname))))

/-- Behind `_` a term is a blank node with a label. -/
theorem term_of_blankNode {more : Bytes} {outcome : Outcome} {actions : Trace RuleName}
    (h : Yields (.ref .blankNode) (char '_' :: more) outcome actions) :
    Yields (.ref .term) (char '_' :: more) outcome actions := by
  have hliteral := refused_fails (b := char '_') (by decide) .literal (by decide) rfl more
  have hiri := refused_fails (b := char '_') (by decide) .iri (by decide) rfl more
  exact .ref rfl (hliteral.skip (h.only hiri))

/-- Behind a double quote a term is an `RdfLiteral`. -/
theorem term_of_rdfLiteral {more : Bytes} {outcome : Outcome} {actions : Trace RuleName}
    (h : Yields (.ref .rdfLiteral) (char '"' :: more) outcome actions) :
    Yields (.ref .term) (char '"' :: more) outcome actions := by
  have hnumeric := refused_fails (b := char '"') (by decide) .numericLiteral (by decide) rfl more
  have hboolean := refused_fails (b := char '"') (by decide) .booleanLiteral (by decide) rfl more
  have hblank := refused_fails (b := char '"') (by decide) .blankNode (by decide) rfl more
  have hiri := refused_fails (b := char '"') (by decide) .iri (by decide) rfl more
  have hliteral : Yields (.ref .literal) (char '"' :: more) outcome actions :=
    .ref rfl (h.only (hnumeric.skip hboolean))
  exact .ref rfl (hliteral.only (hblank.skip hiri))

/-- An identifier that is no term in front does not come back. -/
theorem not_roundTrips_of_fail {t : Term} (hkind : t.nodeType ≠ .none) {actions : Trace RuleName}
    (h : Yields (.ref .term) t.identifier .fail actions) : ¬ RoundTrips t := by
  rintro ⟨t', hparses, hnode, -⟩
  obtain ⟨trace, hrun, -⟩ := h
  cases hparses.unique (parsesTerm_of_fail hrun)
  exact hkind hnode.symm

/-- An identifier of which another term is read. -/
theorem RoundTrips.parsed {t t' : Term} (h : RoundTrips t)
    (hparses : ParsesTerm t.identifier (.ok t')) :
    t'.identifier = t.identifier ∧ termValue t' = termValue t := by
  obtain ⟨t'', hparses'', -, hbeq, hvalue, -⟩ := h
  cases hparses''.unique hparses
  exact ⟨(Term.beq_iff _ _).mp hbeq, hvalue⟩

theorem roundTrips_of_parses {t : Term} (h : ParsesTerm t.identifier (.ok t)) : RoundTrips t :=
  ⟨t, h, rfl, (Term.beq_iff t t).mpr rfl, rfl, rfl, rfl⟩

/-! ### IRIs and blank nodes -/

theorem roundTrips_uriRef (uri : Bytes) :
    RoundTrips (uriRef uri) ↔ MatchesWhole .iriref (uriRef uri).identifier := by
  obtain ⟨outcome, trace, hrun⟩ := matching_ends .iriref (uriRef uri).identifier
  cases outcome with
  | error => exact absurd rfl (matching_never_errors (by simp) hrun)
  | fail =>
      refine iff_of_false ?_ ?_
      · have hiriref : Yields (.ref .iriref) (uriRef uri).identifier .fail (essence trace) :=
          ⟨trace, hrun, rfl⟩
        exact not_roundTrips_of_fail (by simp [uriRef]) (term_of_iriref hiriref)
      · rintro ⟨trace', hwhole⟩
        exact absurd (hrun.deterministic hwhole).1 (by simp)
  | ok rest =>
      obtain ⟨text, hinput, hmatches, hessence⟩ := token_essence (by decide) hrun
      obtain ⟨iri, rfl⟩ := iriref_shape hmatches
      have hparses : ParsesTerm (uriRef uri).identifier (.ok (uriRef iri)) := by
        have hyields : Yields (.ref .term) (uriRef uri).identifier (.ok rest)
            (Leaf.iri (.iriref (irirefToken iri))).actions :=
          term_of_iriref ⟨trace, hrun, hessence⟩
        refine (parsesTerm_of_yields rfl hyields).1 _ ?_
        simp only [Leaf.element, iriref_uri]
        rfl
      constructor
      · intro h
        have hsame := (h.parsed hparses).1
        have hnil : rest = [] := List.append_cancel_left
          (hinput.symm.trans (hsame.symm.trans (List.append_nil (irirefToken iri)).symm))
        exact ⟨trace, hnil ▸ hrun⟩
      · rintro ⟨trace', hwhole⟩
        obtain ⟨hrest, -⟩ := hrun.deterministic hwhole
        cases hrest
        rw [List.append_nil] at hinput
        have hiri : uriRef iri = uriRef uri :=
          uriRef_inj.mpr ((uriRef_beq_iff _ _).mp ((Term.beq_iff _ _).mpr hinput.symm))
        exact roundTrips_of_parses (hiri ▸ hparses)

theorem roundTrips_bNode (label : Bytes) :
    RoundTrips (bNode label) ↔ MatchesWhole .blankNodeLabel (bNode label).identifier := by
  have hanon := refused_fails (b := char '_') (by decide) .anon (by decide) rfl (char ':' :: label)
  obtain ⟨outcome, trace, hrun⟩ := matching_ends .blankNodeLabel (bNode label).identifier
  cases outcome with
  | error => exact absurd rfl (matching_never_errors (by simp) hrun)
  | fail =>
      refine iff_of_false ?_ ?_
      · have hlabel : Yields (.ref .blankNodeLabel) (bNode label).identifier .fail
            (essence trace) := ⟨trace, hrun, rfl⟩
        have hbody : Yields (turtle .blankNode) (bNode label).identifier .fail
            (essence trace ++ []) := hlabel.skip hanon
        exact not_roundTrips_of_fail (by simp [bNode]) (term_of_blankNode hbody.ref_fail)
      · rintro ⟨trace', hwhole⟩
        exact absurd (hrun.deterministic hwhole).1 (by simp)
  | ok rest =>
      obtain ⟨text, hinput, hmatches, hessence⟩ := token_essence (by decide) hrun
      obtain ⟨name, rfl⟩ := blankNodeLabel_shape hmatches
      have hparses : ParsesTerm (bNode label).identifier (.ok (bNode name)) := by
        have hyields : Yields (.ref .term) (bNode label).identifier (.ok rest)
            (Leaf.blankNodeLabel (bytes "_:" ++ name)).actions := by
          have hlabel : Yields (.ref .blankNodeLabel) (bNode label).identifier (.ok rest)
              [(.blankNodeLabel, bytes "_:" ++ name)] := ⟨trace, hrun, hessence⟩
          have hbody : Yields (turtle .blankNode) (bNode label).identifier (.ok rest)
              [(.blankNodeLabel, bytes "_:" ++ name)] := hlabel.choose
          exact term_of_blankNode hbody.ref_ok
        refine (parsesTerm_of_yields rfl hyields).1 _ ?_
        simp only [Leaf.element, blankNodeLabel_element]
        rfl
      constructor
      · intro h
        have hsame := (h.parsed hparses).1
        have hnil : rest = [] := List.append_cancel_left
          (hinput.symm.trans (hsame.symm.trans (List.append_nil (bytes "_:" ++ name)).symm))
        exact ⟨trace, hnil ▸ hrun⟩
      · rintro ⟨trace', hwhole⟩
        obtain ⟨hrest, -⟩ := hrun.deterministic hwhole
        cases hrest
        rw [List.append_nil] at hinput
        have hname : bNode name = bNode label :=
          bNode_inj.mpr ((bNode_beq_iff _ _).mp ((Term.beq_iff _ _).mpr hinput.symm))
        exact roundTrips_of_parses (hname ▸ hparses)

/-! ### Literals -/

/-- What is printed behind the value of a literal. -/
def printedSuffix : Option Bytes → Option Bytes → Bytes
  | some lang, _ => bytes "@" ++ lang
  | none, some type => if type ≠ xsdString then bytes "^^<" ++ type ++ bytes ">" else []
  | none, none => []

theorem literal_identifier (value : Bytes) (lang type : Option Bytes) :
    (literal value lang type).identifier = quoted value ++ printedSuffix lang type := by
  unfold literal printedSuffix quoted
  cases lang with
  | some lang => simp [bytes]
  | none =>
      cases type with
      | none => simp
      | some type =>
          by_cases htype : type ≠ xsdString
          · simp [htype, bytes]
          · simp [htype]

theorem literal_value (value : Bytes) (lang type : Option Bytes) :
    termValue (literal value lang type) = value := by
  have hview : (literal value lang type).value = { start := 1, count := value.length } := by
    unfold literal
    repeat' split
    all_goals rfl
  rw [termValue, hview, literal_identifier]
  simp [UnboundStringView.stringView, quoted, bytes]

/-- The literal of a suffix that is printed as it was written. -/
theorem Suffix.literal_of_printed {suffix : Suffix} (hsuffix : suffix.WellFormed)
    {lang type : Option Bytes} (htext : suffix.text = printedSuffix lang type) (value : Bytes) :
    suffix.literal [] [] value = .ok (Rdf.literal value lang type) := by
  cases suffix with
  | plain =>
      cases lang with
      | some lang => simp [printedSuffix, text, bytes] at htext
      | none =>
          cases type with
          | none => rfl
          | some type =>
              have htype : type = xsdString := by
                by_contra hne
                simp [printedSuffix, text, hne, bytes] at htext
              subst htype
              rfl
  | langtag tagText =>
      obtain ⟨tag, rfl⟩ := langtag_shape hsuffix
      cases lang with
      | some lang =>
          have htag : tag = lang := (List.cons.inj htext).2
          simp only [literal, langtag_tag, htag]
          rfl
      | none =>
          cases type with
          | none => cases htext
          | some type =>
              simp only [printedSuffix, text] at htext
              split at htext
              · exact absurd (List.cons.inj htext).1 (by decide)
              · cases htext
  | typeTag i =>
      cases lang with
      | some lang => exact absurd (List.cons.inj htext).1 (by decide)
      | none =>
          cases type with
          | none => cases htext
          | some type =>
              simp only [printedSuffix, text] at htext
              split at htext
              · rename_i htype
                have hi : i.text = irirefToken type := (List.cons.inj (List.cons.inj htext).2).2
                cases i with
                | iriref iriText =>
                    have hiri : iriText = irirefToken type := hi
                    subst hiri
                    simp only [literal, iriref_uri, iriref_datatype]
                    rfl
                | prefixedName name =>
                    have hname : name = irirefToken type := hi
                    obtain ⟨rest, trace, hrun⟩ := hsuffix
                    rw [hname] at hrun
                    exact absurd hrun (Run.not_matches (n := 8) (by decide) (by decide))
              · cases htext

/-- How the literal of a suffix is printed: as it was written, or with no suffix. -/
theorem Suffix.printed_of_literal {suffix : Suffix} (hsuffix : suffix.WellFormed)
    {body : Bytes} {t : Term} (h : suffix.literal [] [] body = .ok t) :
    ∃ lang type, t = Rdf.literal body lang type ∧
      (printedSuffix lang type = suffix.text ∨ printedSuffix lang type = []) := by
  cases suffix with
  | plain =>
      cases h
      exact ⟨none, none, rfl, .inr rfl⟩
  | langtag tagText =>
      obtain ⟨tag, rfl⟩ := langtag_shape hsuffix
      simp only [literal, langtag_tag, Except.map, Except.ok.injEq] at h
      exact ⟨some tag, none, h.symm, .inl rfl⟩
  | typeTag i =>
      cases i with
      | prefixedName name =>
          simp only [literal, prefixedName_uri (solid_of_matches hsuffix rfl),
            PrefixMap.find_nil] at h
          cases h
      | iriref iriText =>
          obtain ⟨iri, rfl⟩ := iriref_shape hsuffix
          simp only [literal, iriref_uri, iriref_datatype] at h
          cases h
          refine ⟨none, some iri, rfl, ?_⟩
          by_cases htype : iri ≠ xsdString
          · left
            simp only [printedSuffix, if_pos htype, text, IriLeaf.text, irirefToken]
            simp [bytes, char]
          · exact .inr (by simp [printedSuffix, htype])

/-- The only string among the actions of a literal is its own. -/
theorem turtleString_mem {text string : Bytes} {suffix : Suffix} :
    (.turtleString, string) ∈ (Leaf.rdfLiteral text suffix).actions ↔ string = text := by
  cases suffix with
  | plain | langtag _ => simp [Leaf.actions, Suffix.actions]
  | typeTag i => cases i <;> simp [Leaf.actions, Suffix.actions, IriLeaf.actions]

/-- A literal comes back exactly if its string ends where the value does, and what
follows is matched to the end. -/
theorem roundTrips_literal_parts {value : Bytes} {lang type : Option Bytes} {text rest : Bytes}
    {suffix : Suffix}
    (hinput : (literal value lang type).identifier = text ++ (suffix.text ++ rest))
    (hstring : Matches turtle .turtleString text) (hsuffix : suffix.WellFormed)
    (hyields : Yields (.ref .term) (literal value lang type).identifier (.ok rest)
      (Leaf.rdfLiteral text suffix).actions) :
    RoundTrips (literal value lang type) ↔ rest = [] ∧ quoted value = text := by
  obtain ⟨quote, body, -, rfl⟩ := turtleString_shape hstring
  have hquote : quote = char '"' := by
    rw [literal_identifier] at hinput
    exact (List.cons.inj hinput).1.symm
  subst hquote
  have htext : char '"' :: (body ++ [char '"']) = quoted body := rfl
  rw [htext] at hinput hyields ⊢
  have helement : (Leaf.rdfLiteral (quoted body) suffix).element false [] [] 1 =
      suffix.literal [] [] body := by
    simp only [Leaf.element, ← htext, turtleString_body]
    cases suffix.literal [] [] body <;> rfl
  obtain ⟨hok, herror⟩ := parsesTerm_of_yields rfl hyields
  constructor
  · intro h
    cases hliteral : suffix.literal [] [] body with
    | error fault =>
        obtain ⟨t', hparses, -⟩ := h
        cases hparses.unique (herror fault (helement.trans hliteral))
    | ok t' =>
        obtain ⟨hidentifier, hvalue⟩ := h.parsed (hok t' (helement.trans hliteral))
        obtain ⟨lang', type', rfl, hprinted⟩ := Suffix.printed_of_literal hsuffix hliteral
        rw [literal_value, literal_value] at hvalue
        rw [← hidentifier, literal_identifier] at hinput
        have hrest := List.append_cancel_left hinput
        refine ⟨?_, by rw [hvalue]⟩
        rcases hprinted with hsame | hnone
        · rw [hsame] at hrest
          exact (List.append_cancel_left ((List.append_nil _).trans hrest)).symm
        · rw [hnone] at hrest
          exact (List.append_eq_nil_iff.mp hrest.symm).2
  · rintro ⟨rfl, hvalue⟩
    have hbody : value = body := List.append_cancel_right (List.append_cancel_left
      (by rwa [quoted, quoted, List.append_assoc, List.append_assoc] at hvalue))
    subst hbody
    rw [literal_identifier, List.append_nil] at hinput
    have hliteral := Suffix.literal_of_printed hsuffix (List.append_cancel_left hinput).symm value
    exact roundTrips_of_parses (hok _ (helement.trans hliteral))

theorem roundTrips_literal (value : Bytes) (lang type : Option Bytes) :
    RoundTrips (literal value lang type) ↔
      ∃ trace, Run turtle (.ref .rdfLiteral) (literal value lang type).identifier (.ok []) trace ∧
        (.turtleString, quoted (termValue (literal value lang type))) ∈ trace := by
  have hkind : (literal value lang type).nodeType ≠ .none :=
    (Constructed.literal value lang type).nodeType
  have hfront : ∃ more, (literal value lang type).identifier = char '"' :: more :=
    ⟨_, literal_identifier value lang type⟩
  obtain ⟨more, hmore⟩ := hfront
  obtain ⟨outcome, trace, hrun⟩ := matching_ends .rdfLiteral (literal value lang type).identifier
  have hterm : Yields (.ref .term) (literal value lang type).identifier outcome
      (essence trace) := by
    rw [hmore] at hrun ⊢
    exact term_of_rdfLiteral ⟨trace, hrun, rfl⟩
  rw [literal_value]
  cases outcome with
  | error => exact absurd rfl (matching_never_errors (by simp) hrun)
  | fail =>
      refine iff_of_false (not_roundTrips_of_fail hkind hterm) ?_
      rintro ⟨trace', hwhole, -⟩
      exact absurd (hrun.deterministic hwhole).1 (by simp)
  | ok rest =>
      obtain ⟨text, suffix, _, hinput, hstring, hsuffix, hessence⟩ := rdfLiteral_parts hrun
      have hstring : Matches turtle .turtleString text := ⟨_, _, hinput ▸ hstring⟩
      have hmem : (.turtleString, quoted value) ∈ trace ↔ quoted value = text := by
        rw [← mem_essence rfl, hessence, turtleString_mem]
      rw [hessence] at hterm
      rw [roundTrips_literal_parts hinput hstring hsuffix hterm, ← hmem]
      constructor
      · rintro ⟨rfl, hmem⟩
        exact ⟨trace, hrun, hmem⟩
      · rintro ⟨trace', hwhole, hmem⟩
        obtain ⟨hrest, rfl⟩ := hrun.deterministic hwhole
        cases hrest
        exact ⟨rfl, hmem⟩

/-! ### All terms of a document -/

/-- The term that was never set comes back, as the term `parse_term` makes of the empty
text. -/
theorem roundTrips_default : RoundTrips {} := by
  obtain ⟨outcome, trace, hrun⟩ := matching_ends .term []
  cases outcome with
  | ok rest =>
      have hshorter := hrun.consumes consuming_closed rfl
      simp at hshorter
  | error => exact absurd rfl (matching_never_errors (by simp) hrun)
  | fail => exact roundTrips_of_parses (parsesTerm_of_fail hrun)

theorem roundTrips_iff {t : Term} (ht : Held t) : RoundTrips t ↔ Legible t := by
  rcases ht with rfl | hconstructed
  · exact iff_of_true roundTrips_default trivial
  · cases hconstructed with
    | uriRef uri => exact roundTrips_uriRef uri
    | bNode label => exact roundTrips_bNode label
    | literal value lang type =>
        rw [roundTrips_literal]
        have hkind : (literal value lang type).nodeType = .literal := by
          unfold literal
          repeat' split
          all_goals rfl
        simp only [Legible, hkind]

/-- A term of an accepted document comes back from its identifier exactly if the
identifier is legible. -/
theorem identifiers_roundTrip_iff {prefixMap : PrefixMap} {document : Bytes}
    {final : State false} (h : Accepts prefixMap document final) :
    ∀ t ∈ final.inserted, (RoundTrips t.subject ↔ Legible t.subject) ∧
      (RoundTrips t.predicate ↔ Legible t.predicate) ∧
      (RoundTrips t.object ↔ Legible t.object) := by
  intro t ht
  have hheld := h.held t ht
  exact ⟨roundTrips_iff hheld.subject, roundTrips_iff hheld.predicate,
    roundTrips_iff hheld.object⟩

/-- A value with a double quote, legal between single quotes. -/
def quoteDocument : Bytes := bytes "<s> <p> 'a\"b' ."

/-- The object of its triple is printed as a text in which another literal is read. -/
theorem quoteDocument_run : ∃ (final : State false) (t : Triple false),
    Accepts [] quoteDocument final ∧ t ∈ final.inserted ∧ ¬ RoundTrips t.object := by
  let object : Term := literal (bytes "a\"b") none none
  have hdocument : (parseWithin (q := false) 60 [] quoteDocument).map (fun p =>
      decide (p.outcome = .ok [] ∧ p.fault = none ∧
        (⟨uriRef (bytes "s"), uriRef (bytes "p"), object⟩ : Triple false) ∈ p.final.inserted)) =
      some true := by
    decide +kernel
  have hterm : (exec turtle 60 (.ref .term) object.identifier).map (fun result =>
      decide (parseTermResult result.1 (runActions result.2 (initialState false [])) =
        .ok (literal (bytes "a") none none))) = some true := by
    decide +kernel
  rw [Option.map_eq_some_iff] at hdocument hterm
  obtain ⟨p, hparse, hsummary⟩ := hdocument
  obtain ⟨⟨outcome, trace⟩, hexec, hresult⟩ := hterm
  obtain ⟨houtcome, hfault, hmem⟩ := of_decide_eq_true hsummary
  have hparses : ParsesTerm object.identifier (.ok (literal (bytes "a") none none)) :=
    ⟨outcome, trace, exec_sound 60 hexec, (of_decide_eq_true hresult).symm⟩
  refine ⟨p.final, _, ⟨p.outcome, by rw [houtcome]; simp, ?_⟩, hmem, ?_⟩
  · rw [← hfault]
    exact parseWithin_sound hparse
  · intro h
    exact absurd (h.parsed hparses).1 (by decide)

theorem quoteDocument_illegible : ∃ (final : State false) (t : Triple false),
    Accepts [] quoteDocument final ∧ t ∈ final.inserted ∧ ¬ Legible t.object := by
  obtain ⟨final, t, haccepts, ht, hbroken⟩ := quoteDocument_run
  exact ⟨final, t, haccepts, ht, fun hlegible =>
    hbroken ((identifiers_roundTrip_iff haccepts t ht).2.2.mpr hlegible)⟩

theorem quoteDocument_broken : ¬ ∀ (prefixMap : PrefixMap) (document : Bytes)
    (final : State false), Accepts prefixMap document final →
    ∀ t ∈ final.inserted, RoundTrips t.subject ∧ RoundTrips t.predicate ∧
      RoundTrips t.object := by
  intro hclaim
  obtain ⟨final, t, haccepts, ht, hbroken⟩ := quoteDocument_run
  exact hbroken (hclaim [] quoteDocument final haccepts t ht).2.2

end RdfParser.Turtle
