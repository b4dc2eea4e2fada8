/-
  Turtle/TwoModes.lean --- one statement in Turtle and in a triples block.

  Sources: `object`, `verb` and `subject` of `Grammar.hpp`, `action<BlankNode>`,
  `State::processCollection` and `State::processBlankNodePropertyList`.  Where the grammar of
  triples blocks reads a statement at all, it runs the same actions.  But only
  `action<BlankNode>` makes a variable of a blank node: the nodes of property lists and of
  collections stay what they are.  And a subject that begins like a Boolean literal is read
  as one.
-/
import RdfParser.Turtle.Brackets
import RdfParser.Turtle.Identifiers
import RdfParser.Turtle.NamePositions
import RdfParser.Turtle.Relayout

set_option autoImplicit false

namespace RdfParser.Turtle

open RdfParser.Foundation RdfParser.Rdf RdfParser.Peg RdfParser.Peg.Rule

/-! ## Patterns -/

/-- A map of RDF terms that keeps IRIs and literals and makes variables of blank nodes.  The
term that was never set stays so. -/
structure PatternMap (f : Term → VarOrTerm) : Prop where
  unset : f {} = .variable {}
  uriRef : ∀ uri, f (Rdf.uriRef uri) = .term (Rdf.uriRef uri)
  literal : ∀ value lang type,
    f (Rdf.literal value lang type) = .term (Rdf.literal value lang type)
  bNode : ∀ label, ∃ v, f (Rdf.bNode label) = .variable v
  injective : ∀ t t', Constructed t → Constructed t' → f t = f t' → t = t'

/-- The variable that `action<BlankNode>` makes of a blank node has its label for a name.
What has not been set yet stays so. -/
def asPattern (t : Term) : VarOrTerm :=
  if t = {} then .variable {}
  else if t = Rdf.bNode (termValue t) then .variable { name := termValue t }
  else .term t

theorem asPattern_bNode (label : Bytes) :
    asPattern (Rdf.bNode label) = .variable { name := label } := by
  have hset : Rdf.bNode label ≠ {} := fun h => by
    have hkind := congrArg Term.nodeType h
    cases hkind
  rw [asPattern, if_neg hset, (bNode_views label).1, if_pos rfl]

/-- Every other term is kept. -/
theorem asPattern_keeps {t : Term} (hset : t.nodeType ≠ .none) (hkind : t.nodeType ≠ .bNode) :
    asPattern t = .term t := by
  have hdefault : t ≠ {} := fun h => hset (congrArg Term.nodeType h)
  have hnode : t ≠ Rdf.bNode (termValue t) := fun h => hkind (congrArg Term.nodeType h)
  rw [asPattern, if_neg hdefault, if_neg hnode]

theorem asPattern_uriRef (uri : Bytes) : asPattern (Rdf.uriRef uri) = .term (Rdf.uriRef uri) :=
  asPattern_keeps (by simp [Rdf.uriRef]) (by simp [Rdf.uriRef])

theorem literal_nodeType (value : Bytes) (lang type : Option Bytes) :
    (Rdf.literal value lang type).nodeType = .literal := by
  unfold Rdf.literal
  repeat' split
  all_goals rfl

theorem asPattern_literal (value : Bytes) (lang type : Option Bytes) :
    asPattern (Rdf.literal value lang type) = .term (Rdf.literal value lang type) :=
  asPattern_keeps (by simp [literal_nodeType]) (by simp [literal_nodeType])

theorem asPattern_map : PatternMap asPattern where
  unset := if_pos rfl
  uriRef := asPattern_uriRef
  literal := asPattern_literal
  bNode label := ⟨_, asPattern_bNode label⟩
  injective t t' ht ht' h := by
    have hkept : ∀ {u : Term}, Constructed u → (∃ label, u = Rdf.bNode label) ∨
        asPattern u = .term u := by
      intro u hu
      cases hu with
      | uriRef uri => exact .inr (asPattern_uriRef uri)
      | bNode label => exact .inl ⟨label, rfl⟩
      | literal value lang type => exact .inr (asPattern_literal value lang type)
    rcases hkept ht with ⟨label, rfl⟩ | hterm <;> rcases hkept ht' with ⟨label', rfl⟩ | hterm'
    · rw [asPattern_bNode, asPattern_bNode, VarOrTerm.variable.injEq, Variable.mk.injEq] at h
      rw [h.1]
    · rw [asPattern_bNode, hterm'] at h
      cases h
    · rw [hterm, asPattern_bNode] at h
      cases h
    · rw [hterm, hterm'] at h
      exact VarOrTerm.term.inj h

/-! ## The same actions in both modes -/

/-- The modes of a rule have one action. -/
theorem apply_inMode {q : Bool} (mode : Bool) (name : RuleName) (text : Bytes) (s : State q) :
    apply (name.inMode mode) text s = apply name text s := by
  cases name <;> rfl

theorem runActions_inMode {q : Bool} (mode : Bool) (trace : Trace RuleName) (s : State q) :
    runActions (inMode mode trace) s = runActions trace s := by
  induction trace generalizing s with
  | nil => rfl
  | cons entry trace ih =>
      obtain ⟨name, text⟩ := entry
      have hcons : inMode mode ((name, text) :: trace) =
          (name.inMode mode, text) :: inMode mode trace := rfl
      rw [hcons]
      cases happly : apply name text s with
      | error fault =>
          rw [runActions_cons_error happly,
            runActions_cons_error ((apply_inMode mode name text s).trans happly)]
      | ok s' =>
          rw [runActions_cons_ok happly,
            runActions_cons_ok ((apply_inMode mode name text s).trans happly), ih]

/-- The element of a spelling in a pattern. -/
theorem Leaf.element_pattern {leaf : Leaf} (hvar : leaf.isVar = false) {prefixMap : PrefixMap}
    {base : Bytes} {label : Nat} {t : Term} (h : leaf.element false prefixMap base label = .ok t) :
    leaf.element true prefixMap base label = .ok (asPattern t) := by
  cases leaf with
  | iri i =>
      simp only [element] at h ⊢
      cases huri : i.uri prefixMap base with
      | error fault =>
          rw [huri] at h
          cases h
      | ok uri =>
          rw [huri] at h
          cases h
          exact congrArg Except.ok (asPattern_uriRef uri).symm
  | blankNodeLabel text =>
      simp only [element] at h ⊢
      cases hlabel : substr text 2 text.length with
      | error fault =>
          rw [hlabel] at h
          cases h
      | ok label =>
          rw [hlabel] at h
          cases h
          exact congrArg Except.ok (asPattern_bNode label).symm
  | anon text =>
      cases h
      exact congrArg Except.ok (asPattern_bNode _).symm
  | booleanLiteral text =>
      cases h
      exact congrArg Except.ok (asPattern_literal text none (some xsdBoolean)).symm
  | numericLiteral kind text =>
      cases h
      exact congrArg Except.ok (asPattern_literal text none (some kind.datatype)).symm
  | rdfLiteral text suffix =>
      simp only [element] at h ⊢
      cases hbody : substr text 1 (sizeSub (sizeSub text.length 1) 1) with
      | error fault => simp only [hbody, reduceCtorEq] at h
      | ok body =>
          cases hliteral : suffix.literal prefixMap base body with
          | error fault => simp only [hbody, hliteral, Except.map, reduceCtorEq] at h
          | ok u =>
              simp only [hbody, hliteral, Except.map] at h ⊢
              cases h
              obtain ⟨lang, type, rfl⟩ := Suffix.literal_eq hliteral
              exact congrArg Except.ok (asPattern_literal body lang type).symm
  | var text => cases hvar

/-- A run without brackets: the triples block gets the patterns of the triples. -/
theorem Image.pattern_pieces {pieces : List Piece} {s s₁ : State false} {s' : State true}
    (h : @Image false true asPattern s s')
    (hwell : ∀ piece ∈ pieces, piece.WellFormed false)
    (hflat : ∀ entry ∈ pieces.flatMap Piece.actions, closesBracket entry.1 = false)
    (hrun : runActions (pieces.flatMap Piece.actions) s = (s₁, none)) :
    ∃ s₁', runActions (pieces.flatMap Piece.actions) s' = (s₁', none) ∧
      @Image false true asPattern s₁ s₁' := by
  induction pieces generalizing s s' with
  | nil =>
      cases hrun
      exact ⟨s', rfl, h⟩
  | cons piece pieces ih =>
      rw [List.flatMap_cons] at hrun hflat
      obtain ⟨s₂, hhead, htail⟩ := runActions_append_inv hrun
      have hpiece : ∃ s₂', runActions piece.actions s' = (s₂', none) ∧
          @Image false true asPattern s₂ s₂' := by
        cases piece with
        | action name text =>
            obtain ⟨s₃, happly, hend⟩ := runActions_cons_inv hhead
            cases hend
            have hopen : closesBracket name = false :=
              hflat (name, text) (List.mem_append_left _ List.mem_cons_self)
            obtain ⟨s₂', happly', himage⟩ := h.action asPattern_uriRef
              (fun hcloses => absurd (hopen.symm.trans hcloses) Bool.false_ne_true)
              (hwell _ List.mem_cons_self) happly
            exact ⟨s₂', runActions_cons_ok happly', himage⟩
        | term leaf =>
            obtain ⟨-, hallowed⟩ := hwell _ List.mem_cons_self
            have hvar : leaf.isVar = false := hallowed.resolve_right Bool.false_ne_true
            obtain ⟨e, he, -⟩ := Leaf.runActions_inv h.settled hallowed hhead
            exact h.leaf leaf leaf hallowed (.inl hvar) hhead rfl he
              (Leaf.element_pattern hvar he)
      obtain ⟨s₂', hhead', himage⟩ := hpiece
      obtain ⟨s₁', htail', himage'⟩ := ih himage
        (fun other hother => hwell other (List.mem_cons_of_mem _ hother))
        (fun entry hentry => hflat entry (List.mem_append_right _ hentry)) htail
      refine ⟨s₁', ?_, himage'⟩
      rw [List.flatMap_cons, runActions_append, hhead']
      exact htail'

/-- Before the first action nothing has been set. -/
theorem Image.initial (prefixMap : PrefixMap) : @Image false true asPattern
    (initialState false prefixMap) (initialState true prefixMap) := by
  have hdefault : VarOrTerm.variable {} = asPattern {} := (if_pos rfl).symm
  exact ⟨hdefault, rfl, rfl, rfl, ⟨rfl, rfl⟩, ⟨rfl, rfl⟩, rfl, rfl, hdefault, rfl, rfl, rfl, rfl,
    hdefault, rfl⟩

/-! ## One statement -/

/-- The document is one statement of triples between layout. -/
structure TriplesStatement (document start rest : Bytes) : Prop where
  before : ∃ t, Run turtle (.ref .ignored) document (.ok start) t
  statement : ∃ t, Run turtle (.ref (.tripleExtended false)) start (.ok rest) t
  after : ∃ t, Run turtle (.ref .ignored) rest (.ok []) t

section Statement

variable {prefixMap : PrefixMap} {document start rest : Bytes} {t : Trace RuleName}

/-- Turtle runs the actions of the statement and those of the document. -/
theorem TriplesStatement.accepts_inv {final : State false}
    (h : TriplesStatement document start rest)
    (hstatement : Run turtle (.ref (.tripleExtended false)) start (.ok rest) t)
    (haccepts : Accepts prefixMap document final) :
    ∃ s, runActions t (initialState false prefixMap) = (s, none) ∧
      final.inserted = s.inserted := by
  obtain ⟨_, hlast⟩ := h.after
  obtain ⟨last, actions, hplus, -, hrun⟩ := accepts_iff.mp haccepts
  have hfirst : Yields iteration document (.ok rest) (essence t ++ [(.statement, [])]) :=
    iteration_yields h.before (Yields.choose ⟨t, hstatement, rfl⟩)
  have hall := hfirst.seq (iteration_ends hlast).done
  obtain ⟨-, rfl⟩ := hplus.unique hall
  rw [List.append_nil, List.append_assoc] at hrun
  obtain ⟨s, hs, hclosing⟩ := runActions_append_inv hrun
  refine ⟨s, by rw [runActions_eq_essence]; exact hs, ?_⟩
  have hend : runActions ([(.statement, [])] ++ [(.turtleDoc, [])]) s =
      (s.syncWithMainThread.setParsingIsDone, none) := rfl
  obtain rfl : s.syncWithMainThread.setParsingIsDone = final :=
    congrArg Prod.fst (hend.symm.trans hclosing)
  rw [State.inserted_setParsingIsDone, State.inserted_syncWithMainThread]

/-- What a triples block repeats: layout and a statement. -/
abbrev blockIteration : Rule RuleName := .seq (.ref .ignored) (.ref (.tripleExtended true))

/-- At the end of the input there is no further statement. -/
theorem blockIteration_ends (h : Run turtle (.ref .ignored) rest (.ok []) t) :
    Yields blockIteration rest .fail [] := by
  have hbrackets := termless_nil.unbracketed
  have hvar : Yields (.ref .var) [] .fail [] := unmatched_fails rfl (unmatched_nil rfl)
  have hterm : Yields (.ref .term) [] .fail [] := unmatched_fails rfl (unmatched_nil rfl)
  have hsubject : Yields (.ref (.subject true)) [] .fail [] := .ref_fail (hvar.skip hterm)
  have hseq1 : Yields (.ref (.tripleSeq1 true)) [] .fail [] := .ref_fail hsubject.stop
  have hseq2 : Yields (.ref (.tripleSeq2 true)) [] .fail [] :=
    .ref_fail (blankNodePropertyList_refused hbrackets).stop
  have htriple : Yields (.ref (.triple true)) [] .fail [] := .ref_fail (hseq1.skip hseq2)
  exact (ignored_yields h).seq (.ref_fail htriple.stop)

/-- A triples block of one statement runs its actions. -/
theorem TriplesStatement.block_accepts {final : State true} {actions : Trace RuleName}
    (h : TriplesStatement document start rest)
    (hstatement : Yields (.ref (.tripleExtended true)) start (.ok rest) actions)
    (hrun : runActions actions (initialState true prefixMap) = (final, none)) :
    Accepts prefixMap document final := by
  obtain ⟨_, hlayout⟩ := h.before
  obtain ⟨_, hlast⟩ := h.after
  have hplus : Yields (plus blockIteration) document (.ok rest) (actions ++ []) :=
    ((ignored_yields hlayout).seq hstatement).seq (blockIteration_ends hlast).done
  have hbody := hplus.seq (ignored_yields hlast)
  have hblock : Yields (.ref .triplesBlock) document (.ok []) (actions ++ [] ++ []) :=
    .ref rfl hbody
  rw [List.append_nil, List.append_nil] at hblock
  obtain ⟨trace, hblock, rfl⟩ := hblock
  have hgrammar : Run turtle (.ref (.grammar true)) document (.ok []) _ :=
    .ref (.seqNext (.must hblock) (.must .eofOk))
  refine ⟨.ok [], by simp, _, hgrammar, ?_⟩
  have hidle : essence (closing (.grammar true) document (.ok [])) = [] := rfl
  rw [runActions_eq_essence, List.append_nil, essence_append, hidle, List.append_nil]
  exact hrun

/-- The first statement of an accepted triples block. -/
theorem Accepts.block_statement {final : State true}
    (h : Accepts prefixMap document final)
    (hlayout : Run turtle (.ref .ignored) document (.ok start) t) :
    ∃ middle t s, Run turtle (.ref (.tripleExtended true)) start (.ok middle) t ∧
      runActions t (initialState true prefixMap) = (s, none) ∧
      s.inserted <+: final.inserted := by
  obtain ⟨outcome, hne, trace, hrun, hact⟩ := h
  cases hrun with
  | ref hbody =>
      have hmust : Run turtle (.seq (.must (.ref .triplesBlock)) (.must .eof)) document outcome _ :=
        hbody
      obtain ⟨inner, hblock, rfl⟩ := must_document_run hmust
      obtain rfl := documentOutcome_ok hne
      obtain ⟨_, hparts, rfl⟩ := hblock.ref_ok
      obtain ⟨_, _, _, hplus, -, rfl⟩ := hparts.seq_ok
      obtain ⟨_, _, _, hfirst, -, rfl⟩ := hplus.seq_ok
      obtain ⟨start', t₁, t₂, hlayout', hstatement, rfl⟩ := hfirst.seq_ok
      obtain ⟨hstart, rfl⟩ := hlayout.deterministic hlayout'
      cases hstart
      have hnone : essence t = [] :=
        essence_within (hlayout'.trace_names silent_closed (by decide))
      simp only [List.append_assoc] at hact
      obtain ⟨s₁, hquiet, hact⟩ := runActions_append_inv hact
      rw [runActions_eq_essence, hnone] at hquiet
      cases hquiet
      obtain ⟨s, hs, hmore⟩ := runActions_append_inv hact
      exact ⟨_, t₂, s, hstatement, hs, runActions_keeps_inserted hmore⟩

end Statement

/-! ## A Boolean literal for a subject -/

section Boolean

variable {start rest : Bytes} {k : Trace RuleName}

/-- A triples block reads the literal. -/
theorem boolean_subject_pattern (hboolean : BeginsBoolean start)
    (h : Keeps turtle (.ref (.subject true)) start rest k) :
    ∃ word, essence k = [(.booleanLiteral, word), (.subject true, [])] := by
  obtain ⟨word, after, -, -, hterm, hvar⟩ := boolean_term hboolean
  obtain ⟨k, hbody, rfl⟩ := h.ref_inv
  have hown : essence [(.subject true, consumed start rest)] = [(.subject true, [])] := rfl
  rcases hbody.sor_inv with hkvar | ⟨_, -, hkterm⟩
  · obtain ⟨t, hrun, -⟩ := hkvar.run
    have hrun : Yields (.ref .var) start (.ok rest) (essence t) := ⟨t, hrun, rfl⟩
    cases (hrun.unique hvar).1
  · obtain ⟨-, hactions⟩ := (settled_yields rfl hkterm).unique hterm
    exact ⟨word, by rw [essence_append, hown, hactions]; rfl⟩

theorem boolean_begins (h : BeginsBoolean start) :
    ∃ b more, start = b :: more ∧ (b = char 't' ∨ b = char 'f') := by
  obtain ⟨b, more, _, _, _, hb, -, rfl, -⟩ := booleanLiteral_matches h
  exact ⟨b, more, rfl, hb⟩

/-- Turtle reads an IRI. -/
theorem boolean_subject_iri (hboolean : BeginsBoolean start)
    (h : Keeps turtle (.ref (.subject false)) start rest k) :
    ∃ i : IriLeaf, essence k = (Leaf.iri i).actions ++ [(.subject false, [])] := by
  obtain ⟨b, more, rfl, hb⟩ := boolean_begins hboolean
  obtain ⟨k, hbody, rfl⟩ := h.ref_inv
  have hown : essence [(.subject false, consumed (b :: more) rest)] = [(.subject false, [])] := rfl
  have hno : ∀ {name : RuleName} {k : Trace RuleName},
      refusesWithin turtle (char 't') 8 name = true →
      refusesWithin turtle (char 'f') 8 name = true →
      ¬ Keeps turtle (.ref name) (b :: more) rest k := by
    intro name k ht hf hk
    obtain ⟨t, hrun, -⟩ := hk.run
    rcases hb with rfl | rfl
    · exact Run.not_matches (by decide) ht hrun
    · exact Run.not_matches (by decide) hf hrun
  rcases hbody.sor_inv with hiri | ⟨_, -, hbody⟩
  · obtain ⟨t, hrun, hessence⟩ := settled_yields (by decide) hiri
    obtain ⟨i, -, -, hactions⟩ := iri_leaf hrun
    exact ⟨i, by rw [essence_append, hown, ← hessence, hactions]; rfl⟩
  · rcases hbody.sor_inv with hblank | ⟨_, -, hcollection⟩
    · exact absurd hblank (hno (by decide) (by decide))
    · exact absurd hcollection (hno (by decide) (by decide))

end Boolean

/-! ## The statement in a triples block -/

section Block

variable {prefixMap : PrefixMap} {document start rest : Bytes} {t k : Trace RuleName}

/-- Where no collection and no Boolean literal begins, the subject is read alike. -/
theorem subject_pattern (hboolean : ¬ BeginsBoolean start)
    (hround : ∀ more, start ≠ char '(' :: more) : SubjectReplays false true start := by
  intro rest k h
  obtain ⟨k, hbody, rfl⟩ := h.ref_inv
  rw [essence_append, inMode_append]
  suffices hmatch : Yields (turtle (.subject true)) start (.ok rest) (inMode true (essence k)) from
    hmatch.ref_ok
  rcases hbody.sor_inv with hiri | ⟨_, -, hbody⟩
  · obtain ⟨_, hrun, -⟩ := hiri.run
    have hliteral : Yields (.ref .literal) start .fail [] := by
      refine unmatched_fails rfl fun after t' hliteral => ?_
      obtain ⟨_, hparts, -⟩ := hrun.ref_ok
      rcases hparts.sor_ok with hiriref | ⟨_, _, -, hname, -⟩
      · obtain ⟨iri, rfl⟩ := iriref_sound hiriref
        exact Run.not_matches (b := char '<') (n := 8) (by decide) (by decide) hliteral
      · rcases literal_of_name hname hliteral with htrue | hfalse
        · exact hboolean (.inl ⟨after, htrue.symm⟩)
        · exact hboolean (.inr ⟨after, hfalse.symm⟩)
    have hblank : Yields (.ref .blankNode) start .fail [] := by
      refine unmatched_fails rfl fun after t' hblank => ?_
      obtain ⟨b, more, hb, rfl⟩ := blankNode_begins hblank
      rcases hb with rfl | rfl
      · exact Run.not_matches (n := 8) (by decide) (by decide) hrun
      · exact Run.not_matches (n := 8) (by decide) (by decide) hrun
    have hterm : Yields (.ref .term) start (.ok rest) (essence k) :=
      .ref rfl (hliteral.skip (hblank.skip (settled_yields rfl hiri)))
    rw [settled_inMode (by decide) hiri]
    exact (var_fails (by decide) (by decide) hrun).skip hterm
  · rcases hbody.sor_inv with hblank | ⟨_, -, hcollection⟩
    · obtain ⟨_, hrun, -⟩ := hblank.run
      have hliteral : Yields (.ref .literal) start .fail [] := by
        obtain ⟨b, more, hb, rfl⟩ := blankNode_begins hrun
        rcases hb with rfl | rfl
        · exact refused_fails (by decide) .literal (by decide) rfl more
        · exact refused_fails (by decide) .literal (by decide) rfl more
      have hterm : Yields (.ref .term) start (.ok rest) (essence k) :=
        .ref rfl (hliteral.skip (settled_yields rfl hblank).choose)
      rw [settled_inMode (by decide) hblank]
      exact (var_fails (by decide) (by decide) hrun).skip hterm
    · obtain ⟨-, more, hopen⟩ :=
        collection_yields (objectsReplay (.inl rfl) start.length) le_rfl hcollection
      exact absurd hopen (hround more)

/-- A collection at the beginning is the subject. -/
theorem collection_first {more : Bytes}
    (h : Keeps turtle (.ref (.tripleExtended false)) (char '(' :: more) rest k) :
    SomeCloses (essence k) := by
  have hno : ∀ {name : RuleName} {middle : Bytes} {k : Trace RuleName},
      refusesWithin turtle (char '(') 8 name = true →
      ¬ Keeps turtle (.ref name) (char '(' :: more) middle k := by
    intro name middle k hname hk
    obtain ⟨_, hrun, -⟩ := hk.run
    exact Run.not_matches (by decide) hname hrun
  obtain ⟨_, k₁, htriple, hsame⟩ := tripleExtended_triple h
  rw [hsame]
  rcases triple_parts htriple with ⟨_, _, _, hsubject, -, hactions⟩ | ⟨_, _, _, hlist, -, -⟩
  · rw [hactions]
    refine someCloses_append.mpr (.inl ?_)
    obtain ⟨_, hbody, rfl⟩ := hsubject.ref_inv
    rcases hbody.sor_inv with hiri | ⟨_, -, hbody⟩
    · exact absurd hiri (hno (by decide))
    · rcases hbody.sor_inv with hblank | ⟨_, -, hcollection⟩
      · exact absurd hblank (hno (by decide))
      · obtain ⟨_, -, hactions⟩ := collection_read (objectsRead false _) le_rfl hcollection
        have hcloses : SomeCloses [(.collection false, [])] := someCloses_single.mpr rfl
        rw [essence_append, hactions]
        exact someCloses_append.mpr (.inl (someCloses_append.mpr (.inr hcloses)))
  · exact absurd hlist (hno (by decide))

end Block

/-! ## Where the modes agree -/

section Agreement

variable {prefixMap : PrefixMap} {document start rest : Bytes} {final : State false}

/-- A triples block of the same text is accepted too, and its patterns are the images of the
triples. -/
def ModesAgree (prefixMap : PrefixMap) (document : Bytes) (final : State false) : Prop :=
  ∃ final' : State true, Accepts prefixMap document final' ∧ ∃ f, PatternMap f ∧
    ∀ p, p ∈ final'.inserted ↔
      ∃ t ∈ final.inserted, p = @mapTriple false true f t

/-- Neither a collection nor a property list is read in the statement. -/
def Bracketless (start : Bytes) : Prop :=
  ∀ rest t, Run turtle (.ref (.tripleExtended false)) start (.ok rest) t → ¬ SomeCloses t

/-- A term of the parser that is not made a variable is no blank node. -/
theorem PatternMap.held {f : Term → VarOrTerm} (h : PatternMap f) {t : Term} (ht : Held t) :
    (∃ v, f t = .variable v) ∨ f t = .term t ∧ t.nodeType ≠ .bNode := by
  rcases ht with rfl | hconstructed
  · exact .inl ⟨_, h.unset⟩
  · cases hconstructed with
    | uriRef uri => exact .inr ⟨h.uriRef uri, by simp [Rdf.uriRef]⟩
    | bNode label => exact .inl (h.bNode label)
    | literal value lang type =>
        exact .inr ⟨h.literal value lang type, by simp [literal_nodeType]⟩

/-- Without brackets the patterns are the images of the triples. -/
theorem modesAgree_of (h : TriplesStatement document start rest)
    (haccepts : Accepts prefixMap document final) (hboolean : ¬ BeginsBoolean start)
    (hbrackets : Bracketless start) : ModesAgree prefixMap document final := by
  obtain ⟨t, hrun⟩ := h.statement
  obtain ⟨k, hk, hessence⟩ := tripleExtended_kept hrun
  obtain ⟨s, hs, hinserted⟩ := h.accepts_inv hrun haccepts
  have hnone := hbrackets _ _ hrun
  have hround : ∀ more, start ≠ char '(' :: more := by
    rintro more rfl
    exact hnone (someCloses_essence.mp (hessence ▸ collection_first hk))
  have hyields := tripleExtended_yields (.inr rfl) (subject_pattern hboolean hround) hk
  obtain ⟨pieces, hpieces⟩ := Run.pieces (q := false) hrun (by decide)
  rw [runActions_eq_essence, hpieces.essence] at hs
  have hflat : ∀ entry ∈ pieces.flatMap Piece.actions, closesBracket entry.1 = false := by
    intro entry hentry
    refine Bool.eq_false_iff.mpr fun hcloses => hnone (someCloses_essence.mp ?_)
    exact ⟨entry, hpieces.essence ▸ hentry, hcloses⟩
  obtain ⟨final', hs', himage⟩ :=
    (Image.initial prefixMap).pattern_pieces hpieces.wellFormed hflat hs
  refine ⟨final', h.block_accepts hyields ?_, asPattern, asPattern_map, fun p => ?_⟩
  · rw [runActions_inMode, ← hessence, hpieces.essence]
    exact hs'
  · rw [himage.inserted, hinserted, List.mem_map]
    exact ⟨fun ⟨u, hu, hp⟩ => ⟨u, hu, hp.symm⟩, fun ⟨u, hu, hp⟩ => ⟨u, hu, hp.symm⟩⟩

/-- A statement that begins with a term. -/
theorem leaf_subjects {q : Bool} (leaf : Leaf) (hallowed : leaf.Allowed q) {list : ListTree}
    {s : State q} (h : runActions (leaf.actions ++ [(.subject q, [])] ++
      (list.actions q ++ [(.tripleSeq1 q, []), (.triple q, [])])) (initialState q prefixMap) =
        (s, none)) :
    ∃ e, leaf.element q prefixMap [] (initialState q prefixMap).latestBNLabel = .ok e ∧
      (∃ t ∈ s.inserted, t.subject = e) ∧
      ∀ t ∈ s.inserted, t.subject = e ∨ ∃ n, t.subject = unlabeledNode q n := by
  obtain ⟨s₂, hsubject, hrest⟩ := runActions_append_inv h
  obtain ⟨s₁, hleaf, hset⟩ := runActions_snoc_inv hsubject
  obtain rfl : s₁.setSubject s₁.element = s₂ := Except.ok.inj hset
  obtain ⟨e, helement, hreads⟩ := Leaf.runActions_inv ⟨rfl, rfl⟩ hallowed hleaf
  have hnone : (s₁.setSubject s₁.element).inserted = [] := by
    rw [hreads.others]
    rfl
  refine ⟨e, helement, ?_⟩
  rw [← hreads.element]
  exact tripleSeq1_subjects hnone hrest

/-- A statement that begins with a Boolean literal begins with a subject. -/
theorem boolean_triple {q : Bool} {t : Trace RuleName} (hboolean : BeginsBoolean start)
    (h : Run turtle (.ref (.tripleExtended q)) start (.ok rest) t) :
    ∃ (middle : Bytes) (k : Trace RuleName) (list : ListTree),
      Keeps turtle (.ref (.subject q)) start middle k ∧
      essence t = essence k ++ (list.actions q ++ [(.tripleSeq1 q, []), (.triple q, [])]) := by
  obtain ⟨k, hk, hessence⟩ := tripleExtended_kept h
  obtain ⟨_, _, htriple, hsame⟩ := tripleExtended_triple hk
  rcases triple_parts htriple with ⟨middle, k₁, list, hsubject, -, hactions⟩ | ⟨_, _, _, hlist, -⟩
  · exact ⟨middle, k₁, list, hsubject, (hessence.trans hsame).trans hactions⟩
  · obtain ⟨more, _, _, _, _, _, rfl, -⟩ := propertyList_inv hlist
    exact absurd hboolean (by simp [BeginsBoolean, bytes, char])

/-- A Boolean literal in place of the subject is in no image of the triples. -/
theorem not_boolean_of_modesAgree (h : TriplesStatement document start rest)
    (haccepts : Accepts prefixMap document final) (hagree : ModesAgree prefixMap document final) :
    ¬ BeginsBoolean start := by
  intro hboolean
  obtain ⟨final', haccepts', f, hf, himage⟩ := hagree
  obtain ⟨_, hlayout⟩ := h.before
  obtain ⟨t, hrun⟩ := h.statement
  obtain ⟨s, hs, hinserted⟩ := h.accepts_inv hrun haccepts
  obtain ⟨middle, t', s', hrun', hs', hsub⟩ := haccepts'.block_statement hlayout
  obtain ⟨_, _, list, hsubject, hactions⟩ := boolean_triple hboolean hrun
  obtain ⟨_, _, list', hsubject', hactions'⟩ := boolean_triple hboolean hrun'
  -- Turtle has a name for its subject
  obtain ⟨i, hi⟩ := boolean_subject_iri hboolean hsubject
  rw [runActions_eq_essence, hactions, hi] at hs
  obtain ⟨e, he, -, hturtle⟩ := leaf_subjects (.iri i) (.inl rfl) hs
  -- the triples block has the literal
  obtain ⟨word, hword⟩ := boolean_subject_pattern hboolean hsubject'
  rw [runActions_eq_essence, hactions', hword] at hs'
  obtain ⟨e', he', ⟨p, hp, hliteral⟩, -⟩ :=
    leaf_subjects (.booleanLiteral word) (.inl rfl) hs'
  cases he'
  obtain ⟨u, hu, rfl⟩ := (himage p).mp (hsub.subset hp)
  have hliteral : f u.subject = .term (Rdf.literal word none (some xsdBoolean)) := hliteral
  rw [hinserted] at hu
  rcases hturtle u hu with hiri | ⟨n, hnode⟩
  · obtain ⟨uri, huri⟩ : ∃ uri, e = Rdf.uriRef uri := by
      simp only [Leaf.element] at he
      cases huri : i.uri prefixMap [] with
      | error fault =>
          rw [huri] at he
          cases he
      | ok uri =>
          rw [huri] at he
          cases he
          exact ⟨uri, rfl⟩
    rw [hiri, huri, hf.uriRef, VarOrTerm.term.injEq] at hliteral
    have hkind := congrArg Term.nodeType hliteral
    rw [literal_nodeType] at hkind
    cases hkind
  · obtain ⟨v, hv⟩ := hf.bNode (blankNodeLabel n)
    have hnode : f u.subject = .variable v := by
      rw [hnode]
      exact hv
    rw [hnode] at hliteral
    cases hliteral

/-- Neither is a node of a bracket: it is no variable in a triples block. -/
theorem bracketless_of_modesAgree (h : TriplesStatement document start rest)
    (haccepts : Accepts prefixMap document final) (hagree : ModesAgree prefixMap document final)
    (hboolean : ¬ BeginsBoolean start) : Bracketless start := by
  intro rest₀ t₀ hrun₀ hcloses
  obtain ⟨t, hrun⟩ := h.statement
  obtain ⟨-, rfl⟩ := hrun.deterministic hrun₀
  obtain ⟨final', haccepts', f, hf, himage⟩ := hagree
  obtain ⟨_, hlayout⟩ := h.before
  obtain ⟨middle, t', s', hrun', hs', hsub⟩ := haccepts'.block_statement hlayout
  have hround : ∀ more, start ≠ char '(' :: more := by
    rintro more rfl
    exact Run.not_matches (n := 12) (by decide) (by decide) hrun'
  -- the triples block runs the same actions
  obtain ⟨k, hk, hessence⟩ := tripleExtended_kept hrun
  have hyields := tripleExtended_yields (.inr rfl) (subject_pattern hboolean hround) hk
  have hyields' : Yields (.ref (.tripleExtended true)) start (.ok middle) (essence t') :=
    ⟨t', hrun', rfl⟩
  obtain ⟨-, hsame⟩ := hyields'.unique hyields
  have hcloses' : SomeCloses (essence t') := by
    rw [hsame, someCloses_inMode, ← hessence, someCloses_essence]
    exact hcloses
  obtain ⟨tree, -, hactions⟩ := tripleExtended_read hrun'
  rw [hactions] at hcloses'
  rw [runActions_eq_essence, hactions] at hs'
  obtain ⟨p, hp, n, hnode⟩ := (StatementTree.brackets hcloses').hasNode hs'
  obtain ⟨u, hu, rfl⟩ := (himage p).mp (hsub.subset hp)
  have hnode : f u.subject = .term (Rdf.bNode (blankNodeLabel n)) := hnode
  rcases hf.held (haccepts.held u hu).subject with ⟨v, hv⟩ | ⟨hkept, hkind⟩
  · rw [hv] at hnode
    cases hnode
  · have hterm : u.subject = Rdf.bNode (blankNodeLabel n) :=
      VarOrTerm.term.inj (hkept.symm.trans hnode)
    exact hkind (congrArg Term.nodeType hterm)

/-- The triples block gets the image of the triples exactly if the statement has no brackets,
and does not begin with a name that begins like a Boolean literal. -/
theorem modesAgree_iff (h : TriplesStatement document start rest)
    (haccepts : Accepts prefixMap document final) :
    ModesAgree prefixMap document final ↔ ¬ BeginsBoolean start ∧ Bracketless start := by
  constructor
  · intro hagree
    have hboolean := not_boolean_of_modesAgree h haccepts hagree
    exact ⟨hboolean, bracketless_of_modesAgree h haccepts hagree hboolean⟩
  · rintro ⟨hboolean, hbrackets⟩
    exact modesAgree_of h haccepts hboolean hbrackets

/-- The statement up to its full stop, computed: where it ends, and whether a bracket closes. -/
theorem exec_statement {fuel : Nat} {closes : Bool}
    (h : (exec turtle fuel (.ref (.tripleExtended false)) start).map (fun result =>
      (result.1, result.2.any fun entry => closesBracket entry.1)) = some (.ok rest, closes)) :
    ∃ t, Run turtle (.ref (.tripleExtended false)) start (.ok rest) t ∧
      (SomeCloses t ↔ closes = true) := by
  simp only [Option.map_eq_some_iff, Prod.exists, Prod.mk.injEq] at h
  obtain ⟨_, t, hexec, rfl, rfl⟩ := h
  exact ⟨t, exec_sound fuel hexec, by simp [SomeCloses]⟩

/-- A blank node with a label. -/
def labelStatement : Bytes := bytes "<s> <p> _:o ."

theorem labelStatement_modesAgree : ∃ final : State false,
    Accepts [] labelStatement final ∧ final.inserted.length = 1 ∧
      ModesAgree [] labelStatement final := by
  have hcomputed : (parseWithin (q := false) 60 [] labelStatement).map (fun p =>
      decide (p.outcome ≠ .error ∧ p.fault = none ∧ p.final.inserted.length = 1)) =
      some true := by
    decide +kernel
  rw [Option.map_eq_some_iff] at hcomputed
  obtain ⟨⟨outcome, final, fault⟩, hparse, hsummary⟩ := hcomputed
  obtain ⟨houtcome, rfl, hcount⟩ := of_decide_eq_true hsummary
  have haccepts : Accepts [] labelStatement final :=
    ⟨outcome, houtcome, parseWithin_sound hparse⟩
  have hexec : (exec turtle 60 (.ref (.tripleExtended false)) labelStatement).map (fun result =>
      (result.1, result.2.any fun entry => closesBracket entry.1)) = some (.ok [], false) := by
    decide +kernel
  obtain ⟨t, hrun, hcloses⟩ := exec_statement hexec
  have hstatement : TriplesStatement labelStatement labelStatement [] :=
    ⟨⟨_, exec_sound 60 rfl⟩, ⟨t, hrun⟩, ⟨_, exec_sound 60 rfl⟩⟩
  refine ⟨final, haccepts, hcount, (modesAgree_iff hstatement haccepts).mpr ⟨by decide, ?_⟩⟩
  intro rest' t' hrun'
  obtain ⟨-, rfl⟩ := hrun.deterministic hrun'
  rw [hcloses]
  exact Bool.false_ne_true

/-- A property list. -/
def listStatement : Bytes := bytes "<s> <p> [ <q> <o> ] ."

theorem listStatement_modesDiffer : ¬ ∀ (prefixMap : PrefixMap) (document start rest : Bytes)
    (final : State false), TriplesStatement document start rest →
    Accepts prefixMap document final → ModesAgree prefixMap document final := by
  intro hclaim
  have hcomputed : (parseWithin (q := false) 80 [] listStatement).map (fun p =>
      decide (p.outcome ≠ .error ∧ p.fault = none)) = some true := by
    decide +kernel
  rw [Option.map_eq_some_iff] at hcomputed
  obtain ⟨⟨outcome, final, fault⟩, hparse, hsummary⟩ := hcomputed
  obtain ⟨houtcome, rfl⟩ := of_decide_eq_true hsummary
  have haccepts : Accepts [] listStatement final :=
    ⟨outcome, houtcome, parseWithin_sound hparse⟩
  have hexec : (exec turtle 80 (.ref (.tripleExtended false)) listStatement).map (fun result =>
      (result.1, result.2.any fun entry => closesBracket entry.1)) = some (.ok [], true) := by
    decide +kernel
  obtain ⟨t, hrun, hcloses⟩ := exec_statement hexec
  have hstatement : TriplesStatement listStatement listStatement [] :=
    ⟨⟨_, exec_sound 60 rfl⟩, ⟨t, hrun⟩, ⟨_, exec_sound 60 rfl⟩⟩
  have hbrackets := bracketless_of_modesAgree hstatement haccepts
    (hclaim [] listStatement listStatement [] final hstatement haccepts) (by decide)
  exact hbrackets [] t hrun (hcloses.mpr rfl)

end Agreement

end RdfParser.Turtle
