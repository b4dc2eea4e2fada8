/-
  Turtle/Recognition.lean --- the grammar of triples recognises its context-free reading.

  The other direction of `Derivation.lean`: a match of a rule is a derivation.  Together
  they say that ordered choice and greedy repetition lose nothing here, although they
  never go back: the statements the PEG matches are those the context-free grammar
  derives, with the same rest and the same actions.
-/
import RdfParser.Turtle.Derivation

set_option autoImplicit false

namespace RdfParser.Turtle

open RdfParser.Foundation RdfParser.Rdf RdfParser.Peg RdfParser.Peg.Rule

section Soundness

variable {q : Bool} {input middle rest : Bytes} {t t' : Trace RuleName}

theorem gap_of_run (h : Run turtle (.ref .ignored) input (.ok rest) t) : Gap input rest := by
  obtain ⟨layout, rfl, hlayout⟩ := ignored_sound h
  exact ⟨layout, hlayout, rfl⟩

theorem mark_of_run {c : Char} (h : Run turtle (.ref .ignored) input (.ok middle) t)
    (h' : Run turtle (ch c) middle (.ok rest) t') : Mark c input rest := by
  obtain ⟨b, hb, rfl, -⟩ := h'.byte_ok
  obtain rfl := beq_iff_eq.mp hb
  exact gap_of_run h

/-! ## Tokens -/

theorem readAs_of_spells {name : RuleName} (h : Run turtle (.ref name) input (.ok rest) t)
    (hspells : SpellsTerm input rest t) : ∃ leaf : Leaf, leaf.ReadAs q name input rest := by
  obtain ⟨leaf, hvar, hinput, hwell, hactions⟩ := hspells
  exact ⟨leaf, ⟨hwell, .inl hvar⟩, hinput, t, h, hactions⟩

theorem readAs_var (h : Run turtle (.ref .var) input (.ok rest) t) :
    ∃ leaf : Leaf, leaf.ReadAs true .var input rest := by
  obtain ⟨text, hinput, hmatches, hactions⟩ := token_essence (by decide) h
  exact ⟨.var text, ⟨hmatches, .inr rfl⟩, hinput, t, h, hactions⟩

theorem iri_spells (h : Run turtle (.ref .iri) input (.ok rest) t) : SpellsTerm input rest t := by
  obtain ⟨i, hinput, hwell, hactions⟩ := iri_leaf h
  exact ⟨.iri i, rfl, hinput, hwell, hactions⟩

/-- `predicate` is another name of `iri`. -/
theorem predicate_leaf (h : Run turtle (.ref .predicate) input (.ok rest) t) :
    ∃ i : IriLeaf, input = i.text ++ rest ∧ i.WellFormed ∧ essence t = i.actions := by
  obtain ⟨inner, hbody, hessence⟩ := ref_inner rfl h
  have hbody : Run turtle (turtle .iri) input (.ok rest) inner := hbody
  have hiri : Yields (.ref .iri) input (.ok rest) (essence inner) := .ref rfl ⟨_, hbody, rfl⟩
  obtain ⟨t', hrun, hsame⟩ := hiri
  obtain ⟨i, hinput, hwell, hactions⟩ := iri_leaf hrun
  exact ⟨i, hinput, hwell, hessence.trans (hsame.symm.trans hactions)⟩

theorem readAs_leaf (h : Run turtle (.ref (leafRule q)) input (.ok rest) t) :
    ∃ leaf : Leaf, leaf.ReadAs q (leafRule q) input rest := by
  cases q with
  | false => exact readAs_of_spells h (term_leaf h)
  | true =>
      rcases varOrTerm_leaf h with ⟨text, hinput, hmatches, hactions⟩ | hterm
      · exact ⟨.var text, ⟨hmatches, .inr rfl⟩, hinput, t, h, hactions⟩
      · exact readAs_of_spells h hterm

theorem verb_derives (h : Run turtle (.ref (.verb q)) input (.ok rest) t) :
    ∃ verb : VerbTree, verb.Derives q input rest := by
  obtain ⟨_, hbody, -⟩ := h.ref_ok
  have hpredicate : ∀ {t : Trace RuleName}, Run turtle (.ref .predicate) input (.ok rest) t →
      ∃ verb : VerbTree, verb.Derives q input rest := by
    intro t hrun
    obtain ⟨i, hinput, hwell, hactions⟩ := predicate_leaf hrun
    obtain ⟨leaf, hleaf⟩ := readAs_of_spells hrun ⟨.iri i, rfl, hinput, hwell, hactions⟩
    exact ⟨.term leaf, .predicate, by cases q <;> decide, hleaf⟩
  have hverbA : ∀ {t t' : Trace RuleName}, Run turtle (.ref .predicate) input .fail t →
      Run turtle (.ref .verbA) input (.ok rest) t' →
      ∃ verb : VerbTree, verb.Derives q input rest := by
    intro t t' hfail hrun
    obtain ⟨_, hbody, -⟩ := hrun.ref_ok
    obtain ⟨b, hb, rfl, -⟩ := hbody.byte_ok
    obtain rfl := beq_iff_eq.mp hb
    exact ⟨.a, rfl, fun after t hmatch => by cases (hmatch.deterministic hfail).1⟩
  cases q with
  | false =>
      rcases hbody.sor_ok with hrun | ⟨_, _, hfail, hrun, -⟩
      · exact hpredicate hrun
      · exact hverbA hfail hrun
  | true =>
      rcases hbody.sor_ok with hfirst | ⟨_, _, hfail, hrun, -⟩
      · rcases hfirst.sor_ok with hvar | ⟨_, _, -, hrun, -⟩
        · obtain ⟨leaf, hleaf⟩ := readAs_var hvar
          exact ⟨.term leaf, .var, by decide, hleaf⟩
        · exact hpredicate hrun
      · cases hfail with
        | sorNext _ hfail => exact hverbA hfail hrun
        | sorStop _ hstop => exact absurd rfl hstop

/-! ## Objects in shorter inputs -/

/-- Objects in inputs shorter than this are derived. -/
def ObjectsDerived (q : Bool) (bound : Nat) : Prop :=
  ∀ input rest t, input.length < bound → Run turtle (.ref (.object q)) input (.ok rest) t →
    ∃ object : ObjectTree, object.Derives q input rest

variable {bound : Nat}

theorem members_derive (hobjects : ObjectsDerived q bound) (hinput : input.length < bound)
    (h : Run turtle (.star (.seq (.ref .ignored) (.ref (.object q)))) input (.ok rest) t) :
    ∃ members : ObjectsTree, members.Members q input rest := by
  have hchain : Relation.ReflTransGen (fun start stop => ∃ (m : Bytes) (object : ObjectTree),
      Gap start m ∧ object.Derives q m stop) input rest := by
    refine h.star_chain fun start stop t hle hrun => ?_
    obtain ⟨m, _, _, hlayout, hobject, -⟩ := hrun.seq_ok
    obtain ⟨object, hobject⟩ :=
      hobjects _ _ _ (hlayout.length_le.trans_lt (hle.trans_lt hinput)) hobject
    exact ⟨m, object, gap_of_run hlayout, hobject⟩
  clear h hinput
  induction hchain using Relation.ReflTransGen.head_induction_on with
  | refl => exact ⟨.nil, rfl⟩
  | head hfirst _ ih =>
      obtain ⟨m, object, hgap, hobject⟩ := hfirst
      obtain ⟨members, hmembers⟩ := ih
      exact ⟨.cons object members, m, _, hgap, hobject, hmembers⟩

theorem further_derives (hobjects : ObjectsDerived q bound) (hinput : input.length < bound)
    (h : Run turtle (.star (furtherObject q)) input (.ok rest) t) :
    ∃ objects : ObjectsTree, objects.Further q input rest := by
  have hchain : Relation.ReflTransGen (fun start stop => ∃ (m₁ m₂ : Bytes) (object : ObjectTree),
      Mark ',' start m₁ ∧ Gap m₁ m₂ ∧ object.Derives q m₂ stop) input rest := by
    refine h.star_chain fun start stop t hle hrun => ?_
    obtain ⟨m₁, _, _, hlayout, hmore, -⟩ := Run.seqOf_cons_iff.mp hrun
    obtain ⟨m₂, _, _, hcomma, hmore, -⟩ := Run.seqOf_cons_iff.mp hmore
    obtain ⟨m₃, _, _, hlayout', hobject, -⟩ := Run.seqOf_cons_iff.mp hmore
    have hshort : m₃.length < bound := by
      have h₁ := hlayout.length_le
      have h₂ := hcomma.length_le
      have h₃ := hlayout'.length_le
      omega
    obtain ⟨object, hobject⟩ := hobjects _ _ _ hshort hobject
    exact ⟨m₂, m₃, object, mark_of_run hlayout hcomma, gap_of_run hlayout', hobject⟩
  clear h hinput
  induction hchain using Relation.ReflTransGen.head_induction_on with
  | refl => exact ⟨.nil, rfl⟩
  | head hfirst _ ih =>
      obtain ⟨m₁, m₂, object, hcomma, hgap, hobject⟩ := hfirst
      obtain ⟨objects, hobjects⟩ := ih
      exact ⟨.cons object objects, m₁, m₂, _, hcomma, hgap, hobject, hobjects⟩

/-- A verb with its objects is derived. -/
def PairDerived (q : Bool) (input rest : Bytes) : Prop :=
  ∃ (verb : VerbTree) (object : ObjectTree) (objects : ObjectsTree),
    PairDerives q verb (object.Derives q) (objects.Further q) input rest

theorem inner_derives (hobjects : ObjectsDerived q bound) (hinput : input.length < bound)
    (h : Run turtle (.ref (.predicateObjectListInner q)) input (.ok rest) t) :
    PairDerived q input rest := by
  obtain ⟨_, hbody, -⟩ := h.ref_ok
  obtain ⟨m₁, _, _, hverb, hmore, -⟩ := Run.seqOf_cons_iff.mp hbody
  obtain ⟨m₂, _, _, hlayout, hlist, -⟩ := Run.seqOf_cons_iff.mp hmore
  have hlist : Run turtle (.ref (.objectList q)) m₂ (.ok rest) _ := hlist
  obtain ⟨_, hparts, -⟩ := hlist.ref_ok
  obtain ⟨m₃, _, _, hfirst, hfurther, -⟩ := hparts.seq_ok
  have hshort : m₂.length < bound :=
    hlayout.length_le.trans_lt (hverb.length_le.trans_lt hinput)
  obtain ⟨verb, hverb⟩ := verb_derives hverb
  obtain ⟨object, hobject⟩ := hobjects _ _ _ hshort hfirst
  obtain ⟨objects, hobjects⟩ := further_derives hobjects (hfirst.length_le.trans_lt hshort) hfurther
  exact ⟨verb, object, objects, m₁, m₂, m₃, hverb, gap_of_run hlayout, hobject, hobjects⟩

/-- Behind a verb and its objects come semicolons only, or a further list as well. -/
def Continued (q : Bool) (input rest : Bytes) : Prop :=
  Semicolons input rest ∨ ∃ (m₁ m₂ m₃ : Bytes) (next : ListTree),
    Semicolons input m₁ ∧ Mark ';' m₁ m₂ ∧ Gap m₂ m₃ ∧ next.Derives q m₃ rest

/-- A verb, its objects and what continues them are a list. -/
theorem Continued.list (h : Continued q middle rest) (hpair : PairDerived q input middle) :
    ∃ list : ListTree, list.Derives q input rest := by
  obtain ⟨verb, object, objects, hpair⟩ := hpair
  rcases h with hsemicolons | ⟨m₁, m₂, m₃, next, hsemicolons, hmark, hgap, hnext⟩
  · exact ⟨.last verb object objects, middle, hpair, hsemicolons⟩
  · exact ⟨.more verb object objects next, middle, m₁, m₂, m₃, hpair, hsemicolons, hmark, hgap,
      hnext⟩

theorem list_derives (hobjects : ObjectsDerived q bound) (hinput : input.length < bound)
    (h : Run turtle (.ref (.predicateObjectList q)) input (.ok rest) t) :
    ∃ list : ListTree, list.Derives q input rest := by
  obtain ⟨_, hbody, -⟩ := h.ref_ok
  obtain ⟨m, _, _, hfirst, hmore, -⟩ := hbody.seq_ok
  have hchain : Relation.ReflTransGen (fun start stop => ∃ m, Mark ';' start m ∧
      (m = stop ∨ ∃ m', Gap m m' ∧ PairDerived q m' stop)) m rest := by
    refine hmore.star_chain fun start stop t hle hrun => ?_
    obtain ⟨m₁, _, _, hlayout, hround, -⟩ := Run.seqOf_cons_iff.mp hrun
    obtain ⟨m₂, _, _, hsemicolon, hround, -⟩ := Run.seqOf_cons_iff.mp hround
    refine ⟨m₂, mark_of_run hlayout hsemicolon, ?_⟩
    rcases Run.sor_ok hround with hnext | ⟨_, _, -, hnone, -⟩
    · obtain ⟨m₃, _, _, hlayout', hinner, -⟩ := hnext.seq_ok
      have hshort : m₃.length < bound := by
        have h₁ := hfirst.length_le
        have h₂ := hlayout.length_le
        have h₃ := hsemicolon.length_le
        have h₄ := hlayout'.length_le
        omega
      exact .inr ⟨m₃, gap_of_run hlayout', inner_derives hobjects hshort hinner⟩
    · exact .inl hnone.success_ok.1
  refine Continued.list ?_ (inner_derives hobjects hinput hfirst)
  clear hfirst hmore
  induction hchain using Relation.ReflTransGen.head_induction_on with
  | refl => exact .inl .refl
  | head hround _ ih =>
      obtain ⟨m', hmark, hround⟩ := hround
      rcases hround with rfl | ⟨m'', hgap, hpair⟩
      · rcases ih with hsemicolons | ⟨m₁, m₂, m₃, next, hsemicolons, hnext⟩
        · exact .inl (.head hmark hsemicolons)
        · exact .inr ⟨m₁, m₂, m₃, next, .head hmark hsemicolons, hnext⟩
      · obtain ⟨next, hnext⟩ := ih.list hpair
        exact .inr ⟨_, m', m'', next, .refl, hmark, hgap, hnext⟩

theorem bracket_derives (hobjects : ObjectsDerived q bound) (hinput : input.length ≤ bound)
    (h : Run turtle (.ref (.blankNodePropertyList q)) input (.ok rest) t) :
    ∃ list : ListTree, Bracketed (list.Derives q) input rest := by
  obtain ⟨_, hbody, -⟩ := h.ref_ok
  obtain ⟨m₁, _, _, hbegin, hmore, -⟩ := Run.seqOf_cons_iff.mp hbody
  obtain ⟨m₂, _, _, hlayout, hmore, -⟩ := Run.seqOf_cons_iff.mp hmore
  obtain ⟨m₃, _, _, hlist, hmore, -⟩ := Run.seqOf_cons_iff.mp hmore
  obtain ⟨m₄, _, _, hlayout', hclose, -⟩ := Run.seqOf_cons_iff.mp hmore
  obtain ⟨_, hopen, -⟩ := hbegin.ref_ok
  obtain ⟨b, hb, rfl, -⟩ := hopen.byte_ok
  obtain rfl := beq_iff_eq.mp hb
  have hshort : m₂.length < bound :=
    hlayout.length_le.trans_lt (Nat.lt_of_succ_le (by simpa using hinput))
  obtain ⟨list, hlist⟩ := list_derives hobjects hshort hlist
  exact ⟨list, m₁, m₂, m₃, rfl, gap_of_run hlayout, hlist, mark_of_run hlayout' hclose⟩

theorem collection_derives (hobjects : ObjectsDerived q bound) (hinput : input.length ≤ bound)
    (h : Run turtle (.ref (.collection q)) input (.ok rest) t) :
    ∃ members : ObjectsTree, Parenthesized (members.Members q) input rest := by
  obtain ⟨_, hbody, -⟩ := h.ref_ok
  obtain ⟨m₁, _, _, hbegin, hmore, -⟩ := Run.seqOf_cons_iff.mp hbody
  obtain ⟨m₂, _, _, hmembers, hmore, -⟩ := Run.seqOf_cons_iff.mp hmore
  obtain ⟨m₃, _, _, hlayout, hclose, -⟩ := Run.seqOf_cons_iff.mp hmore
  obtain ⟨_, hopen, -⟩ := hbegin.ref_ok
  obtain ⟨b, hb, rfl, -⟩ := hopen.byte_ok
  obtain rfl := beq_iff_eq.mp hb
  obtain ⟨members, hmembers⟩ :=
    members_derive hobjects (Nat.lt_of_succ_le (by simpa using hinput)) hmembers
  exact ⟨members, m₁, m₂, rfl, hmembers, mark_of_run hlayout hclose⟩

/-- By induction on the length of the input. -/
theorem objectsDerived (q : Bool) (bound : Nat) : ObjectsDerived q bound := by
  induction bound with
  | zero => exact fun input _ _ hshort => absurd hshort (Nat.not_lt_zero _)
  | succ bound ih =>
      intro input rest t hshort h
      have hinput : input.length ≤ bound := Nat.le_of_lt_succ hshort
      obtain ⟨_, hbody, -⟩ := h.ref_ok
      rcases hbody.sor_ok with hleaf | ⟨_, _, -, hbody, -⟩
      · have hleaf : Run turtle (.ref (leafRule q)) input (.ok rest) _ := hleaf
        obtain ⟨leaf, hleaf⟩ := readAs_leaf hleaf
        exact ⟨.term leaf, hleaf⟩
      · rcases hbody.sor_ok with hcollection | ⟨_, _, -, hlist, -⟩
        · obtain ⟨members, hmembers⟩ := collection_derives ih hinput hcollection
          exact ⟨.collection members, hmembers⟩
        · obtain ⟨list, hlist⟩ := bracket_derives ih hinput hlist
          exact ⟨.blankNodePropertyList list, hlist⟩

/-! ## Statements -/

theorem subject_derives (h : Run turtle (.ref (.subject q)) input (.ok rest) t) :
    ∃ subject : SubjectTree, subject.Derives q input rest := by
  obtain ⟨_, hbody, -⟩ := h.ref_ok
  cases q with
  | true =>
      rcases hbody.sor_ok with hvar | ⟨_, _, -, hterm, -⟩
      · obtain ⟨leaf, hleaf⟩ := readAs_var hvar
        exact ⟨.term leaf, .var, by decide, hleaf⟩
      · obtain ⟨leaf, hleaf⟩ := readAs_of_spells hterm (term_leaf hterm)
        exact ⟨.term leaf, .term, by decide, hleaf⟩
  | false =>
      rcases hbody.sor_ok with hiri | ⟨_, _, -, hbody, -⟩
      · obtain ⟨leaf, hleaf⟩ := readAs_of_spells hiri (iri_spells hiri)
        exact ⟨.term leaf, .iri, by decide, hleaf⟩
      · rcases hbody.sor_ok with hblank | ⟨_, _, -, hcollection, -⟩
        · obtain ⟨leaf, hleaf⟩ := readAs_of_spells hblank (blankNode_leaf hblank)
          exact ⟨.term leaf, .blankNode, by decide, hleaf⟩
        · obtain ⟨members, hmembers⟩ :=
            collection_derives (objectsDerived false _) le_rfl hcollection
          exact ⟨.collection members, rfl, hmembers⟩

theorem statement_derives (h : Run turtle (.ref (.tripleExtended q)) input (.ok rest) t) :
    ∃ statement : StatementTree, statement.Derives q input rest := by
  have hobjects : ∀ bound, ObjectsDerived q bound := objectsDerived q
  obtain ⟨_, hbody, -⟩ := h.ref_ok
  obtain ⟨m, _, _, htriple, hmore, -⟩ := Run.seqOf_cons_iff.mp hbody
  obtain ⟨m', _, _, hlast, hstop, -⟩ := Run.seqOf_cons_iff.mp hmore
  have hstop : Mark '.' m rest := mark_of_run hlast hstop
  obtain ⟨_, hbody, -⟩ := htriple.ref_ok
  rcases hbody.sor_ok with hseq1 | ⟨_, _, -, hseq2, -⟩
  · obtain ⟨_, hbody, -⟩ := hseq1.ref_ok
    obtain ⟨m₁, _, _, hsubject, hmore, -⟩ := Run.seqOf_cons_iff.mp hbody
    obtain ⟨m₂, _, _, hlayout, hlist, -⟩ := Run.seqOf_cons_iff.mp hmore
    obtain ⟨subject, hsubject⟩ := subject_derives hsubject
    obtain ⟨list, hlist⟩ := list_derives (hobjects _) (Nat.lt_succ_self _) hlist
    exact ⟨.tripleSeq1 subject list, m₁, m₂, m, hsubject, gap_of_run hlayout, hlist, hstop⟩
  · obtain ⟨_, hbody, -⟩ := hseq2.ref_ok
    obtain ⟨m₁, _, _, hlist, hmore, -⟩ := Run.seqOf_cons_iff.mp hbody
    obtain ⟨m₂, _, _, hlayout, hmore, -⟩ := Run.seqOf_cons_iff.mp hmore
    obtain ⟨list, hlist⟩ := bracket_derives (hobjects _) le_rfl hlist
    rcases Run.sor_ok hmore with hmore | ⟨_, _, -, hnone, -⟩
    · obtain ⟨more, hmore⟩ := list_derives (hobjects _) (Nat.lt_succ_self _) hmore
      exact ⟨.tripleSeq2 list (some more), m₁, m₂, m, hlist, gap_of_run hlayout, hmore, hstop⟩
    · -- the layout in front of the full stop has been read together with the bracket
      obtain ⟨rfl, -⟩ := hnone.success_ok
      obtain ⟨layout, hlay, hm₁⟩ := gap_of_run hlayout
      obtain ⟨layout', hlay', hm⟩ := hstop
      refine ⟨.tripleSeq2 list none, m₁, hlist, layout ++ layout', hlay.append hlay', ?_⟩
      rw [hm₁, hm, List.append_assoc]

end Soundness

/-! ## The statements of the two grammars -/

/-- The PEG matches what the context-free grammar derives, and runs the actions of a
derivation. -/
theorem tripleExtended_iff {q : Bool} {input rest : Bytes} {actions : Trace RuleName} :
    Yields (.ref (.tripleExtended q)) input (.ok rest) actions ↔
      ∃ statement : StatementTree, statement.Derives q input rest ∧
        actions = statement.actions q := by
  constructor
  · intro h
    obtain ⟨_, hrun, -⟩ := id h
    obtain ⟨statement, hstatement⟩ := statement_derives hrun
    exact ⟨statement, hstatement, (h.unique hstatement.yields).2⟩
  · rintro ⟨statement, hstatement, rfl⟩
    exact hstatement.yields

end RdfParser.Turtle
