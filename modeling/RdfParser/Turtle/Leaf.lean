/-
  Turtle/Leaf.lean --- terms as they are written.

  A match of `term` or `varOrTerm` runs the actions of one of a few kinds of
  spelling.  `Leaf` is that spelling with its texts, `Leaf.actions` are the actions
  it causes; whatever the alternatives before it have tried leaves no action.
-/
import RdfParser.Turtle.Essence
import RdfParser.Peg.Sequence

set_option autoImplicit false

namespace RdfParser.Turtle

open RdfParser.Foundation RdfParser.Rdf RdfParser.Peg RdfParser.Peg.Rule

/-! ## Spellings -/

/-- A spelling of `iri`. -/
inductive IriLeaf where
  | iriref (text : Bytes)
  | prefixedName (text : Bytes)
  deriving DecidableEq, Repr

/-- The kinds of numbers. -/
inductive NumberKind where
  | double | decimal | integer
  deriving DecidableEq, Repr

/-- What follows the string of an `RdfLiteral`; the text of a type tag is that of its
IRI after `^^`. -/
inductive Suffix where
  | plain
  | langtag (text : Bytes)
  | typeTag (i : IriLeaf)
  deriving DecidableEq, Repr

/-- A spelling of `varOrTerm`. -/
inductive Leaf where
  | iri (i : IriLeaf)
  | blankNodeLabel (text : Bytes)
  | anon (text : Bytes)
  | booleanLiteral (text : Bytes)
  | numericLiteral (kind : NumberKind) (text : Bytes)
  | rdfLiteral (text : Bytes) (suffix : Suffix)
  | var (text : Bytes)
  deriving DecidableEq, Repr

/-- The rule of a kind of numbers. -/
def NumberKind.rule : NumberKind → RuleName
  | .double => .double
  | .decimal => .decimal
  | .integer => .integer

/-! ### Texts and actions -/

def IriLeaf.text : IriLeaf → Bytes
  | .iriref text => text
  | .prefixedName text => text

def IriLeaf.actions : IriLeaf → Trace RuleName
  | .iriref text => [(.iriref, text)]
  | .prefixedName text => [(.prefixedName, text)]

def Suffix.text : Suffix → Bytes
  | .plain => []
  | .langtag text => text
  | .typeTag i => bytes "^^" ++ i.text

def Suffix.actions : Suffix → Trace RuleName
  | .plain => []
  | .langtag text => [(.langtag, text)]
  | .typeTag i => i.actions ++ [(.rdfLiteralTypeTag, bytes "^^" ++ i.text)]

def Leaf.text : Leaf → Bytes
  | .iri i => i.text
  | .blankNodeLabel text => text
  | .anon text => text
  | .booleanLiteral text => text
  | .numericLiteral _ text => text
  | .rdfLiteral text suffix => text ++ suffix.text
  | .var text => text

def Leaf.actions : Leaf → Trace RuleName
  | .iri i => i.actions
  | .blankNodeLabel text => [(.blankNodeLabel, text), (.blankNode, [])]
  | .anon _ => [(.anon, []), (.blankNode, [])]
  | .booleanLiteral text => [(.booleanLiteral, text)]
  | .numericLiteral kind text => [(kind.rule, []), (.numericLiteral, text)]
  | .rdfLiteral text suffix => (.turtleString, text) :: (suffix.actions ++ [(.rdfLiteral, [])])
  | .var text => [(.var, text)]

/-! ### Well-formed spellings -/

/-- The texts are matched by their rules. -/
def IriLeaf.WellFormed : IriLeaf → Prop
  | .iriref text => Matches turtle .iriref text
  | .prefixedName text => Matches turtle .prefixedName text

def Suffix.WellFormed : Suffix → Prop
  | .plain => True
  | .langtag text => Matches turtle .langtag text
  | .typeTag i => i.WellFormed

def Leaf.WellFormed : Leaf → Prop
  | .iri i => i.WellFormed
  | .blankNodeLabel text => Matches turtle .blankNodeLabel text
  | .anon text => Matches turtle .anon text
  | .booleanLiteral text => Matches turtle .booleanLiteral text
  | .numericLiteral kind text => Matches turtle kind.rule text
  | .rdfLiteral text suffix => Matches turtle .turtleString text ∧ suffix.WellFormed
  | .var text => Matches turtle .var text

/-- The leaf is a variable. -/
def Leaf.isVar : Leaf → Bool
  | .var _ => true
  | _ => false

/-- The match is that of a term spelled in one of these ways, and runs its actions. -/
def SpellsTerm (input rest : Bytes) (trace : Trace RuleName) : Prop :=
  ∃ leaf : Leaf, leaf.isVar = false ∧ input = leaf.text ++ rest ∧ leaf.WellFormed ∧
    essence trace = leaf.actions

theorem SpellsTerm.congr {input rest : Bytes} {trace trace' : Trace RuleName}
    (h : SpellsTerm input rest trace) (hessence : essence trace' = essence trace) :
    SpellsTerm input rest trace' := by
  obtain ⟨leaf, hvar, hinput, hwell, hactions⟩ := h
  exact ⟨leaf, hvar, hinput, hwell, hessence.trans hactions⟩

/-! ## The actions of a named match -/

/-- The match of a named rule: its inner match, its text, and its own action last. -/
theorem ref_essence {name : RuleName} {input rest : Bytes} {trace : Trace RuleName}
    (h : Run turtle (.ref name) input (.ok rest) trace) :
    ∃ inner text, Run turtle (turtle name) input (.ok rest) inner ∧ input = text ++ rest ∧
      Matches turtle name text ∧
      essence trace = essence inner ++ (essential (name, text)).toList := by
  obtain ⟨inner, hinner, rfl⟩ := h.ref_ok
  refine ⟨inner, consumed input rest, hinner, h.consumed_append_rest.symm, h.matches_consumed, ?_⟩
  rw [essence_append]
  unfold essence
  cases hessential : essential (name, consumed input rest) <;> simp [hessential]

/-- The match of a rule made of silent rules. -/
theorem token_essence {name : RuleName} (hname : (turtle name).names.all silent = true)
    {input rest : Bytes} {trace : Trace RuleName}
    (h : Run turtle (.ref name) input (.ok rest) trace) :
    ∃ text, input = text ++ rest ∧ Matches turtle name text ∧
      essence trace = (essential (name, text)).toList := by
  obtain ⟨inner, text, hinner, hinput, hmatches, hessence⟩ := ref_essence h
  have hsilent : inner.Within silent :=
    hinner.trace_names silent_closed (List.all_eq_true.mp hname)
  rw [essence_within hsilent, List.nil_append] at hessence
  exact ⟨text, hinput, hmatches, hessence⟩

/-- The rules that run no action unless they match. -/
def retracting : RuleName → Bool
  | .anon | .integer | .decimal | .double | .langtag | .blankNodeLabel | .iriref => true
  | .numericLiteral | .turtleString | .blankNode | .prefixedName | .iri => true
  | .rdfLiteralTypeTag | .rdfLiteral | .booleanLiteral | .literal | .term => true
  | .var | .varOrTerm | .predicate | .verbA | .verb _ => true
  | .collectionBegin | .blankNodePropertyListBegin => true
  | name => silent name

/-- If the expression fails, it has run no action. -/
def quietFailure (front : Bool) (rule : Rule RuleName) : Bool :=
  rule.retracts silent (fun front name => !front && retracting name) (fun _ => false) front

theorem retracting_closed (front : Bool) (name : RuleName)
    (h : (!front && retracting name) = true) : quietFailure front (turtle name) = true := by
  cases front with
  | true => exact absurd h Bool.false_ne_true
  | false =>
      cases name
      case verb sparqlQuery => cases sparqlQuery <;> decide
      all_goals first
        | decide
        | exact absurd h Bool.false_ne_true

theorem fail_essence {rule : Rule RuleName} (hrule : quietFailure false rule = true)
    {input : Bytes} {trace : Trace RuleName} (h : Run turtle rule input .fail trace) :
    essence trace = [] :=
  essence_within (h.retracts silent_closed retracting_closed rfl (by simp) hrule)

/-- An ordered choice whose first alternative runs no action unless it matches. -/
theorem sor_essence {first second : Rule RuleName} (hfirst : quietFailure false first = true)
    {input rest : Bytes} {trace : Trace RuleName}
    (h : Run turtle (.sor first second) input (.ok rest) trace) :
    Run turtle first input (.ok rest) trace ∨
      ∃ t, Run turtle second input (.ok rest) t ∧ essence trace = essence t := by
  rcases h.sor_ok with hrun | ⟨t₁, t₂, hfail, hsecond, rfl⟩
  · exact .inl hrun
  · refine .inr ⟨t₂, hsecond, ?_⟩
    rw [essence_append, fail_essence hfirst hfail, List.nil_append]

/-! ## Every match is spelled in one of these ways -/

theorem iri_leaf {input rest : Bytes} {trace : Trace RuleName}
    (h : Run turtle (.ref .iri) input (.ok rest) trace) :
    ∃ i : IriLeaf, input = i.text ++ rest ∧ i.WellFormed ∧ essence trace = i.actions := by
  obtain ⟨_, _, hbody, -, -, hessence⟩ := ref_essence h
  rcases sor_essence rfl hbody with hiriref | ⟨_, hname, hinner⟩
  · obtain ⟨text, hinput, hmatches, hactions⟩ := token_essence (by decide) hiriref
    exact ⟨.iriref text, hinput, hmatches, by rw [hessence, hactions]; rfl⟩
  · obtain ⟨text, hinput, hmatches, hactions⟩ := token_essence (by decide) hname
    exact ⟨.prefixedName text, hinput, hmatches, by rw [hessence, hinner, hactions]; rfl⟩

theorem blankNode_leaf {input rest : Bytes} {trace : Trace RuleName}
    (h : Run turtle (.ref .blankNode) input (.ok rest) trace) : SpellsTerm input rest trace := by
  obtain ⟨_, _, hbody, -, -, hessence⟩ := ref_essence h
  rcases sor_essence rfl hbody with hlabel | ⟨_, hanon, hinner⟩
  · obtain ⟨text, hinput, hmatches, hactions⟩ := token_essence (by decide) hlabel
    exact ⟨.blankNodeLabel text, rfl, hinput, hmatches, by rw [hessence, hactions]; rfl⟩
  · obtain ⟨text, hinput, hmatches, hactions⟩ := token_essence (by decide) hanon
    exact ⟨.anon text, rfl, hinput, hmatches, by rw [hessence, hinner, hactions]; rfl⟩

/-- A number is one of a kind. -/
theorem numericLiteral_kind {input rest : Bytes} {trace : Trace RuleName}
    (h : Run turtle (.ref .numericLiteral) input (.ok rest) trace) :
    ∃ kind text, input = text ++ rest ∧ Matches turtle (NumberKind.rule kind) text ∧
      essence trace = [(kind.rule, []), (.numericLiteral, text)] := by
  obtain ⟨_, text, hbody, hinput, -, hessence⟩ := ref_essence h
  have hkind : ∀ (kind : NumberKind) (t : Trace RuleName),
      Run turtle (.ref kind.rule) input (.ok rest) t →
      essence trace = essence t ++ [(.numericLiteral, text)] →
      ∃ kind text, input = text ++ rest ∧ Matches turtle (NumberKind.rule kind) text ∧
        essence trace = [(kind.rule, []), (.numericLiteral, text)] := by
    intro kind t hrun ht
    obtain ⟨text', hinput', hmatches, hactions⟩ :=
      token_essence (by cases kind <;> decide) hrun
    have htext : text' = text := List.append_cancel_right (hinput'.symm.trans hinput)
    refine ⟨kind, text, hinput, htext ▸ hmatches, ?_⟩
    rw [ht, hactions]
    cases kind <;> rfl
  rcases sor_essence rfl hbody with hdouble | ⟨_, hmore, hinner⟩
  · exact hkind .double _ hdouble hessence
  · rw [hinner] at hessence
    rcases sor_essence rfl hmore with hdecimal | ⟨_, hinteger, hinner'⟩
    · exact hkind .decimal _ hdecimal hessence
    · rw [hinner'] at hessence
      exact hkind .integer _ hinteger hessence

theorem numericLiteral_leaf {input rest : Bytes} {trace : Trace RuleName}
    (h : Run turtle (.ref .numericLiteral) input (.ok rest) trace) :
    SpellsTerm input rest trace := by
  obtain ⟨kind, text, hinput, hmatches, hessence⟩ := numericLiteral_kind h
  exact ⟨.numericLiteral kind text, rfl, hinput, hmatches, hessence⟩

theorem rdfLiteralTypeTag_leaf {input rest : Bytes} {trace : Trace RuleName}
    (h : Run turtle (.ref .rdfLiteralTypeTag) input (.ok rest) trace) :
    ∃ i : IriLeaf, input = (Suffix.typeTag i).text ++ rest ∧ i.WellFormed ∧
      essence trace = (Suffix.typeTag i).actions := by
  obtain ⟨_, text, hbody, hinput, -, hessence⟩ := ref_essence h
  obtain ⟨middle, t₁, t₂, hcarets, hiri, rfl⟩ := hbody.seq_ok
  obtain ⟨hcut, rfl⟩ := Run.string_iff.mp hcarets
  obtain ⟨i, rfl, hi, hactions⟩ := iri_leaf hiri
  rw [← List.append_assoc] at hcut
  have htext : text = bytes "^^" ++ i.text := List.append_cancel_right (hinput.symm.trans hcut)
  refine ⟨i, hcut, hi, ?_⟩
  rw [hessence, List.nil_append, hactions, htext]
  rfl

theorem suffix_leaf {input rest : Bytes} {trace : Trace RuleName}
    (h : Run turtle (opt (sorOf (.ref .langtag) [.ref .rdfLiteralTypeTag])) input (.ok rest)
      trace) :
    ∃ suffix : Suffix, input = suffix.text ++ rest ∧ suffix.WellFormed ∧
      essence trace = suffix.actions := by
  rcases sor_essence (by decide) h with hsome | ⟨_, hnone, hessence⟩
  · rcases sor_essence rfl hsome with hlang | ⟨_, htype, hinner⟩
    · obtain ⟨text, hinput, hmatches, hactions⟩ := token_essence (by decide) hlang
      exact ⟨.langtag text, hinput, hmatches, hactions⟩
    · obtain ⟨i, hinput, hi, hactions⟩ := rdfLiteralTypeTag_leaf htype
      exact ⟨.typeTag i, hinput, hi, hinner.trans hactions⟩
  · obtain ⟨rfl, rfl⟩ := hnone.success_ok
    exact ⟨.plain, rfl, trivial, hessence⟩

theorem rdfLiteral_parts {input rest : Bytes} {trace : Trace RuleName}
    (h : Run turtle (.ref .rdfLiteral) input (.ok rest) trace) :
    ∃ (text : Bytes) (suffix : Suffix) (t : Trace RuleName),
      input = text ++ (suffix.text ++ rest) ∧
      Run turtle (.ref .turtleString) input (.ok (suffix.text ++ rest)) t ∧
      suffix.WellFormed ∧ essence trace = (Leaf.rdfLiteral text suffix).actions := by
  obtain ⟨_, _, hbody, -, -, hessence⟩ := ref_essence h
  obtain ⟨middle, t₁, t₂, hstring, hsuffix, rfl⟩ := hbody.seq_ok
  obtain ⟨suffix, rfl, hwell, hactions⟩ := suffix_leaf hsuffix
  obtain ⟨text, rfl, -, hactions'⟩ := token_essence (by decide) hstring
  refine ⟨text, suffix, t₁, rfl, hstring, hwell, ?_⟩
  rw [hessence, essence_append, hactions, hactions']
  rfl

theorem rdfLiteral_leaf {input rest : Bytes} {trace : Trace RuleName}
    (h : Run turtle (.ref .rdfLiteral) input (.ok rest) trace) : SpellsTerm input rest trace := by
  obtain ⟨text, suffix, t, hinput, hstring, hwell, hessence⟩ := rdfLiteral_parts h
  have hmatches : Matches turtle .turtleString text := ⟨_, t, hinput ▸ hstring⟩
  rw [← List.append_assoc] at hinput
  exact ⟨.rdfLiteral text suffix, rfl, hinput, ⟨hmatches, hwell⟩, hessence⟩

/-- The match of a rule without an action. -/
theorem ref_inner {name : RuleName} (hname : acts name = false) {input rest : Bytes}
    {trace : Trace RuleName} (h : Run turtle (.ref name) input (.ok rest) trace) :
    ∃ inner, Run turtle (turtle name) input (.ok rest) inner ∧ essence trace = essence inner := by
  obtain ⟨inner, text, hbody, -, -, hessence⟩ := ref_essence h
  have hnone : essential (name, text) = none := by simp [essential, hname]
  rw [hnone, Option.toList_none, List.append_nil] at hessence
  exact ⟨inner, hbody, hessence⟩

theorem literal_leaf {input rest : Bytes} {trace : Trace RuleName}
    (h : Run turtle (.ref .literal) input (.ok rest) trace) : SpellsTerm input rest trace := by
  obtain ⟨_, hbody, hinner⟩ := ref_inner rfl h
  refine SpellsTerm.congr ?_ hinner
  rcases sor_essence rfl hbody with hrdf | ⟨_, hmore, hskip⟩
  · exact rdfLiteral_leaf hrdf
  · refine SpellsTerm.congr ?_ hskip
    rcases sor_essence rfl hmore with hnumeric | ⟨_, hboolean, hskip'⟩
    · exact numericLiteral_leaf hnumeric
    · obtain ⟨text, hinput, hmatches, hactions⟩ := token_essence (by decide) hboolean
      exact ⟨.booleanLiteral text, rfl, hinput, hmatches, hskip'.trans hactions⟩

/-- A match of `term`. -/
theorem term_leaf {input rest : Bytes} {trace : Trace RuleName}
    (h : Run turtle (.ref .term) input (.ok rest) trace) : SpellsTerm input rest trace := by
  obtain ⟨_, hbody, hinner⟩ := ref_inner rfl h
  refine SpellsTerm.congr ?_ hinner
  rcases sor_essence rfl hbody with hliteral | ⟨_, hmore, hskip⟩
  · exact literal_leaf hliteral
  · refine SpellsTerm.congr ?_ hskip
    rcases sor_essence rfl hmore with hblank | ⟨_, hiri, hskip'⟩
    · exact blankNode_leaf hblank
    · obtain ⟨i, hinput, hi, hactions⟩ := iri_leaf hiri
      exact ⟨.iri i, rfl, hinput, hi, hskip'.trans hactions⟩

/-- A match of `varOrTerm`. -/
theorem varOrTerm_leaf {input rest : Bytes} {trace : Trace RuleName}
    (h : Run turtle (.ref .varOrTerm) input (.ok rest) trace) :
    (∃ text, input = text ++ rest ∧ Matches turtle .var text ∧
        essence trace = (Leaf.var text).actions) ∨ SpellsTerm input rest trace := by
  obtain ⟨_, hbody, hinner⟩ := ref_inner rfl h
  rcases sor_essence rfl hbody with hvar | ⟨_, hterm, hskip⟩
  · obtain ⟨text, hinput, hmatches, hactions⟩ := token_essence (by decide) hvar
    exact .inl ⟨text, hinput, hmatches, hinner.trans hactions⟩
  · exact .inr ((term_leaf hterm).congr (hinner.trans hskip))

end RdfParser.Turtle
