/-
  Turtle/Pieces.lean --- the actions of a run, one term at a time.

  An attempt at a term that fails leaves no action behind.  So the actions of a run,
  whatever it has tried and abandoned, are those of whole terms and, between them, single
  actions that do not belong to a term.
-/
import RdfParser.Turtle.LeafEffect
import RdfParser.Turtle.Totality

set_option autoImplicit false

namespace RdfParser.Turtle

open RdfParser.Foundation RdfParser.Rdf RdfParser.Peg RdfParser.Peg.Rule

/-! ## The rules of one grammar -/

/-- The rules outside of terms refer to a term by one of these names. -/
def spelled : RuleName → Bool
  | .iriref | .prefixedName | .iri | .blankNode | .term | .var | .varOrTerm => true
  | _ => false

/-- The rules of the grammar `q` that are not part of a term. -/
def outer (q : Bool) : RuleName → Bool
  | .iriref | .prefixedName | .iri | .blankNode | .term => true
  | .var | .varOrTerm | .triplesBlock => q
  | .collection p | .blankNodePropertyList p | .object p | .objectList p => p == q
  | .verb p | .predicateObjectListInner p | .predicateObjectList p | .subject p => p == q
  | .tripleSeq1 p | .tripleSeq2 p | .triple p | .tripleExtended p | .grammar p => p == q
  | .statement | .turtleDoc => !q
  | .predicate | .collectionBegin | .verbA | .blankNodePropertyListBegin => true
  | .prefixID | .sparqlPrefix | .base | .sparqlBase | .directive => true
  | name => silent name

theorem outer_closed (q : Bool) (name : RuleName) (h : outer q name = true)
    (hspelled : spelled name = false) : ∀ other ∈ (turtle name).names, outer q other = true := by
  cases name
  case collection p | blankNodePropertyList p | object p | objectList p | verb p
      | predicateObjectListInner p | predicateObjectList p | subject p | tripleSeq1 p
      | tripleSeq2 p | triple p | tripleExtended p | grammar p =>
    obtain rfl : p = q := beq_iff_eq.mp h
    cases p <;> decide
  all_goals first
    | contradiction
    | exact absurd h Bool.false_ne_true
    | cases q <;> first | decide | exact absurd h Bool.false_ne_true

/-- What a rule outside of terms adds to the essence of a trace. -/
def single (q : Bool) (name : RuleName) : Bool := outer q name && !spelled name && acts name

/-! ## Pieces -/

/-- A whole term, or an action outside of terms. -/
inductive Piece where
  | term (leaf : Leaf)
  | action (name : RuleName) (text : Bytes)
  deriving DecidableEq, Repr

def Piece.actions : Piece → Trace RuleName
  | .term leaf => leaf.actions
  | .action name text => [(name, text)]

/-- A piece of a run of the grammar `q`. -/
def Piece.WellFormed (q : Bool) : Piece → Prop
  | .term leaf => leaf.WellFormed ∧ leaf.Allowed q
  | .action name _ => single q name = true

/-- The trace runs the actions of these pieces. -/
structure Cut (q : Bool) (trace : Trace RuleName) (pieces : List Piece) : Prop where
  essence : essence trace = pieces.flatMap Piece.actions
  wellFormed : ∀ piece ∈ pieces, piece.WellFormed q

namespace Cut

variable {q : Bool} {trace : Trace RuleName}

theorem nil : Cut q [] [] := ⟨rfl, by simp⟩

theorem append {left right : Trace RuleName} {pieces pieces' : List Piece}
    (hl : Cut q left pieces) (hr : Cut q right pieces') :
    Cut q (left ++ right) (pieces ++ pieces') where
  essence := by rw [essence_append, hl.essence, hr.essence, List.flatMap_append]
  wellFormed := fun piece hpiece =>
    (List.mem_append.mp hpiece).elim (hl.wellFormed piece) (hr.wellFormed piece)

/-- A term on its own. -/
theorem of_leaf {leaf : Leaf} (hwell : leaf.WellFormed) (hallowed : leaf.Allowed q)
    (h : Turtle.essence trace = leaf.actions) : Cut q trace [.term leaf] where
  essence := by rw [h, List.flatMap_singleton, Piece.actions]
  wellFormed := by
    intro piece hpiece
    obtain rfl := List.mem_singleton.mp hpiece
    exact ⟨hwell, hallowed⟩

/-- The entry of a rule outside of terms. -/
theorem of_entry {name : RuleName} (houter : outer q name = true)
    (hspelled : spelled name = false) (text : Bytes) :
    ∃ pieces, Cut q [(name, text)] pieces := by
  cases hacts : acts name with
  | false => exact ⟨[], by simp [Turtle.essence, essential, hacts], by simp⟩
  | true =>
      refine ⟨[.action name (if readsText name then text else [])], ?_, ?_⟩
      · simp [Turtle.essence, essential, hacts, Piece.actions]
      · intro piece hpiece
        obtain rfl := List.mem_singleton.mp hpiece
        simp [Piece.WellFormed, single, houter, hspelled, hacts]

end Cut

/-- A match of a rule by which the others refer to a term. -/
theorem spelled_leaf {q : Bool} {name : RuleName} (hspelled : spelled name = true)
    (houter : outer q name = true) {input rest : Bytes} {trace : Trace RuleName}
    (h : Run turtle (.ref name) input (.ok rest) trace) :
    ∃ leaf : Leaf, leaf.WellFormed ∧ leaf.Allowed q ∧ essence trace = leaf.actions := by
  have hof_term : SpellsTerm input rest trace →
      ∃ leaf : Leaf, leaf.WellFormed ∧ leaf.Allowed q ∧ essence trace = leaf.actions := by
    rintro ⟨leaf, hvar, -, hwell, hactions⟩
    exact ⟨leaf, hwell, .inl hvar, hactions⟩
  cases name <;> simp only [spelled, reduceCtorEq] at hspelled
  case iriref =>
      obtain ⟨text, -, hmatches, hactions⟩ := token_essence (by decide) h
      exact ⟨.iri (.iriref text), hmatches, .inl rfl, hactions⟩
  case prefixedName =>
      obtain ⟨text, -, hmatches, hactions⟩ := token_essence (by decide) h
      exact ⟨.iri (.prefixedName text), hmatches, .inl rfl, hactions⟩
  case iri =>
      obtain ⟨i, -, hwell, hactions⟩ := iri_leaf h
      exact ⟨.iri i, hwell, .inl rfl, hactions⟩
  case blankNode => exact hof_term (blankNode_leaf h)
  case term => exact hof_term (term_leaf h)
  case var =>
      obtain ⟨text, -, hmatches, hactions⟩ := token_essence (by decide) h
      exact ⟨.var text, hmatches, .inr houter, hactions⟩
  case varOrTerm =>
      rcases varOrTerm_leaf h with ⟨text, -, hmatches, hactions⟩ | hterm
      · exact ⟨.var text, hmatches, .inr houter, hactions⟩
      · exact hof_term hterm

/-- By induction on the match; a term is cut off as a whole. -/
theorem Run.pieces {q : Bool} {rule : Rule RuleName} {input : Bytes} {outcome : Outcome}
    {trace : Trace RuleName} (h : Run turtle rule input outcome trace)
    (hrule : ∀ name ∈ rule.names, outer q name = true) : ∃ pieces, Cut q trace pieces := by
  induction h with
  | byteOk _ | byteFail _ | codePointOk _ _ | codePointFail _ | eofOk | eofFail _ | success =>
      exact ⟨[], Cut.nil⟩
  | seqNext _ _ ih₁ ih₂ | sorNext _ _ ih₁ ih₂ =>
      obtain ⟨_, hfirst⟩ := ih₁ fun name hname => hrule name (List.mem_append_left _ hname)
      obtain ⟨_, hsecond⟩ := ih₂ fun name hname => hrule name (List.mem_append_right _ hname)
      exact ⟨_, hfirst.append hsecond⟩
  | seqStop _ _ ih | sorStop _ _ ih =>
      exact ih fun name hname => hrule name (List.mem_append_left _ hname)
  | starNext _ _ ih₁ ih₂ =>
      obtain ⟨_, hfirst⟩ := ih₁ hrule
      obtain ⟨_, hsecond⟩ := ih₂ hrule
      exact ⟨_, hfirst.append hsecond⟩
  | starDone _ ih | starError _ ih | must _ ih => exact ih hrule
  | @ref name input outcome trace hbody ih =>
      have houter : outer q name = true := hrule name (by simp [Rule.names])
      cases hspelled : spelled name with
      | true =>
          have hrun : Run turtle (.ref name) input outcome _ := .ref hbody
          cases outcome with
          | ok rest =>
              obtain ⟨leaf, hwell, hallowed, hactions⟩ := spelled_leaf hspelled houter hrun
              exact ⟨_, Cut.of_leaf hwell hallowed hactions⟩
          | fail =>
              have hquiet : quietFailure false (.ref name) = true := by
                cases name <;> first | rfl | exact absurd hspelled Bool.false_ne_true
              exact ⟨[], fail_essence hquiet hrun, by simp⟩
          | error =>
              refine absurd rfl (matching_never_errors ?_ hrun)
              rintro p rfl
              exact absurd hspelled Bool.false_ne_true
      | false =>
          obtain ⟨_, hinner⟩ := ih (outer_closed q name houter hspelled)
          cases outcome with
          | ok rest =>
              obtain ⟨_, hown⟩ := Cut.of_entry houter hspelled (consumed input rest)
              exact ⟨_, hinner.append hown⟩
          | fail | error => exact ⟨_, hinner.append Cut.nil⟩

end RdfParser.Turtle
