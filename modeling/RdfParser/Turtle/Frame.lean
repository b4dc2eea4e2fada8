/-
  Turtle/Frame.lean --- which actions touch the prefix map, the base and the label
  counter.

  Only the two prefix directives add to the prefix map, only the two base
  directives set the base, and only the three rules that generate blank nodes
  advance the counter.
-/
import RdfParser.Turtle.PairBook

set_option autoImplicit false

namespace RdfParser.Turtle

open RdfParser.Foundation RdfParser.Rdf RdfParser.Peg

variable {q : Bool}

/-! ## The quiet rules -/

/-- Two states with the same prefix map, base and label counter. -/
structure BasicState.Agrees (s s' : BasicState q) : Prop where
  prefixMap : s'.prefixMap = s.prefixMap
  base : s'.base = s.base
  latestBNLabel : s'.latestBNLabel = s.latestBNLabel

theorem BasicState.Agrees.of_eq {s s' : BasicState q} (h : s' = s) : s.Agrees s' :=
  ⟨by rw [h], by rw [h], by rw [h]⟩

theorem State.lift_ok {action : BasicState q → Except Fault (BasicState q)} {s s' : State q}
    (h : s.lift action = .ok s') : action s.toBasicState = .ok s'.toBasicState := by
  unfold State.lift at h
  cases haction : action s.toBasicState with
  | error fault => simp [haction, Except.map] at h
  | ok basic =>
      simp only [haction, Except.map, Except.ok.injEq] at h
      rw [← h]

theorem State.lift_error {action : BasicState q → Except Fault (BasicState q)} {s : State q}
    {fault : Fault} (h : s.lift action = .error fault) : action s.toBasicState = .error fault := by
  unfold State.lift at h
  cases haction : action s.toBasicState with
  | ok basic => simp [haction, Except.map] at h
  | error fault' =>
      simp only [haction, Except.map, Except.error.injEq] at h
      rw [h]

/-- An action of the term level changes nothing else. -/
theorem State.lift_frame {action : BasicState q → Except Fault (BasicState q)} {s s' : State q}
    (h : s.lift action = .ok s') : s' = { s with toBasicState := s'.toBasicState } := by
  unfold State.lift at h
  cases haction : action s.toBasicState with
  | error fault => simp [haction, Except.map] at h
  | ok basic =>
      simp only [haction, Except.map, Except.ok.injEq] at h
      rw [← h]

/-- The rules whose actions add a prefix, set the base or generate blank nodes. -/
def naming : RuleName → Bool
  | .prefixID | .sparqlPrefix | .base | .sparqlBase => true
  | .anon | .collection _ | .blankNodePropertyList _ => true
  | _ => false

theorem State.processVerb_basic (s : State q) : s.processVerb.toBasicState = s.toBasicState := by
  unfold State.processVerb
  simp only
  split <;> rfl

theorem State.processTripleSeq_basic (s : State q) :
    s.processTripleSeq.toBasicState = s.toBasicState := by
  unfold State.processTripleSeq
  rw [State.foldl_insertTriple]

theorem State.processPredicateObjectListInner_basic {s s' : State q}
    (h : s.processPredicateObjectListInner = .ok s') : s'.toBasicState = s.toBasicState := by
  unfold State.processPredicateObjectListInner at h
  split at h
  · cases h
  · cases h
    rfl

/-- Every other action leaves the prefix map, the base and the counter alone. -/
theorem apply_agrees {rule : RuleName} {text : Bytes} {s s' : State q}
    (h : apply rule text s = .ok s') (hquiet : naming rule = false) :
    s.toBasicState.Agrees s'.toBasicState := by
  unfold apply at h
  split at h
  all_goals first
    | exact .of_eq (State.processPredicateObjectListInner_basic h)
    | replace h := State.lift_ok h
    | rw [Except.ok.injEq] at h
      subst h
    | simp only [naming, reduceCtorEq] at hquiet
  all_goals first
    | exact .of_eq rfl
    | exact .of_eq s.processVerb_basic
    | exact .of_eq (State.processTripleSeq_basic _)
    | skip
  -- what is left are the actions of the term level: each result is the old state
  -- with other fields updated
  all_goals generalize s'.toBasicState = basic at h ⊢
  case h_1 | h_2 | h_3 | h_4 | h_7 => simp only [naming, reduceCtorEq] at hquiet
  case h_20 =>
      cases q
      all_goals
        simp only [Action.var, bind, Except.bind, pure, Except.pure] at h
        repeat' split at h
      all_goals cases h
      all_goals exact ⟨rfl, rfl, rfl⟩
  all_goals
    simp only [Action.prefixedName, Action.iriref,
      Action.booleanLiteral, Action.double, Action.decimal, Action.integer,
      Action.numericLiteral, Action.rdfLiteral, Action.rdfLiteralTypeTag, Action.langtag,
      Action.turtleString, Action.blankNode, Action.verbA, Action.blankNodeLabel, bind,
      Except.bind, pure, Except.pure] at h
    repeat' split at h
  all_goals cases h
  all_goals exact ⟨rfl, rfl, rfl⟩

/-! ## The directives -/

theorem Action.prefixID_basic {text : Bytes} {s s' : BasicState q}
    (h : Action.prefixID text s = .ok s') :
    ∃ pre value, prefixArguments text = .ok (pre, value) ∧ s' = s.addPrefix pre value := by
  unfold Action.prefixID at h
  cases harguments : prefixArguments text with
  | error fault => simp [harguments, bind, Except.bind] at h
  | ok arguments =>
      simp only [harguments, bind, Except.bind, pure, Except.pure, Except.ok.injEq] at h
      exact ⟨arguments.1, arguments.2, rfl, h.symm⟩

theorem Action.base_basic {text : Bytes} {s s' : BasicState q}
    (h : Action.base text s = .ok s') :
    ∃ value, baseArgument text = .ok value ∧ s' = s.setBase value := by
  unfold Action.base at h
  cases hargument : baseArgument text with
  | error fault => simp [hargument, bind, Except.bind] at h
  | ok value =>
      simp only [hargument, bind, Except.bind, pure, Except.pure, Except.ok.injEq] at h
      exact ⟨value, rfl, h.symm⟩

/-! ## The rules that generate blank nodes -/

theorem State.processCollection_basic {s s' : State q} (h : s.processCollection = .ok s') :
    s'.toBasicState =
      { s.toBasicState with
        element := collectionHead s.latestBNLabel s.bnplCollectionList
        latestBNLabel := s.latestBNLabel + cellCount s.bnplCollectionList } := by
  unfold State.processCollection at h
  rw [collectionCells_eq] at h
  simp only [State.foldl_insertTriple] at h
  split at h
  · cases h
  · cases h
    rfl

theorem State.processBlankNodePropertyList_basic {s s' : State q}
    (h : s.processBlankNodePropertyList = .ok s') :
    s'.toBasicState =
      { s.toBasicState with
        element := unlabeledNode q s.latestBNLabel
        latestBNLabel := s.latestBNLabel + 1 } := by
  unfold State.processBlankNodePropertyList at h
  simp only [State.foldl_insertTriple] at h
  split at h
  · cases h
  · cases h
    split <;> rfl

theorem Action.anon_basic {text : Bytes} {s s' : BasicState q}
    (h : Action.anon text s = .ok s') :
    s' = { s with
      latestBNLabel := s.latestBNLabel + 1
      blankNodeString := Turtle.blankNodeLabel s.latestBNLabel } :=
  (Except.ok.inj h).symm

end RdfParser.Turtle
