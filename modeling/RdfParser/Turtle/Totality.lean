/-
  Turtle/Totality.lean --- matching the Turtle grammar ends on every input.
-/
import RdfParser.Peg.Total
import RdfParser.Turtle.Document
import RdfParser.Turtle.Leaf

set_option autoImplicit false

namespace RdfParser.Turtle

open RdfParser.Foundation RdfParser.Peg RdfParser.Peg.Rule

/-- The rules that do not match the empty text: all but layout and whole documents,
which can be nothing but layout. -/
def consuming : RuleName → Bool
  | .ignored | .grammar _ => false
  | _ => true

theorem consuming_closed (name : RuleName) (h : consuming name = true) :
    (turtle name).consumes consuming = true := by
  cases name
  case ignored | grammar => exact absurd h Bool.false_ne_true
  all_goals first
    | rfl
    | rename_i sparqlQuery
      cases sparqlQuery <;> rfl

/-- How many rules can be entered one inside the other before any input is consumed. -/
def depth : RuleName → Nat
  | .pnCharsU | .pnPrefix | .plx | .ignored => 1
  | .pnChars | .pnLocal | .pnameNs | .varname => 2
  | .pnameLn => 3
  | .prefixedName => 4
  | .numericLiteral | .turtleString | .blankNode | .directive | .var => 1
  | .rdfLiteral => 2
  | .literal => 3
  | .iri | .predicate => 5
  | .term | .verb _ => 6
  | .varOrTerm | .subject _ | .predicateObjectListInner _ => 7
  | .object _ | .predicateObjectList _ | .tripleSeq1 _ => 8
  | .objectList _ | .triple _ => 9
  | .collection _ | .blankNodePropertyList _ => 1
  | .tripleSeq2 _ => 2
  | .tripleExtended _ => 10
  | .statement => 11
  | .turtleDoc | .triplesBlock => 12
  | .grammar _ => 13
  | _ => 0

theorem depth_ranked (name : RuleName) :
    (turtle name).terminates consuming (fun other => depth other < depth name) = true := by
  cases name
  all_goals first
    | rfl
    | rename_i sparqlQuery
      cases sparqlQuery <;> rfl

/-- Matching ends. -/
theorem matching_ends (name : RuleName) (input : Bytes) :
    ∃ outcome trace, Run turtle (.ref name) input outcome trace :=
  ends_of_ranked consuming_closed depth_ranked rfl input

/-- The rules other than `grammar` match or fail locally. -/
theorem matching_never_errors {name : RuleName} (hname : ∀ q, name ≠ .grammar q)
    {input : Bytes} {outcome : Outcome} {trace : Trace RuleName}
    (h : Run turtle (.ref name) input outcome trace) : outcome ≠ .error := by
  refine h.not_error (S := fun name => ∀ q, name ≠ .grammar q) ?_ ?_ ?_ rfl
  · intro name hname
    cases name
    case grammar q => exact absurd rfl (hname q)
    all_goals first
      | decide
      | rename_i sparqlQuery
        cases sparqlQuery <;> decide
  · intro name hname
    cases name
    case grammar q => exact absurd rfl (hname q)
    all_goals first
      | rfl
      | rename_i sparqlQuery
        cases sparqlQuery <;> rfl
  · intro other hother
    rw [Rule.names, List.mem_singleton] at hother
    exact hother ▸ hname

/-- Layout always matches. -/
theorem ignored_matches (input : Bytes) :
    ∃ rest t, Run turtle (.ref .ignored) input (.ok rest) t := by
  obtain ⟨outcome, t, h⟩ := matching_ends .ignored input
  cases outcome with
  | ok rest => exact ⟨rest, t, h⟩
  | error => exact absurd rfl (matching_never_errors (by simp) h)
  | fail =>
      cases h with
      | ref hbody => exact absurd (hbody.neverFails_of_fail rfl) (by decide)

/-! ## First bytes -/

/-- A rule that refuses the first byte fails, and without an action. -/
theorem refused_fails {b : UInt8} (hascii : b.toNat < 128) (name : RuleName)
    (hname : refusesWithin turtle b 8 name = true) (hretracts : retracting name = true)
    (more : Bytes) : Yields (.ref name) (b :: more) .fail [] := by
  obtain ⟨outcome, trace, hrun⟩ := matching_ends name (b :: more)
  cases outcome with
  | ok rest => exact absurd hrun (Run.not_matches hascii hname)
  | error =>
      refine absurd rfl (matching_never_errors ?_ hrun)
      rintro q rfl
      exact Bool.false_ne_true hretracts
  | fail =>
      have hquiet : quietFailure false (.ref name) = true := by
        simp [quietFailure, Rule.retracts, hretracts]
      exact ⟨trace, hrun, fail_essence hquiet hrun⟩

end RdfParser.Turtle
