/-
  Turtle/Termination.lean --- matching terminates, and why.

  Rules can be nested in themselves: an object is a collection of objects, or a property
  list with objects.  Each time a bracket has been consumed before the rule is entered
  again, and whatever is repeated consumes something.
-/
import RdfParser.Peg.Progress
import RdfParser.Turtle.Totality

set_option autoImplicit false

namespace RdfParser.Turtle

open RdfParser.Foundation RdfParser.Peg RdfParser.Peg.Rule

/-- Every match of what is repeated in the grammar consumes something. -/
theorem repetitions_consume {name : RuleName} {body : Rule RuleName}
    (hbody : body ∈ (turtle name).starBodies) {input rest : Bytes} {trace : Trace RuleName}
    (h : Run turtle body input (.ok rest) trace) : rest <:+ input ∧ rest.length < input.length :=
  ⟨h.isSuffix, h.consumes consuming_closed (starBodies_consume (depth_ranked name) body hbody)⟩

/-- A rule is not entered again inside itself before input has been consumed. -/
theorem reentry_consumes {rule : Rule RuleName} {input : Bytes}
    {active : List (RuleName × Bytes)} {before : Trace RuleName}
    (h : Moment turtle rule input active before) {name : RuleName} {start again : Bytes}
    {outer inside : List (RuleName × Bytes)} (hactive : active = outer ++ (name, start) :: inside)
    (hagain : (name, again) ∈ inside) : again <:+ start ∧ again.length < start.length :=
  h.reentered consuming_closed depth_ranked hactive hagain

/-- Matching documents, triples blocks and terms terminates on every input: rules nested in
themselves and the bodies of repetitions have consumed before they are entered again. -/
theorem matching_terminates :
    (∀ name ∈ [RuleName.grammar false, .grammar true, .term], ∀ input,
      ∃ outcome trace, Run turtle (.ref name) input outcome trace ∧
        Returns turtle (.ref name) input outcome trace) ∧
    (∀ rule input active before, Moment turtle rule input active before →
      ∀ name start again outer inside, active = outer ++ (name, start) :: inside →
        (name, again) ∈ inside → again <:+ start ∧ again.length < start.length) ∧
    ∀ name, ∀ body ∈ (turtle name).starBodies, ∀ input rest trace,
      Run turtle body input (.ok rest) trace → rest <:+ input ∧ rest.length < input.length := by
  refine ⟨?_, ?_, ?_⟩
  · intro name _ input
    obtain ⟨outcome, trace, hrun⟩ := matching_ends name input
    exact ⟨outcome, trace, hrun, hrun.returns⟩
  · intro rule input active before h name start again outer inside hactive hagain
    exact reentry_consumes h hactive hagain
  · intro name body hbody input rest trace h
    exact repetitions_consume hbody h

/-- A collection inside a collection, entered behind the first bracket. -/
theorem nestedCollection_reentered :
    ∃ before, Moment turtle (.ref (.collection true)) (bytes "((")
        [(.collection true, bytes "(("), (.object true, bytes "("), (.collection true, bytes "(")]
        before ∧ bytes "(" <:+ bytes "((" ∧ (bytes "(").length < (bytes "((").length := by
  have hbegin : Run turtle (.ref .collectionBegin) (bytes "((") (.ok (bytes "("))
      [(.collectionBegin, bytes "(")] := exec_sound 5 (by decide)
  have hignored : Run turtle (.ref .ignored) (bytes "(") (.ok (bytes "(")) [(.ignored, [])] :=
    exec_sound 10 (by decide)
  have hterm : Run turtle (.ref .varOrTerm) (bytes "(") .fail [] :=
    exec_sound 30 (by decide +kernel)
  have hobject : Moment turtle (turtle (.object true)) (bytes "(")
      [(.collection true, bytes "(")] _ := .sorSecond hterm (.sorFirst (.ref .start))
  have hmoment : Moment turtle (turtle (.collection true)) (bytes "((")
      [(.object true, bytes "("), (.collection true, bytes "(")] _ :=
    .seqSecond hbegin (.seqFirst (.starBody (.seqSecond hignored (.ref hobject))))
  exact ⟨_, .ref hmoment, matching_terminates.2.1 _ _ _ _ (.ref hmoment) (.collection true) _ _ []
    [(.object true, bytes "("), (.collection true, bytes "(")] rfl (by simp)⟩

end RdfParser.Turtle
