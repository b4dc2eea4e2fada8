/-
  Turtle/Essence.lean --- the part of a trace that its actions depend on.

  Many rules have no action, and the actions that build triples do not look at the
  text they have matched.  The essence of a trace leaves both out.
-/
import RdfParser.Peg.Failure
import RdfParser.Turtle.Actions

set_option autoImplicit false

namespace RdfParser.Turtle

open RdfParser.Foundation RdfParser.Rdf RdfParser.Peg

variable {q : Bool}

/-! ## Rules with actions -/

/-- The rules whose actions read the matched text. -/
def readsText : RuleName → Bool
  | .base | .sparqlBase | .prefixID | .sparqlPrefix | .prefixedName | .iriref => true
  | .booleanLiteral | .numericLiteral | .rdfLiteralTypeTag | .langtag | .turtleString => true
  | .blankNodeLabel | .var => true
  | _ => false

/-- The rules with an action. -/
def acts : RuleName → Bool
  | .anon | .double | .decimal | .integer | .rdfLiteral | .blankNode | .verbA => true
  | .statement | .triple _ | .tripleSeq1 _ | .tripleSeq2 _ | .subject _ | .verb _ => true
  | .object _ | .collectionBegin | .collection _ | .blankNodePropertyListBegin => true
  | .blankNodePropertyList _ | .predicateObjectListInner _ | .turtleDoc => true
  | name => readsText name

/-- The terminals, and what else has no action and refers to no rule with one. -/
def silent : RuleName → Bool
  | .pnLocalEsc | .hex | .percent | .plx | .pnCharsBase | .pnCharsU | .pnChars => true
  | .pnLocal | .pnPrefix | .anonWs | .uchar | .echar | .exponent => true
  | .stringLiteralLongQuote | .stringLiteralQuote => true
  | .stringLiteralSingleQuote | .stringLiteralLongSingleQuote => true
  | .pnameNs | .pnameLn | .comment | .ignored | .varname | .var1 | .var2 => true
  | _ => false

theorem silent_closed (name : RuleName) (h : silent name = true) :
    ∀ other ∈ (turtle name).names, silent other = true := by
  cases name <;> first | decide | exact absurd h Bool.false_ne_true

theorem acts_of_silent {name : RuleName} (h : silent name = true) : acts name = false := by
  cases name <;> first | rfl | exact absurd h Bool.false_ne_true

/-- A rule without an action leaves the state alone. -/
theorem apply_idle {name : RuleName} (h : acts name = false) (text : Bytes) (s : State q) :
    apply name text s = .ok s := by
  cases name <;> first | rfl | exact absurd h.symm Bool.false_ne_true

/-- The other actions do not depend on the text. -/
theorem apply_text {name : RuleName} (h : readsText name = false) (text : Bytes) (s : State q) :
    apply name text s = apply name [] s := by
  cases name <;> first | rfl | exact absurd h.symm Bool.false_ne_true

/-! ## The essence of a trace -/

/-- What an entry contributes. -/
def essential (entry : RuleName × Bytes) : Option (RuleName × Bytes) :=
  if acts entry.1 then some (entry.1, if readsText entry.1 then entry.2 else []) else none

/-- The entries with an action, with the text where it is read. -/
def essence (trace : Trace RuleName) : Trace RuleName := trace.filterMap essential

@[simp] theorem essence_nil : essence [] = [] := rfl

@[simp] theorem essence_append (left right : Trace RuleName) :
    essence (left ++ right) = essence left ++ essence right :=
  List.filterMap_append

theorem essence_within {trace : Trace RuleName} (h : trace.Within silent) :
    essence trace = [] := by
  refine List.filterMap_eq_nil_iff.mpr fun entry hentry => ?_
  simp [essential, acts_of_silent (h entry hentry)]

/-- Running a trace is running its essence. -/
theorem runActions_essence (trace : Trace RuleName) (s : State q) :
    (runActions (essence trace) s).2 = (runActions trace s).2 ∧
      (runActions (essence trace) s).1 = (runActions trace s).1 := by
  induction trace generalizing s with
  | nil => exact ⟨rfl, rfl⟩
  | cons entry trace ih =>
      obtain ⟨name, text⟩ := entry
      cases hacts : acts name with
      | false =>
          have hskip : essence ((name, text) :: trace) = essence trace := by
            simp [essence, essential, hacts]
          rw [hskip, runActions_cons_ok (apply_idle hacts text s)]
          exact ih s
      | true =>
          have hkeep : essence ((name, text) :: trace) =
              (name, if readsText name then text else []) :: essence trace := by
            simp [essence, essential, hacts]
          have happly : apply name (if readsText name then text else []) s =
              apply name text s := by
            cases hreads : readsText name with
            | true => rfl
            | false => exact (apply_text hreads text s).symm
          rw [hkeep]
          cases hresult : apply name text s with
          | error fault =>
              rw [runActions_cons_error (happly.trans hresult), runActions_cons_error hresult]
              exact ⟨rfl, rfl⟩
          | ok s' =>
              rw [runActions_cons_ok (happly.trans hresult), runActions_cons_ok hresult]
              exact ih s'

theorem runActions_eq_essence (trace : Trace RuleName) (s : State q) :
    runActions trace s = runActions (essence trace) s :=
  Prod.ext (runActions_essence trace s).2.symm (runActions_essence trace s).1.symm

/-- Traces with the same essence have the same effect. -/
theorem runActions_congr {left right : Trace RuleName} (h : essence left = essence right)
    (s : State q) : runActions left s = runActions right s := by
  rw [runActions_eq_essence, h, ← runActions_eq_essence]

/-! ## Matching with the actions it runs -/

/-- Matching the expression ends like this and runs these actions. -/
def Yields (rule : Rule RuleName) (input : Bytes) (outcome : Outcome)
    (actions : Trace RuleName) : Prop :=
  ∃ trace, Run turtle rule input outcome trace ∧ essence trace = actions

namespace Yields

variable {first second : Rule RuleName} {input middle : Bytes} {outcome : Outcome}
  {left right actions : Trace RuleName}

theorem unique {rule : Rule RuleName} {outcome' : Outcome}
    (h : Yields rule input outcome left) (h' : Yields rule input outcome' right) :
    outcome = outcome' ∧ left = right := by
  obtain ⟨_, hrun, rfl⟩ := h
  obtain ⟨_, hrun', rfl⟩ := h'
  obtain ⟨rfl, rfl⟩ := hrun.deterministic hrun'
  exact ⟨rfl, rfl⟩

theorem seq (h₁ : Yields first input (.ok middle) left) (h₂ : Yields second middle outcome right) :
    Yields (.seq first second) input outcome (left ++ right) := by
  obtain ⟨_, hrun₁, rfl⟩ := h₁
  obtain ⟨_, hrun₂, rfl⟩ := h₂
  exact ⟨_, .seqNext hrun₁ hrun₂, essence_append _ _⟩

/-- The first alternative matches. -/
theorem choose {rest : Bytes} (h : Yields first input (.ok rest) actions) :
    Yields (.sor first second) input (.ok rest) actions := by
  obtain ⟨_, hrun, hessence⟩ := h
  exact ⟨_, .sorStop hrun (by simp), hessence⟩

/-- The first alternative fails. -/
theorem skip (h₁ : Yields first input .fail left) (h₂ : Yields second input outcome right) :
    Yields (.sor first second) input outcome (left ++ right) := by
  obtain ⟨_, hrun₁, rfl⟩ := h₁
  obtain ⟨_, hrun₂, rfl⟩ := h₂
  exact ⟨_, .sorNext hrun₁ hrun₂, essence_append _ _⟩

/-- The second alternative fails, so the first one decides. -/
theorem only (h₁ : Yields first input outcome actions) (h₂ : Yields second input .fail []) :
    Yields (.sor first second) input outcome actions := by
  by_cases hfail : outcome = .fail
  · subst hfail
    have hboth := skip h₁ h₂
    rwa [List.append_nil] at hboth
  · obtain ⟨_, hrun, hessence⟩ := h₁
    exact ⟨_, .sorStop hrun hfail, hessence⟩

/-- A name without an action. -/
theorem ref {name : RuleName} (hname : acts name = false)
    (h : Yields (turtle name) input outcome actions) :
    Yields (.ref name) input outcome actions := by
  obtain ⟨_, hrun, rfl⟩ := h
  refine ⟨_, .ref hrun, ?_⟩
  rw [essence_append]
  cases outcome <;> simp [closing, essence, essential, hname]

/-- The match of a name with its own action last. -/
theorem ref_ok {name : RuleName} {rest : Bytes}
    (h : Yields (turtle name) input (.ok rest) actions) :
    Yields (.ref name) input (.ok rest)
      (actions ++ (essential (name, consumed input rest)).toList) := by
  obtain ⟨_, hrun, rfl⟩ := h
  refine ⟨_, .ref hrun, ?_⟩
  rw [essence_append]
  unfold essence
  cases hessential : essential (name, consumed input rest) <;> simp [closing, hessential]

theorem ref_fail {name : RuleName} (h : Yields (turtle name) input .fail actions) :
    Yields (.ref name) input .fail actions := by
  obtain ⟨_, hrun, rfl⟩ := h
  refine ⟨_, .ref hrun, ?_⟩
  rw [essence_append]
  exact List.append_nil _

end Yields

end RdfParser.Turtle
