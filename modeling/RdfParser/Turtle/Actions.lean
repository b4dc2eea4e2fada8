/-
  Turtle/Actions.lean --- the action of every rule, and parsing with actions.

  Sources: `internal/Turtle/Actions/Actions.hpp` and the entry points in
  `internal/Turtle/Parsers/BaseStringParser.hpp` and `TurtleFileParser.hpp`.

  Matching does not depend on the state of the actions, so a parse is a run of
  the grammar followed by a run of its trace.  An action that throws ends the
  parse there: the rest of the trace does not happen.
-/
import RdfParser.Turtle.State

set_option autoImplicit false

namespace RdfParser.Turtle

open RdfParser.Foundation RdfParser.Rdf RdfParser.Peg

variable {q : Bool}

/-- Run an action of the term level inside the full state. -/
def State.lift (action : BasicState q → Except Fault (BasicState q)) (s : State q) :
    Except Fault (State q) :=
  (action s.toBasicState).map fun basic => { s with toBasicState := basic }

/-- `action<Rule>::apply`; a rule without an action leaves the state alone. -/
def apply (rule : RuleName) (text : Bytes) (s : State q) : Except Fault (State q) :=
  match rule with
  | .base => s.lift (Action.base text)
  | .sparqlBase => s.lift (Action.sparqlBase text)
  | .prefixID => s.lift (Action.prefixID text)
  | .sparqlPrefix => s.lift (Action.sparqlPrefix text)
  | .prefixedName => s.lift (Action.prefixedName text)
  | .iriref => s.lift (Action.iriref text)
  | .anon => s.lift (Action.anon text)
  | .booleanLiteral => s.lift (Action.booleanLiteral text)
  | .double => s.lift (Action.double text)
  | .decimal => s.lift (Action.decimal text)
  | .integer => s.lift (Action.integer text)
  | .numericLiteral => s.lift (Action.numericLiteral text)
  | .rdfLiteral => s.lift (Action.rdfLiteral text)
  | .rdfLiteralTypeTag => s.lift (Action.rdfLiteralTypeTag text)
  | .langtag => s.lift (Action.langtag text)
  | .turtleString => s.lift (Action.turtleString text)
  | .blankNode => s.lift (Action.blankNode text)
  | .verbA => s.lift (Action.verbA text)
  | .blankNodeLabel => s.lift (Action.blankNodeLabel text)
  | .var => s.lift (Action.var text)
  | .statement => .ok s.syncWithMainThread
  | .triple _ => .ok s.clearTripleParameters
  | .tripleSeq1 _ => .ok s.processTripleSeq
  | .tripleSeq2 _ => .ok (s.setSubject s.firstBNPL).processTripleSeq
  | .subject _ => .ok (s.setSubject s.element)
  | .verb _ => .ok s.processVerb
  | .object _ => .ok s.pushCurrentTermIntoBnplCollectionList
  | .collectionBegin => .ok s.moveBnplCollectionListIntoStack
  | .collection _ => s.processCollection
  | .blankNodePropertyListBegin => .ok s.moveBnplCollectionListIntoStack
  | .blankNodePropertyList _ => s.processBlankNodePropertyList
  | .predicateObjectListInner _ => s.processPredicateObjectListInner
  | .turtleDoc => .ok s.setParsingIsDone
  | _ => .ok s

/-! ## Running a trace -/

/-- Run the actions of a trace.  The result is the state the actions leave, and
the fault that stopped them, if any. -/
def runActions : Trace RuleName → State q → State q × Option Fault
  | [], s => (s, none)
  | (rule, text) :: trace, s =>
      match apply rule text s with
      | .ok s' => runActions trace s'
      | .error fault => (s, some fault)

@[simp] theorem runActions_nil (s : State q) : runActions [] s = (s, none) := rfl

theorem runActions_cons_ok {rule : RuleName} {text : Bytes} {trace : Trace RuleName}
    {s s' : State q} (h : apply rule text s = .ok s') :
    runActions ((rule, text) :: trace) s = runActions trace s' := by
  simp [runActions, h]

theorem runActions_cons_error {rule : RuleName} {text : Bytes} {trace : Trace RuleName}
    {s : State q} {fault : Fault} (h : apply rule text s = .error fault) :
    runActions ((rule, text) :: trace) s = (s, some fault) := by
  simp [runActions, h]

/-- Running two traces after one another. -/
theorem runActions_append (t₁ t₂ : Trace RuleName) (s : State q) :
    runActions (t₁ ++ t₂) s =
      match runActions t₁ s with
      | (s', none) => runActions t₂ s'
      | (s', some fault) => (s', some fault) := by
  induction t₁ generalizing s with
  | nil => rfl
  | cons entry t₁ ih =>
      obtain ⟨rule, text⟩ := entry
      cases happly : apply rule text s with
      | ok s' => rw [List.cons_append, runActions_cons_ok happly, runActions_cons_ok happly, ih]
      | error fault =>
          rw [List.cons_append, runActions_cons_error happly, runActions_cons_error happly]

/-- The state between two traces, when no action throws. -/
theorem runActions_append_inv {t₁ t₂ : Trace RuleName} {s s' : State q}
    (h : runActions (t₁ ++ t₂) s = (s', none)) :
    ∃ s₁, runActions t₁ s = (s₁, none) ∧ runActions t₂ s₁ = (s', none) := by
  rw [runActions_append] at h
  split at h
  · rename_i s₁ hfirst
    exact ⟨s₁, hfirst, h⟩
  · cases h

/-- The first action of a run that does not throw. -/
theorem runActions_cons_inv {rule : RuleName} {text : Bytes}
    {trace : Trace RuleName} {s s' : State q}
    (h : runActions ((rule, text) :: trace) s = (s', none)) :
    ∃ s₁, apply rule text s = .ok s₁ ∧ runActions trace s₁ = (s', none) := by
  cases happly : apply rule text s with
  | error fault =>
      rw [runActions_cons_error happly, Prod.mk.injEq] at h
      exact absurd h.2 (by simp)
  | ok s₁ =>
      rw [runActions_cons_ok happly] at h
      exact ⟨s₁, rfl, h⟩

/-- What holds of the trace so far and the state, and is kept by every action, holds
after a run. -/
theorem runActions_induction {P : Trace RuleName → State q → Prop} {s : State q}
    (hstart : P [] s)
    (hstep : ∀ before rule text t t', P before t → apply rule text t = .ok t' →
      P (before ++ [(rule, text)]) t')
    {trace : Trace RuleName} {s' : State q} (h : runActions trace s = (s', none)) :
    P trace s' := by
  suffices hfrom : ∀ before t, P before t → runActions trace t = (s', none) →
      P (before ++ trace) s' from hfrom [] s hstart h
  clear h
  induction trace with
  | nil =>
      intro before t ht h
      rw [runActions_nil, Prod.mk.injEq] at h
      rw [← h.1, List.append_nil]
      exact ht
  | cons entry trace ih =>
      intro before t ht h
      obtain ⟨rule, text⟩ := entry
      obtain ⟨t', happly, hrest⟩ := runActions_cons_inv h
      have hnext := ih _ t' (hstep before rule text t t' ht happly) hrest
      rw [List.append_assoc] at hnext
      exact hnext

/-! ## Parsing a document -/

/-- The state a parser starts in: the given prefixes and default values. -/
def initialState (q : Bool) (prefixMap : PrefixMap) : State q := { prefixMap := prefixMap }

/-- A parse of a document: how matching ends, the state the actions leave and the
fault that stopped them. -/
structure Parse (q : Bool) where
  outcome : Outcome
  final : State q
  fault : Option Fault

/-- The parse ends with an exception: a `parse_error` or one thrown by an action.
The Boolean result of `tao::pegtl::parse` is not looked at. -/
def Parse.throws (p : Parse q) : Prop := p.outcome = .error ∨ p.fault ≠ none

instance (p : Parse q) : Decidable p.throws :=
  inferInstanceAs (Decidable (p.outcome = .error ∨ p.fault ≠ none))

/-- `tao::pegtl::parse<grammar<q>, action>` on a document. -/
def Parses (prefixMap : PrefixMap) (document : Bytes) (p : Parse q) : Prop :=
  ∃ trace, Run turtle (.ref (.grammar q)) document p.outcome trace ∧
    runActions trace (initialState q prefixMap) = (p.final, p.fault)

/-- The parser's constructor accepts the document and leaves this state. -/
def Accepts (prefixMap : PrefixMap) (document : Bytes) (final : State q) : Prop :=
  ∃ outcome, outcome ≠ .error ∧ Parses prefixMap document ⟨outcome, final, none⟩

/-- A document has at most one parse. -/
theorem Parses.unique {prefixMap : PrefixMap} {document : Bytes} {p₁ p₂ : Parse q}
    (h₁ : Parses prefixMap document p₁) (h₂ : Parses prefixMap document p₂) : p₁ = p₂ := by
  obtain ⟨t₁, hrun₁, hact₁⟩ := h₁
  obtain ⟨t₂, hrun₂, hact₂⟩ := h₂
  obtain ⟨houtcome, rfl⟩ := hrun₁.deterministic hrun₂
  rw [hact₁] at hact₂
  cases p₁
  cases p₂
  simp_all

/-- The parse of a document, computed with a bound on the depth of the match. -/
def parseWithin (fuel : Nat) (prefixMap : PrefixMap) (document : Bytes) : Option (Parse q) :=
  (exec turtle fuel (.ref (.grammar q)) document).map fun (outcome, trace) =>
    let (final, fault) := runActions trace (initialState q prefixMap)
    ⟨outcome, final, fault⟩

theorem parseWithin_sound {fuel : Nat} {prefixMap : PrefixMap} {document : Bytes}
    {p : Parse q} (h : parseWithin fuel prefixMap document = some p) :
    Parses prefixMap document p := by
  simp only [parseWithin, Option.map_eq_some_iff, Prod.exists] at h
  obtain ⟨outcome, trace, hexec, rfl⟩ := h
  exact ⟨trace, exec_sound fuel hexec, rfl⟩

/-- The calls of a computed parse, and whether it throws. -/
theorem parseWithin_signals {fuel : Nat} {prefixMap : PrefixMap} {document : Bytes}
    {throws : Bool} {signals : List (Signal (Triple q))}
    (h : (parseWithin (q := q) fuel prefixMap document).map
      (fun p => (decide p.throws, p.final.signals)) = some (throws, signals)) :
    ∃ p : Parse q, Parses prefixMap document p ∧ decide p.throws = throws ∧
      p.final.signals = signals := by
  rw [Option.map_eq_some_iff] at h
  obtain ⟨p, hp, hsummary⟩ := h
  rw [Prod.mk.injEq] at hsummary
  exact ⟨p, parseWithin_sound hp, hsummary.1, hsummary.2⟩

end RdfParser.Turtle
