/-
  Turtle/Validity.lean --- the validity check and the parser.

  Sources: `TurtleStringParser.hpp`, `internal/Turtle/Parsers/BaseStringParser.hpp`.

  `isParsable` runs the bare grammar, the constructor runs it with the actions.  The
  actions add four ways to fail: an unknown prefix, the empty reference under a base,
  and directives in whose text the program does not find its words.
-/
import RdfParser.Turtle.BaseResolution
import RdfParser.Turtle.Spelling
import RdfParser.Turtle.Stacks
import RdfParser.Turtle.Totality

set_option autoImplicit false

namespace RdfParser.Turtle

open RdfParser.Foundation RdfParser.Rdf RdfParser.Peg RdfParser.Peg.Rule

variable {q : Bool}

/-! ## The two entry points -/

/-- `TurtleStringParser::isParsable` returns true: the bare grammar throws no
`parse_error`. -/
def IsParsable (text : Bytes) : Prop :=
  ∃ outcome trace, Run turtle (.ref (.grammar false)) text outcome trace ∧ outcome ≠ .error

/-- The constructor of `TurtleStringParser` does not throw. -/
def Constructs (text : Bytes) : Prop := ∃ final : State false, Accepts [] text final

/-! ## What the actions ask for -/

/-- In the text of a prefix directive there is a second word, and a third one of at least
two bytes. -/
def PrefixWords (text : Bytes) : Prop :=
  let name := extractWord (extractWord text).2
  name.1 ≠ [] ∧ (extractWord name.2).1.tail ≠ []

/-- In the text of a base directive there is a second word of at least two bytes. -/
def BaseWords (text : Bytes) : Prop := (extractWord (extractWord text).2).1.tail ≠ []

/-- The action of the rule finds what it looks for in the text and in the state. -/
def EntryResolves (prefixMap : PrefixMap) (base : Bytes) : RuleName → Bytes → Prop
  | .prefixedName, name => (prefixMap.find (beforeColon name)).isSome = true
  | .iriref, text => base = [] ∨ text ≠ irirefToken []
  | .prefixID, text | .sparqlPrefix, text => PrefixWords text
  | .base, text | .sparqlBase, text => BaseWords text
  | _, _ => True

/-- All actions of the trace find what they look for: the prefixes and the base are those
of the directives before. -/
def Resolves (initial : PrefixMap) (trace : Trace RuleName) : Prop :=
  ∀ before name text after, trace = before ++ (name, text) :: after →
    EntryResolves (initial.emplaceAll (declarations before)) ((bases before).getLast?.getD [])
      name text

/-! ## The actions throw nowhere else -/

theorem prefixArguments_ok_iff (text : Bytes) :
    (∃ arguments, prefixArguments text = .ok arguments) ↔ PrefixWords text := by
  rw [prefixArguments_eq]
  simp only [PrefixWords]
  split
  · rename_i h
    refine iff_of_false (by simp) ?_
    rintro ⟨hname, hvalue⟩
    rcases h with h | h
    · exact hname h
    · exact hvalue h
  · rename_i h
    exact iff_of_true ⟨_, rfl⟩ (not_or.mp h)

theorem baseArgument_ok_iff (text : Bytes) :
    (∃ value, baseArgument text = .ok value) ↔ BaseWords text := by
  rw [baseArgument_eq]
  simp only [BaseWords]
  split
  · rename_i h
    exact iff_of_false (by simp) (not_not_intro h)
  · rename_i h
    exact iff_of_true ⟨_, rfl⟩ h

/-- An action of the term level throws if it does on the term level of the state. -/
theorem State.lift_ok_iff {action : BasicState q → Except Fault (BasicState q)} {s : State q} :
    (∃ s', s.lift action = .ok s') ↔ ∃ basic, action s.toBasicState = .ok basic := by
  unfold State.lift
  cases action s.toBasicState <;> simp [Except.map]

theorem rdfLiteralTypeTag_shape {text : Bytes} (h : Matches turtle .rdfLiteralTypeTag text) :
    3 ≤ text.length := by
  obtain ⟨rest, trace, hrun⟩ := h
  obtain ⟨_, hbody, -⟩ := hrun.ref_ok
  obtain ⟨middle, _, _, hcarets, hiri, -⟩ := hbody.seq_ok
  obtain ⟨hinput, -⟩ := Run.string_iff.mp hcarets
  have hshorter := hiri.consumes consuming_closed rfl
  have hlength := congrArg List.length hinput
  simp only [List.length_append] at hlength
  have hcarets : (bytes "^^").length = 2 := rfl
  omega

theorem Action.rdfLiteral_ok (text : Bytes) (s : BasicState q) :
    ∃ basic, Action.rdfLiteral text s = .ok basic := by
  unfold Action.rdfLiteral
  repeat' split
  all_goals exact ⟨_, rfl⟩

theorem Action.rdfLiteralTypeTag_ok_of_length {text : Bytes} (h : 3 ≤ text.length)
    (s : BasicState q) : ∃ basic, Action.rdfLiteralTypeTag text s = .ok basic := by
  have hlong : ¬ text.length < 3 := by omega
  have hshort : ¬ text.length < 2 := by omega
  cases hiriref : s.iriIsIriref <;>
    simp [Action.rdfLiteralTypeTag, hiriref, substr, hlong, hshort, bind, Except.bind, pure,
      Except.pure]

/-- The action of an IRI goes through exactly when the IRI resolves. -/
theorem IriLeaf.action_ok_iff {i : IriLeaf} (hi : i.WellFormed) (s : BasicState q) :
    (∃ basic, i.action s = .ok basic) ↔ i.Resolves s.prefixMap s.base := by
  rw [← i.uri_ok_iff hi]
  unfold IriLeaf.action
  cases i.uri s.prefixMap s.base <;> simp [Except.map]

/-- The action of a match goes through exactly when it finds what it looks for. -/
theorem apply_ok_iff {name : RuleName} {text : Bytes} (hmatches : Matches turtle name text)
    (hpop : popping name = false) (s : State q) :
    (∃ s', apply name text s = .ok s') ↔ EntryResolves s.prefixMap s.base name text := by
  cases name
  case prefixID | sparqlPrefix =>
    refine State.lift_ok_iff.trans (Iff.trans ?_ (prefixArguments_ok_iff text))
    simp only [Action.prefixID, Action.sparqlPrefix]
    cases prefixArguments text <;> simp [bind, Except.bind, pure, Except.pure]
  case base | sparqlBase =>
    refine State.lift_ok_iff.trans (Iff.trans ?_ (baseArgument_ok_iff text))
    simp only [Action.base, Action.sparqlBase]
    cases baseArgument text <;> simp [bind, Except.bind, pure, Except.pure]
  case iriref =>
    refine State.lift_ok_iff.trans ?_
    rw [Action.iriref_eq]
    exact IriLeaf.action_ok_iff (i := .iriref text) hmatches s.toBasicState
  case prefixedName =>
    refine State.lift_ok_iff.trans ?_
    rw [Action.prefixedName_eq]
    exact IriLeaf.action_ok_iff (i := .prefixedName text) hmatches s.toBasicState
  case rdfLiteral => exact iff_of_true (State.lift_ok_iff.mpr (Action.rdfLiteral_ok text _)) trivial
  case rdfLiteralTypeTag =>
    exact iff_of_true (State.lift_ok_iff.mpr (Action.rdfLiteralTypeTag_ok_of_length
      (rdfLiteralTypeTag_shape hmatches) _)) trivial
  case langtag =>
    obtain ⟨tag, rfl⟩ := langtag_shape hmatches
    refine iff_of_true (State.lift_ok_iff.mpr ?_) trivial
    simp only [Action.langtag, langtag_tag]
    exact ⟨_, rfl⟩
  case turtleString =>
    obtain ⟨quote, body, -, rfl⟩ := turtleString_shape hmatches
    refine iff_of_true (State.lift_ok_iff.mpr ?_) trivial
    simp only [Action.turtleString, turtleString_body]
    exact ⟨_, rfl⟩
  case blankNodeLabel =>
    obtain ⟨label, rfl⟩ := blankNodeLabel_shape hmatches
    refine iff_of_true (State.lift_ok_iff.mpr ?_) trivial
    simp only [Action.blankNodeLabel, blankNodeLabel_element]
    exact ⟨_, rfl⟩
  case var =>
    obtain ⟨sigil, varName, -, rfl⟩ := var_shape hmatches
    refine iff_of_true (State.lift_ok_iff.mpr ?_) trivial
    cases q with
    | false => exact ⟨_, rfl⟩
    | true =>
        simp only [Action.var, var_name]
        exact ⟨_, rfl⟩
  case predicateObjectListInner | collection | blankNodePropertyList =>
    exact absurd hpop.symm Bool.false_ne_true
  all_goals exact iff_of_true ⟨_, rfl⟩ trivial

/-- If an action throws, the ones before it went through. -/
theorem runActions_fault {trace : Trace RuleName} {s s' : State q} {fault : Fault}
    (h : runActions trace s = (s', some fault)) :
    ∃ before name text after, trace = before ++ (name, text) :: after ∧
      runActions before s = (s', none) ∧ apply name text s' = .error fault := by
  induction trace generalizing s with
  | nil => cases h
  | cons entry trace ih =>
      obtain ⟨name, text⟩ := entry
      cases happly : apply name text s with
      | error fault' =>
          rw [runActions_cons_error happly] at h
          cases h
          exact ⟨[], name, text, trace, rfl, rfl, happly⟩
      | ok s₁ =>
          rw [runActions_cons_ok happly] at h
          obtain ⟨before, name', text', after, rfl, hbefore, hfault⟩ := ih h
          refine ⟨(name, text) :: before, name', text', after, rfl, ?_, hfault⟩
          rw [runActions_cons_ok happly]
          exact hbefore

/-- The actions of a match go through exactly when each of them finds what it looks
for. -/
theorem runActions_ok_iff {rule : Rule RuleName} {input : Bytes} {outcome : Outcome}
    {trace : Trace RuleName} (h : Run turtle rule input outcome trace) (initial : PrefixMap) :
    (runActions trace (initialState q initial)).2 = none ↔ Resolves initial trace := by
  constructor
  · intro hnone before name text after htrace
    have hmatches : Matches turtle name text := h.trace_matches (name, text) (by simp [htrace])
    have hrun : runActions trace (initialState q initial) =
        ((runActions trace (initialState q initial)).1, none) := Prod.ext rfl hnone
    rw [htrace] at hrun
    obtain ⟨s, hbefore, hrest⟩ := runActions_append_inv hrun
    obtain ⟨s', happly, -⟩ := runActions_cons_inv hrest
    have hmap := runActions_prefixMap hbefore
    have hbase := runActions_base hbefore
    cases hpop : popping name with
    | false =>
        have hresolves := (apply_ok_iff hmatches hpop s).mp ⟨s', happly⟩
        rwa [hmap, hbase] at hresolves
    | true => cases name <;> trivial
  · intro hresolves
    cases hfault : (runActions trace (initialState q initial)).2 with
    | none => rfl
    | some fault =>
        exfalso
        have hrun : runActions trace (initialState q initial) =
            ((runActions trace (initialState q initial)).1, some fault) := Prod.ext rfl hfault
        obtain ⟨before, name, text, after, htrace, hbefore, happly⟩ := runActions_fault hrun
        have hmatches : Matches turtle name text := h.trace_matches (name, text) (by simp [htrace])
        cases hpop : popping name with
        | true =>
            have hempty := (run_stacks h (initialState q initial)).fault
            rw [hfault, popping_fault happly hpop] at hempty
            exact hempty rfl
        | false =>
            have hmap := runActions_prefixMap hbefore
            have hbase := runActions_base hbefore
            have hentry := hresolves before name text after htrace
            obtain ⟨s₁, hok⟩ :=
              (apply_ok_iff hmatches hpop _).mpr (by rw [hmap, hbase]; exact hentry)
            rw [happly] at hok
            cases hok

/-! ## The check and the constructor -/

/-- The check agrees with the constructor on exactly the texts that the grammar rejects
and those in whose match every action finds what it looks for. -/
theorem isParsable_agrees_iff (text : Bytes) :
    (IsParsable text ↔ Constructs text) ↔
      ∀ outcome trace, Run turtle (.ref (.grammar false)) text outcome trace →
        outcome ≠ .error → Resolves [] trace := by
  obtain ⟨outcome, trace, hrun⟩ := matching_ends (.grammar false) text
  have honly : ∀ {outcome' trace'}, Run turtle (.ref (.grammar false)) text outcome' trace' →
      outcome' = outcome ∧ trace' = trace := fun h => h.deterministic hrun
  have hparsable : IsParsable text ↔ outcome ≠ .error := by
    constructor
    · rintro ⟨outcome', trace', hrun', hne⟩
      rwa [(honly hrun').1] at hne
    · intro hne
      exact ⟨outcome, trace, hrun, hne⟩
  have hconstructs : Constructs text ↔ outcome ≠ .error ∧ Resolves [] trace := by
    rw [← runActions_ok_iff (q := false) hrun]
    constructor
    · rintro ⟨final, outcome', hne, trace', hrun', hactions⟩
      obtain ⟨rfl, rfl⟩ := honly hrun'
      exact ⟨hne, by rw [hactions]⟩
    · rintro ⟨hne, hnone⟩
      exact ⟨_, outcome, hne, trace, hrun, Prod.ext rfl hnone⟩
  rw [hparsable, hconstructs]
  constructor
  · intro hagree outcome' trace' hrun' hne
    obtain ⟨rfl, rfl⟩ := honly hrun'
    exact (hagree.mp hne).2
  · intro hresolves
    exact ⟨fun hne => ⟨hne, hresolves outcome trace hrun hne⟩, And.left⟩

/-- A document with a prefix that no directive declares. -/
def undeclaredPrefix : Bytes := bytes "p:s <p> <o> ."

theorem undeclaredPrefix_disagrees : ¬ ∀ text, IsParsable text ↔ Constructs text := by
  intro hclaim
  have hcomputed : (parseWithin (q := false) 60 [] undeclaredPrefix).map (fun p =>
      decide (p.outcome ≠ .error ∧ p.fault ≠ none)) = some true := by
    decide +kernel
  rw [Option.map_eq_some_iff] at hcomputed
  obtain ⟨p, hparse, hsummary⟩ := hcomputed
  obtain ⟨houtcome, hfault⟩ := of_decide_eq_true hsummary
  have hp := parseWithin_sound hparse
  have hgrammar := hp
  obtain ⟨trace, hrun, -⟩ := hgrammar
  obtain ⟨final, outcome, -, haccepts⟩ := (hclaim undeclaredPrefix).mp ⟨_, trace, hrun, houtcome⟩
  have hsame := hp.unique haccepts
  exact hfault (congrArg Parse.fault hsame)

/-! ## Documents without statements

The second alternative of `grammar` reads them, but `must` has turned the failure of the
first one into an exception. -/

/-- A text of white space and comments, up to its end. -/
def LayoutOnly (text : Bytes) : Prop :=
  ∃ trace, Run turtle (.ref .ignored) text (.ok []) trace

/-- `turtleDoc` does not match layout: behind it there is no statement. -/
theorem LayoutOnly.turtleDoc_fails {text : Bytes} (h : LayoutOnly text) {outcome : Outcome}
    {trace : Trace RuleName} (hdoc : Run turtle (.ref .turtleDoc) text outcome trace) :
    ∀ rest, outcome ≠ .ok rest := by
  rintro rest rfl
  obtain ⟨_, hlayout⟩ := h
  obtain ⟨_, hbody, -⟩ := hdoc.ref_ok
  obtain ⟨_, _, _, hplus, -, -⟩ := hbody.seq_ok
  obtain ⟨_, _, _, hfirst, -, -⟩ := hplus.seq_ok
  obtain ⟨middle, _, _, hignored, hstatement, -⟩ := hfirst.seq_ok
  obtain ⟨hsame, -⟩ := hignored.deterministic hlayout
  obtain rfl : middle = [] := Outcome.ok.inj hsame
  have hshorter := hstatement.consumes consuming_closed rfl
  exact absurd hshorter (Nat.not_lt_zero _)

theorem LayoutOnly.grammar_errors {text : Bytes} (h : LayoutOnly text) {outcome : Outcome}
    {trace : Trace RuleName} (hrun : Run turtle (.ref (.grammar false)) text outcome trace) :
    outcome = .error := by
  obtain ⟨inner, _, hdoc, rfl, -⟩ := grammar_run hrun
  cases inner with
  | ok rest => exact absurd rfl (h.turtleDoc_fails hdoc rest)
  | fail => rfl
  | error => rfl

theorem LayoutOnly.not_parsable {text : Bytes} (h : LayoutOnly text) : ¬ IsParsable text := by
  rintro ⟨outcome, trace, hrun, hne⟩
  exact hne (h.grammar_errors hrun)

/-- Neither entry point takes a document without statements. -/
theorem layoutOnly_rejected {text : Bytes} (h : LayoutOnly text) :
    ¬ IsParsable text ∧ ∀ prefixMap, ¬ ∃ final : State false, Accepts prefixMap text final := by
  refine ⟨h.not_parsable, ?_⟩
  rintro prefixMap ⟨final, outcome, hne, trace, hrun, -⟩
  exact hne (h.grammar_errors hrun)

/-- White space and a comment. -/
def commentDocument : Bytes := bytes " #c\n"

theorem commentDocument_layoutOnly : LayoutOnly commentDocument :=
  ⟨_, exec_sound 12 rfl⟩

theorem commentDocument_rejected : ¬ IsParsable commentDocument ∧
    ∀ prefixMap, ¬ ∃ final : State false, Accepts prefixMap commentDocument final :=
  layoutOnly_rejected commentDocument_layoutOnly

theorem emptyDocument_layoutOnly : LayoutOnly [] :=
  ⟨_, exec_sound 8 rfl⟩

theorem emptyDocument_not_accepted : ¬ ∀ text, LayoutOnly text →
    IsParsable text ∧ ∃ final : State false, Accepts [] text final ∧ final.inserted = [] := by
  intro hclaim
  exact emptyDocument_layoutOnly.not_parsable (hclaim [] emptyDocument_layoutOnly).1

end RdfParser.Turtle
