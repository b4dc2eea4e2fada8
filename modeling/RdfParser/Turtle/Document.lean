/-
  Turtle/Document.lean --- the calls to the derived class that a whole document
  makes.

  `setParsingIsDone` is called by the action of `turtleDoc`, which is attached
  inside `must<turtleDoc, eof>`: it is the last call of a document, and it is made
  as soon as `turtleDoc` has matched a prefix of the document.
-/
import RdfParser.Turtle.Actions

set_option autoImplicit false

namespace RdfParser.Turtle

open RdfParser.Foundation RdfParser.Rdf RdfParser.Peg

variable {q : Bool}

/-! ## The calls of an action -/

theorem State.lift_signals {action : BasicState q → Except Fault (BasicState q)}
    {s s' : State q} (h : s.lift action = .ok s') : s'.signals = s.signals := by
  unfold State.lift at h
  cases haction : action s.toBasicState with
  | error fault => simp [haction, Except.map] at h
  | ok basic =>
      simp only [haction, Except.map, Except.ok.injEq] at h
      rw [← h]

/-- Signals that only add to earlier ones, none of them `setParsingIsDone`. -/
def State.Extends (s s' : State q) : Prop :=
  ∃ calls, s'.signals = s.signals ++ calls ∧ .setParsingIsDone ∉ calls

theorem State.Extends.of_eq {s s' : State q} (h : s'.signals = s.signals) : s.Extends s' :=
  ⟨[], by simp [h], by simp⟩

theorem State.Extends.trans {s s' s'' : State q} (h : s.Extends s') (h' : s'.Extends s'') :
    s.Extends s'' := by
  obtain ⟨calls, hcalls, hnone⟩ := h
  obtain ⟨calls', hcalls', hnone'⟩ := h'
  refine ⟨calls ++ calls', by rw [hcalls', hcalls, List.append_assoc], ?_⟩
  simp [hnone, hnone']

theorem State.extends_insert (ts : List (Triple q)) (s : State q) :
    s.Extends (ts.foldl State.insertTriple s) := by
  rw [State.foldl_insertTriple]
  exact ⟨ts.map .insertTriple, rfl, by simp⟩

theorem State.processCollection_extends {s s' : State q} (h : s.processCollection = .ok s') :
    s.Extends s' := by
  unfold State.processCollection at h
  simp only at h
  have hinsert := State.extends_insert s.collectionCells.2
    { s with toBasicState := s.collectionCells.1 }
  split at h
  · cases h
  · cases h
    exact hinsert

theorem State.processBlankNodePropertyList_extends {s s' : State q}
    (h : s.processBlankNodePropertyList = .ok s') : s.Extends s' := by
  unfold State.processBlankNodePropertyList at h
  simp only [State.foldl_insertTriple] at h
  split at h
  · cases h
  · cases h
    refine ⟨(s.verbObjectPairList.map (tripleOf (unlabeledNode q s.latestBNLabel))).map
      .insertTriple, ?_, by simp⟩
    split <;> rfl

theorem State.processPredicateObjectListInner_extends {s s' : State q}
    (h : s.processPredicateObjectListInner = .ok s') : s.Extends s' := by
  unfold State.processPredicateObjectListInner at h
  split at h
  · cases h
  · cases h
    exact State.Extends.of_eq rfl

theorem State.processVerb_signals (s : State q) : s.processVerb.signals = s.signals := by
  unfold State.processVerb
  simp only
  split <;> rfl

theorem State.processTripleSeq_extends (s : State q) : s.Extends s.processTripleSeq :=
  State.extends_insert _ s

theorem State.syncWithMainThread_extends (s : State q) : s.Extends s.syncWithMainThread :=
  ⟨[.syncWithMainThread], rfl, by simp⟩

/-- Only `action<turtleDoc>` calls `setParsingIsDone`. -/
theorem apply_extends {rule : RuleName} {text : Bytes} {s s' : State q}
    (h : apply rule text s = .ok s') (hrule : rule ≠ .turtleDoc) : s.Extends s' := by
  unfold apply at h
  split at h
  -- the term level does not call the derived class at all
  all_goals first
    | exact State.Extends.of_eq (State.lift_signals h)
    | exact State.processCollection_extends h
    | exact State.processBlankNodePropertyList_extends h
    | exact State.processPredicateObjectListInner_extends h
    | rw [Except.ok.injEq] at h
      subst h
  all_goals first
    | exact State.Extends.of_eq rfl
    | exact State.Extends.of_eq s.processVerb_signals
    | exact s.syncWithMainThread_extends
    | exact State.processTripleSeq_extends _
    | exact absurd rfl hrule

theorem runActions_extends {trace : Trace RuleName} (s : State q)
    (htrace : ∀ entry ∈ trace, entry.1 ≠ .turtleDoc) :
    s.Extends (runActions trace s).1 := by
  induction trace generalizing s with
  | nil => exact State.Extends.of_eq rfl
  | cons entry trace ih =>
      obtain ⟨rule, text⟩ := entry
      have hrule : rule ≠ .turtleDoc := htrace (rule, text) (by simp)
      cases happly : apply rule text s with
      | error fault =>
          rw [runActions_cons_error happly]
          exact State.Extends.of_eq rfl
      | ok s' =>
          rw [runActions_cons_ok happly]
          refine (apply_extends happly hrule).trans (ih s' ?_)
          intro entry hentry
          exact htrace entry (List.mem_cons_of_mem _ hentry)

/-! ## The run of a document -/

/-- Only `grammar` refers to `turtleDoc`, and nothing refers to `grammar`. -/
theorem turtle_names (name : RuleName) (hname : name ≠ .turtleDoc ∧ ∀ q, name ≠ .grammar q) :
    ∀ other ∈ (turtle name).names, other ≠ .turtleDoc ∧ ∀ q, other ≠ .grammar q := by
  obtain ⟨hdoc, hgrammar⟩ := hname
  cases name
  case turtleDoc => exact absurd rfl hdoc
  case grammar q => exact absurd rfl (hgrammar q)
  all_goals first
    | decide
    | rename_i sparqlQuery
      cases sparqlQuery <;> decide

/-- What a document repeats: layout and a statement. -/
abbrev iteration : Rule RuleName := .seq (.ref .ignored) (.ref .statement)

/-- The action of `turtleDoc` comes after all others of its match. -/
theorem turtleDoc_run {input : Bytes} {outcome : Outcome} {trace : Trace RuleName}
    (h : Run turtle (.ref .turtleDoc) input outcome trace) :
    ∃ before, trace = before ++ closing .turtleDoc input outcome ∧
      ∀ entry ∈ before, entry.1 ≠ .turtleDoc := by
  cases h with
  | @ref _ _ _ before h =>
      refine ⟨before, rfl, ?_⟩
      intro entry hentry
      exact (h.trace_names turtle_names (by decide) entry hentry).1

/-- How `must<turtleDoc, eof>` ends, given how `turtleDoc` ends; so does a triples block. -/
def documentOutcome : Outcome → Outcome
  | .ok [] => .ok []
  | _ => .error

theorem documentOutcome_ok {inner : Outcome} (h : documentOutcome inner ≠ .error) :
    inner = .ok [] := by
  unfold documentOutcome at h
  split at h
  · rfl
  · exact absurd rfl h

/-- `must<turtleDoc, eof>` and `must<triplesBlock, eof>` as sequences. -/
theorem must_document_run {name : RuleName} {document : Bytes} {outcome : Outcome}
    {trace : Trace RuleName}
    (h : Run turtle (.seq (.must (.ref name)) (.must .eof)) document outcome trace) :
    ∃ inner, Run turtle (.ref name) document inner trace ∧ outcome = documentOutcome inner := by
  cases h with
  | seqNext h₁ h₂ =>
      obtain ⟨inner, hinner, hrun⟩ := h₁.must_inv
      obtain ⟨last, hlast, heof⟩ := h₂.must_inv
      obtain ⟨rfl, rfl⟩ := heof.eof_inv
      rw [List.append_nil]
      refine ⟨inner, hrun, ?_⟩
      cases inner with
      | fail => simp at hinner
      | error => simp at hinner
      | ok rest =>
          simp only [Outcome.escalate_ok, Outcome.ok.injEq] at hinner
          rw [hlast, hinner]
          cases rest <;> rfl
  | seqStop h hstop =>
      obtain ⟨inner, rfl, hrun⟩ := h.must_inv
      refine ⟨inner, hrun, ?_⟩
      cases inner with
      | fail => rfl
      | error => rfl
      | ok rest => exact absurd rfl (hstop rest)

/-- Matching a document means matching `turtleDoc` and then looking for the end;
the second alternative of `grammar` is never tried. -/
theorem grammar_run {document : Bytes} {outcome : Outcome} {trace : Trace RuleName}
    (h : Run turtle (.ref (.grammar false)) document outcome trace) :
    ∃ inner before, Run turtle (.ref .turtleDoc) document inner before ∧
      outcome = documentOutcome inner ∧
      trace = before ++ closing (.grammar false) document outcome := by
  cases h with
  | ref h =>
      have hbody : turtle (.grammar false) =
          .sor (.seq (.must (.ref .turtleDoc)) (.must .eof)) (.seq (.ref .ignored) .eof) := rfl
      rw [hbody] at h
      cases h with
      | sorStop h _ =>
          obtain ⟨inner, hrun, houtcome⟩ := must_document_run h
          exact ⟨inner, _, hrun, houtcome, rfl⟩
      | sorNext h _ =>
          obtain ⟨inner, -, houtcome⟩ := must_document_run h
          exfalso
          unfold documentOutcome at houtcome
          split at houtcome <;> cases houtcome

/-- An accepted document is a repetition of statements, and layout. -/
theorem Accepts.parts {prefixMap : PrefixMap} {document : Bytes} {final : State false}
    (h : Accepts prefixMap document final) :
    ∃ last all t, Run turtle (.plus iteration) document (.ok last) all ∧
      Run turtle (.ref .ignored) last (.ok []) t ∧
      runActions (all ++ t ++ closing .turtleDoc document (.ok []) ++
        closing (.grammar false) document (.ok [])) (initialState false prefixMap) =
        (final, none) := by
  obtain ⟨outcome, hne, trace, hrun, hact⟩ := h
  obtain ⟨inner, before, hdoc, rfl, rfl⟩ := grammar_run hrun
  obtain rfl := documentOutcome_ok hne
  obtain ⟨t, hbody, rfl⟩ := hdoc.ref_ok
  obtain ⟨last, all, t', hplus, hignored, rfl⟩ := hbody.seq_ok
  exact ⟨last, all, t', hplus, hignored, hact⟩

/-! ## The calls of a document -/

/-- `turtleDoc` matches a prefix of the document and no action throws before the
match is complete. -/
def DocMatched (prefixMap : PrefixMap) (document : Bytes) : Prop :=
  ∃ rest trace, Run turtle (.ref .turtleDoc) document (.ok rest) trace ∧
    (runActions trace (initialState false prefixMap)).2 = none

theorem docMatched_iff {prefixMap : PrefixMap} {document : Bytes} {inner : Outcome}
    {trace : Trace RuleName} (h : Run turtle (.ref .turtleDoc) document inner trace) :
    DocMatched prefixMap document ↔
      (∃ rest, inner = .ok rest) ∧ (runActions trace (initialState false prefixMap)).2 = none := by
  constructor
  · intro ⟨rest, trace', hrun, hnone⟩
    obtain ⟨rfl, rfl⟩ := h.deterministic hrun
    exact ⟨⟨rest, rfl⟩, hnone⟩
  · intro ⟨⟨rest, hrest⟩, hnone⟩
    rw [hrest] at h
    exact ⟨rest, trace, h, hnone⟩

/-- The rule `grammar` has no action. -/
theorem runActions_grammar (document : Bytes) (outcome : Outcome) (s : State false) :
    runActions (closing (.grammar false) document outcome) s = (s, none) := by
  cases outcome <;> rfl

/-- The calls of a document: `setParsingIsDone` is the last one if `turtleDoc`
matches, and is not made otherwise. -/
theorem Parses.signals {prefixMap : PrefixMap} {document : Bytes} {p : Parse false}
    (h : Parses prefixMap document p) :
    DocMatched prefixMap document ∧
        (∃ calls, .setParsingIsDone ∉ calls ∧ p.final.signals = calls ++ [.setParsingIsDone]) ∨
      ¬ DocMatched prefixMap document ∧ .setParsingIsDone ∉ p.final.signals := by
  obtain ⟨trace, hrun, hact⟩ := h
  obtain ⟨inner, before, hdoc, houtcome, rfl⟩ := grammar_run hrun
  obtain ⟨early, hbefore, hearly⟩ := turtleDoc_run hdoc
  obtain ⟨calls, hcalls, hnone⟩ := runActions_extends (initialState false prefixMap) hearly
  have hstart : (initialState false prefixMap).signals = [] := rfl
  rw [hstart, List.nil_append] at hcalls
  rw [docMatched_iff hdoc]
  rw [runActions_append] at hact
  rw [hbefore, runActions_append] at hact ⊢
  generalize runActions early (initialState false prefixMap) = result at *
  obtain ⟨s, fault⟩ := result
  simp only at hcalls hact
  cases fault with
  | some fault =>
      -- an action inside `turtleDoc` throws
      refine .inr ⟨by simp, ?_⟩
      simp only [Prod.mk.injEq] at hact
      rw [← hact.1, hcalls]
      exact hnone
  | none =>
      cases inner with
      | ok rest =>
          refine .inl ⟨⟨⟨rest, rfl⟩, rfl⟩, calls, hnone, ?_⟩
          have hdone : runActions (closing .turtleDoc document (.ok rest)) s =
              (s.setParsingIsDone, none) := rfl
          simp only [hdone, runActions_grammar, Prod.mk.injEq] at hact
          rw [← hact.1, ← hcalls]
          rfl
      | fail =>
          refine .inr ⟨by simp, ?_⟩
          have hquiet : runActions (closing .turtleDoc document .fail) s = (s, none) := rfl
          simp only [hquiet, runActions_grammar, Prod.mk.injEq] at hact
          rw [← hact.1, hcalls]
          exact hnone
      | error =>
          refine .inr ⟨by simp, ?_⟩
          have hquiet : runActions (closing .turtleDoc document .error) s = (s, none) := rfl
          simp only [hquiet, runActions_grammar, Prod.mk.injEq] at hact
          rw [← hact.1, hcalls]
          exact hnone

end RdfParser.Turtle
