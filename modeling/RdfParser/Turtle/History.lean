/-
  Turtle/History.lean --- a term does not depend on what was read before it.

  The actions of one term pass things on to each other in fields of the state.  The two
  flags of a literal's tag are the only ones of these fields that are read before they
  are written, and both are lowered whenever no literal is being matched.  So the
  element a term stands for is a function of its spelling, the prefix map, the base and
  the label counter.
-/
import RdfParser.Peg.Moment
import RdfParser.Turtle.Frame
import RdfParser.Turtle.LeafEffect
import RdfParser.Turtle.Totality

set_option autoImplicit false

namespace RdfParser.Turtle

open RdfParser.Foundation RdfParser.Rdf RdfParser.Peg

variable {q : Bool}

/-! ## The flags of a literal -/

/-- The rules whose actions raise a flag. -/
def raising : RuleName → Bool
  | .langtag | .rdfLiteralTypeTag => true
  | _ => false

theorem BasicState.Settled.congr {s s' : BasicState q} (h : s.Settled)
    (htype : s'.typeTagFound = s.typeTagFound) (hlang : s'.langTagFound = s.langTagFound) :
    s'.Settled :=
  ⟨htype.trans h.typeTagFound, hlang.trans h.langTagFound⟩

/-- The action of a literal lowers the flag it has looked at. -/
theorem Action.rdfLiteral_settled {text : Bytes} {s s' : BasicState q} (hs : s.Settled)
    (h : Action.rdfLiteral text s = .ok s') : s'.Settled := by
  simp only [Action.rdfLiteral, hs.typeTagFound, hs.langTagFound, Bool.false_eq_true,
    if_false] at h
  cases h
  exact hs.congr rfl rfl

/-- No other action raises a flag. -/
theorem apply_settled {rule : RuleName} {text : Bytes} {s s' : State q} (hs : s.Settled)
    (h : apply rule text s = .ok s') (hrule : raising rule = false) : s'.Settled := by
  unfold apply at h
  split at h
  all_goals first
    | exact hs.congr (by rw [State.processPredicateObjectListInner_basic h])
        (by rw [State.processPredicateObjectListInner_basic h])
    | exact hs.congr (by rw [State.processCollection_basic h])
        (by rw [State.processCollection_basic h])
    | exact hs.congr (by rw [State.processBlankNodePropertyList_basic h])
        (by rw [State.processBlankNodePropertyList_basic h])
    | replace h := State.lift_ok h
    | rw [Except.ok.injEq] at h
      subst h
  all_goals first
    | exact hs
    | exact hs.congr (by rw [s.processVerb_basic]) (by rw [s.processVerb_basic])
    | exact hs.congr (congrArg BasicState.typeTagFound (State.processTripleSeq_basic _))
        (congrArg BasicState.langTagFound (State.processTripleSeq_basic _))
    | skip
  -- what is left are the actions of the term level
  all_goals generalize s'.toBasicState = basic at h ⊢
  case h_13 => exact Action.rdfLiteral_settled hs h
  case h_14 | h_15 => simp only [raising, reduceCtorEq] at hrule
  case h_20 =>
      cases q
      all_goals
        simp only [Action.var, bind, Except.bind, pure, Except.pure] at h
        repeat' split at h
      all_goals cases h
      all_goals exact hs.congr rfl rfl
  all_goals
    simp only [Action.base, Action.sparqlBase, Action.prefixID, Action.sparqlPrefix,
      Action.prefixedName, Action.iriref, Action.anon, Action.booleanLiteral, Action.double,
      Action.decimal, Action.integer, Action.numericLiteral, Action.turtleString,
      Action.blankNode, Action.verbA, Action.blankNodeLabel, bind, Except.bind, pure,
      Except.pure] at h
    repeat' split at h
  all_goals cases h
  all_goals exact hs.congr rfl rfl

/-! ## Runs -/

/-- The run of the actions of a term, when no action throws. -/
theorem SpellsTerm.reads {input rest : Bytes} {trace : Trace RuleName}
    (h : SpellsTerm input rest trace) {s s' : State q} (hs : s.Settled)
    (hrun : runActions trace s = (s', none)) : s'.Settled := by
  obtain ⟨leaf, hvar, -, -, hessence⟩ := h
  rw [runActions_eq_essence, hessence] at hrun
  obtain ⟨_, -, hreads⟩ := Leaf.runActions_inv hs (.inl hvar) hrun
  exact hreads.settled

/-- A failed attempt at one of the rules of terms leaves the state alone. -/
theorem fail_state {name : RuleName} (hname : retracting name = true) {input : Bytes}
    {trace : Trace RuleName} (h : Run turtle (.ref name) input .fail trace) (s : State q) :
    runActions trace s = (s, none) := by
  have hquiet : quietFailure false (.ref name) = true := by
    simp [quietFailure, Rule.retracts, hname]
  rw [runActions_eq_essence, fail_essence hquiet h, runActions_nil]

/-- The rules that raise a flag are tried inside `RdfLiteral` only. -/
theorem raising_within (name : RuleName) (h : raising name = false ∧ name ≠ .rdfLiteral) :
    ∀ other ∈ (turtle name).names, raising other = false := by
  obtain ⟨-, hname⟩ := h
  cases name
  case rdfLiteral => exact absurd rfl hname
  all_goals first
    | decide
    | rename_i sparqlQuery
      cases sparqlQuery <;> decide

theorem rdfLiteral_settled {input : Bytes} {outcome : Outcome} {trace : Trace RuleName}
    (h : Run turtle (.ref .rdfLiteral) input outcome trace) {s s' : State q} (hs : s.Settled)
    (hrun : runActions trace s = (s', none)) : s'.Settled := by
  cases outcome with
  | ok rest => exact (rdfLiteral_leaf h).reads hs hrun
  | fail =>
      rw [fail_state rfl h, Prod.mk.injEq] at hrun
      exact hrun.1 ▸ hs
  | error => exact absurd rfl (matching_never_errors (by simp) h)

/-- After a match or a failure the flags are lowered again. -/
theorem run_settled {rule : Rule RuleName} {input : Bytes} {outcome : Outcome}
    {trace : Trace RuleName} (h : Run turtle rule input outcome trace)
    (hnames : ∀ name ∈ rule.names, raising name = false) {s s' : State q} (hs : s.Settled)
    (hrun : runActions trace s = (s', none)) : s'.Settled := by
  induction h generalizing s s' with
  | byteOk _ | byteFail _ | codePointOk _ _ | codePointFail _ | eofOk | eofFail _ | success =>
      cases hrun
      exact hs
  | seqNext _ _ ih₁ ih₂ | sorNext _ _ ih₁ ih₂ =>
      obtain ⟨s₁, hrun₁, hrun₂⟩ := runActions_append_inv hrun
      have hfirst := ih₁ (fun name hname => hnames name (List.mem_append_left _ hname)) hs hrun₁
      exact ih₂ (fun name hname => hnames name (List.mem_append_right _ hname)) hfirst hrun₂
  | seqStop _ _ ih | sorStop _ _ ih =>
      exact ih (fun name hname => hnames name (List.mem_append_left _ hname)) hs hrun
  | starNext _ _ ih₁ ih₂ =>
      obtain ⟨s₁, hrun₁, hrun₂⟩ := runActions_append_inv hrun
      exact ih₂ hnames (ih₁ hnames hs hrun₁) hrun₂
  | starDone _ ih | starError _ ih | must _ ih => exact ih hnames hs hrun
  | @ref name input outcome trace h ih =>
      by_cases hname : name = .rdfLiteral
      · subst hname
        exact rdfLiteral_settled (.ref h) hs hrun
      · have hquiet : raising name = false := hnames name (by simp [Rule.names])
        obtain ⟨s₁, hinner, hown⟩ := runActions_append_inv hrun
        have hbody := ih (raising_within name ⟨hquiet, hname⟩) hs hinner
        cases outcome with
        | ok rest =>
            obtain ⟨s₂, happly, hend⟩ := runActions_cons_inv hown
            cases hend
            exact apply_settled hbody happly hquiet
        | fail | error =>
            cases hown
            exact hbody

/-! ## Moments -/

/-- A literal fails only where its string does: what follows the string is optional. -/
theorem turtleString_unmatched {input : Bytes}
    (hfail : ¬ ∃ rest trace, Run turtle (.ref .rdfLiteral) input (.ok rest) trace)
    {rest : Bytes} {trace : Trace RuleName} :
    ¬ Run turtle (.ref .turtleString) input (.ok rest) trace := by
  intro hstring
  obtain ⟨outcome, t, hrun⟩ := matching_ends .rdfLiteral input
  cases outcome with
  | ok rest => exact hfail ⟨rest, t, hrun⟩
  | error => exact absurd rfl (matching_never_errors (by simp) hrun)
  | fail =>
      cases hrun with
      | ref hbody =>
          cases hbody with
          | seqNext _ hsuffix => exact absurd (hsuffix.neverFails_of_fail rfl) (by decide)
          | seqStop hstop hno =>
              obtain ⟨houtcome, -⟩ := hstop.deterministic hstring
              exact hno rest houtcome

/-- In a literal that will not match, no action has run. -/
theorem rdfLiteral_moment {input : Bytes} {active : List (RuleName × Bytes)}
    {before : Trace RuleName} (h : Moment turtle (turtle .rdfLiteral) input active before)
    (hfail : ¬ ∃ rest trace, Run turtle (.ref .rdfLiteral) input (.ok rest) trace) (s : State q) :
    runActions before s = (s, none) := by
  have hrun_stays : ∀ name, name = .rdfLiteral ∨ name = .turtleString →
      (¬ ∃ rest trace, Run turtle (.ref name) input (.ok rest) trace) →
      ∀ outcome trace, Run turtle (.ref name) input outcome trace →
        runActions trace s = (s, none) := by
    intro name hname hnone outcome trace hrun
    cases outcome with
    | ok rest => exact absurd ⟨rest, trace, hrun⟩ hnone
    | error =>
        refine absurd rfl (matching_never_errors ?_ hrun)
        rcases hname with rfl | rfl <;> simp
    | fail =>
        refine fail_state ?_ hrun s
        rcases hname with rfl | rfl <;> rfl
  have hstring : ¬ ∃ rest trace, Run turtle (.ref .turtleString) input (.ok rest) trace := by
    rintro ⟨rest, trace, hmatch⟩
    exact turtleString_unmatched hfail hmatch
  cases h with
  | start => rfl
  | @finish _ _ outcome _ hrun =>
      have hwhole := hrun_stays .rdfLiteral (.inl rfl) hfail outcome _ (.ref hrun)
      cases outcome with
      | ok rest => exact absurd ⟨rest, _, .ref hrun⟩ hfail
      | fail | error => simpa [closing] using hwhole
  | seqSecond hfirst _ => exact absurd ⟨_, _, hfirst⟩ hstring
  | seqFirst h =>
      cases h with
      | start => rfl
      | finish hrun => exact hrun_stays .turtleString (.inr rfl) hstring _ _ hrun
      | ref h =>
          have hsilent : before.Within silent := h.trace_names silent_closed (by decide)
          rw [runActions_eq_essence, essence_within hsilent, runActions_nil]

/-- Outside a match of a literal the flags are lowered. -/
theorem moment_settled {rule : Rule RuleName} {input : Bytes}
    {active : List (RuleName × Bytes)} {before : Trace RuleName}
    (h : Moment turtle rule input active before)
    (hnames : ∀ name ∈ rule.names, raising name = false)
    (hactive : ¬ Inside turtle .rdfLiteral active) {s s' : State q} (hs : s.Settled)
    (hrun : runActions before s = (s', none)) : s'.Settled := by
  induction h generalizing s s' with
  | start =>
      cases hrun
      exact hs
  | finish h => exact run_settled h hnames hs hrun
  | seqFirst _ ih | sorFirst _ ih =>
      exact ih (fun name hname => hnames name (List.mem_append_left _ hname)) hactive hs hrun
  | seqSecond hfirst _ ih | sorSecond hfirst _ ih =>
      obtain ⟨s₁, hrun₁, hrun₂⟩ := runActions_append_inv hrun
      have hmiddle := run_settled hfirst
        (fun name hname => hnames name (List.mem_append_left _ hname)) hs hrun₁
      exact ih (fun name hname => hnames name (List.mem_append_right _ hname)) hactive hmiddle hrun₂
  | starBody _ ih | must _ ih => exact ih hnames hactive hs hrun
  | starMore hfirst _ ih =>
      obtain ⟨s₁, hrun₁, hrun₂⟩ := runActions_append_inv hrun
      exact ih hnames hactive (run_settled hfirst hnames hs hrun₁) hrun₂
  | @ref name input active before h ih =>
      by_cases hname : name = .rdfLiteral
      · subst hname
        have hfail : ¬ ∃ rest trace, Run turtle (.ref .rdfLiteral) input (.ok rest) trace :=
          fun hmatch => hactive ⟨_, List.mem_cons_self, rfl, hmatch⟩
        rw [rdfLiteral_moment h hfail] at hrun
        cases hrun
        exact hs
      · have hquiet : raising name = false := hnames name (by simp [Rule.names])
        exact ih (raising_within name ⟨hquiet, hname⟩) (fun hinside => hactive hinside.mono) hs
          hrun

/-! ## The states of a parse -/

/-- A state in the middle of a parse in which no action has thrown, with the rules that
are being matched.  What the program parses is a document, the triples of a query, or a
single term. -/
def Reached (active : List (RuleName × Bytes)) (s : State q) : Prop :=
  ∃ start prefixMap input before, (start = .grammar q ∨ start = .term) ∧
    Moment turtle (.ref start) input active before ∧
    runActions before (initialState q prefixMap) = (s, none)

theorem Reached.settled {active : List (RuleName × Bytes)} {s : State q}
    (h : Reached active s) (hactive : ¬ Inside turtle .rdfLiteral active) : s.Settled := by
  obtain ⟨start, prefixMap, input, before, hstart, hmoment, hrun⟩ := h
  refine moment_settled hmoment ?_ hactive ⟨rfl, rfl⟩ hrun
  intro name hname
  rw [Rule.names, List.mem_singleton] at hname
  rcases hstart with rfl | rfl <;> rw [hname] <;> rfl

/-- The rules a parse matches terms with. -/
def MatchesTerms (q : Bool) (name : RuleName) : Prop :=
  name = .term ∨ (name = .varOrTerm ∧ q = true)

theorem MatchesTerms.leaf {name : RuleName} (hname : MatchesTerms q name)
    {input rest : Bytes} {trace : Trace RuleName}
    (h : Run turtle (.ref name) input (.ok rest) trace) :
    ∃ leaf : Leaf, leaf.Allowed q ∧ essence trace = leaf.actions := by
  rcases hname with rfl | ⟨rfl, hq⟩
  · obtain ⟨leaf, hvar, -, -, hessence⟩ := term_leaf h
    exact ⟨leaf, .inl hvar, hessence⟩
  · rcases varOrTerm_leaf h with ⟨text, -, -, hessence⟩ | ⟨leaf, hvar, -, -, hessence⟩
    · exact ⟨.var text, .inr hq, hessence⟩
    · exact ⟨leaf, .inl hvar, hessence⟩

end RdfParser.Turtle
