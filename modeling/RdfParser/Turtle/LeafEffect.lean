/-
  Turtle/LeafEffect.lean --- what the actions of a term make of its spelling.

  `Leaf.element` says which element a spelling stands for, given the prefix map, the
  base and the next label; it mentions none of the fields that the actions of one
  term use to pass things on.  `run_actions` shows that the actions produce it from
  every state in which no tag is pending.
-/
import RdfParser.Turtle.Leaf

set_option autoImplicit false

namespace RdfParser.Turtle

open RdfParser.Foundation RdfParser.Rdf RdfParser.Peg

variable {q : Bool}

/-! ## The element of a spelling -/

/-- The IRI of a spelling. -/
def IriLeaf.uri (prefixMap : PrefixMap) (base : Bytes) : IriLeaf → Except Fault Bytes
  | .iriref text =>
      match substr text 1 (sizeSub text.length 2) with
      | .ok iri => if base ≠ [] then insert iri 1 base else .ok iri
      | .error fault => .error fault
  | .prefixedName text =>
      match prefixMap.find (beforeColon (extractWord text).1) with
      | some mappedPrefix => .ok (mappedPrefix ++ afterColon (extractWord text).1)
      | none => .error (.runtimeError undefinedPrefix)

/-- The datatype of a literal whose type tag has this spelling. -/
def IriLeaf.datatype (prefixMap : PrefixMap) : IriLeaf → Except Fault Bytes
  | .iriref text =>
      substr (bytes "^^" ++ text) 3 (sizeSub (sizeSub (bytes "^^" ++ text).length 3) 1)
  | .prefixedName text =>
      match substr (bytes "^^" ++ text) 2 (bytes "^^" ++ text).length with
      | .ok tag =>
          match prefixMap.find (beforeColon tag) with
          | some mappedPrefix =>
              .ok (mappedPrefix ++ (if tag.contains (char ':') then afterColon tag else tag))
          | none => .ok tag
      | .error fault => .error fault

/-- The datatype of a number. -/
def NumberKind.datatype : NumberKind → Bytes
  | .double => xsdDouble
  | .decimal => xsdDecimal
  | .integer => xsdInteger

/-- The literal made of a string and what follows it. -/
def Suffix.literal (prefixMap : PrefixMap) (base body : Bytes) : Suffix → Except Fault Term
  | .plain => .ok (Rdf.literal body none none)
  | .langtag text => (substr text 1 text.length).map fun tag => Rdf.literal body (some tag) none
  | .typeTag i =>
      match i.uri prefixMap base with
      | .ok _ => (i.datatype prefixMap).map fun datatype => Rdf.literal body none (some datatype)
      | .error fault => .error fault

/-- The element of a spelling; a variable stands for one in queries only. -/
def Leaf.element (q : Bool) (prefixMap : PrefixMap) (base : Bytes) (label : Nat) :
    Leaf → Except Fault (Element q)
  | .iri i => (i.uri prefixMap base).map fun uri => Element.ofTerm q (uriRef uri)
  | .blankNodeLabel text => (substr text 2 text.length).map (Action.blankNodeElement q)
  | .anon _ => .ok (Action.blankNodeElement q (Turtle.blankNodeLabel label))
  | .booleanLiteral text => .ok (Element.ofTerm q (Rdf.literal text none (some xsdBoolean)))
  | .numericLiteral kind text =>
      .ok (Element.ofTerm q (Rdf.literal text none (some kind.datatype)))
  | .rdfLiteral text suffix =>
      match substr text 1 (sizeSub (sizeSub text.length 1) 1) with
      | .ok body => (suffix.literal prefixMap base body).map (Element.ofTerm q)
      | .error fault => .error fault
  | .var text =>
      match q with
      | true =>
          (substr text 1 (sizeSub text.length 1)).map fun name =>
            VarOrTerm.variable { name := name }
      | false => .ok (Element.default false)

/-- The next label after a spelling. -/
def Leaf.nextLabel (label : Nat) : Leaf → Nat
  | .anon _ => label + 1
  | _ => label

/-! ## The actions of a spelling -/

/-- No tag of a literal is pending. -/
structure BasicState.Settled (s : BasicState q) : Prop where
  typeTagFound : s.typeTagFound = false
  langTagFound : s.langTagFound = false

/-- The state after a term has been read: the element and the label counter are as
given, and nothing that outlives the term has changed besides. -/
structure ReadsTerm (s s' : State q) (element : Element q) (label : Nat) : Prop where
  others : s' = { s with toBasicState := s'.toBasicState }
  element : s'.element = element
  prefixMap : s'.prefixMap = s.prefixMap
  base : s'.base = s.base
  latestBNLabel : s'.latestBNLabel = label
  settled : s'.Settled

/-! ### Actions of the term level -/

/-- A trace that starts with an action of the term level. -/
theorem runActions_lift_ok {name : RuleName} {text : Bytes}
    {action : BasicState q → Except Fault (BasicState q)} {s : State q} {basic : BasicState q}
    (happly : apply name text s = s.lift action) (h : action s.toBasicState = .ok basic)
    (trace : Trace RuleName) :
    runActions ((name, text) :: trace) s = runActions trace { s with toBasicState := basic } := by
  refine runActions_cons_ok ?_
  rw [happly, State.lift, h]
  rfl

theorem runActions_lift_error {name : RuleName} {text : Bytes}
    {action : BasicState q → Except Fault (BasicState q)} {s : State q} {fault : Fault}
    (happly : apply name text s = s.lift action) (h : action s.toBasicState = .error fault)
    (trace : Trace RuleName) : runActions ((name, text) :: trace) s = (s, some fault) := by
  refine runActions_cons_error ?_
  rw [happly, State.lift, h]
  rfl

/-- The spelling is an `IRIREF`. -/
def IriLeaf.isIriref : IriLeaf → Bool
  | .iriref _ => true
  | .prefixedName _ => false

/-- The action of an IRI, by its spelling. -/
def IriLeaf.action (i : IriLeaf) (s : BasicState q) : Except Fault (BasicState q) :=
  (i.uri s.prefixMap s.base).map fun uri =>
    { s with element := Element.ofTerm q (uriRef uri), iriIsIriref := i.isIriref }

theorem Action.iriref_eq (text : Bytes) (s : BasicState q) :
    Action.iriref text s = (IriLeaf.iriref text).action s := by
  simp only [Action.iriref, IriLeaf.action, IriLeaf.uri]
  cases substr text 1 (sizeSub text.length 2) with
  | error fault => rfl
  | ok iri =>
      by_cases hbase : s.base ≠ []
      · simp only [bind, Except.bind, if_pos hbase]
        cases insert iri 1 s.base <;> rfl
      · simp only [bind, Except.bind, if_neg hbase]
        rfl

theorem Action.prefixedName_eq (text : Bytes) (s : BasicState q) :
    Action.prefixedName text s = (IriLeaf.prefixedName text).action s := by
  unfold Action.prefixedName IriLeaf.action IriLeaf.uri BasicState.getPrefixValue
  simp only
  cases s.prefixMap.find (beforeColon (extractWord text).1) <;> rfl

theorem IriLeaf.runActions_ok {i : IriLeaf} {s : State q} {basic : BasicState q}
    (h : i.action s.toBasicState = .ok basic) (trace : Trace RuleName) :
    runActions (i.actions ++ trace) s = runActions trace { s with toBasicState := basic } := by
  cases i with
  | iriref text => exact runActions_lift_ok rfl ((Action.iriref_eq text _).trans h) trace
  | prefixedName text =>
      exact runActions_lift_ok rfl ((Action.prefixedName_eq text _).trans h) trace

theorem IriLeaf.runActions_error {i : IriLeaf} {s : State q} {fault : Fault}
    (h : i.action s.toBasicState = .error fault) (trace : Trace RuleName) :
    runActions (i.actions ++ trace) s = (s, some fault) := by
  cases i with
  | iriref text => exact runActions_lift_error rfl ((Action.iriref_eq text _).trans h) trace
  | prefixedName text =>
      exact runActions_lift_error rfl ((Action.prefixedName_eq text _).trans h) trace

/-! ### The suffix of a literal -/

/-- `action<RdfLiteral>` at the end of a literal, in a state that differs from the one
before the literal only in the term level. -/
theorem runActions_rdfLiteral {s s' : State q} {t : Term}
    (hothers : s' = { s with toBasicState := s'.toBasicState })
    (hmap : s'.prefixMap = s.prefixMap) (hbase : s'.base = s.base)
    (hlabel : s'.latestBNLabel = s.latestBNLabel)
    (h : Action.rdfLiteral [] s'.toBasicState = .ok { s'.toBasicState with
      element := Element.ofTerm q t, typeTagFound := false, langTagFound := false }) :
    ∃ s'', runActions [(.rdfLiteral, [])] s' = (s'', none) ∧
      ReadsTerm s s'' (Element.ofTerm q t) s.latestBNLabel := by
  refine ⟨_, runActions_lift_ok rfl h [], ?_, rfl, hmap, hbase, hlabel, ⟨rfl, rfl⟩⟩
  rw [hothers]

/-- The action of a type tag leaves a tag that stands for the datatype. -/
theorem Action.rdfLiteralTypeTag_ok {i : IriLeaf} {s : BasicState q} {datatype : Bytes}
    (hi : s.iriIsIriref = i.isIriref) (h : i.datatype s.prefixMap = .ok datatype) :
    ∃ tag, Action.rdfLiteralTypeTag (bytes "^^" ++ i.text) s =
        .ok { s with typeTagFound := true, typeTag := tag } ∧
      Action.datatypeOf { s with typeTagFound := true, typeTag := tag } = datatype := by
  cases i with
  | iriref text =>
      have hiriref : s.iriIsIriref = true := hi
      refine ⟨datatype, ?_, ?_⟩
      · have htag : substr (bytes "^^" ++ text) 3
            (sizeSub (sizeSub (bytes "^^" ++ text).length 3) 1) = .ok datatype := h
        simp only [Action.rdfLiteralTypeTag, hiriref, IriLeaf.text, htag]
        rfl
      · simp [Action.datatypeOf, hiriref]
  | prefixedName text =>
      have hname : s.iriIsIriref = false := hi
      cases htag : substr (bytes "^^" ++ text) 2 (bytes "^^" ++ text).length with
      | error fault => simp only [IriLeaf.datatype, htag, reduceCtorEq] at h
      | ok tag =>
          refine ⟨tag, ?_, ?_⟩
          · simp only [Action.rdfLiteralTypeTag, hname, IriLeaf.text, htag]
            rfl
          · simp only [IriLeaf.datatype, htag] at h
            simp only [Action.datatypeOf, hname, BasicState.getPrefixValue, Bool.false_eq_true,
              if_false]
            cases hfind : s.prefixMap.find (beforeColon tag) with
            | none =>
                rw [hfind] at h
                exact Except.ok.inj h
            | some mappedPrefix =>
                rw [hfind] at h
                exact Except.ok.inj h

theorem Action.rdfLiteralTypeTag_error {i : IriLeaf} {s : BasicState q} {fault : Fault}
    (hi : s.iriIsIriref = i.isIriref) (h : i.datatype s.prefixMap = .error fault) :
    Action.rdfLiteralTypeTag (bytes "^^" ++ i.text) s = .error fault := by
  cases i with
  | iriref text =>
      have hiriref : s.iriIsIriref = true := hi
      have htag : substr (bytes "^^" ++ text) 3
          (sizeSub (sizeSub (bytes "^^" ++ text).length 3) 1) = .error fault := h
      simp only [Action.rdfLiteralTypeTag, hiriref, IriLeaf.text, htag]
      rfl
  | prefixedName text =>
      have hname : s.iriIsIriref = false := hi
      cases htag : substr (bytes "^^" ++ text) 2 (bytes "^^" ++ text).length with
      | error fault' =>
          simp only [IriLeaf.datatype, htag, Except.error.injEq] at h
          simp only [Action.rdfLiteralTypeTag, hname, IriLeaf.text, htag, h]
          rfl
      | ok tag =>
          simp only [IriLeaf.datatype, htag] at h
          cases hfind : s.prefixMap.find (beforeColon tag) <;> simp [hfind] at h

theorem Suffix.runActions_ok {suffix : Suffix} {body : Bytes} {s : State q} {t : Term}
    (hs : s.Settled) (h : suffix.literal s.prefixMap s.base body = .ok t) :
    ∃ s', runActions (suffix.actions ++ [(.rdfLiteral, [])])
        { s with literalString := body } = (s', none) ∧
      ReadsTerm s s' (Element.ofTerm q t) s.latestBNLabel := by
  obtain ⟨htype, hlang⟩ := hs
  cases suffix with
  | plain =>
      cases h
      refine runActions_rdfLiteral rfl rfl rfl rfl ?_
      simp only [Action.rdfLiteral, htype, hlang]
      rfl
  | langtag text =>
      simp only [literal] at h
      cases htag : substr text 1 text.length with
      | error fault => simp [htag, Except.map] at h
      | ok tag =>
          simp only [htag, Except.map, Except.ok.injEq] at h
          have hlangtag : Action.langtag text { s.toBasicState with literalString := body } =
              .ok { s.toBasicState with
                literalString := body, langTagFound := true, langTag := tag } := by
            simp only [Action.langtag, htag]
            rfl
          rw [actions, List.singleton_append, runActions_lift_ok rfl hlangtag]
          refine runActions_rdfLiteral rfl rfl rfl rfl ?_
          simp only [Action.rdfLiteral, htype]
          rw [← h]
          rfl
  | typeTag i =>
      simp only [literal] at h
      cases huri : i.uri s.prefixMap s.base with
      | error fault => simp [huri] at h
      | ok uri =>
          cases hdatatype : i.datatype s.prefixMap with
          | error fault => simp [huri, hdatatype, Except.map] at h
          | ok datatype =>
              simp only [huri, hdatatype, Except.map, Except.ok.injEq] at h
              have hiri : i.action { s.toBasicState with literalString := body } =
                  .ok { s.toBasicState with
                    literalString := body
                    element := Element.ofTerm q (uriRef uri)
                    iriIsIriref := i.isIriref } := by
                simp only [IriLeaf.action, huri]
                rfl
              obtain ⟨tag, htag, hof⟩ := Action.rdfLiteralTypeTag_ok (i := i)
                (s := { s.toBasicState with
                  literalString := body
                  element := Element.ofTerm q (uriRef uri)
                  iriIsIriref := i.isIriref }) rfl hdatatype
              rw [actions, List.append_assoc, IriLeaf.runActions_ok hiri, List.singleton_append,
                runActions_lift_ok rfl htag]
              refine runActions_rdfLiteral rfl rfl rfl rfl ?_
              simp only [Action.rdfLiteral, if_true, hof, ← h]
              rw [← hlang]
              rfl

theorem Suffix.runActions_error {suffix : Suffix} {body : Bytes} {s : State q} {fault : Fault}
    (h : suffix.literal s.prefixMap s.base body = .error fault) :
    ∃ s', runActions (suffix.actions ++ [(.rdfLiteral, [])])
      { s with literalString := body } = (s', some fault) := by
  cases suffix with
  | plain => cases h
  | langtag text =>
      simp only [literal] at h
      cases htag : substr text 1 text.length with
      | ok tag => simp [htag, Except.map] at h
      | error fault' =>
          simp only [htag, Except.map, Except.error.injEq] at h
          refine ⟨_, runActions_lift_error rfl ?_ _⟩
          simp only [Action.langtag, htag, h]
          rfl
  | typeTag i =>
      simp only [literal] at h
      cases huri : i.uri s.prefixMap s.base with
      | error fault' =>
          simp only [huri, Except.error.injEq] at h
          have hiri : i.action { s.toBasicState with literalString := body } = .error fault := by
            simp only [IriLeaf.action, huri, h]
            rfl
          rw [actions, List.append_assoc]
          exact ⟨_, IriLeaf.runActions_error hiri _⟩
      | ok uri =>
          cases hdatatype : i.datatype s.prefixMap with
          | ok datatype => simp [huri, hdatatype, Except.map] at h
          | error fault' =>
              simp only [huri, hdatatype, Except.map, Except.error.injEq] at h
              have hiri : i.action { s.toBasicState with literalString := body } =
                  .ok { s.toBasicState with
                    literalString := body
                    element := Element.ofTerm q (uriRef uri)
                    iriIsIriref := i.isIriref } := by
                simp only [IriLeaf.action, huri]
                rfl
              have htag := Action.rdfLiteralTypeTag_error (i := i)
                (s := { s.toBasicState with
                  literalString := body
                  element := Element.ofTerm q (uriRef uri)
                  iriIsIriref := i.isIriref }) rfl hdatatype
              rw [actions, List.append_assoc, IriLeaf.runActions_ok hiri, List.singleton_append,
                runActions_lift_error rfl htag, h]
              exact ⟨_, rfl⟩

/-! ### A whole spelling -/

/-- In Turtle mode there are no variables. -/
def Leaf.Allowed (q : Bool) (leaf : Leaf) : Prop := leaf.isVar = false ∨ q = true

/-- A spelling that stands for an element: its actions produce the element. -/
theorem Leaf.runActions_ok {leaf : Leaf} {s : State q} {e : Element q} (hs : s.Settled)
    (hleaf : leaf.Allowed q)
    (h : leaf.element q s.prefixMap s.base s.latestBNLabel = .ok e) :
    ∃ s', runActions leaf.actions s = (s', none) ∧
      ReadsTerm s s' e (leaf.nextLabel s.latestBNLabel) := by
  obtain ⟨htype, hlang⟩ := hs
  cases leaf with
  | iri i =>
      simp only [element] at h
      cases huri : i.uri s.prefixMap s.base with
      | error fault => simp [huri, Except.map] at h
      | ok uri =>
          simp only [huri, Except.map, Except.ok.injEq] at h
          have hiri : i.action s.toBasicState = .ok { s.toBasicState with
              element := Element.ofTerm q (uriRef uri), iriIsIriref := i.isIriref } := by
            simp only [IriLeaf.action, huri]
            rfl
          have hrun := IriLeaf.runActions_ok hiri []
          rw [List.append_nil] at hrun
          exact ⟨_, hrun, rfl, h, rfl, rfl, rfl, ⟨htype, hlang⟩⟩
  | blankNodeLabel text =>
      simp only [element] at h
      cases hlabel : substr text 2 text.length with
      | error fault => simp [hlabel, Except.map] at h
      | ok label =>
          simp only [hlabel, Except.map, Except.ok.injEq] at h
          have haction : Action.blankNodeLabel text s.toBasicState = .ok { s.toBasicState with
              literalString := label, blankNodeString := label } := by
            simp only [Action.blankNodeLabel, hlabel]
            rfl
          rw [actions, runActions_lift_ok rfl haction]
          exact ⟨_, rfl, rfl, h, rfl, rfl, rfl, ⟨htype, hlang⟩⟩
  | anon text =>
      cases h
      exact ⟨_, rfl, rfl, rfl, rfl, rfl, rfl, ⟨htype, hlang⟩⟩
  | booleanLiteral text =>
      cases h
      exact ⟨_, rfl, rfl, rfl, rfl, rfl, rfl, ⟨htype, hlang⟩⟩
  | numericLiteral kind text =>
      cases h
      cases kind <;> exact ⟨_, rfl, rfl, rfl, rfl, rfl, rfl, ⟨htype, hlang⟩⟩
  | rdfLiteral text suffix =>
      simp only [element] at h
      cases hbody : substr text 1 (sizeSub (sizeSub text.length 1) 1) with
      | error fault => simp [hbody] at h
      | ok body =>
          cases hliteral : suffix.literal s.prefixMap s.base body with
          | error fault => simp [hbody, hliteral, Except.map] at h
          | ok t =>
              simp only [hbody, hliteral, Except.map, Except.ok.injEq] at h
              have hstring : Action.turtleString text s.toBasicState =
                  .ok { s.toBasicState with literalString := body } := by
                simp only [Action.turtleString, hbody]
                rfl
              obtain ⟨s', hrun, hreads⟩ := Suffix.runActions_ok ⟨htype, hlang⟩ hliteral
              rw [h] at hreads
              exact ⟨s', (runActions_lift_ok rfl hstring _).trans hrun, hreads⟩
  | var text =>
      rcases hleaf with hvar | rfl
      · cases hvar
      · simp only [element] at h
        cases hname : substr text 1 (sizeSub text.length 1) with
        | error fault => simp [hname, Except.map] at h
        | ok name =>
            simp only [hname, Except.map] at h
            have haction : Action.var text s.toBasicState = .ok { s.toBasicState with
                element := VarOrTerm.variable { name := name } } := by
              simp only [Action.var, hname]
              rfl
            exact ⟨_, runActions_lift_ok rfl haction [], rfl, Except.ok.inj h, rfl, rfl, rfl,
              ⟨htype, hlang⟩⟩

/-- A spelling that stands for no element: its actions throw. -/
theorem Leaf.runActions_error {leaf : Leaf} {s : State q} {fault : Fault}
    (hleaf : leaf.Allowed q)
    (h : leaf.element q s.prefixMap s.base s.latestBNLabel = .error fault) :
    ∃ s', runActions leaf.actions s = (s', some fault) := by
  cases leaf with
  | iri i =>
      simp only [element] at h
      cases huri : i.uri s.prefixMap s.base with
      | ok uri => simp [huri, Except.map] at h
      | error fault' =>
          simp only [huri, Except.map, Except.error.injEq] at h
          have hiri : i.action s.toBasicState = .error fault := by
            simp only [IriLeaf.action, huri, h]
            rfl
          have hrun := IriLeaf.runActions_error hiri []
          rw [List.append_nil] at hrun
          exact ⟨_, hrun⟩
  | blankNodeLabel text =>
      simp only [element] at h
      cases hlabel : substr text 2 text.length with
      | ok label => simp [hlabel, Except.map] at h
      | error fault' =>
          simp only [hlabel, Except.map, Except.error.injEq] at h
          refine ⟨_, runActions_lift_error rfl ?_ _⟩
          simp only [Action.blankNodeLabel, hlabel, h]
          rfl
  | anon _ | booleanLiteral _ | numericLiteral _ _ => cases h
  | rdfLiteral text suffix =>
      simp only [element] at h
      cases hbody : substr text 1 (sizeSub (sizeSub text.length 1) 1) with
      | error fault' =>
          simp only [hbody, Except.error.injEq] at h
          refine ⟨_, runActions_lift_error rfl ?_ _⟩
          simp only [Action.turtleString, hbody, h]
          rfl
      | ok body =>
          cases hliteral : suffix.literal s.prefixMap s.base body with
          | ok t => simp [hbody, hliteral, Except.map] at h
          | error fault' =>
              simp only [hbody, hliteral, Except.map, Except.error.injEq] at h
              have hstring : Action.turtleString text s.toBasicState =
                  .ok { s.toBasicState with literalString := body } := by
                simp only [Action.turtleString, hbody]
                rfl
              obtain ⟨s', hrun⟩ := Suffix.runActions_error hliteral
              rw [h] at hrun
              exact ⟨s', (runActions_lift_ok rfl hstring _).trans hrun⟩
  | var text =>
      rcases hleaf with hvar | rfl
      · cases hvar
      · simp only [element] at h
        cases hname : substr text 1 (sizeSub text.length 1) with
        | ok name => simp [hname, Except.map] at h
        | error fault' =>
            simp only [hname, Except.map, Except.error.injEq] at h
            refine ⟨_, runActions_lift_error rfl ?_ _⟩
            simp only [Action.var, hname, h]
            rfl

/-- What a run of the actions of a spelling says, when no action throws. -/
theorem Leaf.runActions_inv {leaf : Leaf} {s s' : State q} (hs : s.Settled)
    (hleaf : leaf.Allowed q) (h : runActions leaf.actions s = (s', none)) :
    ∃ e, leaf.element q s.prefixMap s.base s.latestBNLabel = .ok e ∧
      ReadsTerm s s' e (leaf.nextLabel s.latestBNLabel) := by
  cases helement : leaf.element q s.prefixMap s.base s.latestBNLabel with
  | error fault =>
      obtain ⟨s₁, hrun⟩ := runActions_error hleaf helement
      rw [hrun] at h
      cases h
  | ok e =>
      obtain ⟨s₁, hrun, hreads⟩ := runActions_ok hs hleaf helement
      rw [hrun, Prod.mk.injEq] at h
      exact ⟨e, rfl, h.1 ▸ hreads⟩

end RdfParser.Turtle
