/-
  Turtle/PrefixScope.lean --- which directive a prefixed name refers to.

  The prefix map is a fold of `emplace` over the directives read so far, and
  `emplace` keeps an existing entry.  So a name is expanded with the first binding
  of its prefix, while the last one before the name is meant.
-/
import RdfParser.Turtle.Directives

set_option autoImplicit false

namespace RdfParser.Turtle

open RdfParser.Foundation RdfParser.Rdf RdfParser.Peg

/-! ## Bindings -/

namespace PrefixMap

/-- All directives, in order, added to a map. -/
def emplaceAll (initial : PrefixMap) (declared : List (Bytes × Bytes)) : PrefixMap :=
  declared.foldl (fun map entry => map.emplace entry.1 entry.2) initial

/-- The initial binding of a prefix, or else the one of its first directive. -/
def firstBinding (initial : PrefixMap) (declared : List (Bytes × Bytes)) (pre : Bytes) :
    Option Bytes :=
  (initial.find pre).or (PrefixMap.find declared pre)

/-- The binding of the last directive for a prefix, or else the initial one. -/
def lastBinding (initial : PrefixMap) (declared : List (Bytes × Bytes)) (pre : Bytes) :
    Option Bytes :=
  (PrefixMap.find declared.reverse pre).or (initial.find pre)

theorem find_cons (key value : Bytes) (map : PrefixMap) (other : Bytes) :
    PrefixMap.find ((key, value) :: map) other =
      if key = other then some value else map.find other := by
  by_cases h : key = other
  · simp [find, h]
  · simp [find, h]

/-- The map answers with the first binding. -/
theorem find_emplaceAll (initial : PrefixMap) (declared : List (Bytes × Bytes)) (pre : Bytes) :
    (initial.emplaceAll declared).find pre = initial.firstBinding declared pre := by
  induction declared generalizing initial with
  | nil => simp [emplaceAll, firstBinding, find_nil]
  | cons entry declared ih =>
      have hstep : initial.emplaceAll (entry :: declared) =
          (initial.emplace entry.1 entry.2).emplaceAll declared := rfl
      rw [hstep, ih]
      unfold firstBinding
      rw [find_emplace, find_cons]
      cases initial.find pre with
      | some iri => simp
      | none => by_cases h : entry.1 = pre <;> simp [h]

end PrefixMap

/-! ## Directives of a trace -/

/-- The prefix and the IRI of a directive, as its action reads them. -/
def declaration? (rule : RuleName) (text : Bytes) : Option (Bytes × Bytes) :=
  match rule with
  | .prefixID | .sparqlPrefix => (prefixArguments text).toOption
  | _ => none

/-- The prefix directives of a trace, in order. -/
def declarations (trace : Trace RuleName) : List (Bytes × Bytes) :=
  trace.filterMap fun entry => declaration? entry.1 entry.2

variable {q : Bool}

theorem declaration?_of_quiet {rule : RuleName} (text : Bytes) (h : naming rule = false) :
    declaration? rule text = none := by
  cases rule <;> first | rfl | simp [naming] at h

/-- An action adds the declaration it makes, if any. -/
theorem apply_prefixMap {rule : RuleName} {text : Bytes} {s s' : State q}
    (h : apply rule text s = .ok s') :
    s'.prefixMap = s.prefixMap.emplaceAll (declaration? rule text).toList := by
  cases hnaming : naming rule with
  | false =>
      rw [declaration?_of_quiet text hnaming]
      exact (apply_agrees h hnaming).prefixMap
  | true =>
      cases rule <;> simp only [naming, reduceCtorEq] at hnaming
      case prefixID =>
          obtain ⟨pre, value, harguments, hs'⟩ := Action.prefixID_basic (State.lift_ok h)
          simp only [declaration?, harguments, hs']
          rfl
      case sparqlPrefix =>
          obtain ⟨pre, value, harguments, hs'⟩ := Action.prefixID_basic (State.lift_ok h)
          simp only [declaration?, harguments, hs']
          rfl
      case base =>
          obtain ⟨value, -, hs'⟩ := Action.base_basic (State.lift_ok h)
          rw [hs']
          rfl
      case sparqlBase =>
          obtain ⟨value, -, hs'⟩ := Action.base_basic (State.lift_ok h)
          rw [hs']
          rfl
      case anon =>
          rw [Action.anon_basic (State.lift_ok h)]
          rfl
      case collection =>
          rw [State.processCollection_basic h]
          rfl
      case blankNodePropertyList =>
          rw [State.processBlankNodePropertyList_basic h]
          rfl

theorem declarations_snoc (trace : Trace RuleName) (rule : RuleName) (text : Bytes) :
    declarations (trace ++ [(rule, text)]) =
      declarations trace ++ (declaration? rule text).toList := by
  unfold declarations
  rw [List.filterMap_append]
  cases h : declaration? rule text <;> simp [h]

/-- The prefix map after some actions. -/
theorem runActions_prefixMap {trace : Trace RuleName} {s s' : State q}
    (h : runActions trace s = (s', none)) :
    s'.prefixMap = s.prefixMap.emplaceAll (declarations trace) := by
  refine runActions_induction
    (P := fun before t => t.prefixMap = s.prefixMap.emplaceAll (declarations before)) rfl ?_ h
  intro before rule text t t' ht happly
  rw [apply_prefixMap happly, ht, declarations_snoc]
  exact (List.foldl_append ..).symm

/-! ## Directives as written -/

/-- The prefix directives of a trace as they are written: the tokens of a directive
are the last `PNAME_NS` and the last `IRIREF` completed before it. -/
def written : Bytes → Bytes → Trace RuleName → List (Bytes × Bytes)
  | _, _, [] => []
  | name, iri, (rule, text) :: trace =>
      match rule with
      | .pnameNs => written text iri trace
      | .iriref => written name text trace
      | .prefixID | .sparqlPrefix =>
          (name.dropLast, iri.tail.dropLast) :: written name iri trace
      | _ => written name iri trace

/-- The rules inside a token or between two tokens. -/
def inToken : RuleName → Bool
  | .ignored | .comment => true
  | .pnPrefix | .pnCharsBase | .pnCharsU | .pnChars => true
  | .uchar | .hex => true
  | _ => false

theorem inToken_closed (name : RuleName) (h : inToken name = true) :
    ∀ other ∈ (turtle name).names, inToken other = true := by
  cases name <;> first | decide | exact absurd h Bool.false_ne_true

/-- Such rules write no directive and change no token. -/
theorem written_inToken {rule : Rule RuleName} {input : Bytes} {outcome : Outcome}
    {trace : Trace RuleName} (h : Run turtle rule input outcome trace)
    (hrule : ∀ name ∈ rule.names, inToken name = true) (name iri : Bytes)
    (more : Trace RuleName) : written name iri (trace ++ more) = written name iri more := by
  have hnames := h.trace_names inToken_closed hrule
  clear h hrule
  induction trace with
  | nil => rfl
  | cons entry trace ih =>
      obtain ⟨other, text⟩ := entry
      have hother : inToken other = true := hnames (other, text) List.mem_cons_self
      rw [List.cons_append, ← ih fun entry hentry => hnames entry (List.mem_cons_of_mem _ hentry)]
      cases other <;> first | rfl | exact absurd hother Bool.false_ne_true

theorem written_pnameNs {pre rest : Bytes} {trace : Trace RuleName}
    (h : Run turtle (.ref .pnameNs) (pnameToken pre ++ rest) (.ok rest) trace)
    (name iri : Bytes) (more : Trace RuleName) :
    written name iri (trace ++ more) = written (pnameToken pre) iri more := by
  obtain ⟨t, hbody, rfl⟩ := h.ref_ok
  rw [List.append_assoc, written_inToken hbody (by decide), consumed_append]
  rfl

theorem written_iriref {text rest : Bytes} {trace : Trace RuleName}
    (h : Run turtle (.ref .iriref) (irirefToken text ++ rest) (.ok rest) trace)
    (name iri : Bytes) (more : Trace RuleName) :
    written name iri (trace ++ more) = written name (irirefToken text) more := by
  obtain ⟨t, hbody, rfl⟩ := h.ref_ok
  rw [List.append_assoc, written_inToken hbody (by decide), consumed_append]
  rfl

/-- A prefix directive adds its own tokens to the directives written. -/
theorem written_directive (d : Directive) (hd : d.declaresPrefix = true) {input rest : Bytes}
    {trace : Trace RuleName} (h : Run turtle (.ref d.rule) input (.ok rest) trace) :
    ∃ layout pre iri, d.Admits layout ∧ input = d.text layout pre iri ++ rest ∧
      ∀ name text more, written name text (trace ++ more) =
        (pre, iri) :: written (pnameToken pre) (irirefToken iri) more := by
  obtain ⟨t, hbody, rfl⟩ := h.ref_ok
  obtain ⟨_, _, _, hword, hparts, rfl⟩ := d.rule_iff.mp hbody
  obtain ⟨keyword, hkeyword, rfl, rfl⟩ := Run.seqOf_byte_iff.mp hword
  unfold Directive.parts at hparts
  rw [hd] at hparts
  obtain ⟨_, _, _, hignored, hmore, rfl⟩ := Run.seqOf_cons_iff.mp hparts
  obtain ⟨gap, rfl, hgap⟩ := ignored_sound hignored
  obtain ⟨_, _, _, hname, hmore', rfl⟩ := Run.seqOf_cons_iff.mp hmore
  obtain ⟨pre, rfl⟩ := pnameNs_sound hname
  obtain ⟨_, _, _, hignored', hmore'', rfl⟩ := Run.seqOf_cons_iff.mp hmore'
  obtain ⟨gap', rfl, hgap'⟩ := ignored_sound hignored'
  obtain ⟨_, _, _, hiri, hending, rfl⟩ := Run.seqOf_cons_iff.mp hmore''
  obtain ⟨iri, rfl⟩ := iriref_sound hiri
  obtain ⟨last, hlast, rfl⟩ := d.ending_sound hending
  refine ⟨⟨keyword, gap, gap', last⟩, pre, iri, ⟨hkeyword, hgap, hgap', hlast⟩, ?_, ?_⟩
  · simp [Directive.text, Directive.body, Directive.ending, hd]
  · intro name text more
    have hquiet : ∀ name ∈ (Rule.seqOf d.endingParts).names, inToken name = true := by
      cases d <;> decide
    simp only [List.nil_append, List.append_assoc]
    rw [written_inToken hignored (by decide), written_pnameNs hname,
      written_inToken hignored' (by decide), written_iriref hiri,
      written_inToken hending hquiet]
    have htokens : (pnameToken pre).dropLast = pre ∧ (irirefToken iri).tail.dropLast = iri :=
      ⟨(pnameToken_word pre).2, (irirefToken_word iri).2⟩
    cases d <;> simp only [Directive.declaresPrefix, reduceCtorEq] at hd
    all_goals simp [Directive.rule, written, htokens]

/-! ## Uses of a prefix -/

/-- The prefixed names of a trace, each with the part of the trace before it. -/
def uses : Trace RuleName → Trace RuleName → List (Trace RuleName × Bytes)
  | _, [] => []
  | before, (rule, text) :: trace =>
      if rule = .prefixedName then (before, text) :: uses (before ++ [(rule, text)]) trace
      else uses (before ++ [(rule, text)]) trace

theorem mem_of_mem_uses {before trace : Trace RuleName} {use : Trace RuleName × Bytes}
    (h : use ∈ uses before trace) : (RuleName.prefixedName, use.2) ∈ trace := by
  induction trace generalizing before with
  | nil => simp [uses] at h
  | cons entry trace ih =>
      obtain ⟨rule, text⟩ := entry
      unfold uses at h
      split at h
      · rename_i hrule
        rcases List.mem_cons.mp h with h | h
        · rw [h, hrule]
          exact List.mem_cons_self
        · exact List.mem_cons_of_mem _ (ih h)
      · exact List.mem_cons_of_mem _ (ih h)

/-- A prefixed name is written with a colon. -/
theorem colon_mem_of_matches {name : Bytes} (h : Matches turtle .prefixedName name) :
    char ':' ∈ name := by
  obtain ⟨rest, trace, hrun⟩ := h
  obtain ⟨_, hbody, -⟩ := hrun.ref_ok
  rcases hbody.sor_ok with hln | ⟨_, _, -, hns, -⟩
  · obtain ⟨_, hseq, -⟩ := hln.ref_ok
    obtain ⟨middle, _, _, hns, hlocal, -⟩ := hseq.seq_ok
    obtain ⟨pre, hinput⟩ := pnameNs_sound hns
    obtain ⟨part, hmiddle⟩ := hlocal.suffix
    rw [hmiddle, ← List.append_assoc] at hinput
    rw [List.append_cancel_right hinput]
    simp [pnameToken]
  · obtain ⟨pre, hinput⟩ := pnameNs_sound hns
    rw [List.append_cancel_right hinput]
    simp [pnameToken]

/-- The element a prefixed name stands for when its prefix has the given binding. -/
def expansion (q : Bool) (binding : Option Bytes) (name : Bytes) : Except Fault (Element q) :=
  match binding with
  | some iri => .ok (Element.ofTerm q (uriRef (iri ++ afterColon name)))
  | none => .error (.runtimeError undefinedPrefix)

/-- A prefixed name is expanded with the last binding written for its prefix, also
where it is the datatype of a literal. -/
def ExpandsToLast (q : Bool) (initial : PrefixMap) (before : Trace RuleName) (name : Bytes) :
    Prop :=
  let last := initial.lastBinding (written [] [] before) (beforeColon name)
  ∀ s, runActions before (initialState q initial) = (s, none) →
    (apply .prefixedName name s).map (·.element) = expansion q last name ∧
    ∀ iri ∈ last, Action.datatypeOf
      { s.toBasicState with iriIsIriref := false, typeTag := name } = iri ++ afterColon name

theorem prefixedName_expands {s : State q} {name : Bytes} (hname : Solid name) :
    (apply .prefixedName name s).map (·.element) =
      expansion q (s.prefixMap.find (beforeColon name)) name := by
  have hword : extractWord name = (name, []) := extractWord_word hname
  unfold apply State.lift Action.prefixedName expansion BasicState.getPrefixValue
  simp only [hword]
  cases s.prefixMap.find (beforeColon name) <;> rfl

/-- A literal's datatype is expanded like an element. -/
theorem datatypeOf_prefixedName {s : BasicState q} {name iri : Bytes} (hname : char ':' ∈ name)
    (hfind : s.prefixMap.find (beforeColon name) = some iri) :
    Action.datatypeOf { s with iriIsIriref := false, typeTag := name } =
      iri ++ afterColon name := by
  unfold Action.datatypeOf BasicState.getPrefixValue
  simp only [Bool.false_eq_true, if_false, hfind, List.contains_eq_mem, hname, decide_true,
    if_true]

/-- Different bindings expand a name differently. -/
theorem expansion_injective {binding binding' : Option Bytes} {name : Bytes}
    (h : expansion q binding name = expansion q binding' name) : binding = binding' := by
  unfold expansion at h
  cases binding with
  | none =>
      cases binding' with
      | none => rfl
      | some iri => cases h
  | some iri =>
      cases binding' with
      | none => cases h
      | some iri' =>
          have hterm := Element.ofTerm_injective q (Except.ok.inj h)
          rw [List.append_cancel_right (uriRef_inj.mp hterm)]

/-! ## Scoping -/

/-- One name: it is expanded with the last binding exactly if that is also the first
one, or an action before it throws. -/
theorem expandsToLast_iff {initial : PrefixMap} {before : Trace RuleName} {name : Bytes}
    (hname : Matches turtle .prefixedName name) :
    ExpandsToLast q initial before name ↔
      ((runActions before (initialState q initial)).2 = none →
        initial.firstBinding (declarations before) (beforeColon name) =
          initial.lastBinding (written [] [] before) (beforeColon name)) := by
  have hsolid : Solid name := solid_of_matches hname rfl
  cases hbefore : runActions before (initialState q initial) with
  | mk s fault =>
      cases fault with
      | some fault => simp [ExpandsToLast, hbefore]
      | none =>
          have hmap : s.prefixMap.find (beforeColon name) =
              initial.firstBinding (declarations before) (beforeColon name) := by
            rw [runActions_prefixMap hbefore]
            exact PrefixMap.find_emplaceAll initial _ _
          constructor
          · intro hexpands _
            have helement := (hexpands s hbefore).1
            rw [prefixedName_expands hsolid, hmap] at helement
            exact expansion_injective helement
          · intro hagree s' hs'
            rw [hbefore, Prod.mk.injEq] at hs'
            rw [← hs'.1]
            rw [hagree rfl] at hmap
            refine ⟨by rw [prefixedName_expands hsolid, hmap], ?_⟩
            intro iri hiri
            exact datatypeOf_prefixedName (colon_mem_of_matches hname) (hmap.trans hiri)

/-- Wherever a prefixed name is reached, the first binding read for its prefix is
also the last one written. -/
def FirstIsLast (q : Bool) (initial : PrefixMap) (trace : Trace RuleName) : Prop :=
  ∀ use ∈ uses [] trace, (runActions use.1 (initialState q initial)).2 = none →
    initial.firstBinding (declarations use.1) (beforeColon use.2) =
      initial.lastBinding (written [] [] use.1) (beforeColon use.2)

instance (initial : PrefixMap) (trace : Trace RuleName) :
    Decidable (FirstIsLast q initial trace) :=
  inferInstanceAs (Decidable (∀ use ∈ uses [] trace, _))

/-- The prefixed names of a document refer to the last directive before them exactly
if none of them has a prefix that was bound differently before. -/
theorem prefixedNames_scoped_iff {initial : PrefixMap} {document : Bytes} {outcome : Outcome}
    {trace : Trace RuleName} (hrun : Run turtle (.ref (.grammar q)) document outcome trace) :
    (∀ use ∈ uses [] trace, ExpandsToLast q initial use.1 use.2) ↔
      FirstIsLast q initial trace := by
  refine forall_congr' fun use => forall_congr' fun huse => ?_
  exact expandsToLast_iff (hrun.trace_matches _ (mem_of_mem_uses huse))

/-- A document that binds two prefixes and uses both. -/
def twoPrefixes : Bytes :=
  bytes "@prefix p: <http://a/> . PREFIX q: <http://b/> p:s q:p \"1\"^^q:t ."

theorem twoPrefixes_scoped : ∃ outcome trace,
    Run turtle (.ref (.grammar false)) twoPrefixes outcome trace ∧ (uses [] trace).length = 3 ∧
      ∀ use ∈ uses [] trace, ExpandsToLast false [] use.1 use.2 := by
  have hcomputed : (exec turtle 60 (.ref (.grammar false)) twoPrefixes).map
      (fun result => (decide (FirstIsLast false [] result.2), (uses [] result.2).length)) =
      some (true, 3) := by
    decide +kernel
  rw [Option.map_eq_some_iff] at hcomputed
  obtain ⟨⟨outcome, trace⟩, hexec, hagree⟩ := hcomputed
  rw [Prod.mk.injEq, decide_eq_true_eq] at hagree
  have hrun := exec_sound 60 hexec
  exact ⟨outcome, trace, hrun, hagree.2, (prefixedNames_scoped_iff hrun).mpr hagree.1⟩

/-- A document that binds a prefix a second time. -/
def redeclaredPrefix : Bytes :=
  bytes "@prefix p: <http://a/> . p:s p:p p:o . @prefix p: <http://b/> . p:s p:p p:o ."

/-- The second statement is still read with the first directive. -/
theorem redeclaredPrefix_unscoped : ¬ ∀ (initial : PrefixMap) (document : Bytes)
    (outcome : Outcome) (trace : Trace RuleName),
    Run turtle (.ref (.grammar false)) document outcome trace → outcome ≠ .error →
    (runActions trace (initialState false initial)).2 = none →
    ∀ use ∈ uses [] trace, ExpandsToLast false initial use.1 use.2 := by
  intro hclaim
  have hcomputed : (exec turtle 60 (.ref (.grammar false)) redeclaredPrefix).map
      (fun result => (decide (result.1 = .error),
        (runActions result.2 (initialState false [])).2,
        decide (FirstIsLast false [] result.2))) = some (false, none, false) := by
    decide +kernel
  rw [Option.map_eq_some_iff] at hcomputed
  obtain ⟨⟨outcome, trace⟩, hexec, hsummary⟩ := hcomputed
  simp only [Prod.mk.injEq, decide_eq_false_iff_not] at hsummary
  obtain ⟨houtcome, hfault, hdiffer⟩ := hsummary
  have hrun := exec_sound 60 hexec
  have hexpands := hclaim [] redeclaredPrefix outcome trace hrun houtcome hfault
  refine hdiffer fun use huse => ?_
  exact (expandsToLast_iff (hrun.trace_matches _ (mem_of_mem_uses huse))).mp (hexpands use huse)

end RdfParser.Turtle
