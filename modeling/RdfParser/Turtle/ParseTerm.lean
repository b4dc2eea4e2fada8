/-
  Turtle/ParseTerm.lean --- parsing a single term.

  Source: `Dice/RDF/ParseTerm.hpp`.

  `parse_term` runs the rule `term` on the front of the text, does not look at the
  result of the match, and does not ask for the end of the text.  The handler that is
  to turn every exception into a `std::logic_error` formats its message without the
  argument the format string asks for.
-/
import RdfParser.Turtle.History
import RdfParser.Turtle.Spelling

set_option autoImplicit false

namespace RdfParser.Turtle

open RdfParser.Foundation RdfParser.Rdf RdfParser.Peg RdfParser.Peg.Rule

/-! ## Exceptions -/

/-- What `parse_term` can throw. -/
inductive Exception where
  | logicError (what : Bytes)
  /-- `fmt::format_error`, a `std::runtime_error` -/
  | formatError (what : Bytes)
  deriving DecidableEq, Repr

/-- `fmt::format`, for format strings whose only fields are `{}`. -/
def fmtFormat : Bytes → List Bytes → Except Exception Bytes
  | 123 :: 125 :: format, argument :: arguments =>
      (fmtFormat format arguments).map (argument ++ ·)
  | 123 :: 125 :: _, [] => .error (.formatError (bytes "argument not found"))
  | b :: format, arguments => (fmtFormat format arguments).map (b :: ·)
  | [], _ => .ok []

/-- The handler of `parse_term`. -/
def notATerm : Exception :=
  match fmtFormat (bytes "\x7b\x7d is not a valid term.") [] with
  | .ok what => .logicError what
  | .error exception => exception

/-! ## The two functions -/

/-- What `parse_term` makes of a match and the run of its actions. -/
def parseTermResult (outcome : Outcome) (run : State false × Option Fault) :
    Except Exception Term :=
  if outcome = .error ∨ run.2 ≠ none then .error notATerm else .ok run.1.element

/-- `parse_term`; the actions of a term touch no more of the state than its
`BasicState`. -/
def ParsesTerm (identifier : Bytes) (result : Except Exception Term) : Prop :=
  ∃ outcome trace, Run turtle (.ref .term) identifier outcome trace ∧
    result = parseTermResult outcome (runActions trace (initialState false []))

/-- `term_parsable`, given what `parse_term` does. -/
def termParsable : Except Exception Term → Except Exception Bool
  | .ok _ => .ok true
  | .error (.logicError _) => .ok false
  | .error exception => .error exception

theorem ParsesTerm.unique {identifier : Bytes} {result result' : Except Exception Term}
    (h : ParsesTerm identifier result) (h' : ParsesTerm identifier result') :
    result = result' := by
  obtain ⟨_, _, hrun, rfl⟩ := h
  obtain ⟨_, _, hrun', rfl⟩ := h'
  obtain ⟨rfl, rfl⟩ := hrun.deterministic hrun'
  rfl

/-- The message is never built. -/
theorem notATerm_eq : notATerm = .formatError (bytes "argument not found") := by decide

/-! ## Terms -/

/-- Built by one of the constructors `URIRef`, `BNode` and `Literal`. -/
inductive Constructed : Term → Prop where
  | uriRef (uri : Bytes) : Constructed (Rdf.uriRef uri)
  | bNode (label : Bytes) : Constructed (Rdf.bNode label)
  | literal (value : Bytes) (lang type : Option Bytes) :
      Constructed (Rdf.literal value lang type)

theorem Constructed.nodeType {t : Term} (h : Constructed t) : t.nodeType ≠ .none := by
  cases h with
  | uriRef uri | bNode label => simp [Rdf.uriRef, Rdf.bNode]
  | literal value lang type =>
      unfold Rdf.literal
      repeat' split
      all_goals simp

/-- The literal of a string and what follows it. -/
theorem Suffix.literal_eq {suffix : Suffix} {prefixMap : PrefixMap} {base body : Bytes}
    {t : Term} (h : suffix.literal prefixMap base body = .ok t) :
    ∃ lang type, t = Rdf.literal body lang type := by
  unfold literal at h
  repeat' split at h
  · cases h
    exact ⟨none, none, rfl⟩
  · simp only [Except.map] at h
    split at h <;> cases h
    exact ⟨some _, none, rfl⟩
  · simp only [Except.map] at h
    split at h <;> cases h
    exact ⟨none, some _, rfl⟩
  · cases h

theorem Suffix.literal_constructed {suffix : Suffix} {prefixMap : PrefixMap}
    {base body : Bytes} {t : Term} (h : suffix.literal prefixMap base body = .ok t) :
    Constructed t := by
  obtain ⟨lang, type, rfl⟩ := Suffix.literal_eq h
  exact .literal body lang type

/-- A spelling stands for a constructed term. -/
theorem Leaf.element_constructed {leaf : Leaf} (hleaf : leaf.isVar = false)
    {prefixMap : PrefixMap} {base : Bytes} {label : Nat} {t : Term}
    (h : leaf.element false prefixMap base label = .ok t) : Constructed t := by
  cases leaf with
  | iri i =>
      simp only [element, Except.map] at h
      split at h <;> cases h
      exact .uriRef _
  | blankNodeLabel text =>
      simp only [element, Except.map] at h
      split at h <;> cases h
      exact .bNode _
  | anon text =>
      cases h
      exact .bNode _
  | booleanLiteral text =>
      cases h
      exact Constructed.literal text none (some xsdBoolean)
  | numericLiteral kind text =>
      cases h
      exact Constructed.literal text none (some kind.datatype)
  | rdfLiteral text suffix =>
      simp only [element] at h
      split at h
      · simp only [Except.map] at h
        split at h
        · cases h
        · rename_i hliteral
          cases h
          exact Suffix.literal_constructed hliteral
      · cases h
  | var text => cases hleaf

/-! ## What `parse_term` is for -/

/-- The prefixes of all prefixed names are bound. -/
def PrefixesDefined (prefixMap : PrefixMap) (trace : Trace RuleName) : Prop :=
  ∀ name, (.prefixedName, name) ∈ trace → (prefixMap.find (beforeColon name)).isSome = true

/-- The text is a term, and the prefixes in it are defined in the prefix map. -/
def IsTerm (prefixMap : PrefixMap) (text : Bytes) : Prop :=
  ∃ trace, Run turtle (.ref .term) text (.ok []) trace ∧ PrefixesDefined prefixMap trace

/-- The text spells this term. -/
def Spells (prefixMap : PrefixMap) (text : Bytes) (t : Term) : Prop :=
  ∃ leaf : Leaf, leaf.isVar = false ∧ leaf.WellFormed ∧ leaf.text = text ∧
    leaf.element false prefixMap [] 1 = .ok t

/-- `parse_term` accepts exactly terms, and `term_parsable` says so. -/
structure TermContract (text : Bytes) : Prop where
  accepted : IsTerm [] text →
    ∃ t, ParsesTerm text (.ok t) ∧ Spells [] text t ∧ t.nodeType ≠ .none
  rejected : ¬ IsTerm [] text → ∃ what, ParsesTerm text (.error (.logicError what))
  parsable : ∀ result, ParsesTerm text result →
    (termParsable result = .ok true ↔ IsTerm [] text) ∧
      (termParsable result = .ok false ↔ ¬ IsTerm [] text)

/-! ## Exactly the terms without prefixed names -/

/-- The essence keeps the texts that are read. -/
theorem mem_essence {trace : Trace RuleName} {name : RuleName} {text : Bytes}
    (hreads : readsText name = true) : (name, text) ∈ essence trace ↔ (name, text) ∈ trace := by
  have hacts : acts name = true := by
    cases hname : acts name with
    | true => rfl
    | false => cases name <;> simp_all [acts, readsText]
  constructor
  · intro h
    obtain ⟨⟨name', text'⟩, hentry, hessential⟩ := List.mem_filterMap.mp h
    simp only [essential] at hessential
    split at hessential
    · simp only [Option.some.injEq, Prod.mk.injEq] at hessential
      obtain ⟨rfl, rfl⟩ := hessential
      rwa [if_pos hreads]
    · cases hessential
  · intro h
    refine List.mem_filterMap.mpr ⟨_, h, ?_⟩
    simp [essential, hacts, hreads]

/-- With no base, the IRI of a spelling resolves if its prefix is defined. -/
theorem Leaf.resolves_iff {leaf : Leaf} {prefixMap : PrefixMap} {trace : Trace RuleName}
    (h : essence trace = leaf.actions) :
    leaf.Resolves prefixMap [] ↔ PrefixesDefined prefixMap trace := by
  have hnames : PrefixesDefined prefixMap trace ↔ ∀ name,
      (RuleName.prefixedName, name) ∈ leaf.actions →
        (prefixMap.find (beforeColon name)).isSome = true := by
    unfold PrefixesDefined
    rw [← h]
    exact forall_congr' fun name => by rw [mem_essence rfl]
  rw [hnames]
  cases leaf with
  | iri i => cases i <;> simp [Resolves, IriLeaf.Resolves, actions, IriLeaf.actions]
  | blankNodeLabel _ | anon _ | booleanLiteral _ | var _ => simp [Resolves, actions]
  | numericLiteral kind _ => cases kind <;> simp [Resolves, actions, NumberKind.rule]
  | rdfLiteral text suffix =>
      cases suffix with
      | plain | langtag _ => simp [Resolves, actions, Suffix.actions]
      | typeTag i =>
          cases i <;>
            simp [Resolves, IriLeaf.Resolves, actions, Suffix.actions, IriLeaf.actions]

/-- What `parse_term` makes of a spelling in front of the text. -/
theorem parsesTerm_of_yields {text rest : Bytes} {leaf : Leaf} (hleaf : leaf.isVar = false)
    (h : Yields (.ref .term) text (.ok rest) leaf.actions) :
    (∀ t : Term, leaf.element false [] [] 1 = .ok t → ParsesTerm text (.ok t)) ∧
    (∀ fault, leaf.element false [] [] 1 = .error fault → ParsesTerm text (.error notATerm)) := by
  obtain ⟨trace, hrun, hessence⟩ := h
  have hactions : runActions trace (initialState false []) =
      runActions leaf.actions (initialState false []) := by
    rw [runActions_eq_essence, hessence]
  constructor
  · intro t ht
    obtain ⟨s, hs, hreads⟩ :=
      leaf.runActions_ok (s := initialState false []) ⟨rfl, rfl⟩ (.inl hleaf) ht
    refine ⟨_, trace, hrun, ?_⟩
    rw [hactions, hs, parseTermResult, if_neg (by simp), hreads.element]
  · intro fault hfault
    obtain ⟨s, hs⟩ := leaf.runActions_error (s := initialState false []) (.inl hleaf) hfault
    refine ⟨_, trace, hrun, ?_⟩
    rw [hactions, hs, parseTermResult, if_pos (by simp)]

/-- A text that has a term in front: the actions run through exactly when the prefixes
are defined. -/
theorem parsesTerm_of_match {text rest : Bytes} {trace : Trace RuleName}
    (hrun : Run turtle (.ref .term) text (.ok rest) trace) (hdefined : PrefixesDefined [] trace) :
    ∃ (t : Term) (leaf : Leaf), leaf.isVar = false ∧ leaf.WellFormed ∧
      text = leaf.text ++ rest ∧ leaf.element false [] [] 1 = .ok t ∧
      ParsesTerm text (.ok t) := by
  obtain ⟨leaf, hvar, htext, hwell, hessence⟩ := term_leaf hrun
  obtain ⟨t, ht⟩ := (leaf.element_ok_iff (q := false) hwell [] [] 1).mpr
    ((Leaf.resolves_iff hessence).mpr hdefined)
  have hparses := (parsesTerm_of_yields hvar ⟨trace, hrun, hessence⟩).1 t ht
  exact ⟨t, leaf, hvar, hwell, htext, ht, hparses⟩

/-- `parse_term` never throws a `std::logic_error`. -/
theorem ParsesTerm.not_logicError {text what : Bytes} :
    ¬ ParsesTerm text (.error (.logicError what)) := by
  rintro ⟨outcome, trace, -, hresult⟩
  unfold parseTermResult at hresult
  split at hresult
  · rw [notATerm_eq] at hresult
    cases hresult
  · cases hresult

/-- Without bindings, the prefixes are defined if there are none. -/
theorem prefixesDefined_nil {trace : Trace RuleName} :
    PrefixesDefined [] trace ↔ ∀ entry ∈ trace, entry.1 ≠ .prefixedName := by
  constructor
  · rintro hdefined ⟨_, name⟩ hentry rfl
    exact absurd (hdefined name hentry) (by simp)
  · intro hnone name hname
    exact absurd rfl (hnone _ hname)

/-- The functions do what they are for on exactly the texts that are a term from end to
end and in which no prefixed name occurs. -/
theorem termContract_iff (text : Bytes) :
    TermContract text ↔ ∃ trace, Run turtle (.ref .term) text (.ok []) trace ∧
      ∀ entry ∈ trace, entry.1 ≠ .prefixedName := by
  have hterm : IsTerm [] text ↔ ∃ trace, Run turtle (.ref .term) text (.ok []) trace ∧
      ∀ entry ∈ trace, entry.1 ≠ .prefixedName :=
    exists_congr fun trace => and_congr_right fun _ => prefixesDefined_nil
  rw [← hterm]
  constructor
  · intro hcontract
    by_contra hnot
    obtain ⟨what, hparses⟩ := hcontract.rejected hnot
    exact hparses.not_logicError
  · intro h
    have hmatch := h
    obtain ⟨trace, hrun, hdefined⟩ := hmatch
    obtain ⟨t, leaf, hvar, hwell, htext, helement, hparses⟩ :=
      parsesTerm_of_match hrun hdefined
    rw [List.append_nil] at htext
    refine ⟨fun _ => ⟨t, hparses, ⟨leaf, hvar, hwell, htext.symm, helement⟩,
      (Leaf.element_constructed hvar helement).nodeType⟩, fun hnot => absurd h hnot, ?_⟩
    intro result hresult
    rw [hresult.unique hparses]
    exact ⟨iff_of_true rfl h, iff_of_false (by simp [termParsable]) (not_not_intro h)⟩

/-- Every text is parsed. -/
theorem parsesTerm_total (text : Bytes) : ∃ result, ParsesTerm text result := by
  obtain ⟨outcome, trace, hrun⟩ := matching_ends .term text
  exact ⟨_, outcome, trace, hrun, rfl⟩

/-- A text that is no term, not even in front, is parsed as the default term. -/
theorem parsesTerm_of_fail {text : Bytes} {trace : Trace RuleName}
    (hrun : Run turtle (.ref .term) text .fail trace) : ParsesTerm text (.ok {}) := by
  refine ⟨.fail, trace, hrun, ?_⟩
  rw [fail_state rfl hrun]
  rfl

/-- The empty text is accepted. -/
theorem emptyText_accepted : ¬ ∀ text, TermContract text := by
  intro hclaim
  obtain ⟨trace, hrun, -⟩ := (termContract_iff []).mp (hclaim [])
  have hshorter := hrun.consumes consuming_closed rfl
  simp at hshorter

end RdfParser.Turtle
