/-
  Turtle/Identifiers.lean --- the identifier of a term tells what it was built from.

  The first byte of an identifier tells the kind of the term.  The value of a literal may
  contain anything, quotes included; but what is printed behind it has no quote, so the
  last quote of the identifier is the one that closes the value.
-/
import RdfParser.Turtle.Printing

set_option autoImplicit false

namespace RdfParser.Turtle

open RdfParser.Foundation RdfParser.Rdf

/-! ## Components -/

/-- What the constructors of terms are given. -/
inductive Components where
  | uriRef (uri : Bytes)
  | bNode (bnodeLabel : Bytes)
  | literal (value : Bytes) (lang type : Option Bytes)

namespace Components

/-- The term they build. -/
def term : Components → Term
  | .uriRef uri => Rdf.uriRef uri
  | .bNode bnodeLabel => Rdf.bNode bnodeLabel
  | .literal value lang type => Rdf.literal value lang type

/-- The string between the delimiters. -/
def value : Components → Bytes
  | .uriRef uri => uri
  | .bNode bnodeLabel => bnodeLabel
  | .literal value _ _ => value

/-- The language, empty if there is none. -/
def lang : Components → Bytes
  | .literal _ (some lang) _ => lang
  | _ => []

/-- The datatype, empty if there is none.  The datatype of strings counts as none, and so
does any datatype next to a language. -/
def dataType : Components → Bytes
  | .literal _ none (some type) => if type = xsdString then [] else type
  | _ => []

/-- The same kind and the same components.  A missing datatype is that of strings, and a
datatype next to a language is ignored. -/
def Same : Components → Components → Prop
  | .uriRef uri, .uriRef uri' => uri = uri'
  | .bNode bnodeLabel, .bNode bnodeLabel' => bnodeLabel = bnodeLabel'
  | .literal value lang type, .literal value' lang' type' =>
      value = value' ∧ lang = lang' ∧
        (lang = none → type.getD xsdString = type'.getD xsdString)
  | _, _ => False

/-- Language and datatype have no quotes. -/
def Unquoted : Components → Prop
  | .literal _ lang type => (∀ l ∈ lang, char '"' ∉ l) ∧ ∀ t ∈ type, char '"' ∉ t
  | _ => True

end Components

/-- A term copied member by member, by the defaulted copy operations of `Term`. -/
def copyTerm (t : Term) : Term where
  identifier := t.identifier
  nodeType := t.nodeType
  value := t.value
  lang := t.lang
  dataType := t.dataType

/-- The term itself and its copies. -/
inductive CopyOf (t : Term) : Term → Prop where
  | self : CopyOf t t
  | copy {t' : Term} (h : CopyOf t t') : CopyOf t (copyTerm t')

theorem CopyOf.eq {t t' : Term} (h : CopyOf t t') : t' = t := by
  induction h with
  | self => rfl
  | copy _ ih => exact ih

/-! ## The last quote -/

/-- The last occurrence of a byte splits a text in one way only. -/
theorem last_split {b : UInt8} {before before' after after' : Bytes}
    (h : before ++ b :: after = before' ++ b :: after') (hafter : b ∉ after)
    (hafter' : b ∉ after') : before = before' ∧ after = after' := by
  rcases List.append_eq_append_iff.mp h with ⟨more, rfl, hmore⟩ | ⟨more, rfl, hmore⟩
  · cases more with
    | nil => exact ⟨(List.append_nil before).symm, (List.cons.inj hmore).2⟩
    | cons c more =>
        obtain ⟨-, rfl⟩ := List.cons.inj hmore
        exact absurd (List.mem_append_right more List.mem_cons_self) hafter
  · cases more with
    | nil => exact ⟨List.append_nil before', (List.cons.inj hmore).2.symm⟩
    | cons c more =>
        obtain ⟨-, rfl⟩ := List.cons.inj hmore
        exact absurd (List.mem_append_right more List.mem_cons_self) hafter'

theorem printedSuffix_unquoted {lang type : Option Bytes} (hlang : ∀ l ∈ lang, char '"' ∉ l)
    (htype : ∀ t ∈ type, char '"' ∉ t) : char '"' ∉ printedSuffix lang type := by
  cases lang with
  | some lang =>
      have hnone := hlang lang rfl
      simpa [printedSuffix, bytes, char] using hnone
  | none =>
      cases type with
      | none => exact List.not_mem_nil
      | some type =>
          have hnone := htype type rfl
          simp only [printedSuffix]
          split
          · simpa [bytes, char] using hnone
          · exact List.not_mem_nil

/-- What is printed behind the value tells the language, or else the datatype. -/
theorem printedSuffix_inj {lang lang' type type' : Option Bytes} :
    printedSuffix lang type = printedSuffix lang' type' ↔
      lang = lang' ∧ (lang = none → type.getD xsdString = type'.getD xsdString) := by
  have hplain : ∀ type : Option Bytes, printedSuffix none type =
      if type.getD xsdString ≠ xsdString then bytes "^^<" ++ type.getD xsdString ++ bytes ">"
      else [] := by
    intro type
    cases type <;> simp [printedSuffix]
  cases lang with
  | some lang =>
      cases lang' with
      | some lang' => simp [printedSuffix]
      | none =>
          rw [hplain]
          split <;> simp [printedSuffix, bytes]
  | none =>
      cases lang' with
      | some lang' =>
          rw [hplain]
          split <;> simp [printedSuffix, bytes]
      | none =>
          rw [hplain, hplain]
          constructor
          · intro h
            refine ⟨rfl, fun _ => ?_⟩
            split_ifs at h with htype htype' htype'
            · exact List.append_cancel_left (List.append_cancel_right h)
            · exact absurd h (by simp [bytes])
            · exact absurd h (by simp [bytes])
            · rw [not_not.mp htype, not_not.mp htype']
          · rintro ⟨-, h⟩
            rw [h rfl]

/-! ## The views -/

/-- A view of the middle of a string. -/
theorem stringView_middle {before text after : Bytes} {view : UnboundStringView}
    (hstart : view.start = before.length) (hcount : view.count = text.length) :
    view.stringView (before ++ text ++ after) = text := by
  rw [UnboundStringView.stringView, hstart, hcount, List.append_assoc, List.drop_left,
    List.take_left]

theorem stringView_empty (str : Bytes) : ({} : UnboundStringView).stringView str = [] :=
  List.take_zero

/-- `lang()` of a literal. -/
theorem literal_lang (value : Bytes) (lang type : Option Bytes) :
    termLang (literal value lang type) = (Components.literal value lang type).lang := by
  cases lang with
  | some lang =>
      have hidentifier : (literal value (some lang) type).identifier =
          (bytes "\"" ++ value ++ bytes "\"@") ++ lang ++ [] := (List.append_nil _).symm
      rw [termLang, hidentifier]
      refine stringView_middle ?_ rfl
      simp only [literal, List.length_append]
      rfl
  | none =>
      have hview : (literal value none type).lang = {} := by
        unfold literal
        repeat' split
        all_goals first
          | rfl
          | contradiction
      rw [termLang, hview, stringView_empty]
      rfl

/-- `dataType()` of a literal. -/
theorem literal_dataType (value : Bytes) (lang type : Option Bytes) :
    termDataType (literal value lang type) = (Components.literal value lang type).dataType := by
  by_cases htyped : lang = none ∧ ∃ iri, type = some iri ∧ iri ≠ xsdString
  · obtain ⟨rfl, iri, rfl, hiri⟩ := htyped
    have hliteral : literal value none (some iri) =
        { identifier := (bytes "\"" ++ value ++ bytes "\"^^<") ++ iri ++ bytes ">"
          nodeType := .literal
          value := { start := 1, count := value.length }
          dataType := { start := 1 + value.length + 1 + 2 + 1, count := iri.length } } := by
      rw [literal, if_pos hiri]
    rw [termDataType, hliteral, Components.dataType, if_neg hiri]
    refine stringView_middle ?_ rfl
    simp only [List.length_append]
    rfl
  · have hview : (literal value lang type).dataType = {} := by
      cases lang with
      | some lang => rfl
      | none =>
          cases type with
          | none => rfl
          | some iri =>
              have hiri : iri = xsdString := not_not.mp fun hne => htyped ⟨rfl, iri, rfl, hne⟩
              rw [literal, if_neg (not_not.mpr hiri)]
    have hnone : (Components.literal value lang type).dataType = [] := by
      unfold Components.dataType
      split
      · rename_i heq
        cases heq
        exact if_pos (not_not.mp fun hne => htyped ⟨rfl, _, rfl, hne⟩)
      · rfl
    rw [termDataType, hview, stringView_empty, hnone]

theorem uriRef_views (uri : Bytes) :
    termValue (uriRef uri) = uri ∧ termLang (uriRef uri) = [] ∧ termDataType (uriRef uri) = [] :=
  ⟨stringView_middle (by rfl) rfl, stringView_empty _, stringView_empty _⟩

theorem bNode_views (label : Bytes) :
    termValue (bNode label) = label ∧ termLang (bNode label) = [] ∧
      termDataType (bNode label) = [] := by
  refine ⟨?_, stringView_empty _, stringView_empty _⟩
  have hidentifier : (bNode label).identifier = bytes "_:" ++ label ++ [] :=
    (List.append_nil _).symm
  rw [termValue, hidentifier]
  exact stringView_middle (by rfl) rfl

/-- The accessors return the components. -/
theorem Components.views (c : Components) :
    termValue c.term = c.value ∧ termLang c.term = c.lang ∧ termDataType c.term = c.dataType := by
  cases c with
  | uriRef uri => exact uriRef_views uri
  | bNode label => exact bNode_views label
  | literal value lang type =>
      exact ⟨literal_value value lang type, literal_lang value lang type,
        literal_dataType value lang type⟩

/-! ## Equality -/

/-- Literals with the same identifier have the same components. -/
theorem literal_beq_iff {value value' : Bytes} {lang lang' type type' : Option Bytes}
    (h : (Components.literal value lang type).Unquoted)
    (h' : (Components.literal value' lang' type').Unquoted) :
    (literal value lang type == literal value' lang' type') = true ↔
      (Components.literal value lang type).Same (.literal value' lang' type') := by
  rw [Term.beq_iff, literal_identifier, literal_identifier, Components.Same, ← printedSuffix_inj]
  constructor
  · intro hidentifier
    rw [quoted, quoted, List.append_assoc, List.append_assoc (bytes "\"" ++ value')] at hidentifier
    obtain ⟨hvalue, hsuffix⟩ := last_split hidentifier (printedSuffix_unquoted h.1 h.2)
      (printedSuffix_unquoted h'.1 h'.2)
    exact ⟨List.append_cancel_left hvalue, hsuffix⟩
  · rintro ⟨rfl, hsuffix⟩
    rw [hsuffix]

/-- What the identifier of a kind begins with. -/
def Components.firstByte : Components → UInt8
  | .uriRef _ => char '<'
  | .bNode _ => char '_'
  | .literal _ _ _ => char '"'

theorem Components.firstByte_eq {c c' : Components} (h : (c.term == c'.term) = true) :
    c.firstByte = c'.firstByte := by
  have hhead : ∀ c : Components, c.term.identifier.head? = some c.firstByte := by
    intro c
    cases c with
    | uriRef uri => rfl
    | bNode label => rfl
    | literal value lang type =>
        rw [term, literal_identifier]
        rfl
  have hsame := congrArg List.head? ((Term.beq_iff _ _).mp h)
  rw [hhead, hhead, Option.some.injEq] at hsame
  exact hsame

/-- Terms are equal exactly when they are of one kind and have the same components. -/
theorem Components.beq_iff {c c' : Components} (h : c.Unquoted) (h' : c'.Unquoted) :
    (c.term == c'.term) = true ↔ c.Same c' := by
  have hkind : c.firstByte ≠ c'.firstByte → ¬ (c.term == c'.term) = true :=
    fun hne heq => hne (firstByte_eq heq)
  cases c with
  | uriRef uri =>
      cases c' with
      | uriRef uri' => exact uriRef_beq_iff uri uri'
      | bNode label => exact iff_of_false (hkind (by simp [firstByte, char])) id
      | literal value lang type => exact iff_of_false (hkind (by simp [firstByte, char])) id
  | bNode label =>
      cases c' with
      | uriRef uri => exact iff_of_false (hkind (by simp [firstByte, char])) id
      | bNode label' => exact bNode_beq_iff label label'
      | literal value lang type => exact iff_of_false (hkind (by simp [firstByte, char])) id
  | literal value lang type =>
      cases c' with
      | uriRef uri => exact iff_of_false (hkind (by simp [firstByte, char])) id
      | bNode label => exact iff_of_false (hkind (by simp [firstByte, char])) id
      | literal value' lang' type' => exact literal_beq_iff h h'

/-- The identifier is a faithful encoding: equality of terms is equality of what they were
built from, and every copy gives it back. -/
theorem identifiers_faithful {c c' : Components} (h : c.Unquoted) (h' : c'.Unquoted) :
    ((c.term == c'.term) = true ↔ c.Same c') ∧
      ∀ t, CopyOf c.term t →
        termValue t = c.value ∧ termLang t = c.lang ∧ termDataType t = c.dataType := by
  refine ⟨Components.beq_iff h h', fun t hcopy => ?_⟩
  rw [hcopy.eq]
  exact c.views

/-- A value that looks like the end of a literal, with the datatype of strings and without
one. -/
theorem quotedValue_faithful :
    let value := bytes "a\"@en"
    ((Components.literal value none (some xsdString)).term ==
        (Components.literal value none none).term) = true ∧
      termValue (Components.literal value none (some xsdString)).term = value := by
  intro value
  have hstring : (Components.literal value none (some xsdString)).Unquoted := by
    refine ⟨nofun, fun t ht => ?_⟩
    cases ht
    decide
  have hplain : (Components.literal value none none).Unquoted := ⟨nofun, nofun⟩
  have hfaithful := identifiers_faithful hstring hplain
  exact ⟨hfaithful.1.mpr ⟨rfl, rfl, fun _ => rfl⟩, (hfaithful.2 _ .self).1⟩

end RdfParser.Turtle
