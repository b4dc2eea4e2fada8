/-
  Rdf/Term.lean --- RDF terms, SPARQL variables and triples.

  Sources: `Dice/RDF/Term.hpp`, `Dice/RDF/internal/AbstractTriple.hpp`,
  `Dice/SPARQL/Variable.hpp`, `Dice/SPARQL/TriplePattern.hpp`.

  A term is its printed identifier together with offset/length views into it;
  equality of terms is equality of identifiers.
-/
import RdfParser.Foundation.StdString

set_option autoImplicit false

namespace RdfParser.Rdf

open RdfParser.Foundation

/-! ## Terms -/

/-- `unbound_string_view`: an offset and a length, applicable to any copy of the
string it was made for. -/
structure UnboundStringView where
  start : Nat := 0
  count : Nat := 0
  deriving DecidableEq, Repr

/-- The viewed part of a string. -/
def UnboundStringView.stringView (view : UnboundStringView) (str : Bytes) : Bytes :=
  (str.drop view.start).take view.count

/-- `Term::NodeType`. -/
inductive NodeType where
  | none
  | uriRef
  | bNode
  | literal
  deriving DecidableEq, Repr

/-- `Dice::rdf::Term`; the defaults are those of `Term() = default`. -/
structure Term where
  identifier : Bytes := []
  nodeType : NodeType := .none
  value : UnboundStringView := {}
  lang : UnboundStringView := {}
  dataType : UnboundStringView := {}
  deriving DecidableEq, Repr

/-- `Term::operator==` compares identifiers. -/
instance : BEq Term where
  beq left right := left.identifier == right.identifier

theorem Term.beq_iff (left right : Term) :
    (left == right) = true ↔ left.identifier = right.identifier := by
  show (left.identifier == right.identifier) = true ↔ _
  exact beq_iff_eq

/-- `http://www.w3.org/2001/XMLSchema#string`, the datatype that is not printed. -/
def xsdString : Bytes := bytes "http://www.w3.org/2001/XMLSchema#string"

/-- `URIRef(uri)`. -/
def uriRef (uri : Bytes) : Term where
  identifier := bytes "<" ++ uri ++ bytes ">"
  nodeType := .uriRef
  value := { start := 1, count := uri.length }

/-- `BNode(bnode_label)`. -/
def bNode (bnodeLabel : Bytes) : Term where
  identifier := bytes "_:" ++ bnodeLabel
  nodeType := .bNode
  value := { start := 2, count := bnodeLabel.length }

/-- `Literal(value, lang, type)`. -/
def literal (value : Bytes) (lang type : Option Bytes) : Term :=
  match lang, type with
  | some lang, _ =>
      { identifier := bytes "\"" ++ value ++ bytes "\"@" ++ lang
        nodeType := .literal
        value := { start := 1, count := value.length }
        lang := { start := 1 + value.length + 1 + 1, count := lang.length } }
  | none, some type =>
      if type ≠ xsdString then
        { identifier := bytes "\"" ++ value ++ bytes "\"^^<" ++ type ++ bytes ">"
          nodeType := .literal
          value := { start := 1, count := value.length }
          dataType := { start := 1 + value.length + 1 + 2 + 1, count := type.length } }
      else
        { identifier := bytes "\"" ++ value ++ bytes "\""
          nodeType := .literal
          value := { start := 1, count := value.length } }
  | none, none =>
      { identifier := bytes "\"" ++ value ++ bytes "\""
        nodeType := .literal
        value := { start := 1, count := value.length } }

@[simp] theorem uriRef_identifier (uri : Bytes) :
    (uriRef uri).identifier = bytes "<" ++ uri ++ bytes ">" := rfl

@[simp] theorem bNode_identifier (label : Bytes) :
    (bNode label).identifier = bytes "_:" ++ label := rfl

/-- Two IRIs are the same term exactly when they are the same string. -/
theorem uriRef_beq_iff (left right : Bytes) :
    (uriRef left == uriRef right) = true ↔ left = right := by
  rw [Term.beq_iff, uriRef_identifier, uriRef_identifier]
  simp

theorem uriRef_inj {left right : Bytes} : uriRef left = uriRef right ↔ left = right := by
  constructor
  · intro h
    exact (uriRef_beq_iff left right).mp (by rw [h, Term.beq_iff])
  · rintro rfl
    rfl

/-- Two blank nodes are the same term exactly when they carry the same label. -/
theorem bNode_beq_iff (left right : Bytes) :
    (bNode left == bNode right) = true ↔ left = right := by
  rw [Term.beq_iff, bNode_identifier, bNode_identifier]
  simp

theorem bNode_inj {left right : Bytes} : bNode left = bNode right ↔ left = right := by
  constructor
  · intro h
    exact (bNode_beq_iff left right).mp (by rw [h, Term.beq_iff])
  · rintro rfl
    rfl

/-! ## Variables and pattern elements -/

/-- `Dice::sparql::Variable`. -/
structure Variable where
  name : Bytes := []
  isAnonym : Bool := false
  deriving DecidableEq, Repr

/-- `Variable::operator==` compares names. -/
instance : BEq Variable where
  beq left right := left.name == right.name

/-- `VarOrTerm`, a variant of the two. -/
inductive VarOrTerm where
  | variable (v : Variable)
  | term (t : Term)
  deriving DecidableEq, Repr

/-- `operator==` of the variant: the same alternative, with equal values. -/
instance : BEq VarOrTerm where
  beq
    | .variable left, .variable right => left == right
    | .term left, .term right => left == right
    | _, _ => false

theorem VarOrTerm.variable_beq_iff (left right : Variable) :
    (VarOrTerm.variable left == VarOrTerm.variable right) = true ↔ left.name = right.name := by
  show (left.name == right.name) = true ↔ _
  exact beq_iff_eq

/-- `Element_t`: terms when parsing Turtle, variables or terms when parsing the
triples block of a SPARQL query. -/
def Element : Bool → Type
  | false => Term
  | true => VarOrTerm

namespace Element

/-- The conversion of a `Term` to `Element_t`. -/
def ofTerm : (sparqlQuery : Bool) → Term → Element sparqlQuery
  | false, t => t
  | true, t => VarOrTerm.term t

theorem ofTerm_injective (sparqlQuery : Bool) : Function.Injective (ofTerm sparqlQuery) := by
  intro left right h
  cases sparqlQuery with
  | false => exact h
  | true => exact VarOrTerm.term.inj h

/-- A default constructed element; a variant starts with its first alternative. -/
def default : (sparqlQuery : Bool) → Element sparqlQuery
  | false => ({} : Term)
  | true => VarOrTerm.variable {}

instance (sparqlQuery : Bool) : DecidableEq (Element sparqlQuery) :=
  match sparqlQuery with
  | false => inferInstanceAs (DecidableEq Term)
  | true => inferInstanceAs (DecidableEq VarOrTerm)

end Element

/-! ## Triples -/

/-- `AbstractTriple<Element, Derived>`. -/
structure AbstractTriple (E : Type) where
  subject : E
  predicate : E
  object : E
  deriving DecidableEq, Repr

/-- `Triple_t`: a triple of terms or a triple pattern. -/
abbrev Triple (sparqlQuery : Bool) : Type := AbstractTriple (Element sparqlQuery)

end RdfParser.Rdf
