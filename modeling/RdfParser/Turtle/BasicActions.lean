/-
  Turtle/BasicActions.lean --- the actions of the term and directive rules.

  Source: `internal/Turtle/Actions/BasicActions.hpp`.  Each action receives the
  text its rule matched and updates the state; `Except` carries the exceptions
  the string operations and the program itself can raise.
-/
import RdfParser.Turtle.BasicState
import RdfParser.Turtle.Grammar

set_option autoImplicit false

namespace RdfParser.Turtle

open RdfParser.Foundation RdfParser.Rdf

/-! ## Directives

The four directive actions split the matched text once more, with a
`std::stringstream` that knows nothing of the grammar. -/

/-- The prefix and the value that `action<prefixID>` and `action<sparqlPrefix>`
read from the text of a directive. -/
def prefixArguments (text : Bytes) : Except Fault (Bytes × Bytes) := do
  let (_ignore, ss) := extractWord text
  let (pre, ss) := extractWord ss
  let pre ← erase pre (sizeSub pre.length 1) 1
  let (value, _) := extractWord ss
  let value ← erase value 0 1
  let value ← erase value (sizeSub value.length 1) 1
  return (pre, value)

/-- The value that `action<base>` and `action<sparqlBase>` read from the text of
a directive. -/
def baseArgument (text : Bytes) : Except Fault Bytes := do
  let (_ignore, ss) := extractWord text
  let (value, _) := extractWord ss
  let value ← erase value 0 1
  erase value (sizeSub value.length 1) 1

/-- The part of a prefixed name before its first colon. -/
def beforeColon (name : Bytes) : Bytes := name.takeWhile (· != char ':')

/-- The part of a prefixed name after its first colon. -/
def afterColon (name : Bytes) : Bytes := (name.dropWhile (· != char ':')).drop 1

/-- The message of the exception for an unknown prefix. -/
def undefinedPrefix : Bytes := bytes "undefined prefix"

def xsdBoolean : Bytes := bytes "http://www.w3.org/2001/XMLSchema#boolean"
def xsdDouble : Bytes := bytes "http://www.w3.org/2001/XMLSchema#double"
def xsdDecimal : Bytes := bytes "http://www.w3.org/2001/XMLSchema#decimal"
def xsdInteger : Bytes := bytes "http://www.w3.org/2001/XMLSchema#integer"

/-- The IRI of the verb `a`, as written in the source: with its angle brackets. -/
def rdfTypeFixedURI : Bytes := bytes "<http://www.w3.org/1999/02/22-rdf-syntax-ns#type>"

namespace Action

variable {q : Bool}

/-- `action<base>`. -/
def base (text : Bytes) (s : BasicState q) : Except Fault (BasicState q) := do
  return s.setBase (← baseArgument text)

/-- `action<sparqlBase>`. -/
def sparqlBase (text : Bytes) (s : BasicState q) : Except Fault (BasicState q) := do
  return s.setBase (← baseArgument text)

/-- `action<prefixID>`. -/
def prefixID (text : Bytes) (s : BasicState q) : Except Fault (BasicState q) := do
  let (pre, value) ← prefixArguments text
  return s.addPrefix pre value

/-- `action<sparqlPrefix>`. -/
def sparqlPrefix (text : Bytes) (s : BasicState q) : Except Fault (BasicState q) := do
  let (pre, value) ← prefixArguments text
  return s.addPrefix pre value

/-! ## IRIs -/

/-- `action<PrefixedName>`. -/
def prefixedName (text : Bytes) (s : BasicState q) : Except Fault (BasicState q) :=
  let statement := (extractWord text).1
  match s.getPrefixValue (beforeColon statement) with
  | some mappedPrefix =>
      .ok { s.setTerm (uriRef (mappedPrefix ++ afterColon statement)) with
        iriIsIriref := false }
  | none => .error (.runtimeError undefinedPrefix)

/-- `action<IRIREF>`. -/
def iriref (text : Bytes) (s : BasicState q) : Except Fault (BasicState q) := do
  let iri ← substr text 1 (sizeSub text.length 2)
  let iri ← if s.base ≠ [] then insert iri 1 s.base else .ok iri
  return { s.setTerm (uriRef iri) with iriIsIriref := true }

/-- `action<verb_a>`. -/
def verbA (_text : Bytes) (s : BasicState q) : Except Fault (BasicState q) :=
  .ok (s.setTerm (uriRef rdfTypeFixedURI))

/-! ## Blank nodes and variables -/

/-- `action<ANON>`. -/
def anon (_text : Bytes) (s : BasicState q) : Except Fault (BasicState q) :=
  let (label, s) := s.createBlankNodeLabel
  .ok { s with blankNodeString := label }

/-- `action<BLANK_NODE_LABEL>`. -/
def blankNodeLabel (text : Bytes) (s : BasicState q) : Except Fault (BasicState q) := do
  let label ← substr text 2 text.length
  return { s with literalString := label, blankNodeString := label }

/-- The element `action<BlankNode>` makes of a label: a blank node, or in a query
a variable. -/
def blankNodeElement : (sparqlQuery : Bool) → Bytes → Element sparqlQuery
  | false, label => Rdf.bNode label
  | true, label => VarOrTerm.variable { name := label }

/-- `action<BlankNode>`. -/
def blankNode (_text : Bytes) (s : BasicState q) : Except Fault (BasicState q) :=
  .ok { s with element := blankNodeElement q s.blankNodeString }

/-- `action<var>`; the rule `var` is matched in queries only. -/
def var : {q : Bool} → Bytes → BasicState q → Except Fault (BasicState q)
  | true, text, s => do
      let name ← substr text 1 (sizeSub text.length 1)
      return { s with element := VarOrTerm.variable { name := name } }
  | false, _, s => .ok s

/-! ## Literals -/

/-- `action<BooleanLiteral>`. -/
def booleanLiteral (text : Bytes) (s : BasicState q) : Except Fault (BasicState q) :=
  .ok ({ s with literalString := text }.setTerm (Rdf.literal text none (some xsdBoolean)))

/-- `action<DOUBLE>`. -/
def double (_text : Bytes) (s : BasicState q) : Except Fault (BasicState q) :=
  .ok { s with typeTag := xsdDouble }

/-- `action<DECIMAL>`. -/
def decimal (_text : Bytes) (s : BasicState q) : Except Fault (BasicState q) :=
  .ok { s with typeTag := xsdDecimal }

/-- `action<INTEGER>`. -/
def integer (_text : Bytes) (s : BasicState q) : Except Fault (BasicState q) :=
  .ok { s with typeTag := xsdInteger }

/-- `action<NumericLiteral>`. -/
def numericLiteral (text : Bytes) (s : BasicState q) : Except Fault (BasicState q) :=
  .ok (s.setTerm (Rdf.literal text none (some s.typeTag)))

/-- `action<turtleString>`. -/
def turtleString (text : Bytes) (s : BasicState q) : Except Fault (BasicState q) := do
  let body ← substr text 1 (sizeSub (sizeSub text.length 1) 1)
  return { s with literalString := body }

/-- `action<LANGTAG>`. -/
def langtag (text : Bytes) (s : BasicState q) : Except Fault (BasicState q) := do
  let tag ← substr text 1 text.length
  return { s with langTagFound := true, langTag := tag }

/-- `action<RdfLiteralTypeTag>`: the text without `^^`, and without the angle
brackets of an IRIREF. -/
def rdfLiteralTypeTag (text : Bytes) (s : BasicState q) : Except Fault (BasicState q) := do
  let s := { s with typeTagFound := true }
  let tag ←
    if s.iriIsIriref then substr text 3 (sizeSub (sizeSub text.length 3) 1)
    else substr text 2 text.length
  return { s with typeTag := tag }

/-- The datatype `action<RdfLiteral>` makes of a type tag.  Where the tag has no
colon, `find` returns `npos` and `substr(npos + 1)` is the whole tag. -/
def datatypeOf (s : BasicState q) : Bytes :=
  if s.iriIsIriref then s.typeTag
  else
    match s.getPrefixValue (beforeColon s.typeTag) with
    | some mappedPrefix =>
        mappedPrefix ++
          (if s.typeTag.contains (char ':') then afterColon s.typeTag else s.typeTag)
    | none => s.typeTag

/-- `action<RdfLiteral>`. -/
def rdfLiteral (_text : Bytes) (s : BasicState q) : Except Fault (BasicState q) :=
  if s.typeTagFound then
    .ok ({ s with typeTagFound := false }.setTerm
      (Rdf.literal s.literalString none (some (datatypeOf s))))
  else if s.langTagFound then
    .ok ({ s with langTagFound := false }.setTerm
      (Rdf.literal s.literalString (some s.langTag) none))
  else
    .ok (s.setTerm (Rdf.literal s.literalString none none))

end Action

/-! ## What the directive actions read -/

/-- The two words and the three erasures of a prefix directive, in one equation. -/
theorem prefixArguments_eq (text : Bytes) :
    prefixArguments text =
      (let ss := (extractWord text).2
       let name := (extractWord ss).1
       let value := (extractWord (extractWord ss).2).1
       if name = [] ∨ value.tail = [] then .error .outOfRange
       else .ok (name.dropLast, value.tail.dropLast)) := by
  simp only [prefixArguments, erase_last, erase_zero_one]
  by_cases hname : (extractWord (extractWord text).2).1 = []
  · simp [hname, bind, Except.bind]
  · by_cases hvalue : (extractWord (extractWord (extractWord text).2).2).1.tail = []
    · simp [hname, hvalue, bind, Except.bind]
    · simp [hname, hvalue, bind, Except.bind, pure, Except.pure]

theorem baseArgument_eq (text : Bytes) :
    baseArgument text =
      (let value := (extractWord (extractWord text).2).1
       if value.tail = [] then .error .outOfRange else .ok value.tail.dropLast) := by
  simp only [baseArgument, erase_last, erase_zero_one]
  rfl

end RdfParser.Turtle
