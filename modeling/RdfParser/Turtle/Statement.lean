/-
  Turtle/Statement.lean --- syntax trees of triples statements, the actions they
  cause, and the triples they denote.

  The trees follow the rules `object`, `objectList`, `predicateObjectList`,
  `collection`, `blankNodePropertyList` and `triple` of the grammar.  A term or a
  verb appears as the element its own actions leave as the current one.

  `actions` lists the actions of the triple level in the order in which the
  grammar completes its rules.  `denote` is the meaning of a tree on its own
  terms: it never mentions a stack.
-/
import RdfParser.Turtle.Actions

set_option autoImplicit false

namespace RdfParser.Turtle

open RdfParser.Foundation RdfParser.Rdf

/-! ## Syntax trees -/

mutual

/-- `object`. -/
inductive Object (q : Bool) where
  | term (t : Element q)
  /-- `[]` -/
  | anon
  | collection (members : Objects q)
  | blankNodePropertyList (list : PredicateObjectList q)

/-- The members of a collection, or the objects of a verb after the first one. -/
inductive Objects (q : Bool) where
  | nil
  | cons (object : Object q) (objects : Objects q)

/-- `predicateObjectList`: verbs, each with at least one object. -/
inductive PredicateObjectList (q : Bool) where
  | last (verb : Element q) (object : Object q) (objects : Objects q)
  | more (verb : Element q) (object : Object q) (objects : Objects q)
      (next : PredicateObjectList q)

end

/-- `subject`. -/
inductive Subject (q : Bool) where
  | term (t : Element q)
  | anon
  | collection (members : Objects q)

/-- `triple`. -/
inductive Statement (q : Bool) where
  | tripleSeq1 (subject : Subject q) (list : PredicateObjectList q)
  | tripleSeq2 (list : PredicateObjectList q) (rest : Option (PredicateObjectList q))

variable {q : Bool}

/-! ## The actions of a statement -/

/-- One step of building triples: a term becomes the current element, or the
action of a rule runs. -/
inductive BuilderAction (q : Bool) where
  | term (t : Element q)
  | rule (name : RuleName)

/-- The effect of one step on the state. -/
def BuilderAction.run : BuilderAction q → State q → Except Fault (State q)
  | .term t, s => .ok { s with element := t }
  | .rule name, s => apply name [] s

/-- Run a sequence of actions. -/
def runBuilder (actions : List (BuilderAction q)) (s : State q) : Except Fault (State q) :=
  actions.foldlM (fun s action => action.run s) s

mutual

/-- The actions of an object, with the final `action<object>`. -/
def Object.actions : Object q → List (BuilderAction q)
  | .term t => [.term t, .rule (.object q)]
  | .anon => [.rule .anon, .rule .blankNode, .rule (.object q)]
  | .collection members =>
      .rule .collectionBegin :: (members.actions ++ [.rule (.collection q), .rule (.object q)])
  | .blankNodePropertyList list =>
      .rule .blankNodePropertyListBegin ::
        (list.actions ++ [.rule (.blankNodePropertyList q), .rule (.object q)])

def Objects.actions : Objects q → List (BuilderAction q)
  | .nil => []
  | .cons object objects => object.actions ++ objects.actions

def PredicateObjectList.actions : PredicateObjectList q → List (BuilderAction q)
  | .last verb object objects =>
      [.term verb, .rule (.verb q)] ++ object.actions ++ objects.actions ++
        [.rule (.predicateObjectListInner q)]
  | .more verb object objects next =>
      [.term verb, .rule (.verb q)] ++ object.actions ++ objects.actions ++
        [.rule (.predicateObjectListInner q)] ++ next.actions

end

/-- The actions of a subject up to, but without, `action<subject>`. -/
def Subject.actions : Subject q → List (BuilderAction q)
  | .term t => [.term t]
  | .anon => [.rule .anon, .rule .blankNode]
  | .collection members =>
      .rule .collectionBegin :: (members.actions ++ [.rule (.collection q)])

/-- The actions of a statement, with the final `action<triple>`. -/
def Statement.actions : Statement q → List (BuilderAction q)
  | .tripleSeq1 subject list =>
      subject.actions ++ [.rule (.subject q)] ++ list.actions ++
        [.rule (.tripleSeq1 q), .rule (.triple q)]
  | .tripleSeq2 list rest =>
      .rule .blankNodePropertyListBegin ::
        (list.actions ++ [.rule (.blankNodePropertyList q)] ++
          (rest.elim [] PredicateObjectList.actions) ++
          [.rule (.tripleSeq2 q), .rule (.triple q)])

/-! ## List cells

The cells of a collection are numbered from its last member to its first. -/

/-- The cells of the members `values`, with labels from `n` on. -/
def listCells (n : Nat) : List (Element q) → List (Triple q)
  | [] => []
  | value :: values =>
      let node := unlabeledNode q (n + values.length)
      let successor :=
        if values = [] then rdfNil q else unlabeledNode q (n + values.length - 1)
      listCells n values ++ [⟨node, rdfRest q, successor⟩, ⟨node, rdfFirst q, value⟩]

/-- The triples of a collection. -/
def collectionTriples (n : Nat) (values : List (Element q)) : List (Triple q) :=
  if values = [] then [⟨unlabeledNode q n, rdfFirst q, rdfNil q⟩] else listCells n values

/-- The head of a collection. -/
def collectionHead (n : Nat) (values : List (Element q)) : Element q :=
  unlabeledNode q (n + (values.length - 1))

/-- How many nodes a collection needs. -/
def cellCount (values : List (Element q)) : Nat := max 1 values.length

/-! ## Denotation -/

/-- The meaning of a piece of syntax: its value, the triples it states, and the
number of the next generated label. -/
structure Meaning (q : Bool) (V : Type) where
  value : V
  triples : List (Triple q)
  next : Nat

mutual

/-- The value of an object and the triples of the scopes and collections in it. -/
def Object.denote : Object q → Nat → Meaning q (Element q)
  | .term t, n => ⟨t, [], n⟩
  | .anon, n => ⟨Action.blankNodeElement q (blankNodeLabel n), [], n + 1⟩
  | .collection members, n =>
      let m := members.denote n
      ⟨collectionHead m.next m.value, m.triples ++ collectionTriples m.next m.value,
        m.next + cellCount m.value⟩
  | .blankNodePropertyList list, n =>
      let m := list.denote n
      let node := unlabeledNode q m.next
      ⟨node, m.triples ++ m.value.map (tripleOf node), m.next + 1⟩

/-- The values of several objects. -/
def Objects.denote : Objects q → Nat → Meaning q (List (Element q))
  | .nil, n => ⟨[], [], n⟩
  | .cons object objects, n =>
      let m₁ := object.denote n
      let m₂ := objects.denote m₁.next
      ⟨m₁.value :: m₂.value, m₁.triples ++ m₂.triples, m₂.next⟩

/-- The verb/object pairs written directly in a scope. -/
def PredicateObjectList.denote :
    PredicateObjectList q → Nat → Meaning q (List (Element q × Element q))
  | .last verb object objects, n =>
      let m₁ := object.denote n
      let m₂ := objects.denote m₁.next
      ⟨(m₁.value :: m₂.value).map (verb, ·), m₁.triples ++ m₂.triples, m₂.next⟩
  | .more verb object objects next, n =>
      let m₁ := object.denote n
      let m₂ := objects.denote m₁.next
      let m₃ := next.denote m₂.next
      ⟨(m₁.value :: m₂.value).map (verb, ·) ++ m₃.value,
        m₁.triples ++ m₂.triples ++ m₃.triples, m₃.next⟩

end

def Subject.denote : Subject q → Nat → Meaning q (Element q)
  | .term t, n => ⟨t, [], n⟩
  | .anon, n => ⟨Action.blankNodeElement q (blankNodeLabel n), [], n + 1⟩
  | .collection members, n => (Object.collection members).denote n

/-- The triples of a statement: in every scope, each verb/object pair with the
subject of that scope, and the cells of the collections. -/
def Statement.denote : Statement q → Nat → List (Triple q)
  | .tripleSeq1 subject list, n =>
      let m₁ := subject.denote n
      let m₂ := list.denote m₁.next
      m₁.triples ++ m₂.triples ++ m₂.value.map (tripleOf m₁.value)
  | .tripleSeq2 list rest, n =>
      let m₁ := (Object.blankNodePropertyList list).denote n
      match rest with
      | none => m₁.triples
      | some rest =>
          let m₂ := rest.denote m₁.next
          m₁.triples ++ m₂.triples ++ m₂.value.map (tripleOf m₁.value)

end RdfParser.Turtle
