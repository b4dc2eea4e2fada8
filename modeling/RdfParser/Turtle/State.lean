/-
  Turtle/State.lean --- the triple level of the parser state.

  Source: `internal/Turtle/States/State.hpp`.

  `State` is a CRTP base class: it reports to its derived class through
  `insertTriple`, `syncWithMainThread` and `setParsingIsDone`.  The model keeps
  these calls as a list of signals; what a derived state makes of them
  (`SequentialState`, `ConcurrentState`) is a function of that list.

  Stacks are lists with the top in front.
-/
import RdfParser.Turtle.BasicActions

set_option autoImplicit false

namespace RdfParser.Turtle

open RdfParser.Foundation RdfParser.Rdf

/-- A call to the derived class. -/
inductive Signal (T : Type) where
  | insertTriple (t : T)
  | syncWithMainThread
  | setParsingIsDone
  deriving DecidableEq, Repr

/-- The triple of an insertion. -/
def Signal.triple? {T : Type} : Signal T → Option T
  | .insertTriple t => some t
  | _ => none

theorem Signal.filterMap_insertTriple {T : Type} (ts : List T) :
    (ts.map Signal.insertTriple).filterMap Signal.triple? = ts := by
  induction ts with
  | nil => rfl
  | cons t ts ih => simpa [Signal.triple?] using ih

/-- `State<sparqlQuery, Derived>` with its default member values. -/
structure State (q : Bool) extends BasicState q where
  verbStack : List (Element q) := []
  verbStackOneStepPreSize : Nat := 0
  verbStackTwoStepPreSize : Nat := 0
  subject : Element q := Element.default q
  bnplCollectionList : List (Element q) := []
  bnplCollectionListStack : List (List (Element q)) := []
  verbObjectPairList : List (Element q × Element q) := []
  verbObjectPairListStack : List (List (Element q × Element q)) := []
  firstBNPL : Element q := Element.default q
  signals : List (Signal (Triple q)) := []

/-- `URIRef("rdf:first")` as an element. -/
def rdfFirst (q : Bool) : Element q := Element.ofTerm q (uriRef (bytes "rdf:first"))

/-- `URIRef("rdf:rest")` as an element. -/
def rdfRest (q : Bool) : Element q := Element.ofTerm q (uriRef (bytes "rdf:rest"))

/-- `URIRef("rdf:nil")` as an element. -/
def rdfNil (q : Bool) : Element q := Element.ofTerm q (uriRef (bytes "rdf:nil"))

/-- The unlabeled node made of the `n`-th generated label. -/
def unlabeledNode (q : Bool) (n : Nat) : Element q :=
  Element.ofTerm q (bNode (blankNodeLabel n))

theorem unlabeledNode_injective (q : Bool) : Function.Injective (unlabeledNode q) := by
  intro m n h
  exact blankNodeLabel_injective (bNode_inj.mp (Element.ofTerm_injective q h))

/-- The triple of a subject and a verb/object pair. -/
def tripleOf {q : Bool} (subject : Element q) (pair : Element q × Element q) : Triple q :=
  ⟨subject, pair.1, pair.2⟩

namespace State

variable {q : Bool}

/-! ## Calls to the derived class -/

/-- `syncWithMainThread`. -/
def syncWithMainThread (s : State q) : State q :=
  { s with signals := s.signals ++ [.syncWithMainThread] }

/-- `insertTriple`. -/
def insertTriple (s : State q) (t : Triple q) : State q :=
  { s with signals := s.signals ++ [.insertTriple t] }

/-- `setParsingIsDone`. -/
def setParsingIsDone (s : State q) : State q :=
  { s with signals := s.signals ++ [.setParsingIsDone] }

/-- The triples inserted so far, in order. -/
def inserted (s : State q) : List (Triple q) := s.signals.filterMap Signal.triple?

/-! ## Building triples -/

/-- `clearTripleParameters`: the stacks stay as they are. -/
def clearTripleParameters (s : State q) : State q :=
  { s with
    verbStackTwoStepPreSize := 0
    verbStackOneStepPreSize := 0
    bnplCollectionList := []
    verbObjectPairList := [] }

/-- `setSubject`. -/
def setSubject (s : State q) (subject : Element q) : State q := { s with subject := subject }

/-- `processVerb`.  The pairs collected so far are set aside when this verb was
pushed exactly one level above the previous one. -/
def processVerb (s : State q) : State q :=
  let twoStepPreSize := s.verbStackOneStepPreSize
  let s' := { s with
    verbStackTwoStepPreSize := twoStepPreSize
    verbStackOneStepPreSize := s.verbStack.length
    verbStack := s.element :: s.verbStack }
  if s'.verbStack.length = twoStepPreSize + 2 then
    { s' with
      verbObjectPairListStack := s.verbObjectPairList :: s.verbObjectPairListStack
      verbObjectPairList := [] }
  else s'

/-- The variables of the loop in `processCollection`. -/
structure CollectionLoop (q : Bool) where
  basic : BasicState q
  localParsedTerms : List (Triple q)
  lastElement : Bool

/-- One round of the loop in `processCollection`: a cell for one object, linked to
the cell made in the round before. -/
def collectionRound (loop : CollectionLoop q) (object : Element q) : CollectionLoop q :=
  let node := unlabeledNode q loop.basic.latestBNLabel
  let successor :=
    if loop.lastElement then rdfNil q
    else (loop.localParsedTerms.getLast?.map (·.subject)).getD (Element.default q)
  { basic := { loop.basic.createBlankNodeLabel.2 with element := node }
    localParsedTerms :=
      loop.localParsedTerms ++ [⟨node, rdfRest q, successor⟩, ⟨node, rdfFirst q, object⟩]
    lastElement := false }

/-- The list cells of `processCollection`; the empty collection gets one cell that
holds `rdf:nil`. -/
def collectionCells (s : State q) : BasicState q × List (Triple q) :=
  if s.bnplCollectionList = [] then
    let node := unlabeledNode q s.latestBNLabel
    ({ s.toBasicState.createBlankNodeLabel.2 with element := node },
      [⟨node, rdfFirst q, rdfNil q⟩])
  else
    let loop := s.bnplCollectionList.reverse.foldl collectionRound ⟨s.toBasicState, [], true⟩
    (loop.basic, loop.localParsedTerms)

/-- `processCollection`. -/
def processCollection (s : State q) : Except Fault (State q) :=
  let (basic, localParsedTerms) := s.collectionCells
  let s' := localParsedTerms.foldl insertTriple { s with toBasicState := basic }
  match s'.bnplCollectionListStack with
  | [] => .error .emptyStack
  | top :: rest =>
      .ok { s' with bnplCollectionList := top, bnplCollectionListStack := rest }

/-- `processBlankNodePropertyList`. -/
def processBlankNodePropertyList (s : State q) : Except Fault (State q) :=
  let node := unlabeledNode q s.latestBNLabel
  let s₁ := { s with
    toBasicState := { s.toBasicState.createBlankNodeLabel.2 with element := node } }
  let s₂ := (s.verbObjectPairList.map (tripleOf node)).foldl insertTriple s₁
  let s₃ :=
    match s₂.verbObjectPairListStack with
    | top :: rest => { s₂ with verbObjectPairList := top, verbObjectPairListStack := rest }
    | [] => { s₂ with verbObjectPairList := [], firstBNPL := node }
  match s₃.bnplCollectionListStack with
  | [] => .error .emptyStack
  | top :: rest =>
      .ok { s₃ with bnplCollectionList := top, bnplCollectionListStack := rest }

/-- `processPredicateObjectListInner`. -/
def processPredicateObjectListInner (s : State q) : Except Fault (State q) :=
  match s.verbStack with
  | [] => .error .emptyStack
  | verb :: rest =>
      .ok { s with
        verbStack := rest
        verbObjectPairList := s.verbObjectPairList ++ s.bnplCollectionList.map (verb, ·)
        bnplCollectionList := [] }

/-- `processTripleSeq`. -/
def processTripleSeq (s : State q) : State q :=
  (s.verbObjectPairList.map (tripleOf s.subject)).foldl insertTriple s

/-- `moveBnpl_collection_listIntoStack`. -/
def moveBnplCollectionListIntoStack (s : State q) : State q :=
  { s with
    bnplCollectionListStack := s.bnplCollectionList :: s.bnplCollectionListStack
    bnplCollectionList := [] }

/-- `pushCurrentTermIntoBnpl_collection_list`. -/
def pushCurrentTermIntoBnplCollectionList (s : State q) : State q :=
  { s with bnplCollectionList := s.bnplCollectionList ++ [s.element] }

/-! ## Inserting a list of triples -/

/-- Inserting triples one by one only appends to the signals. -/
theorem foldl_insertTriple (ts : List (Triple q)) (s : State q) :
    ts.foldl insertTriple s = { s with signals := s.signals ++ ts.map .insertTriple } := by
  induction ts generalizing s with
  | nil => simp
  | cons t ts ih =>
      rw [List.foldl_cons, ih]
      simp [insertTriple]

end State

end RdfParser.Turtle
