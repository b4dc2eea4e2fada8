/-
  Turtle/PairBook.lean --- what the builder does with verb/object pairs.

  Everything that can go wrong while building triples concerns the pairs waiting
  for their subject.  `effect` follows a syntax tree and records only that: the
  pairs of the current scope, the lists set aside, the size the verb stack had
  before the last verb, and the node kept for a property list in subject
  position.  `run_actions` shows that the actions of a tree do exactly this to
  the state and leave the rest of the builder as it was.
-/
import RdfParser.Turtle.Statement

set_option autoImplicit false

namespace RdfParser.Turtle

open RdfParser.Foundation RdfParser.Rdf

variable {q : Bool}

/-! ## The book of pairs -/

/-- The part of the state that decides which subject a pair gets. -/
structure PairBook (q : Bool) where
  label : Nat
  oneStepPreSize : Nat
  pairs : List (Element q × Element q)
  pairsStack : List (List (Element q × Element q))
  firstBNPL : Element q
  inserted : List (Triple q)

/-- The book of a state. -/
def State.book (s : State q) : PairBook q where
  label := s.latestBNLabel
  oneStepPreSize := s.verbStackOneStepPreSize
  pairs := s.verbObjectPairList
  pairsStack := s.verbObjectPairListStack
  firstBNPL := s.firstBNPL
  inserted := s.inserted

namespace PairBook

/-- A verb is pushed on a verb stack of the given height. -/
def verb (b : PairBook q) (height : Nat) : PairBook q :=
  if height = b.oneStepPreSize + 1 then
    { b with oneStepPreSize := height, pairs := [], pairsStack := b.pairs :: b.pairsStack }
  else { b with oneStepPreSize := height }

/-- A verb and its objects have been read. -/
def add (b : PairBook q) (verb : Element q) (values : List (Element q)) : PairBook q :=
  { b with pairs := b.pairs ++ values.map (verb, ·) }

/-- A property list is closed. -/
def close (b : PairBook q) : PairBook q :=
  let node := unlabeledNode q b.label
  { b with
    label := b.label + 1
    inserted := b.inserted ++ b.pairs.map (tripleOf node)
    pairs := b.pairsStack.head?.getD []
    pairsStack := b.pairsStack.tail
    firstBNPL := if b.pairsStack = [] then node else b.firstBNPL }

/-- A collection of the given members is closed. -/
def closeCollection (b : PairBook q) (values : List (Element q)) : PairBook q :=
  { b with
    label := b.label + cellCount values
    inserted := b.inserted ++ collectionTriples b.label values }

/-- `[]` has been read. -/
def fresh (b : PairBook q) : PairBook q := { b with label := b.label + 1 }

/-- A verb with its objects is read, given the effects of its objects. -/
def verbObjects (b : PairBook q) (verb : Element q)
    (object : PairBook q → Element q × PairBook q)
    (objects : PairBook q → List (Element q) × PairBook q) (height : Nat) : PairBook q :=
  let (value, b) := object (b.verb height)
  let (values, b) := objects b
  b.add verb (value :: values)

end PairBook

mutual

/-- The value of an object and its effect on the book.  The height is that of the
verb stack while the object is read. -/
def Object.effect : Object q → Nat → PairBook q → Element q × PairBook q
  | .term t, _, b => (t, b)
  | .anon, _, b => (Action.blankNodeElement q (blankNodeLabel b.label), b.fresh)
  | .collection members, height, b =>
      let (values, b) := members.effect height b
      (collectionHead b.label values, b.closeCollection values)
  | .blankNodePropertyList list, height, b =>
      let b := list.effect height b
      (unlabeledNode q b.label, b.close)

def Objects.effect : Objects q → Nat → PairBook q → List (Element q) × PairBook q
  | .nil, _, b => ([], b)
  | .cons object objects, height, b =>
      let (value, b) := object.effect height b
      let (values, b) := objects.effect height b
      (value :: values, b)

/-- The effect of a predicate-object list that starts at the given height. -/
def PredicateObjectList.effect : PredicateObjectList q → Nat → PairBook q → PairBook q
  | .last verb object objects, height, b =>
      b.verbObjects verb (object.effect (height + 1)) (objects.effect (height + 1)) height
  | .more verb object objects next, height, b =>
      next.effect height
        (b.verbObjects verb (object.effect (height + 1)) (objects.effect (height + 1)) height)

end

/-! ## The operations of the state -/

/-- What a piece of syntax leaves behind: the given book and list of values, the
other parts of the builder as they were. -/
structure Leaves (s s' : State q) (b : PairBook q) (list : List (Element q)) : Prop where
  book : s'.book = b
  list : s'.bnplCollectionList = list
  listStack : s'.bnplCollectionListStack = s.bnplCollectionListStack
  verbStack : s'.verbStack = s.verbStack
  subject : s'.subject = s.subject

theorem runBuilder_nil (s : State q) : runBuilder [] s = .ok s := rfl

theorem runBuilder_cons {action : BuilderAction q} {actions : List (BuilderAction q)}
    {s s' : State q} (h : action.run s = .ok s') :
    runBuilder (action :: actions) s = runBuilder actions s' := by
  simp [runBuilder, h, bind, Except.bind]

theorem runBuilder_append {left right : List (BuilderAction q)} {s s' : State q}
    (h : runBuilder left s = .ok s') :
    runBuilder (left ++ right) s = runBuilder right s' := by
  unfold runBuilder at h ⊢
  rw [List.foldlM_append, h]
  rfl

/-- A verb term and `action<verb>`. -/
theorem run_verb (verb : Element q) (s : State q) :
    ∃ s', runBuilder [.term verb, .rule (.verb q)] s = .ok s' ∧
      s'.book = s.book.verb s.verbStack.length ∧ s'.verbStack = verb :: s.verbStack ∧
      s'.bnplCollectionList = s.bnplCollectionList ∧
      s'.bnplCollectionListStack = s.bnplCollectionListStack ∧ s'.subject = s.subject := by
  refine ⟨({ s with element := verb } : State q).processVerb, rfl, ?_⟩
  unfold State.processVerb PairBook.verb
  by_cases h : s.verbStack.length = s.verbStackOneStepPreSize + 1
  · have hpush : (verb :: s.verbStack).length = s.verbStackOneStepPreSize + 2 := by
      rw [List.length_cons, h]
    rw [if_pos hpush, if_pos (show s.verbStack.length = s.book.oneStepPreSize + 1 from h)]
    exact ⟨rfl, rfl, rfl, rfl, rfl⟩
  · have hpush : ¬ (verb :: s.verbStack).length = s.verbStackOneStepPreSize + 2 := by
      rw [List.length_cons]
      omega
    rw [if_neg hpush, if_neg (show ¬ s.verbStack.length = s.book.oneStepPreSize + 1 from h)]
    exact ⟨rfl, rfl, rfl, rfl, rfl⟩

/-- The loop of `processCollection` over the members from last to first. -/
theorem collectionLoop_eq (values : List (Element q)) (basic : BasicState q) :
    ∃ element, values.reverse.foldl State.collectionRound ⟨basic, [], true⟩ =
      { basic :=
          { basic with
            element := element
            latestBNLabel := basic.latestBNLabel + values.length }
        localParsedTerms := listCells basic.latestBNLabel values
        lastElement := decide (values = []) } ∧
      (values ≠ [] → element = collectionHead basic.latestBNLabel values) := by
  induction values with
  | nil => exact ⟨basic.element, rfl, by simp⟩
  | cons value values ih =>
      obtain ⟨element, hloop, -⟩ := ih
      refine ⟨unlabeledNode q (basic.latestBNLabel + values.length), ?_, ?_⟩
      · rw [List.reverse_cons, List.foldl_append, hloop, List.foldl_cons, List.foldl_nil]
        cases values with
        | nil => rfl
        | cons next values =>
            simp only [State.collectionRound, BasicState.createBlankNodeLabel, listCells,
              List.length_cons, reduceCtorEq, decide_false, Bool.false_eq_true, if_false]
            simp [Nat.add_assoc]
      · intro _
        simp [collectionHead]

/-- The cells and the new current element of `processCollection`. -/
theorem collectionCells_eq (s : State q) :
    s.collectionCells =
      ({ s.toBasicState with
          element := collectionHead s.latestBNLabel s.bnplCollectionList
          latestBNLabel := s.latestBNLabel + cellCount s.bnplCollectionList },
        collectionTriples s.latestBNLabel s.bnplCollectionList) := by
  unfold State.collectionCells collectionTriples
  by_cases hnil : s.bnplCollectionList = []
  · simp [hnil, collectionHead, cellCount, BasicState.createBlankNodeLabel]
  · obtain ⟨element, hloop, helement⟩ := collectionLoop_eq s.bnplCollectionList s.toBasicState
    have hpos : 1 ≤ s.bnplCollectionList.length := List.length_pos_iff.mpr hnil
    simp only [if_neg hnil, hloop, helement hnil, cellCount, Nat.max_eq_right hpos]

/-- What closing a bracket does: the given book and current element, and the
object list that was set aside when the bracket was opened. -/
structure Closes (s s' : State q) (b : PairBook q) (element : Element q)
    (outer : List (Element q)) (rest : List (List (Element q))) : Prop where
  book : s'.book = b
  element : s'.element = element
  list : s'.bnplCollectionList = outer
  listStack : s'.bnplCollectionListStack = rest
  verbStack : s'.verbStack = s.verbStack
  subject : s'.subject = s.subject

theorem processCollection_eq (s : State q) {outer : List (Element q)}
    {rest : List (List (Element q))} (hstack : s.bnplCollectionListStack = outer :: rest) :
    ∃ s', s.processCollection = .ok s' ∧
      Closes s s' (s.book.closeCollection s.bnplCollectionList)
        (collectionHead s.latestBNLabel s.bnplCollectionList) outer rest := by
  unfold State.processCollection
  rw [collectionCells_eq]
  simp only [State.foldl_insertTriple, hstack]
  refine ⟨_, rfl, ?_, rfl, rfl, rfl, rfl, rfl⟩
  simp only [State.book, PairBook.closeCollection, State.inserted, List.filterMap_append,
    Signal.filterMap_insertTriple]

theorem processBlankNodePropertyList_eq (s : State q) {outer : List (Element q)}
    {rest : List (List (Element q))} (hstack : s.bnplCollectionListStack = outer :: rest) :
    ∃ s', s.processBlankNodePropertyList = .ok s' ∧
      Closes s s' s.book.close (unlabeledNode q s.latestBNLabel) outer rest := by
  unfold State.processBlankNodePropertyList
  simp only [State.foldl_insertTriple]
  cases hpairs : s.verbObjectPairListStack with
  | nil =>
      simp only [hstack]
      refine ⟨_, rfl, ?_, rfl, rfl, rfl, rfl, rfl⟩
      simp only [State.book, PairBook.close, State.inserted, List.filterMap_append,
        Signal.filterMap_insertTriple, hpairs]
      rfl
  | cons top pairs =>
      simp only [hstack]
      refine ⟨_, rfl, ?_, rfl, rfl, rfl, rfl, rfl⟩
      simp only [State.book, PairBook.close, State.inserted, List.filterMap_append,
        Signal.filterMap_insertTriple, hpairs]
      rfl

/-- Closing a bracket needs the object list that was set aside when it was opened. -/
theorem processCollection_closes {s s' : State q} (h : s.processCollection = .ok s') :
    ∃ outer rest, s.bnplCollectionListStack = outer :: rest ∧
      Closes s s' (s.book.closeCollection s.bnplCollectionList)
        (collectionHead s.latestBNLabel s.bnplCollectionList) outer rest := by
  cases hstack : s.bnplCollectionListStack with
  | nil =>
      unfold State.processCollection at h
      rw [collectionCells_eq] at h
      simp [State.foldl_insertTriple, hstack] at h
  | cons outer rest =>
      obtain ⟨s'', hs'', hcloses⟩ := processCollection_eq s hstack
      rw [h, Except.ok.injEq] at hs''
      rw [hs'']
      exact ⟨outer, rest, rfl, hcloses⟩

theorem processBlankNodePropertyList_closes {s s' : State q}
    (h : s.processBlankNodePropertyList = .ok s') :
    ∃ outer rest, s.bnplCollectionListStack = outer :: rest ∧
      Closes s s' s.book.close (unlabeledNode q s.latestBNLabel) outer rest := by
  cases hstack : s.bnplCollectionListStack with
  | nil =>
      unfold State.processBlankNodePropertyList at h
      simp only [State.foldl_insertTriple] at h
      cases hpairs : s.verbObjectPairListStack <;> simp [hpairs, hstack] at h
  | cons outer rest =>
      obtain ⟨s'', hs'', hcloses⟩ := processBlankNodePropertyList_eq s hstack
      rw [h, Except.ok.injEq] at hs''
      rw [hs'']
      exact ⟨outer, rest, rfl, hcloses⟩

theorem processCollection_inserted {s s' : State q} (h : s.processCollection = .ok s') :
    s'.inserted = s.inserted ++ collectionTriples s.latestBNLabel s.bnplCollectionList := by
  obtain ⟨_, _, -, hcloses⟩ := processCollection_closes h
  exact congrArg PairBook.inserted hcloses.book

theorem processBlankNodePropertyList_inserted {s s' : State q}
    (h : s.processBlankNodePropertyList = .ok s') :
    s'.inserted = s.inserted ++
      s.verbObjectPairList.map (tripleOf (unlabeledNode q s.latestBNLabel)) := by
  obtain ⟨_, _, -, hcloses⟩ := processBlankNodePropertyList_closes h
  exact congrArg PairBook.inserted hcloses.book

theorem processPredicateObjectListInner_eq (s : State q) {verb : Element q}
    {rest : List (Element q)} (hstack : s.verbStack = verb :: rest) :
    ∃ s', s.processPredicateObjectListInner = .ok s' ∧
      s'.book = s.book.add verb s.bnplCollectionList ∧ s'.bnplCollectionList = [] ∧
      s'.bnplCollectionListStack = s.bnplCollectionListStack ∧
      s'.verbStack = rest ∧ s'.subject = s.subject := by
  unfold State.processPredicateObjectListInner
  simp only [hstack]
  exact ⟨_, rfl, rfl, rfl, rfl, rfl, rfl⟩

/-! ## The actions of a tree do what its effect says

By recursion over the tree: each constructor runs its opening action, its parts,
and its closing action, and each of these has its equation above. -/

theorem Leaves.refl (s : State q) : Leaves s s s.book s.bnplCollectionList :=
  ⟨rfl, rfl, rfl, rfl, rfl⟩

/-- `action<object>` puts the current element into the object list. -/
theorem Leaves.push {s s' : State q} {b : PairBook q} {list : List (Element q)}
    (h : Leaves s s' b list) :
    Leaves s s'.pushCurrentTermIntoBnplCollectionList b (list ++ [s'.element]) where
  book := h.book
  list := by rw [← h.list]; rfl
  listStack := h.listStack
  verbStack := h.verbStack
  subject := h.subject

/-- An opening bracket, its contents and the closing bracket restore the object
list around them. -/
theorem Leaves.close {s s₁ s₂ : State q} {b₁ b₂ : PairBook q} {list : List (Element q)}
    {element : Element q} (h : Leaves s.moveBnplCollectionListIntoStack s₁ b₁ list)
    (hclose : Closes s₁ s₂ b₂ element s.bnplCollectionList s.bnplCollectionListStack) :
    Leaves s s₂ b₂ s.bnplCollectionList where
  book := hclose.book
  list := hclose.list
  listStack := hclose.listStack
  verbStack := hclose.verbStack.trans h.verbStack
  subject := hclose.subject.trans h.subject

/-- The actions of a collection without its `action<object>`. -/
theorem run_collection (members : Objects q) (s : State q)
    (hmembers : ∃ s', runBuilder members.actions s.moveBnplCollectionListIntoStack = .ok s' ∧
      Leaves s.moveBnplCollectionListIntoStack s'
        (members.effect s.verbStack.length s.book).2
        (members.effect s.verbStack.length s.book).1) (rest : List (BuilderAction q)) :
    ∃ s', runBuilder (.rule .collectionBegin ::
        (members.actions ++ .rule (.collection q) :: rest)) s = runBuilder rest s' ∧
      s'.element = ((Object.collection members).effect s.verbStack.length s.book).1 ∧
      Leaves s s' ((Object.collection members).effect s.verbStack.length s.book).2
        s.bnplCollectionList := by
  obtain ⟨s₁, hrun, hs₁⟩ := hmembers
  obtain ⟨s₂, hclose, hs₂⟩ := processCollection_eq s₁ hs₁.listStack
  have hopen : (BuilderAction.rule .collectionBegin).run s =
      .ok s.moveBnplCollectionListIntoStack := rfl
  have haction : (BuilderAction.rule (.collection q)).run s₁ = .ok s₂ := hclose
  refine ⟨s₂, ?_, ?_, ?_⟩
  · rw [runBuilder_cons hopen, runBuilder_append hrun, runBuilder_cons haction]
  · have hlabel : s₁.latestBNLabel = s₁.book.label := rfl
    rw [hs₂.element, hlabel, hs₁.book, hs₁.list]
    rfl
  · have hleaves := hs₁.close hs₂
    rw [hs₁.book, hs₁.list] at hleaves
    exact hleaves

/-- The actions of a property list without its `action<object>`. -/
theorem run_blankNodePropertyList (list : PredicateObjectList q) (s : State q)
    (hlist : ∃ s', runBuilder list.actions s.moveBnplCollectionListIntoStack = .ok s' ∧
      Leaves s.moveBnplCollectionListIntoStack s'
        (list.effect s.verbStack.length s.book) []) (rest : List (BuilderAction q)) :
    ∃ s', runBuilder (.rule .blankNodePropertyListBegin ::
        (list.actions ++ .rule (.blankNodePropertyList q) :: rest)) s = runBuilder rest s' ∧
      s'.element = ((Object.blankNodePropertyList list).effect s.verbStack.length s.book).1 ∧
      Leaves s s' ((Object.blankNodePropertyList list).effect s.verbStack.length s.book).2
        s.bnplCollectionList := by
  obtain ⟨s₁, hrun, hs₁⟩ := hlist
  obtain ⟨s₂, hclose, hs₂⟩ := processBlankNodePropertyList_eq s₁ hs₁.listStack
  have hopen : (BuilderAction.rule .blankNodePropertyListBegin).run s =
      .ok s.moveBnplCollectionListIntoStack := rfl
  have haction : (BuilderAction.rule (.blankNodePropertyList q)).run s₁ = .ok s₂ := hclose
  refine ⟨s₂, ?_, ?_, ?_⟩
  · rw [runBuilder_cons hopen, runBuilder_append hrun, runBuilder_cons haction]
  · have hlabel : s₁.latestBNLabel = s₁.book.label := rfl
    rw [hs₂.element, hlabel, hs₁.book]
    rfl
  · have hleaves := hs₁.close hs₂
    rw [hs₁.book] at hleaves
    exact hleaves

/-- The actions of a verb and its objects, given those of the objects. -/
theorem run_verbObjects (verb : Element q) (object : Object q) (objects : Objects q)
    (hobject : ∀ s : State q, ∃ s', runBuilder object.actions s = .ok s' ∧
      Leaves s s' (object.effect s.verbStack.length s.book).2
        (s.bnplCollectionList ++ [(object.effect s.verbStack.length s.book).1]))
    (hobjects : ∀ s : State q, ∃ s', runBuilder objects.actions s = .ok s' ∧
      Leaves s s' (objects.effect s.verbStack.length s.book).2
        (s.bnplCollectionList ++ (objects.effect s.verbStack.length s.book).1))
    (s : State q) (hempty : s.bnplCollectionList = []) :
    ∃ s', runBuilder ([.term verb, .rule (.verb q)] ++ object.actions ++ objects.actions ++
        [.rule (.predicateObjectListInner q)]) s = .ok s' ∧
      Leaves s s' (s.book.verbObjects verb (object.effect (s.verbStack.length + 1))
        (objects.effect (s.verbStack.length + 1)) s.verbStack.length) [] := by
  obtain ⟨s₀, hverb, hbook₀, hverbStack₀, hlist₀, hlistStack₀, hsubject₀⟩ := run_verb verb s
  obtain ⟨s₁, hrun₁, hs₁⟩ := hobject s₀
  obtain ⟨s₂, hrun₂, hs₂⟩ := hobjects s₁
  rw [hs₁.verbStack, hs₁.book, hs₁.list, hlist₀, hempty, List.nil_append, hbook₀,
    hverbStack₀, List.length_cons] at hs₂
  have hstack : s₂.verbStack = verb :: s.verbStack := by
    rw [hs₂.verbStack, hs₁.verbStack, hverbStack₀]
  obtain ⟨s₃, hclose, hbook, hlist₃, hlistStack₃, hverbStack₃, hsubject₃⟩ :=
    processPredicateObjectListInner_eq s₂ hstack
  have haction : (BuilderAction.rule (.predicateObjectListInner q)).run s₂ = .ok s₃ := hclose
  refine ⟨s₃, ?_, ?_, hlist₃, ?_, hverbStack₃, ?_⟩
  · rw [List.append_assoc, List.append_assoc, runBuilder_append hverb, runBuilder_append hrun₁,
      runBuilder_append hrun₂, runBuilder_cons haction, runBuilder_nil]
  · rw [hbook, hs₂.book, hs₂.list]
    rfl
  · rw [hlistStack₃, hs₂.listStack, hs₁.listStack, hlistStack₀]
  · rw [hsubject₃, hs₂.subject, hs₁.subject, hsubject₀]

mutual

theorem Object.run_actions : ∀ (o : Object q) (s : State q),
    ∃ s', runBuilder o.actions s = .ok s' ∧
      Leaves s s' (o.effect s.verbStack.length s.book).2
        (s.bnplCollectionList ++ [(o.effect s.verbStack.length s.book).1])
  | .term t, s => ⟨_, rfl, ⟨rfl, rfl, rfl, rfl, rfl⟩⟩
  | .anon, s => ⟨_, rfl, ⟨rfl, rfl, rfl, rfl, rfl⟩⟩
  | .collection members, s => by
      obtain ⟨s', hrun, helement, hs'⟩ := run_collection members s
        (members.run_actions s.moveBnplCollectionListIntoStack) [.rule (.object q)]
      refine ⟨s'.pushCurrentTermIntoBnplCollectionList, hrun.trans rfl, ?_⟩
      rw [← helement]
      exact hs'.push
  | .blankNodePropertyList list, s => by
      obtain ⟨s', hrun, helement, hs'⟩ := run_blankNodePropertyList list s
        (list.run_actions s.moveBnplCollectionListIntoStack rfl) [.rule (.object q)]
      refine ⟨s'.pushCurrentTermIntoBnplCollectionList, hrun.trans rfl, ?_⟩
      rw [← helement]
      exact hs'.push

theorem Objects.run_actions : ∀ (os : Objects q) (s : State q),
    ∃ s', runBuilder os.actions s = .ok s' ∧
      Leaves s s' (os.effect s.verbStack.length s.book).2
        (s.bnplCollectionList ++ (os.effect s.verbStack.length s.book).1)
  | .nil, s => ⟨s, rfl, by simpa [Objects.effect] using Leaves.refl s⟩
  | .cons object objects, s => by
      obtain ⟨s₁, hrun₁, hs₁⟩ := object.run_actions s
      obtain ⟨s₂, hrun₂, hs₂⟩ := objects.run_actions s₁
      rw [hs₁.verbStack, hs₁.book, hs₁.list] at hs₂
      refine ⟨s₂, ?_, hs₂.book, ?_, hs₂.listStack.trans hs₁.listStack,
        hs₂.verbStack.trans hs₁.verbStack, hs₂.subject.trans hs₁.subject⟩
      · rw [Objects.actions, runBuilder_append hrun₁, hrun₂]
      · rw [hs₂.list, List.append_assoc]
        rfl

theorem PredicateObjectList.run_actions : ∀ (list : PredicateObjectList q) (s : State q),
    s.bnplCollectionList = [] →
    ∃ s', runBuilder list.actions s = .ok s' ∧
      Leaves s s' (list.effect s.verbStack.length s.book) []
  | .last verb object objects, s, hempty =>
      run_verbObjects verb object objects (fun s => object.run_actions s)
        (fun s => objects.run_actions s) s hempty
  | .more verb object objects next, s, hempty => by
      obtain ⟨s₁, hrun₁, hs₁⟩ := run_verbObjects verb object objects
        (fun s => object.run_actions s) (fun s => objects.run_actions s) s hempty
      obtain ⟨s₂, hrun₂, hs₂⟩ := next.run_actions s₁ hs₁.list
      rw [hs₁.verbStack, hs₁.book] at hs₂
      refine ⟨s₂, ?_, hs₂.book, hs₂.list, hs₂.listStack.trans hs₁.listStack,
        hs₂.verbStack.trans hs₁.verbStack, hs₂.subject.trans hs₁.subject⟩
      rw [PredicateObjectList.actions, runBuilder_append hrun₁, hrun₂]

end

/-! ## Statements -/

/-- The value of a subject and its effect on the book. -/
def Subject.effect : Subject q → PairBook q → Element q × PairBook q
  | .term t, b => (t, b)
  | .anon, b => (Action.blankNodeElement q (blankNodeLabel b.label), b.fresh)
  | .collection members, b => (Object.collection members).effect 0 b

/-- The triples inserted once a statement has been read, starting from a book. -/
def Statement.effect : Statement q → PairBook q → List (Triple q)
  | .tripleSeq1 subject list, b =>
      let (value, b) := subject.effect b
      let b := list.effect 0 b
      b.inserted ++ b.pairs.map (tripleOf value)
  | .tripleSeq2 list rest, b =>
      let (_, b) := (Object.blankNodePropertyList list).effect 0 b
      let b := rest.elim b fun rest => rest.effect 0 b
      b.inserted ++ b.pairs.map (tripleOf b.firstBNPL)

/-- Nothing is left over from an earlier statement. -/
structure State.Clean (s : State q) : Prop where
  verbStack : s.verbStack = []
  listStack : s.bnplCollectionListStack = []
  pairsStack : s.verbObjectPairListStack = []
  list : s.bnplCollectionList = []
  pairs : s.verbObjectPairList = []

theorem Subject.run_actions (subject : Subject q) (s : State q) (hstack : s.verbStack = [])
    (rest : List (BuilderAction q)) :
    ∃ s', runBuilder (subject.actions ++ .rule (.subject q) :: rest) s = runBuilder rest s' ∧
      s'.subject = (subject.effect s.book).1 ∧ s'.book = (subject.effect s.book).2 ∧
      s'.verbStack = [] ∧ s'.bnplCollectionList = s.bnplCollectionList := by
  cases subject with
  | term t => exact ⟨_, rfl, rfl, rfl, hstack, rfl⟩
  | anon => exact ⟨_, rfl, rfl, rfl, hstack, rfl⟩
  | collection members =>
      obtain ⟨s', hrun, helement, hs'⟩ := run_collection members s
        (members.run_actions s.moveBnplCollectionListIntoStack) (.rule (.subject q) :: rest)
      rw [hstack] at helement hs'
      refine ⟨s'.setSubject s'.element, ?_, helement, hs'.book,
        hs'.verbStack.trans hstack, hs'.list⟩
      rw [Subject.actions, List.cons_append, List.append_assoc, List.singleton_append, hrun]
      exact runBuilder_cons rfl

/-- The triples `processTripleSeq` adds, and `clearTripleParameters` after it. -/
theorem run_tripleSeq (s : State q) :
    s.processTripleSeq.clearTripleParameters.inserted =
      s.book.inserted ++ s.book.pairs.map (tripleOf s.subject) := by
  unfold State.processTripleSeq
  rw [State.foldl_insertTriple]
  simp only [State.clearTripleParameters, State.inserted, List.filterMap_append,
    Signal.filterMap_insertTriple]
  rfl

/-- The book once the pairs of a statement have got their subject. -/
def PairBook.finish (b : PairBook q) (subject : Element q) : PairBook q :=
  { b with
    oneStepPreSize := 0
    pairs := []
    inserted := b.inserted ++ b.pairs.map (tripleOf subject) }

/-- The book behind a statement. -/
def Statement.after : Statement q → PairBook q → PairBook q
  | .tripleSeq1 subject list, b =>
      let (value, b) := subject.effect b
      (list.effect 0 b).finish value
  | .tripleSeq2 list rest, b =>
      let (_, b) := (Object.blankNodePropertyList list).effect 0 b
      let b := rest.elim b fun rest => rest.effect 0 b
      b.finish b.firstBNPL

theorem Statement.after_inserted (st : Statement q) (b : PairBook q) :
    (st.after b).inserted = st.effect b := by
  cases st <;> rfl

/-- `processTripleSeq`, and `clearTripleParameters` after it. -/
theorem run_finish (s : State q) :
    s.processTripleSeq.clearTripleParameters.book = s.book.finish s.subject ∧
      s.processTripleSeq.clearTripleParameters.verbStack = s.verbStack ∧
      s.processTripleSeq.clearTripleParameters.bnplCollectionList = [] := by
  have hinserted := run_tripleSeq s
  unfold State.processTripleSeq at hinserted ⊢
  rw [State.foldl_insertTriple] at hinserted ⊢
  refine ⟨?_, rfl, rfl⟩
  unfold State.book PairBook.finish
  rw [hinserted]
  rfl

/-- The actions of a statement succeed between two verbs, and leave nothing but the book
behind. -/
theorem Statement.run_book (st : Statement q) (s : State q) (hstack : s.verbStack = [])
    (hlist : s.bnplCollectionList = []) :
    ∃ s', runBuilder st.actions s = .ok s' ∧ s'.book = st.after s.book ∧ s'.verbStack = [] ∧
      s'.bnplCollectionList = [] := by
  cases st with
  | tripleSeq1 subject list =>
      obtain ⟨s₁, hrun₁, hsubject₁, hbook₁, hstack₁, hlist₁⟩ :=
        subject.run_actions s hstack (list.actions ++ [.rule (.tripleSeq1 q), .rule (.triple q)])
      obtain ⟨s₂, hrun₂, hs₂⟩ := list.run_actions s₁ (hlist₁.trans hlist)
      obtain ⟨hbook, hverbs, hempty⟩ := run_finish s₂
      refine ⟨s₂.processTripleSeq.clearTripleParameters, ?_, ?_, ?_, hempty⟩
      · rw [Statement.actions, List.append_assoc, List.append_assoc, List.singleton_append,
          hrun₁, runBuilder_append hrun₂]
        rfl
      · rw [hbook, hs₂.book, hs₂.subject, hsubject₁, hstack₁, hbook₁]
        rfl
      · rw [hverbs, hs₂.verbStack, hstack₁]
  | tripleSeq2 list rest =>
      obtain ⟨s₁, hrun₁, -, hs₁⟩ := run_blankNodePropertyList list s
        (list.run_actions s.moveBnplCollectionListIntoStack rfl)
        (rest.elim [] PredicateObjectList.actions ++ [.rule (.tripleSeq2 q), .rule (.triple q)])
      rw [hstack] at hs₁
      have hstack₁ : s₁.verbStack = [] := hs₁.verbStack.trans hstack
      have hrest : ∃ s₂, runBuilder (rest.elim [] PredicateObjectList.actions) s₁ = .ok s₂ ∧
          s₂.book = rest.elim s₁.book (fun rest => rest.effect 0 s₁.book) ∧
          s₂.verbStack = [] := by
        cases rest with
        | none => exact ⟨s₁, rfl, rfl, hstack₁⟩
        | some rest =>
            obtain ⟨s₂, hrun₂, hs₂⟩ := rest.run_actions s₁ (hs₁.list.trans hlist)
            rw [hstack₁] at hs₂
            exact ⟨s₂, hrun₂, hs₂.book, hs₂.verbStack.trans hstack₁⟩
      obtain ⟨s₂, hrun₂, hbook₂, hstack₂⟩ := hrest
      obtain ⟨hbook, hverbs, hempty⟩ := run_finish (s₂.setSubject s₂.firstBNPL)
      refine ⟨(s₂.setSubject s₂.firstBNPL).processTripleSeq.clearTripleParameters, ?_, ?_,
        hverbs.trans hstack₂, hempty⟩
      · rw [Statement.actions, List.append_assoc, List.append_assoc, List.singleton_append,
          hrun₁, runBuilder_append hrun₂]
        rfl
      · have hfirst : (s₂.setSubject s₂.firstBNPL).subject = s₂.book.firstBNPL := rfl
        have hsame : (s₂.setSubject s₂.firstBNPL).book = s₂.book := rfl
        rw [hbook, hfirst, hsame, hbook₂, hs₁.book]
        rfl

/-- The actions of a statement, started in a clean state, succeed and insert what
its effect says. -/
theorem Statement.run_actions (st : Statement q) (s : State q) (hclean : s.Clean) :
    ∃ s', runBuilder st.actions s = .ok s' ∧ s'.inserted = st.effect s.book := by
  obtain ⟨s', hrun, hbook, -, -⟩ := st.run_book s hclean.verbStack hclean.list
  refine ⟨s', hrun, ?_⟩
  rw [← Statement.after_inserted, ← hbook]
  rfl

end RdfParser.Turtle
