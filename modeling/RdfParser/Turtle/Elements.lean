/-
  Turtle/Elements.lean --- where the elements of the triples come from.

  The actions of the triple level move elements around; the only ones they make
  themselves are unlabeled nodes and the three names of the list vocabulary.
-/
import RdfParser.Turtle.Frame

set_option autoImplicit false

namespace RdfParser.Turtle

open RdfParser.Foundation RdfParser.Rdf RdfParser.Peg

variable {q : Bool}

/-- All three elements of the triple are in `P`. -/
structure TripleIn (P : Element q → Prop) (t : Triple q) : Prop where
  subject : P t.subject
  predicate : P t.predicate
  object : P t.object

/-- All elements the state holds are in `P`. -/
structure State.ElementsIn (P : Element q → Prop) (s : State q) : Prop where
  element : P s.element
  subject : P s.subject
  firstBNPL : P s.firstBNPL
  verbStack : ∀ e ∈ s.verbStack, P e
  list : ∀ e ∈ s.bnplCollectionList, P e
  listStack : ∀ l ∈ s.bnplCollectionListStack, ∀ e ∈ l, P e
  pairs : ∀ pair ∈ s.verbObjectPairList, P pair.1 ∧ P pair.2
  pairStack : ∀ l ∈ s.verbObjectPairListStack, ∀ pair ∈ l, P pair.1 ∧ P pair.2
  inserted : ∀ t ∈ s.inserted, TripleIn P t

/-- The elements the actions of the triple level make. -/
structure Supplies (P : Element q → Prop) : Prop where
  rdfFirst : P (rdfFirst q)
  rdfRest : P (rdfRest q)
  rdfNil : P (rdfNil q)
  unlabeledNode : ∀ n, P (unlabeledNode q n)

variable {P : Element q → Prop}

/-! ## Inserted triples -/

theorem State.inserted_insert (ts : List (Triple q)) (s : State q) :
    (ts.foldl State.insertTriple s).inserted = s.inserted ++ ts := by
  rw [State.foldl_insertTriple]
  simp only [State.inserted, List.filterMap_append, Signal.filterMap_insertTriple]

theorem tripleOf_in {subject : Element q} (hsubject : P subject)
    {pairs : List (Element q × Element q)} (hpairs : ∀ pair ∈ pairs, P pair.1 ∧ P pair.2) :
    ∀ t ∈ pairs.map (tripleOf subject), TripleIn P t := by
  intro t ht
  obtain ⟨pair, hpair, rfl⟩ := List.mem_map.mp ht
  exact ⟨hsubject, (hpairs pair hpair).1, (hpairs pair hpair).2⟩

theorem State.ElementsIn.insert {s : State q} (hs : s.ElementsIn P) {ts : List (Triple q)}
    (hts : ∀ t ∈ ts, TripleIn P t) : (ts.foldl State.insertTriple s).ElementsIn P := by
  have hinserted := State.inserted_insert ts s
  rw [State.foldl_insertTriple] at hinserted ⊢
  refine ⟨hs.element, hs.subject, hs.firstBNPL, hs.verbStack, hs.list, hs.listStack, hs.pairs,
    hs.pairStack, ?_⟩
  rw [hinserted]
  intro t ht
  rcases List.mem_append.mp ht with h | h
  · exact hs.inserted t h
  · exact hts t h

/-! ## The operations -/

theorem listCells_in (hP : Supplies P) (n : Nat) {values : List (Element q)}
    (hvalues : ∀ e ∈ values, P e) : ∀ t ∈ listCells n values, TripleIn P t := by
  induction values with
  | nil => simp [listCells]
  | cons value values ih =>
      intro t ht
      rcases List.mem_append.mp ht with ht | ht
      · exact ih (fun e he => hvalues e (List.mem_cons_of_mem _ he)) t ht
      · have hsuccessor : P (if values = [] then rdfNil q
            else unlabeledNode q (n + values.length - 1)) := by
          split
          · exact hP.rdfNil
          · exact hP.unlabeledNode _
        simp only [List.mem_cons, List.not_mem_nil, or_false] at ht
        rcases ht with rfl | rfl
        · exact ⟨hP.unlabeledNode _, hP.rdfRest, hsuccessor⟩
        · exact ⟨hP.unlabeledNode _, hP.rdfFirst, hvalues value List.mem_cons_self⟩

theorem collectionTriples_in (hP : Supplies P) (n : Nat) {values : List (Element q)}
    (hvalues : ∀ e ∈ values, P e) : ∀ t ∈ collectionTriples n values, TripleIn P t := by
  unfold collectionTriples
  split
  · simp only [List.mem_singleton, forall_eq]
    exact ⟨hP.unlabeledNode n, hP.rdfFirst, hP.rdfNil⟩
  · exact listCells_in hP n hvalues

/-- The object list set aside last comes back. -/
theorem State.ElementsIn.popList {s : State q} (hs : s.ElementsIn P)
    {top : List (Element q)} {rest : List (List (Element q))}
    (hstack : s.bnplCollectionListStack = top :: rest) :
    State.ElementsIn P { s with bnplCollectionList := top, bnplCollectionListStack := rest } := by
  have hlists := hs.listStack
  rw [hstack] at hlists
  exact { hs with
    list := hlists top List.mem_cons_self
    listStack := fun l hl => hlists l (List.mem_cons_of_mem _ hl) }

/-- The pairs set aside last come back. -/
theorem State.ElementsIn.popPairs {s : State q} (hs : s.ElementsIn P)
    {top : List (Element q × Element q)} {rest : List (List (Element q × Element q))}
    (hstack : s.verbObjectPairListStack = top :: rest) :
    State.ElementsIn P { s with verbObjectPairList := top, verbObjectPairListStack := rest } := by
  have hlists := hs.pairStack
  rw [hstack] at hlists
  exact { hs with
    pairs := hlists top List.mem_cons_self
    pairStack := fun l hl => hlists l (List.mem_cons_of_mem _ hl) }

/-- Without pairs to come back, the node becomes the subject of the statement. -/
theorem State.ElementsIn.promote {s : State q} (hs : s.ElementsIn P) {node : Element q}
    (hnode : P node) :
    State.ElementsIn P { s with verbObjectPairList := [], firstBNPL := node } :=
  { hs with firstBNPL := hnode, pairs := by simp }

theorem State.processCollection_elements (hP : Supplies P) {s s' : State q}
    (hs : s.ElementsIn P) (h : s.processCollection = .ok s') : s'.ElementsIn P := by
  unfold State.processCollection at h
  rw [collectionCells_eq] at h
  have hinsert := State.ElementsIn.insert
    (s := { s with toBasicState := { s.toBasicState with
      element := collectionHead s.latestBNLabel s.bnplCollectionList
      latestBNLabel := s.latestBNLabel + cellCount s.bnplCollectionList } })
    { hs with element := hP.unlabeledNode _ }
    (collectionTriples_in hP s.latestBNLabel hs.list)
  simp only at h
  split at h
  · cases h
  · rename_i top rest hstack
    cases h
    exact hinsert.popList hstack

theorem State.processBlankNodePropertyList_elements (hP : Supplies P) {s s' : State q}
    (hs : s.ElementsIn P) (h : s.processBlankNodePropertyList = .ok s') :
    s'.ElementsIn P := by
  unfold State.processBlankNodePropertyList at h
  have hnode := hP.unlabeledNode s.latestBNLabel
  have hinsert := State.ElementsIn.insert
    (s := { s with toBasicState := { s.toBasicState.createBlankNodeLabel.2 with
      element := unlabeledNode q s.latestBNLabel } })
    { hs with element := hnode } (tripleOf_in hnode hs.pairs)
  rw [State.foldl_insertTriple] at hinsert
  simp only [State.foldl_insertTriple] at h
  cases hpairs : s.verbObjectPairListStack with
  | nil =>
      simp only [hpairs] at h
      split at h
      · cases h
      · rename_i top rest hstack
        cases h
        simpa only [hpairs] using (hinsert.promote hnode).popList hstack
  | cons pairs more =>
      simp only [hpairs] at h
      split at h
      · cases h
      · rename_i top rest hstack
        cases h
        simpa only [hpairs] using (hinsert.popPairs hpairs).popList hstack

theorem State.processPredicateObjectListInner_elements {s s' : State q} (hs : s.ElementsIn P)
    (h : s.processPredicateObjectListInner = .ok s') : s'.ElementsIn P := by
  unfold State.processPredicateObjectListInner at h
  split at h
  · cases h
  · rename_i verb rest hverbs
    cases h
    have hstack := hs.verbStack
    rw [hverbs] at hstack
    refine { hs with
      verbStack := fun e he => hstack e (List.mem_cons_of_mem _ he)
      list := by simp
      pairs := ?_ }
    intro pair hpair
    rcases List.mem_append.mp hpair with hpair | hpair
    · exact hs.pairs pair hpair
    · obtain ⟨e, he, rfl⟩ := List.mem_map.mp hpair
      exact ⟨hstack verb List.mem_cons_self, hs.list e he⟩

theorem State.processVerb_elements {s : State q} (hs : s.ElementsIn P) :
    s.processVerb.ElementsIn P := by
  have hverbs : ∀ e ∈ s.element :: s.verbStack, P e :=
    List.forall_mem_cons.mpr ⟨hs.element, hs.verbStack⟩
  unfold State.processVerb
  simp only
  split
  · exact { hs with
      verbStack := hverbs
      pairs := by simp
      pairStack := List.forall_mem_cons.mpr ⟨hs.pairs, hs.pairStack⟩ }
  · exact { hs with verbStack := hverbs }

theorem State.processTripleSeq_elements {s : State q} (hs : s.ElementsIn P) :
    s.processTripleSeq.ElementsIn P :=
  hs.insert (tripleOf_in hs.subject hs.pairs)

/-- The signals that are not insertions insert nothing. -/
theorem State.ElementsIn.signal {s : State q} (hs : s.ElementsIn P) {signal : Signal (Triple q)}
    (hsignal : signal.triple? = none) :
    State.ElementsIn P { s with signals := s.signals ++ [signal] } := by
  refine { hs with inserted := ?_ }
  simp only [State.inserted, List.filterMap_append, List.filterMap_cons, hsignal,
    List.filterMap_nil, List.append_nil]
  exact hs.inserted

theorem State.clearTripleParameters_elements {s : State q} (hs : s.ElementsIn P) :
    s.clearTripleParameters.ElementsIn P :=
  { hs with
    list := List.forall_mem_nil _
    pairs := List.forall_mem_nil _ }

theorem State.moveList_elements {s : State q} (hs : s.ElementsIn P) :
    s.moveBnplCollectionListIntoStack.ElementsIn P :=
  { hs with
    list := List.forall_mem_nil _
    listStack := List.forall_mem_cons.mpr ⟨hs.list, hs.listStack⟩ }

theorem State.pushTerm_elements {s : State q} (hs : s.ElementsIn P) :
    s.pushCurrentTermIntoBnplCollectionList.ElementsIn P := by
  refine { hs with list := ?_ }
  intro e he
  rcases List.mem_append.mp he with he | he
  · exact hs.list e he
  · exact List.mem_singleton.mp he ▸ hs.element

theorem State.setSubject_elements {s : State q} (hs : s.ElementsIn P) {subject : Element q}
    (hsubject : P subject) : (s.setSubject subject).ElementsIn P :=
  { hs with subject := hsubject }

/-- An action keeps the elements in `P`, if the current element it leaves is. -/
theorem apply_elements (hP : Supplies P) {rule : RuleName} {text : Bytes} {s s' : State q}
    (hs : s.ElementsIn P) (h : apply rule text s = .ok s') (helement : P s'.element) :
    s'.ElementsIn P := by
  unfold apply at h
  split at h
  all_goals first
    | exact State.processPredicateObjectListInner_elements hs h
    | exact State.processCollection_elements hP hs h
    | exact State.processBlankNodePropertyList_elements hP hs h
    | rw [Except.ok.injEq] at h
      subst h
    | rw [State.lift_frame h]
      exact { hs with element := helement }
  all_goals first
    | exact hs
    | exact hs.signal rfl
    | exact State.clearTripleParameters_elements hs
    | exact State.processTripleSeq_elements (State.setSubject_elements hs hs.firstBNPL)
    | exact State.processTripleSeq_elements hs
    | exact State.setSubject_elements hs hs.element
    | exact State.processVerb_elements hs
    | exact State.pushTerm_elements hs
    | exact State.moveList_elements hs

end RdfParser.Turtle
