/-
  Turtle/Image.lean --- runs whose states are images of each other.

  The builder moves elements around and never looks at them.  So if a map on elements
  takes what one run reads to what another run reads, and keeps what the builder itself
  adds, it takes every state of the one run to the state of the other.
-/
import RdfParser.Turtle.Elements
import RdfParser.Turtle.Pieces

set_option autoImplicit false

namespace RdfParser.Turtle

open RdfParser.Foundation RdfParser.Rdf RdfParser.Peg

variable {q q' : Bool} {f : Element q → Element q'}

/-- The image of a triple. -/
def mapTriple (f : Element q → Element q') (t : Triple q) : Triple q' :=
  ⟨f t.subject, f t.predicate, f t.object⟩

/-- The image of a verb and its object. -/
def mapPair (f : Element q → Element q') (pair : Element q × Element q) :
    Element q' × Element q' :=
  (f pair.1, f pair.2)

/-- What the second state holds is the image of what the first one holds. -/
structure Image (f : Element q → Element q') (s : State q) (s' : State q') : Prop where
  element : s'.element = f s.element
  prefixMap : s'.prefixMap = s.prefixMap
  base : s'.base = s.base
  label : s'.latestBNLabel = s.latestBNLabel
  settled : s.Settled
  settled' : s'.Settled
  oneStep : s'.verbStackOneStepPreSize = s.verbStackOneStepPreSize
  verbStack : s'.verbStack = s.verbStack.map f
  subject : s'.subject = f s.subject
  list : s'.bnplCollectionList = s.bnplCollectionList.map f
  listStack : s'.bnplCollectionListStack = s.bnplCollectionListStack.map (List.map f)
  pairs : s'.verbObjectPairList = s.verbObjectPairList.map (mapPair f)
  pairStack : s'.verbObjectPairListStack = s.verbObjectPairListStack.map (List.map (mapPair f))
  firstBNPL : s'.firstBNPL = f s.firstBNPL
  inserted : s'.inserted = s.inserted.map (mapTriple f)

/-! ## What the builder adds -/

/-- The map keeps the IRIs. -/
def KeepsIris (f : Element q → Element q') : Prop :=
  ∀ uri, f (Element.ofTerm q (uriRef uri)) = Element.ofTerm q' (uriRef uri)

/-- The map keeps the nodes of property lists and collections. -/
def KeepsNodes (f : Element q → Element q') : Prop :=
  ∀ n, f (unlabeledNode q n) = unlabeledNode q' n

theorem map_tripleOf (f : Element q → Element q') (subject : Element q)
    (pairs : List (Element q × Element q)) :
    (pairs.map (tripleOf subject)).map (mapTriple f) =
      (pairs.map (mapPair f)).map (tripleOf (f subject)) := by
  rw [List.map_map, List.map_map]
  rfl

theorem listCells_map (hiris : KeepsIris f) (hnodes : KeepsNodes f) (n : Nat)
    (values : List (Element q)) :
    listCells n (values.map f) = (listCells n values).map (mapTriple f) := by
  induction values with
  | nil => rfl
  | cons value values ih =>
      have hrest : f (rdfRest q) = rdfRest q' := hiris _
      have hfirst : f (rdfFirst q) = rdfFirst q' := hiris _
      have hnil : f (rdfNil q) = rdfNil q' := hiris _
      have hnode : ∀ n, f (unlabeledNode q n) = unlabeledNode q' n := hnodes
      simp only [listCells, List.map_cons, List.map_append, List.map_nil, List.length_map, ih,
        mapTriple, List.map_eq_nil_iff, apply_ite f, hnode, hrest, hfirst, hnil]

theorem collectionTriples_map (hiris : KeepsIris f) (hnodes : KeepsNodes f) (n : Nat)
    (values : List (Element q)) :
    collectionTriples n (values.map f) = (collectionTriples n values).map (mapTriple f) := by
  have hfirst : f (rdfFirst q) = rdfFirst q' := hiris _
  have hnil : f (rdfNil q) = rdfNil q' := hiris _
  have hnode : ∀ n, f (unlabeledNode q n) = unlabeledNode q' n := hnodes
  simp only [collectionTriples, List.map_eq_nil_iff,
    apply_ite (List.map (mapTriple f)), listCells_map hiris hnodes, List.map_cons, List.map_nil,
    mapTriple, hnode, hfirst, hnil]

theorem State.inserted_syncWithMainThread (s : State q) :
    s.syncWithMainThread.inserted = s.inserted := by
  unfold State.syncWithMainThread State.inserted
  rw [List.filterMap_append]
  exact List.append_nil _

theorem State.inserted_setParsingIsDone (s : State q) :
    s.setParsingIsDone.inserted = s.inserted := by
  unfold State.setParsingIsDone State.inserted
  rw [List.filterMap_append]
  exact List.append_nil _

/-- The actions that add nodes to the triples: they close a bracket. -/
def closesBracket : RuleName → Bool
  | .collection _ | .blankNodePropertyList _ => true
  | _ => false

namespace Image

variable {s s₁ : State q} {s' : State q'}

/-! ## Terms -/

/-- Reading terms that stand for an element and for its image. -/
theorem leaf (left right : Leaf) {e : Element q} (h : Image f s s') (hleft : left.Allowed q)
    (hright : right.Allowed q') (hrun : runActions left.actions s = (s₁, none))
    (hlabel : right.nextLabel s.latestBNLabel = left.nextLabel s.latestBNLabel)
    (helement : left.element q s.prefixMap s.base s.latestBNLabel = .ok e)
    (himage : right.element q' s.prefixMap s.base s.latestBNLabel = .ok (f e)) :
    ∃ s₁', runActions right.actions s' = (s₁', none) ∧ Image f s₁ s₁' := by
  obtain ⟨e', he', hreads⟩ := Leaf.runActions_inv h.settled hleft hrun
  obtain rfl : e = e' := Except.ok.inj (helement.symm.trans he')
  rw [← h.prefixMap, ← h.base, ← h.label] at himage
  obtain ⟨s₁', hrun', hreads'⟩ := Leaf.runActions_ok h.settled' hright himage
  refine ⟨s₁', hrun', ?_⟩
  have hothers := hreads.others
  have hothers' := hreads'.others
  refine ⟨by rw [hreads'.element, hreads.element], ?_, ?_, ?_, hreads.settled, hreads'.settled,
    ?_, ?_, ?_, ?_, ?_, ?_, ?_, ?_, ?_⟩
  · rw [hreads'.prefixMap, h.prefixMap, hreads.prefixMap]
  · rw [hreads'.base, h.base, hreads.base]
  · rw [hreads'.latestBNLabel, h.label, hlabel, hreads.latestBNLabel]
  · rw [hothers', hothers]
    exact h.oneStep
  · rw [hothers', hothers]
    exact h.verbStack
  · rw [hothers', hothers]
    exact h.subject
  · rw [hothers', hothers]
    exact h.list
  · rw [hothers', hothers]
    exact h.listStack
  · rw [hothers', hothers]
    exact h.pairs
  · rw [hothers', hothers]
    exact h.pairStack
  · rw [hothers', hothers]
    exact h.firstBNPL
  · rw [hothers', hothers]
    exact h.inserted

/-! ## The operations of the builder -/

theorem setTerm (h : Image f s s') {t : Term}
    (ht : f (Element.ofTerm q t) = Element.ofTerm q' t) :
    Image f { s with toBasicState := s.toBasicState.setTerm t }
      { s' with toBasicState := s'.toBasicState.setTerm t } where
  element := ht.symm
  prefixMap := h.prefixMap
  base := h.base
  label := h.label
  settled := ⟨h.settled.typeTagFound, h.settled.langTagFound⟩
  settled' := ⟨h.settled'.typeTagFound, h.settled'.langTagFound⟩
  oneStep := h.oneStep
  verbStack := h.verbStack
  subject := h.subject
  list := h.list
  listStack := h.listStack
  pairs := h.pairs
  pairStack := h.pairStack
  firstBNPL := h.firstBNPL
  inserted := h.inserted

theorem addPrefix (h : Image f s s') (pre value : Bytes) :
    Image f { s with toBasicState := s.toBasicState.addPrefix pre value }
      { s' with toBasicState := s'.toBasicState.addPrefix pre value } :=
  { h with
    prefixMap := congrArg (PrefixMap.emplace · pre value) h.prefixMap
    settled := ⟨h.settled.typeTagFound, h.settled.langTagFound⟩
    settled' := ⟨h.settled'.typeTagFound, h.settled'.langTagFound⟩ }

theorem setBase (h : Image f s s') (base : Bytes) :
    Image f { s with toBasicState := s.toBasicState.setBase base }
      { s' with toBasicState := s'.toBasicState.setBase base } :=
  { h with
    base := rfl
    settled := ⟨h.settled.typeTagFound, h.settled.langTagFound⟩
    settled' := ⟨h.settled'.typeTagFound, h.settled'.langTagFound⟩ }

theorem setSubject (h : Image f s s') {e : Element q} {e' : Element q'} (he : e' = f e) :
    Image f (s.setSubject e) (s'.setSubject e') :=
  { h with subject := he }

theorem insert (h : Image f s s') {ts : List (Triple q)} {ts' : List (Triple q')}
    (hts : ts' = ts.map (mapTriple f)) :
    Image f (ts.foldl State.insertTriple s) (ts'.foldl State.insertTriple s') := by
  have hinserted := State.inserted_insert ts s
  have hinserted' := State.inserted_insert ts' s'
  rw [State.foldl_insertTriple] at hinserted hinserted' ⊢
  rw [State.foldl_insertTriple]
  refine { h with inserted := ?_ }
  rw [hinserted, hinserted', h.inserted, hts, List.map_append]

theorem processTripleSeq (h : Image f s s') : Image f s.processTripleSeq s'.processTripleSeq := by
  refine h.insert ?_
  rw [h.pairs, h.subject, map_tripleOf]

theorem clear (h : Image f s s') : Image f s.clearTripleParameters s'.clearTripleParameters :=
  { h with oneStep := rfl, list := rfl, pairs := rfl }

theorem push (h : Image f s s') : Image f s.pushCurrentTermIntoBnplCollectionList
    s'.pushCurrentTermIntoBnplCollectionList := by
  refine { h with list := ?_ }
  show s'.bnplCollectionList ++ [s'.element] = (s.bnplCollectionList ++ [s.element]).map f
  rw [h.list, h.element, List.map_append]
  rfl

theorem setAside (h : Image f s s') : Image f s.moveBnplCollectionListIntoStack
    s'.moveBnplCollectionListIntoStack := by
  refine { h with list := rfl, listStack := ?_ }
  show s'.bnplCollectionList :: s'.bnplCollectionListStack =
    (s.bnplCollectionList :: s.bnplCollectionListStack).map (List.map f)
  rw [h.list, h.listStack]
  rfl

theorem processVerb (h : Image f s s') : Image f s.processVerb s'.processVerb := by
  have hstack : s'.verbStack.length = s.verbStack.length := by rw [h.verbStack, List.length_map]
  have hverbs : s'.element :: s'.verbStack = (s.element :: s.verbStack).map f := by
    rw [h.element, h.verbStack]
    rfl
  unfold State.processVerb
  simp only [List.length_cons, hstack, h.oneStep]
  split
  · refine { h with
      oneStep := rfl, verbStack := hverbs, pairs := rfl, pairStack := ?_ }
    show s'.verbObjectPairList :: s'.verbObjectPairListStack =
      (s.verbObjectPairList :: s.verbObjectPairListStack).map (List.map (mapPair f))
    rw [h.pairs, h.pairStack]
    rfl
  · exact { h with oneStep := rfl, verbStack := hverbs }

theorem processPredicateObjectListInner (h : Image f s s')
    (hrun : s.processPredicateObjectListInner = .ok s₁) :
    ∃ s₁', s'.processPredicateObjectListInner = .ok s₁' ∧ Image f s₁ s₁' := by
  unfold State.processPredicateObjectListInner at hrun ⊢
  cases hstack : s.verbStack with
  | nil => simp only [hstack, reduceCtorEq] at hrun
  | cons verb rest =>
      have hstack' : s'.verbStack = f verb :: rest.map f := by rw [h.verbStack, hstack]; rfl
      simp only [hstack, Except.ok.injEq] at hrun
      simp only [hstack']
      refine ⟨_, rfl, ?_⟩
      rw [← hrun]
      refine { h with verbStack := rfl, list := rfl, pairs := ?_ }
      show s'.verbObjectPairList ++ s'.bnplCollectionList.map (f verb, ·) =
        (s.verbObjectPairList ++ s.bnplCollectionList.map (verb, ·)).map (mapPair f)
      rw [h.pairs, h.list, List.map_append, List.map_map, List.map_map]
      rfl

/-- A closed bracket: the triples, the new current element and the label counter. -/
theorem close (h : Image f s s') {e : Element q} {e' : Element q'} (he : e' = f e)
    {label label' : Nat} (hlabel : label' = label) {ts : List (Triple q)}
    {ts' : List (Triple q')} (hts : ts' = ts.map (mapTriple f)) :
    Image f
      (ts.foldl State.insertTriple
        { s with toBasicState := { s.toBasicState with element := e, latestBNLabel := label } })
      (ts'.foldl State.insertTriple
        { s' with toBasicState := { s'.toBasicState with element := e', latestBNLabel := label' } })
      := by
  have hset : Image f
      { s with toBasicState := { s.toBasicState with element := e, latestBNLabel := label } }
      { s' with
        toBasicState := { s'.toBasicState with element := e', latestBNLabel := label' } } :=
    { h with
      element := he
      label := hlabel
      settled := ⟨h.settled.typeTagFound, h.settled.langTagFound⟩
      settled' := ⟨h.settled'.typeTagFound, h.settled'.langTagFound⟩ }
  exact hset.insert hts

/-- The object list that was set aside comes back. -/
theorem restore (h : Image f s s') {outer : List (Element q)} {rest : List (List (Element q))} :
    Image f { s with bnplCollectionList := outer, bnplCollectionListStack := rest }
      { s' with
        bnplCollectionList := outer.map f
        bnplCollectionListStack := rest.map (List.map f) } :=
  { h with list := rfl, listStack := rfl }

theorem processCollection (h : Image f s s') (hiris : KeepsIris f) (hnodes : KeepsNodes f)
    (hrun : s.processCollection = .ok s₁) :
    ∃ s₁', s'.processCollection = .ok s₁' ∧ Image f s₁ s₁' := by
  unfold State.processCollection at hrun ⊢
  rw [collectionCells_eq] at hrun ⊢
  have hvalues : collectionTriples s'.latestBNLabel s'.bnplCollectionList =
      (collectionTriples s.latestBNLabel s.bnplCollectionList).map (mapTriple f) := by
    rw [h.list, h.label, collectionTriples_map hiris hnodes]
  have hhead : collectionHead s'.latestBNLabel s'.bnplCollectionList =
      f (collectionHead s.latestBNLabel s.bnplCollectionList) := by
    rw [h.list, h.label, collectionHead, collectionHead, List.length_map, hnodes]
  have hlabel : s'.latestBNLabel + cellCount s'.bnplCollectionList =
      s.latestBNLabel + cellCount s.bnplCollectionList := by
    rw [h.list, h.label, cellCount, cellCount, List.length_map]
  have hclose := h.close hhead hlabel hvalues
  simp only [State.foldl_insertTriple] at hrun hclose ⊢
  cases hstack : s.bnplCollectionListStack with
  | nil => simp only [hstack, reduceCtorEq] at hrun
  | cons outer rest =>
      have hstack' : s'.bnplCollectionListStack = outer.map f :: rest.map (List.map f) := by
        rw [h.listStack, hstack]
        rfl
      simp only [hstack, Except.ok.injEq] at hrun
      simp only [hstack']
      refine ⟨_, rfl, ?_⟩
      rw [← hrun]
      exact hclose.restore

/-- The pairs that were set aside come back, if there are any. -/
theorem processBlankNodePropertyList (h : Image f s s') (hnodes : KeepsNodes f)
    (hrun : s.processBlankNodePropertyList = .ok s₁) :
    ∃ s₁', s'.processBlankNodePropertyList = .ok s₁' ∧ Image f s₁ s₁' := by
  unfold State.processBlankNodePropertyList at hrun ⊢
  have hnode : unlabeledNode q' s'.latestBNLabel = f (unlabeledNode q s.latestBNLabel) := by
    rw [h.label, hnodes]
  have htriples : s'.verbObjectPairList.map (tripleOf (unlabeledNode q' s'.latestBNLabel)) =
      (s.verbObjectPairList.map (tripleOf (unlabeledNode q s.latestBNLabel))).map
        (mapTriple f) := by
    rw [h.pairs, map_tripleOf, hnode]
  have hclose := h.close hnode (congrArg (· + 1) h.label) htriples
  simp only [State.foldl_insertTriple, BasicState.createBlankNodeLabel] at hrun hclose ⊢
  cases hstack : s.bnplCollectionListStack with
  | nil =>
      cases hpairs : s.verbObjectPairListStack <;> simp only [hpairs, hstack, reduceCtorEq] at hrun
  | cons outer rest =>
      have hstack' : s'.bnplCollectionListStack = outer.map f :: rest.map (List.map f) := by
        rw [h.listStack, hstack]
        rfl
      cases hpairs : s.verbObjectPairListStack with
      | nil =>
          have hpairs' : s'.verbObjectPairListStack = [] := by
            rw [h.pairStack, hpairs]
            rfl
          simp only [hpairs, hstack, Except.ok.injEq] at hrun
          simp only [hpairs', hstack']
          refine ⟨_, rfl, ?_⟩
          rw [← hrun]
          exact { hclose.restore with pairs := rfl, pairStack := rfl, firstBNPL := hnode }
      | cons top others =>
          have hpairs' : s'.verbObjectPairListStack =
              top.map (mapPair f) :: others.map (List.map (mapPair f)) := by
            rw [h.pairStack, hpairs]
            rfl
          simp only [hpairs, hstack, Except.ok.injEq] at hrun
          simp only [hpairs', hstack']
          refine ⟨_, rfl, ?_⟩
          rw [← hrun]
          exact { hclose.restore with pairs := rfl, pairStack := rfl }

theorem directive {name : RuleName} {text : Bytes} (h : Image f s s')
    (hname : name ∈ [.prefixID, .sparqlPrefix, .base, .sparqlBase])
    (hrun : apply name text s = .ok s₁) :
    ∃ s₁', apply name text s' = .ok s₁' ∧ Image f s₁ s₁' := by
  have hprefix : s.lift (Action.prefixID text) = .ok s₁ →
      ∃ s₁', s'.lift (Action.prefixID text) = .ok s₁' ∧ Image f s₁ s₁' := by
    intro hlift
    obtain ⟨pre, value, harguments, hs₁⟩ := Action.prefixID_basic (State.lift_ok hlift)
    rw [State.lift_frame hlift, hs₁]
    refine ⟨_, ?_, h.addPrefix pre value⟩
    simp only [State.lift, Action.prefixID, harguments, bind, Except.bind, pure, Except.pure,
      Except.map]
  have hbase : s.lift (Action.base text) = .ok s₁ →
      ∃ s₁', s'.lift (Action.base text) = .ok s₁' ∧ Image f s₁ s₁' := by
    intro hlift
    obtain ⟨value, hargument, hs₁⟩ := Action.base_basic (State.lift_ok hlift)
    rw [State.lift_frame hlift, hs₁]
    refine ⟨_, ?_, h.setBase value⟩
    simp only [State.lift, Action.base, hargument, bind, Except.bind, pure, Except.pure,
      Except.map]
  simp only [List.mem_cons, List.not_mem_nil, or_false] at hname
  rcases hname with rfl | rfl | rfl | rfl
  · exact hprefix hrun
  · exact hprefix hrun
  · exact hbase hrun
  · exact hbase hrun

/-! ## Runs -/

/-- One action outside of terms. -/
theorem action {name : RuleName} {text : Bytes} (h : Image f s s') (hiris : KeepsIris f)
    (hnodes : closesBracket name = true → KeepsNodes f) (hname : single q name = true)
    (hrun : apply name text s = .ok s₁) :
    ∃ s₁', apply name text s' = .ok s₁' ∧ Image f s₁ s₁' := by
  cases name
  case prefixID | sparqlPrefix | base | sparqlBase => exact h.directive (by simp) hrun
  case predicateObjectListInner => exact h.processPredicateObjectListInner hrun
  case collection => exact h.processCollection hiris (hnodes rfl) hrun
  case blankNodePropertyList => exact h.processBlankNodePropertyList (hnodes rfl) hrun
  case verbA =>
      cases hrun
      exact ⟨_, rfl, h.setTerm (hiris _)⟩
  case verb =>
      cases hrun
      exact ⟨_, rfl, h.processVerb⟩
  case subject =>
      cases hrun
      exact ⟨_, rfl, h.setSubject h.element⟩
  case object =>
      cases hrun
      exact ⟨_, rfl, h.push⟩
  case collectionBegin | blankNodePropertyListBegin =>
      cases hrun
      exact ⟨_, rfl, h.setAside⟩
  case tripleSeq1 =>
      cases hrun
      exact ⟨_, rfl, h.processTripleSeq⟩
  case tripleSeq2 =>
      cases hrun
      exact ⟨_, rfl, (h.setSubject h.firstBNPL).processTripleSeq⟩
  case triple =>
      cases hrun
      exact ⟨_, rfl, h.clear⟩
  case statement =>
      cases hrun
      refine ⟨_, rfl, { h with inserted := ?_ }⟩
      rw [State.inserted_syncWithMainThread, State.inserted_syncWithMainThread, h.inserted]
  case turtleDoc =>
      cases hrun
      refine ⟨_, rfl, { h with inserted := ?_ }⟩
      rw [State.inserted_setParsingIsDone, State.inserted_setParsingIsDone, h.inserted]
  all_goals first
    | exact absurd hname Bool.false_ne_true
    | simp [single, spelled, acts, readsText] at hname

end Image

end RdfParser.Turtle
