/-
  Turtle/Collections.lean --- collections as lists of nodes.

  `processCollection` builds the cells of a collection from the last member to the
  first.  What comes out is compared here with a list as RDF has it: one node for each
  member, linked from the first to the last.
-/
import Mathlib.Data.List.Perm.Basic
import RdfParser.Turtle.Balance

set_option autoImplicit false

namespace RdfParser.Rdf

/-! ## Lists of nodes -/

/-- A list over the given nodes: each carries its member and refers to the next one, the
last one to `nil`. -/
def linkedList {E : Type} (first rest nil : E) : List E → List E → List (AbstractTriple E)
  | node :: nodes, member :: members =>
      ⟨node, first, member⟩ :: ⟨node, rest, nodes.head?.getD nil⟩ ::
        linkedList first rest nil nodes members
  | _, _ => []

theorem linkedList_length {E : Type} (first rest nil : E) {nodes members : List E}
    (h : nodes.length = members.length) :
    (linkedList first rest nil nodes members).length = 2 * members.length := by
  induction nodes generalizing members with
  | nil =>
      obtain rfl := List.length_eq_zero_iff.mp h.symm
      rfl
  | cons node nodes ih =>
      cases members with
      | nil => cases h
      | cons member members =>
          have htail := ih (Nat.succ.inj h)
          simp only [linkedList, List.length_cons, htail]
          omega

/-- `operator==` of `Element_t`. -/
def Element.equal : {sparqlQuery : Bool} → Element sparqlQuery → Element sparqlQuery → Bool
  | false, left, right => (show Term from left) == right
  | true, left, right => (show VarOrTerm from left) == right

end RdfParser.Rdf

namespace RdfParser.Turtle

open RdfParser.Foundation RdfParser.Rdf RdfParser.Peg

variable {q : Bool}

/-- Generated nodes are equal exactly when their labels have the same number. -/
theorem unlabeledNode_equal_iff (m n : Nat) :
    (unlabeledNode q m).equal (unlabeledNode q n) = true ↔ m = n := by
  have hterm : (bNode (blankNodeLabel m) == bNode (blankNodeLabel n)) = true ↔ m = n := by
    rw [bNode_beq_iff]
    exact blankNodeLabel_injective.eq_iff
  cases q with
  | false => exact hterm
  | true => exact hterm

/-! ## The cells of a collection -/

/-- The nodes of a collection with `length` members, the one of the first member in
front. -/
def cellNodes (q : Bool) (n : Nat) : Nat → List (Element q)
  | 0 => []
  | length + 1 => unlabeledNode q (n + length) :: cellNodes q n length

@[simp] theorem cellNodes_length (n length : Nat) :
    (cellNodes q n length).length = length := by
  induction length with
  | zero => rfl
  | succ length ih => rw [cellNodes, List.length_cons, ih]

theorem mem_cellNodes {n length : Nat} {node : Element q} :
    node ∈ cellNodes q n length ↔ ∃ i, n ≤ i ∧ i < n + length ∧ node = unlabeledNode q i := by
  induction length with
  | zero =>
      refine iff_of_false (by simp [cellNodes]) ?_
      rintro ⟨i, hle, hlt, -⟩
      omega
  | succ length ih =>
      rw [cellNodes, List.mem_cons, ih]
      constructor
      · rintro (rfl | ⟨i, hle, hlt, rfl⟩)
        · exact ⟨n + length, by omega, by omega, rfl⟩
        · exact ⟨i, hle, by omega, rfl⟩
      · intro ⟨i, hle, hlt, hnode⟩
        by_cases hlast : i = n + length
        · exact .inl (hlast ▸ hnode)
        · exact .inr ⟨i, hle, by omega, hnode⟩

/-- No two nodes of a collection are equal. -/
theorem cellNodes_distinct (n length : Nat) :
    (cellNodes q n length).Pairwise fun left right => left.equal right = false := by
  induction length with
  | zero => exact .nil
  | succ length ih =>
      refine List.pairwise_cons.mpr ⟨?_, ih⟩
      intro node hnode
      obtain ⟨i, -, hlt, rfl⟩ := mem_cellNodes.mp hnode
      refine Bool.eq_false_iff.mpr fun hequal => ?_
      have hsame := (unlabeledNode_equal_iff _ _).mp hequal
      omega

/-- The cells, built from the back, are the list from the front. -/
theorem listCells_perm (n : Nat) (values : List (Element q)) :
    (listCells n values).Perm
      (linkedList (rdfFirst q) (rdfRest q) (rdfNil q) (cellNodes q n values.length) values) := by
  induction values with
  | nil => exact .nil
  | cons value values ih =>
      have hsuccessor : (cellNodes q n values.length).head?.getD (rdfNil q) =
          if values = [] then rdfNil q else unlabeledNode q (n + values.length - 1) := by
        cases values with
        | nil => rfl
        | cons next values => simp [cellNodes, Nat.add_sub_assoc]
      rw [listCells, List.length_cons, cellNodes, linkedList, hsuccessor]
      refine List.perm_append_comm.trans ?_
      exact (List.Perm.swap _ _ _).trans ((ih.cons _).cons _)

/-! ## `processCollection` -/

/-- What the closing parenthesis of a collection with members does: `outer` is the state
before the opening one, `s` the state before and `s'` the state after
`processCollection`. -/
structure BuildsList (outer s s' : State q) (nodes : List (Element q)) : Prop where
  length : nodes.length = s.bnplCollectionList.length
  distinct : nodes.Pairwise fun left right => left.equal right = false
  /-- A label is used up for each node. -/
  generated : ∀ node, node ∈ nodes ↔
    ∃ i, s.latestBNLabel ≤ i ∧ i < s'.latestBNLabel ∧ node = unlabeledNode q i
  fresh : ∀ node ∈ nodes, ∀ i < s.latestBNLabel, node.equal (unlabeledNode q i) = false
  inserted : ∃ cells, s'.inserted = s.inserted ++ cells ∧
    cells.length = 2 * s.bnplCollectionList.length ∧
    cells.Perm
      (linkedList (rdfFirst q) (rdfRest q) (rdfNil q) nodes s.bnplCollectionList)
  element : nodes.head? = some s'.element
  list : s'.bnplCollectionList = outer.bnplCollectionList
  listStack : s'.bnplCollectionListStack = outer.bnplCollectionListStack
  pairs : s'.verbObjectPairList = s.verbObjectPairList
  pairStack : s'.verbObjectPairListStack = s.verbObjectPairListStack
  verbStack : s'.verbStack = s.verbStack
  subject : s'.subject = s.subject

/-- The stack of object lists is as the opening parenthesis has left it. -/
def Within (outer s : State q) : Prop :=
  s.bnplCollectionListStack = outer.moveBnplCollectionListIntoStack.bnplCollectionListStack

theorem processCollection_builds {outer s : State q} (hwithin : Within outer s)
    (hmembers : s.bnplCollectionList ≠ []) :
    ∃ s' nodes, s.processCollection = .ok s' ∧ BuildsList outer s s' nodes := by
  obtain ⟨s', hclose, hcloses⟩ := processCollection_eq s hwithin
  have hlength : (cellNodes q s.latestBNLabel s.bnplCollectionList.length).length =
      s.bnplCollectionList.length := cellNodes_length _ _
  have hcount : cellCount s.bnplCollectionList = s.bnplCollectionList.length :=
    Nat.max_eq_right (List.length_pos_iff.mpr hmembers)
  have hlabel : s'.latestBNLabel = s.latestBNLabel + s.bnplCollectionList.length := by
    have hbook := congrArg PairBook.label hcloses.book
    simp only [PairBook.closeCollection, hcount] at hbook
    exact hbook
  have hcells : collectionTriples s.latestBNLabel s.bnplCollectionList =
      listCells s.latestBNLabel s.bnplCollectionList := if_neg hmembers
  have hperm := listCells_perm s.latestBNLabel s.bnplCollectionList
  refine ⟨s', cellNodes q s.latestBNLabel s.bnplCollectionList.length, hclose, ?_⟩
  refine
    { length := hlength
      distinct := cellNodes_distinct _ _
      generated := fun node => by rw [hlabel]; exact mem_cellNodes
      fresh := ?_
      inserted := ⟨_, congrArg PairBook.inserted hcloses.book, ?_, ?_⟩
      element := ?_
      list := hcloses.list
      listStack := hcloses.listStack
      pairs := congrArg PairBook.pairs hcloses.book
      pairStack := congrArg PairBook.pairsStack hcloses.book
      verbStack := hcloses.verbStack
      subject := hcloses.subject }
  · -- earlier labels have smaller numbers
    intro node hnode i hearlier
    obtain ⟨j, hle, -, rfl⟩ := mem_cellNodes.mp hnode
    refine Bool.eq_false_iff.mpr fun hequal => ?_
    have hsame := (unlabeledNode_equal_iff _ _).mp hequal
    omega
  · have hbook : s.book.label = s.latestBNLabel := rfl
    rw [hbook, hcells, hperm.length_eq]
    exact linkedList_length _ _ _ hlength
  · have hbook : s.book.label = s.latestBNLabel := rfl
    rw [hbook, hcells]
    exact hperm
  · rw [hcloses.element]
    cases hlist : s.bnplCollectionList with
    | nil => exact absurd hlist hmembers
    | cons value values => simp [cellNodes, collectionHead]

/-- What stands between the parentheses of a collection leaves the stack of object lists
as the opening one has left it. -/
theorem collection_within {input rest : Bytes} {t : Trace RuleName} {outer s' : State q}
    (h : Run turtle (.ref (.collection q)) input (.ok rest) t)
    (hrun : runActions t outer = (s', none)) :
    ∃ s, Within outer s ∧ s.processCollection = .ok s' := by
  obtain ⟨k, hk, hsame⟩ := collection_kept h
  obtain ⟨members, -, hactions⟩ := collection_read (objectsRead q input.length) le_rfl hk
  rw [runActions_eq_essence, hsame, hactions] at hrun
  obtain ⟨s, hopened, hclose⟩ := runActions_snoc_inv hrun
  obtain ⟨s₁, hbegin, hmembers⟩ := runActions_append_inv hopened
  obtain rfl : outer.moveBnplCollectionListIntoStack = s₁ :=
    Except.ok.inj (runActions_single_inv hbegin)
  exact ⟨s, (members.level _ _ hmembers).listStack, hclose⟩

/-- Collections become lists: in every state between the parentheses of a collection with
members, `processCollection` builds the list of the members and restores the object list
around it; and where the grammar matches a collection, it is called in such a state. -/
theorem collections_build (q : Bool) :
    (∀ outer s : State q, Within outer s → s.bnplCollectionList ≠ [] →
      ∃ s' nodes, s.processCollection = .ok s' ∧ BuildsList outer s s' nodes) ∧
    ∀ (input rest : Bytes) (t : Trace RuleName) (outer s' : State q),
      Run turtle (.ref (.collection q)) input (.ok rest) t →
      runActions t outer = (s', none) →
      ∃ s, Within outer s ∧ s.processCollection = .ok s' := by
  refine ⟨?_, ?_⟩
  · intro outer s hwithin hmembers
    exact processCollection_builds hwithin hmembers
  · intro input rest t outer s' h hrun
    exact collection_within h hrun

/-- Behind `( <a> <b>`, at the beginning of a document. -/
def twoMembers : State false where
  bnplCollectionList := [uriRef (bytes "a"), uriRef (bytes "b")]
  bnplCollectionListStack := [[]]

theorem twoMembers_build : ∃ s' nodes, twoMembers.processCollection = .ok s' ∧
    BuildsList (initialState false []) twoMembers s' nodes :=
  (collections_build false).1 (initialState false []) twoMembers rfl (by simp [twoMembers])

end RdfParser.Turtle
