/-
  Turtle/Balance.lean --- a finished statement leaves the builder empty.

  The stacks of verbs and of object lists are popped as often as they are pushed.  The
  stack of pair lists is pushed only by a verb one level above the verb before it, which
  is the first verb of a property list at most, and popped at the end of every property
  list.  So it never gets higher.
-/
import RdfParser.Turtle.Stacks
import RdfParser.Turtle.Syntax

set_option autoImplicit false

namespace RdfParser.Turtle

open RdfParser.Foundation RdfParser.Rdf RdfParser.Peg

variable {q : Bool}

/-- Nothing is left in the builder. -/
structure State.Balanced (s : State q) : Prop where
  verbStack : s.verbStack = []
  listStack : s.bnplCollectionListStack = []
  pairStack : s.verbObjectPairListStack = []
  list : s.bnplCollectionList = []
  pairs : s.verbObjectPairList = []
  oneStep : s.verbStackOneStepPreSize = 0
  twoStep : s.verbStackTwoStepPreSize = 0

/-! ## Terms -/

/-- The actions of terms, which do not touch the builder. -/
def termLevel : RuleName → Bool
  | .iriref | .prefixedName | .blankNodeLabel | .anon | .blankNode | .booleanLiteral => true
  | .double | .decimal | .integer | .numericLiteral | .turtleString | .langtag => true
  | .rdfLiteralTypeTag | .rdfLiteral | .var | .verbA => true
  | _ => false

theorem apply_termLevel {name : RuleName} (hname : termLevel name = true) {text : Bytes}
    {s s' : State q} (h : apply name text s = .ok s') :
    s' = { s with toBasicState := s'.toBasicState } := by
  cases name <;> first
    | exact State.lift_frame h
    | exact absurd hname Bool.false_ne_true

theorem runActions_termLevel {trace : Trace RuleName} (htrace : trace.Within termLevel)
    {s s' : State q} (h : runActions trace s = (s', none)) :
    s' = { s with toBasicState := s'.toBasicState } := by
  induction trace generalizing s with
  | nil =>
      cases h
      rfl
  | cons entry trace ih =>
      obtain ⟨s₁, happly, hrest⟩ := runActions_cons_inv h
      have hfirst := apply_termLevel (htrace entry (List.mem_cons_self ..)) happly
      have hmore := ih (fun other hother => htrace other (List.mem_cons_of_mem _ hother)) hrest
      rw [hmore, hfirst]

theorem IriLeaf.actions_termLevel (i : IriLeaf) : i.actions.Within termLevel := by
  cases i <;> simp [actions, Trace.Within, termLevel]

theorem Leaf.actions_termLevel (leaf : Leaf) : leaf.actions.Within termLevel := by
  cases leaf with
  | iri i => exact i.actions_termLevel
  | numericLiteral kind text =>
      cases kind <;> simp [actions, Trace.Within, termLevel, NumberKind.rule]
  | rdfLiteral text suffix =>
      have hsuffix : suffix.actions.Within termLevel := by
        cases suffix with
        | plain => exact .nil
        | langtag text => simp [Suffix.actions, Trace.Within, termLevel]
        | typeTag i =>
            exact i.actions_termLevel.append (by simp [Trace.Within, termLevel])
      have hstring : Trace.Within termLevel [(RuleName.turtleString, text)] := by
        simp [Trace.Within, termLevel]
      have hlast : Trace.Within termLevel [(RuleName.rdfLiteral, [])] := by
        simp [Trace.Within, termLevel]
      exact hstring.append (hsuffix.append hlast)
  | _ => simp [actions, Trace.Within, termLevel]

/-! ## The height of the stacks -/

/-- An object and the like: the stacks are as high as before, that of the pairs at most;
the remembered size does not fall below the height of the verbs. -/
structure Level (s s' : State q) : Prop where
  verbStack : s'.verbStack = s.verbStack
  listStack : s'.bnplCollectionListStack = s.bnplCollectionListStack
  pairStack : s'.verbObjectPairListStack.length ≤ s.verbObjectPairListStack.length
  oneStep : min s.verbStackOneStepPreSize s.verbStack.length ≤ s'.verbStackOneStepPreSize

/-- How much higher the stack of pairs may get with the next verb. -/
def room (s : State q) : Nat :=
  if s.verbStack.length = s.verbStackOneStepPreSize + 1 then 1 else 0

/-- A list of verbs and objects. -/
structure Listed (s s' : State q) : Prop where
  verbStack : s'.verbStack = s.verbStack
  listStack : s'.bnplCollectionListStack = s.bnplCollectionListStack
  pairStack : s'.verbObjectPairListStack.length ≤ s.verbObjectPairListStack.length + room s
  oneStep : s.verbStack.length ≤ s'.verbStackOneStepPreSize

theorem Level.refl (s : State q) : Level s s := ⟨rfl, rfl, le_rfl, min_le_left _ _⟩

theorem Level.trans {s₁ s₂ s₃ : State q} (h : Level s₁ s₂) (h' : Level s₂ s₃) :
    Level s₁ s₃ := by
  have hone := h.oneStep
  have hone' := h'.oneStep
  rw [h.verbStack] at hone'
  refine ⟨h'.verbStack.trans h.verbStack, h'.listStack.trans h.listStack,
    h'.pairStack.trans h.pairStack, ?_⟩
  omega

/-- A term changes nothing in the builder. -/
theorem Level.of_basic {s s' : State q} (h : s' = { s with toBasicState := s'.toBasicState }) :
    Level s s' := by
  rw [h]
  exact ⟨rfl, rfl, le_rfl, min_le_left _ _⟩

theorem Leaf.level {leaf : Leaf} {s s' : State q} (h : runActions leaf.actions s = (s', none)) :
    Level s s' :=
  .of_basic (runActions_termLevel leaf.actions_termLevel h)

/-! ### Single actions -/

/-- A run that ends with one action. -/
theorem runActions_snoc_inv {trace : Trace RuleName} {name : RuleName} {text : Bytes}
    {s s' : State q} (h : runActions (trace ++ [(name, text)]) s = (s', none)) :
    ∃ s₁, runActions trace s = (s₁, none) ∧ apply name text s₁ = .ok s' := by
  obtain ⟨s₁, hfirst, hlast⟩ := runActions_append_inv h
  obtain ⟨s₂, happly, hnil⟩ := runActions_cons_inv hlast
  obtain rfl : s₂ = s' := congrArg Prod.fst hnil
  exact ⟨s₁, hfirst, happly⟩

theorem runActions_single_inv {name : RuleName} {text : Bytes} {s s' : State q}
    (h : runActions [(name, text)] s = (s', none)) : apply name text s = .ok s' := by
  have hsnoc : runActions ([] ++ [(name, text)]) s = (s', none) := h
  obtain ⟨s₁, hnil, happly⟩ := runActions_snoc_inv hsnoc
  obtain rfl : s = s₁ := congrArg Prod.fst hnil
  exact happly

theorem Level.push (s : State q) : Level s s.pushCurrentTermIntoBnplCollectionList :=
  ⟨rfl, rfl, le_rfl, min_le_left _ _⟩

/-- A bracket that closes over a list of objects. -/
theorem Level.collection {s s₁ s' : State q} (h : Level s.moveBnplCollectionListIntoStack s₁)
    (hclose : s₁.processCollection = .ok s') : Level s s' := by
  obtain ⟨s₂, hsame, hcloses⟩ := processCollection_eq s₁ h.listStack
  obtain rfl := Except.ok.inj (hsame.symm.trans hclose)
  have hpairs : s₂.verbObjectPairListStack = s₁.verbObjectPairListStack :=
    congrArg PairBook.pairsStack hcloses.book
  have hone : s₂.verbStackOneStepPreSize = s₁.verbStackOneStepPreSize :=
    congrArg PairBook.oneStepPreSize hcloses.book
  refine ⟨hcloses.verbStack.trans h.verbStack, hcloses.listStack, ?_, ?_⟩
  · rw [hpairs]
    exact h.pairStack
  · rw [hone]
    exact h.oneStep

/-- A bracket that closes over a list of verbs and objects: it takes back what its first
verb may have pushed. -/
theorem Listed.close {s s₁ s' : State q} (h : Listed s.moveBnplCollectionListIntoStack s₁)
    (hclose : s₁.processBlankNodePropertyList = .ok s') :
    Level s s' ∧ s.verbStack.length ≤ s'.verbStackOneStepPreSize := by
  obtain ⟨s₂, hsame, hcloses⟩ := processBlankNodePropertyList_eq s₁ h.listStack
  obtain rfl := Except.ok.inj (hsame.symm.trans hclose)
  have hpairs : s₂.verbObjectPairListStack = s₁.verbObjectPairListStack.tail :=
    congrArg PairBook.pairsStack hcloses.book
  have hone : s₂.verbStackOneStepPreSize = s₁.verbStackOneStepPreSize :=
    congrArg PairBook.oneStepPreSize hcloses.book
  have hheight : s.verbStack.length ≤ s₂.verbStackOneStepPreSize := hone ▸ h.oneStep
  refine ⟨⟨hcloses.verbStack.trans h.verbStack, hcloses.listStack, ?_, ?_⟩, hheight⟩
  · have hroom : room s.moveBnplCollectionListIntoStack ≤ 1 := by
      unfold room
      split <;> omega
    have hbound := h.pairStack
    rw [hpairs, List.length_tail]
    have hstart : s.moveBnplCollectionListIntoStack.verbObjectPairListStack =
        s.verbObjectPairListStack := rfl
    rw [hstart] at hbound
    omega
  · exact (min_le_right _ _).trans hheight

/-- A verb: one more on its stack, and the pairs may be set aside. -/
structure Pushed (s s' : State q) : Prop where
  verbStack : ∃ verb, s'.verbStack = verb :: s.verbStack
  listStack : s'.bnplCollectionListStack = s.bnplCollectionListStack
  pairStack : s'.verbObjectPairListStack.length ≤ s.verbObjectPairListStack.length + room s
  oneStep : s'.verbStackOneStepPreSize = s.verbStack.length

theorem State.processVerb_pushed (s : State q) : Pushed s s.processVerb := by
  unfold State.processVerb
  simp only
  split
  · rename_i hpush
    refine ⟨⟨_, rfl⟩, rfl, ?_, rfl⟩
    have hroom : room s = 1 := if_pos (by simpa using hpush)
    rw [hroom]
    simp
  · exact ⟨⟨_, rfl⟩, rfl, Nat.le_add_right _ _, rfl⟩

theorem Pushed.of_basic {s s₁ s' : State q}
    (hbasic : s₁ = { s with toBasicState := s₁.toBasicState }) (h : Pushed s₁ s') :
    Pushed s s' := by
  rw [hbasic] at h
  exact ⟨h.verbStack, h.listStack, h.pairStack, h.oneStep⟩

theorem VerbTree.pushed {verb : VerbTree} {s s' : State q}
    (h : runActions (verb.actions q) s = (s', none)) : Pushed s s' := by
  have hverb : ∀ {before : Trace RuleName}, before.Within termLevel →
      runActions (before ++ [(.verb q, [])]) s = (s', none) → Pushed s s' := by
    intro before hbefore hrun
    obtain ⟨s₁, hbasic, happly⟩ := runActions_snoc_inv hrun
    obtain rfl : s₁.processVerb = s' := Except.ok.inj happly
    exact (State.processVerb_pushed s₁).of_basic (runActions_termLevel hbefore hbasic)
  cases verb with
  | term leaf => exact hverb leaf.actions_termLevel h
  | a =>
      have ha : Trace.Within termLevel [(RuleName.verbA, [])] := by
        simp [Trace.Within, termLevel]
      exact hverb ha h

/-- A verb with its objects. -/
theorem Pushed.inner {s s₁ s₂ s' : State q} (hverb : Pushed s s₁) (hobjects : Level s₁ s₂)
    (hclose : s₂.processPredicateObjectListInner = .ok s') : Listed s s' := by
  obtain ⟨verb, hstack⟩ := hverb.verbStack
  obtain ⟨s₃, hsame, hbook, -, hlists, hverbs, -⟩ :=
    processPredicateObjectListInner_eq s₂ (hobjects.verbStack.trans hstack)
  obtain rfl := Except.ok.inj (hsame.symm.trans hclose)
  have hpairs : s₃.verbObjectPairListStack = s₂.verbObjectPairListStack :=
    congrArg PairBook.pairsStack hbook
  have hone : s₃.verbStackOneStepPreSize = s₂.verbStackOneStepPreSize :=
    congrArg PairBook.oneStepPreSize hbook
  refine ⟨hverbs, hlists.trans (hobjects.listStack.trans hverb.listStack), ?_, ?_⟩
  · rw [hpairs]
    exact hobjects.pairStack.trans hverb.pairStack
  · have hheight := hobjects.oneStep
    rw [hverb.oneStep, hstack, List.length_cons] at hheight
    rw [hone]
    omega

/-- A further list of verbs in the same scope pushes nothing. -/
theorem Listed.trans {s s₁ s' : State q} (h : Listed s s₁) (h' : Listed s₁ s') : Listed s s' := by
  have hheight := h.oneStep
  have hheight' := h'.oneStep
  rw [h.verbStack] at hheight'
  have hroom : room s₁ = 0 := by
    refine if_neg ?_
    rw [h.verbStack]
    omega
  have hpairs := h'.pairStack
  rw [hroom, Nat.add_zero] at hpairs
  exact ⟨h'.verbStack.trans h.verbStack, h'.listStack.trans h.listStack,
    hpairs.trans h.pairStack, hheight'⟩

/-! ## By recursion over the tree -/

mutual

theorem ObjectTree.level : ∀ (object : ObjectTree) (s s' : State q),
    runActions (object.actions q) s = (s', none) → Level s s'
  | .term leaf, s, s', h => by
      obtain ⟨s₁, hleaf, happly⟩ := runActions_snoc_inv h
      obtain rfl : s₁.pushCurrentTermIntoBnplCollectionList = s' := Except.ok.inj happly
      exact (Leaf.level hleaf).trans (.push s₁)
  | .collection members, s, s', h => by
      obtain ⟨s₁, hbody, hlast⟩ := runActions_append_inv h
      obtain ⟨s₂, hbegin, hmembers⟩ := runActions_append_inv hbody
      obtain rfl : s.moveBnplCollectionListIntoStack = s₂ :=
        Except.ok.inj (runActions_single_inv hbegin)
      obtain ⟨s₃, hclose, hpush⟩ := runActions_cons_inv hlast
      obtain rfl : s₃.pushCurrentTermIntoBnplCollectionList = s' :=
        Except.ok.inj (runActions_single_inv hpush)
      exact ((members.level _ _ hmembers).collection hclose).trans (.push s₃)
  | .blankNodePropertyList list, s, s', h => by
      obtain ⟨s₁, hbody, hlast⟩ := runActions_append_inv h
      obtain ⟨s₂, hbegin, hlist⟩ := runActions_append_inv hbody
      obtain rfl : s.moveBnplCollectionListIntoStack = s₂ :=
        Except.ok.inj (runActions_single_inv hbegin)
      obtain ⟨s₃, hclose, hpush⟩ := runActions_cons_inv hlast
      obtain rfl : s₃.pushCurrentTermIntoBnplCollectionList = s' :=
        Except.ok.inj (runActions_single_inv hpush)
      exact ((list.listed _ _ hlist).close hclose).1.trans (.push s₃)

theorem ObjectsTree.level : ∀ (objects : ObjectsTree) (s s' : State q),
    runActions (objects.actions q) s = (s', none) → Level s s'
  | .nil, s, s', h => by
      obtain rfl : s = s' := congrArg Prod.fst h
      exact .refl s
  | .cons object objects, s, s', h => by
      obtain ⟨s₁, hobject, hobjects⟩ := runActions_append_inv h
      exact (object.level _ _ hobject).trans (objects.level _ _ hobjects)

theorem ListTree.listed : ∀ (list : ListTree) (s s' : State q),
    runActions (list.actions q) s = (s', none) → Listed s s'
  | .last verb object objects, s, s', h => by
      obtain ⟨s₃, hbody, hclose⟩ := runActions_snoc_inv h
      obtain ⟨s₂, hbody, hobjects⟩ := runActions_append_inv hbody
      obtain ⟨s₁, hverb, hobject⟩ := runActions_append_inv hbody
      exact (VerbTree.pushed hverb).inner
        ((object.level _ _ hobject).trans (objects.level _ _ hobjects)) hclose
  | .more verb object objects next, s, s', h => by
      obtain ⟨s₄, hbody, hnext⟩ := runActions_append_inv h
      obtain ⟨s₃, hbody, hclose⟩ := runActions_snoc_inv hbody
      obtain ⟨s₂, hbody, hobjects⟩ := runActions_append_inv hbody
      obtain ⟨s₁, hverb, hobject⟩ := runActions_append_inv hbody
      have hfirst := (VerbTree.pushed hverb).inner
        ((object.level _ _ hobject).trans (objects.level _ _ hobjects)) hclose
      exact hfirst.trans (next.listed _ _ hnext)

end

/-! ## Statements -/

/-- The three stacks are empty. -/
structure State.Emptied (s : State q) : Prop where
  verbStack : s.verbStack = []
  listStack : s.bnplCollectionListStack = []
  pairStack : s.verbObjectPairListStack = []

theorem State.Balanced.emptied {s : State q} (h : s.Balanced) : s.Emptied :=
  ⟨h.verbStack, h.listStack, h.pairStack⟩

theorem Level.emptied {s s' : State q} (h : Level s s') (hs : s.Emptied) : s'.Emptied := by
  refine ⟨h.verbStack.trans hs.verbStack, h.listStack.trans hs.listStack, ?_⟩
  have hpairs := h.pairStack
  rw [hs.pairStack] at hpairs
  exact List.length_eq_zero_iff.mp (Nat.le_zero.mp hpairs)

/-- Outside of brackets there is no room for pairs that are set aside. -/
theorem Listed.emptied {s s' : State q} (h : Listed s s') (hs : s.Emptied) : s'.Emptied := by
  refine ⟨h.verbStack.trans hs.verbStack, h.listStack.trans hs.listStack, ?_⟩
  have hpairs := h.pairStack
  have hroom : room s = 0 := by
    unfold room
    rw [hs.verbStack]
    exact if_neg (Nat.zero_ne_add_one _)
  rw [hs.pairStack, hroom] at hpairs
  exact List.length_eq_zero_iff.mp (Nat.le_zero.mp hpairs)

theorem State.Emptied.congr {s s' : State q} (hs : s.Emptied) (hverbs : s'.verbStack = s.verbStack)
    (hlists : s'.bnplCollectionListStack = s.bnplCollectionListStack)
    (hpairs : s'.verbObjectPairListStack = s.verbObjectPairListStack) : s'.Emptied :=
  ⟨hverbs.trans hs.verbStack, hlists.trans hs.listStack, hpairs.trans hs.pairStack⟩

theorem State.Emptied.processTripleSeq {s : State q} (hs : s.Emptied) :
    s.processTripleSeq.Emptied := by
  unfold State.processTripleSeq
  rw [State.foldl_insertTriple]
  exact hs.congr rfl rfl rfl

/-- `action<triple>` clears the rest. -/
theorem State.Emptied.clear {s : State q} (hs : s.Emptied) : s.clearTripleParameters.Balanced :=
  ⟨hs.verbStack, hs.listStack, hs.pairStack, rfl, rfl, rfl, rfl⟩

theorem SubjectTree.level {subject : SubjectTree} {s s' : State q}
    (h : runActions (subject.actions q) s = (s', none)) : Level s s' := by
  cases subject with
  | term leaf => exact Leaf.level h
  | collection members =>
      obtain ⟨s₁, hbody, hclose⟩ := runActions_snoc_inv h
      obtain ⟨s₂, hbegin, hmembers⟩ := runActions_append_inv hbody
      obtain rfl : s.moveBnplCollectionListIntoStack = s₂ :=
        Except.ok.inj (runActions_single_inv hbegin)
      exact (members.level _ _ hmembers).collection hclose

theorem StatementTree.balanced {statement : StatementTree} {s s' : State q} (hs : s.Balanced)
    (h : runActions (statement.actions q) s = (s', none)) : s'.Balanced := by
  cases statement with
  | tripleSeq1 subject list =>
      obtain ⟨s₃, hbody, hlast⟩ := runActions_append_inv h
      obtain ⟨s₂, hbody, hlist⟩ := runActions_append_inv hbody
      obtain ⟨s₁, hsubject, happly⟩ := runActions_snoc_inv hbody
      obtain rfl : s₁.setSubject s₁.element = s₂ := Except.ok.inj happly
      have hs₁ := (SubjectTree.level hsubject).emptied hs.emptied
      have hs₂ : (s₁.setSubject s₁.element).Emptied := hs₁.congr rfl rfl rfl
      have hs₃ := (list.listed _ _ hlist).emptied hs₂
      obtain ⟨s₄, hseq, hclear⟩ := runActions_cons_inv hlast
      obtain rfl : s₃.processTripleSeq = s₄ := Except.ok.inj hseq
      obtain rfl : s₃.processTripleSeq.clearTripleParameters = s' :=
        Except.ok.inj (runActions_single_inv hclear)
      exact hs₃.processTripleSeq.clear
  | tripleSeq2 list rest =>
      obtain ⟨s₄, hbody, hlast⟩ := runActions_append_inv h
      obtain ⟨s₃, hbody, hrest⟩ := runActions_append_inv hbody
      obtain ⟨s₂, hbody, hclose⟩ := runActions_snoc_inv hbody
      obtain ⟨s₁, hbegin, hlist⟩ := runActions_append_inv hbody
      obtain rfl : s.moveBnplCollectionListIntoStack = s₁ :=
        Except.ok.inj (runActions_single_inv hbegin)
      have hs₃ := ((list.listed _ _ hlist).close hclose).1.emptied hs.emptied
      have hs₄ : s₄.Emptied := by
        cases rest with
        | none =>
            obtain rfl : s₃ = s₄ := congrArg Prod.fst hrest
            exact hs₃
        | some more => exact (more.listed _ _ hrest).emptied hs₃
      obtain ⟨s₅, hseq, hclear⟩ := runActions_cons_inv hlast
      obtain rfl : (s₄.setSubject s₄.firstBNPL).processTripleSeq = s₅ := Except.ok.inj hseq
      obtain rfl : (s₄.setSubject s₄.firstBNPL).processTripleSeq.clearTripleParameters = s' :=
        Except.ok.inj (runActions_single_inv hclear)
      have hset : (s₄.setSubject s₄.firstBNPL).Emptied := hs₄.congr rfl rfl rfl
      exact hset.processTripleSeq.clear

/-! ## The balance -/

/-- In every match and from every state, no stack is popped when it is empty; and a
statement that is followed by its full stop leaves an empty builder empty. -/
theorem stacks_balanced :
    (∀ (q : Bool) (rule : Rule RuleName) (input : Bytes) (outcome : Outcome)
      (trace : Trace RuleName) (s : State q), Run turtle rule input outcome trace →
      (runActions trace s).2 ≠ some .emptyStack) ∧
    ∀ (q : Bool) (input middle rest : Bytes) (trace layout : Trace RuleName) (s s' : State q),
      s.Balanced → Run turtle (.ref (.triple q)) input (.ok middle) trace →
      Run turtle (.ref .ignored) middle (.ok (char '.' :: rest)) layout →
      runActions trace s = (s', none) → s'.Balanced := by
  constructor
  · intro q rule input outcome trace s h
    exact (run_stacks h s).fault
  · intro q input middle rest trace layout s s' hs htriple hlayout hactions
    have hstop : Run turtle (ch '.') (char '.' :: rest) (.ok rest) [] :=
      .byteOk (beq_self_eq_true _)
    have hstatement : Run turtle (.ref (.tripleExtended q)) input (.ok rest) _ :=
      .ref (.seqNext htriple (.seqNext hlayout hstop))
    obtain ⟨statement, -, hessence⟩ := tripleExtended_read hstatement
    obtain ⟨k, hkeeps⟩ := hlayout.keeps rfl
    obtain ⟨_, hlayout', hnone⟩ := (layout_yields hkeeps).2
    obtain ⟨-, rfl⟩ := hlayout.deterministic hlayout'
    have hidle := essence_idle (show acts (.tripleExtended q) = false from rfl)
      (consumed input rest)
    have hsame : essence trace = statement.actions q := by
      rw [← hessence, essence_append, essence_append, essence_append, hnone, closing, hidle]
      simp
    rw [runActions_eq_essence, hsame] at hactions
    exact StatementTree.balanced hs hactions

/-- A property list and a collection in each other. -/
def nestedStatement : Bytes := bytes "<s> <p> [ <q> ( [ <r> <a> ] <b> ) ; <r> <c> ] ."

theorem initialState_balanced (q : Bool) (prefixMap : PrefixMap) :
    (initialState q prefixMap).Balanced :=
  ⟨rfl, rfl, rfl, rfl, rfl, rfl, rfl⟩

theorem nestedStatement_balanced : ∃ (trace : Trace RuleName) (s' : State false),
    runActions trace (initialState false []) = (s', none) ∧ s'.inserted.length = 8 ∧
      s'.Balanced := by
  have hcomputed : (exec turtle 100 (.ref (.triple false)) nestedStatement).map (fun result =>
      (result.1, (runActions result.2 (initialState false [])).2,
        (runActions result.2 (initialState false [])).1.inserted.length)) =
      some (.ok (bytes " ."), none, 8) := by
    decide +kernel
  have hlayout : (exec turtle 60 (.ref .ignored) (bytes " .")).map Prod.fst =
      some (.ok (bytes ".")) := by
    decide +kernel
  simp only [Option.map_eq_some_iff, Prod.exists, Prod.mk.injEq] at hcomputed hlayout
  obtain ⟨outcome, trace, hexec, rfl, hnone, hcount⟩ := hcomputed
  obtain ⟨_, layout, hlayout, rfl⟩ := hlayout
  refine ⟨trace, _, Prod.ext rfl hnone, hcount, ?_⟩
  exact stacks_balanced.2 false nestedStatement (bytes " .") [] trace layout
    (initialState false []) _ (initialState_balanced false []) (exec_sound 100 hexec)
    (exec_sound 60 hlayout) (Prod.ext rfl hnone)

/-- `<s> <p> <o> ;` matches, but the verb behind it has been pushed. -/
def abandonedVerb : Bytes := bytes "<s> <p> <o> ; <q> ."

theorem abandonedVerb_unbalanced :
    ¬ ∀ (q : Bool) (input rest : Bytes) (trace : Trace RuleName) (s s' : State q),
      s.Balanced → Run turtle (.ref (.triple q)) input (.ok rest) trace →
      runActions trace s = (s', none) → s'.Balanced := by
  intro hclaim
  have hcomputed : (exec turtle 60 (.ref (.triple false)) abandonedVerb).map (fun result =>
      (result.1, (runActions result.2 (initialState false [])).2,
        (runActions result.2 (initialState false [])).1.verbStack.length)) =
      some (.ok (bytes " <q> ."), none, 1) := by
    decide +kernel
  simp only [Option.map_eq_some_iff, Prod.exists, Prod.mk.injEq] at hcomputed
  obtain ⟨outcome, trace, hexec, rfl, hnone, hheight⟩ := hcomputed
  have hbalanced := hclaim false abandonedVerb _ trace (initialState false []) _
    (initialState_balanced false []) (exec_sound 60 hexec) (Prod.ext rfl hnone)
  rw [hbalanced.verbStack] at hheight
  cases hheight

end RdfParser.Turtle
