/-
  Turtle/Brackets.lean --- what a statement inserts about whom.

  A statement inserts triples about its subject, and a bracket triples about the nodes it
  generates.  Every bracket in a statement inserts at least one: a property list has a verb
  with an object, and even the empty collection gets a cell.
-/
import RdfParser.Turtle.Abandoned
import RdfParser.Turtle.Image

set_option autoImplicit false

namespace RdfParser.Turtle

open RdfParser.Foundation RdfParser.Rdf RdfParser.Peg

/-! ## Brackets -/

section Brackets

variable {q : Bool} {trace trace' : Trace RuleName} {s s' : State q}

/-! ### In a trace -/

/-- Somewhere in the trace a bracket closes. -/
def SomeCloses (trace : Trace RuleName) : Prop := ∃ entry ∈ trace, closesBracket entry.1 = true

theorem someCloses_append {left right : Trace RuleName} :
    SomeCloses (left ++ right) ↔ SomeCloses left ∨ SomeCloses right := by
  simp only [SomeCloses, List.mem_append, or_and_right, exists_or]

theorem someCloses_single {name : RuleName} {text : Bytes} :
    SomeCloses [(name, text)] ↔ closesBracket name = true := by
  simp [SomeCloses]

theorem someCloses_essence : SomeCloses (essence trace) ↔ SomeCloses trace := by
  constructor
  · rintro ⟨entry, hentry, hcloses⟩
    obtain ⟨original, horiginal, hname⟩ := mem_of_mem_essence hentry
    exact ⟨original, horiginal, hname ▸ hcloses⟩
  · rintro ⟨⟨name, text⟩, hentry, hcloses⟩
    have hacts : acts name = true := by
      cases name <;> first | rfl | exact absurd hcloses Bool.false_ne_true
    have hessential : essential (name, text) =
        some (name, if readsText name then text else []) := by
      simp [essential, hacts]
    exact ⟨_, List.mem_filterMap.mpr ⟨(name, text), hentry, hessential⟩, hcloses⟩

theorem someCloses_inMode (mode : Bool) : SomeCloses (inMode mode trace) ↔ SomeCloses trace := by
  have hsame : ∀ name : RuleName, closesBracket (name.inMode mode) = closesBracket name := by
    intro name
    cases name <;> rfl
  simp only [SomeCloses, inMode, List.mem_map]
  constructor
  · rintro ⟨_, ⟨entry, hentry, rfl⟩, hcloses⟩
    exact ⟨entry, hentry, (hsame entry.1).symm.trans hcloses⟩
  · rintro ⟨entry, hentry, hcloses⟩
    exact ⟨_, ⟨entry, hentry, rfl⟩, (hsame entry.1).trans hcloses⟩

theorem Leaf.not_someCloses (leaf : Leaf) : ¬ SomeCloses leaf.actions := by
  rintro ⟨entry, hentry, hcloses⟩
  have hterm := leaf.actions_termLevel entry hentry
  cases hname : entry.1 <;> rw [hname] at hterm hcloses <;>
    first | exact absurd hcloses Bool.false_ne_true | exact absurd hterm Bool.false_ne_true

theorem VerbTree.not_someCloses (verb : VerbTree) : ¬ SomeCloses (verb.actions q) := by
  cases verb with
  | term leaf =>
      intro h
      rcases someCloses_append.mp h with hleaf | hverb
      · exact leaf.not_someCloses hleaf
      · exact absurd (someCloses_single.mp hverb) Bool.false_ne_true
  | a => simp [VerbTree.actions, SomeCloses, closesBracket]

/-- The actions with which a verb ends: its last object and its own. -/
def verbEnd (q : Bool) : Trace RuleName :=
  [(.object q, []), (.predicateObjectListInner q, [])]

/-- Somewhere in the trace a collection closes, or a property list behind its last verb. -/
def Brackets (q : Bool) (trace : Trace RuleName) : Prop :=
  [(.collection q, [])] <:+: trace ∨ verbEnd q ++ [(.blankNodePropertyList q, [])] <:+: trace

theorem Brackets.mono (h : Brackets q trace) (hsub : trace <:+: trace') : Brackets q trace' :=
  h.imp (·.trans hsub) (·.trans hsub)

theorem Brackets.left (h : Brackets q trace) (more : Trace RuleName) :
    Brackets q (trace ++ more) :=
  h.mono (List.prefix_append _ _).isInfix

theorem Brackets.right (h : Brackets q trace) (before : Trace RuleName) :
    Brackets q (before ++ trace) :=
  h.mono (List.suffix_append _ _).isInfix

/-! ### In a tree every bracket closes -/

theorem ObjectTree.actions_end (q : Bool) (object : ObjectTree) :
    [(.object q, [])] <:+ object.actions q := by
  cases object with
  | term leaf => exact List.suffix_append _ _
  | collection members => exact (List.suffix_append [_] _).trans (List.suffix_append _ _)
  | blankNodePropertyList list => exact (List.suffix_append [_] _).trans (List.suffix_append _ _)

/-- What follows an object in its list are objects. -/
theorem ObjectsTree.actions_end (q : Bool) {before : Trace RuleName}
    (hbefore : [(.object q, [])] <:+ before) : ∀ objects : ObjectsTree,
      [(.object q, [])] <:+ before ++ objects.actions q
  | .nil => by rwa [ObjectsTree.actions, List.append_nil]
  | .cons object objects => by
      rw [ObjectsTree.actions, ← List.append_assoc]
      exact objects.actions_end q ((object.actions_end q).trans (List.suffix_append _ _))

theorem verbEnd_suffix (q : Bool) (verb : VerbTree) (object : ObjectTree)
    (objects : ObjectsTree) :
    verbEnd q <:+ verb.actions q ++ object.actions q ++ objects.actions q ++
      [(.predicateObjectListInner q, [])] := by
  have hobjects : [(.object q, [])] <:+ verb.actions q ++ object.actions q ++ objects.actions q :=
    objects.actions_end q ((object.actions_end q).trans (List.suffix_append _ _))
  obtain ⟨front, hfront⟩ := hobjects
  exact ⟨front, by rw [← hfront, List.append_assoc]; rfl⟩

/-- A list of verbs ends like its last one. -/
theorem ListTree.actions_end (q : Bool) : ∀ list : ListTree, verbEnd q <:+ list.actions q
  | .last verb object objects => verbEnd_suffix q verb object objects
  | .more _ _ _ next => (next.actions_end q).trans (List.suffix_append _ _)

theorem ListTree.brackets_closed (list : ListTree) (before after : Trace RuleName) :
    Brackets q (before ++ list.actions q ++ (.blankNodePropertyList q, []) :: after) := by
  obtain ⟨front, hfront⟩ := list.actions_end q
  refine .inr ⟨before ++ front, after, ?_⟩
  rw [← hfront]
  simp

mutual

theorem ObjectTree.brackets : ∀ object : ObjectTree, SomeCloses (object.actions q) →
    Brackets q (object.actions q)
  | .term leaf, h => by
      rcases someCloses_append.mp h with hleaf | hown
      · exact absurd hleaf leaf.not_someCloses
      · exact absurd (someCloses_single.mp hown) Bool.false_ne_true
  | .collection members, _ =>
      .inl ⟨[(.collectionBegin, [])] ++ members.actions q, [(.object q, [])], by
        simp [ObjectTree.actions]⟩
  | .blankNodePropertyList list, _ => list.brackets_closed _ _

theorem ObjectsTree.brackets : ∀ objects : ObjectsTree, SomeCloses (objects.actions q) →
    Brackets q (objects.actions q)
  | .nil, h => by simp [ObjectsTree.actions, SomeCloses] at h
  | .cons object objects, h => by
      rcases someCloses_append.mp h with hobject | hobjects
      · exact (object.brackets hobject).left _
      · exact (objects.brackets hobjects).right _

end

/-- The objects of a verb. -/
theorem inner_brackets {verb : VerbTree} {object : ObjectTree} {objects : ObjectsTree}
    (h : SomeCloses (verb.actions q ++ object.actions q ++ objects.actions q ++
      [(.predicateObjectListInner q, [])])) :
    Brackets q (verb.actions q ++ object.actions q ++ objects.actions q ++
      [(.predicateObjectListInner q, [])]) := by
  rcases someCloses_append.mp h with h | hown
  · rcases someCloses_append.mp h with h | hobjects
    · rcases someCloses_append.mp h with hverb | hobject
      · exact absurd hverb verb.not_someCloses
      · exact (((object.brackets hobject).right _).left _).left _
    · exact ((objects.brackets hobjects).right _).left _
  · exact absurd (someCloses_single.mp hown) Bool.false_ne_true

theorem ListTree.brackets : ∀ list : ListTree, SomeCloses (list.actions q) →
    Brackets q (list.actions q)
  | .last _ _ _, h => inner_brackets h
  | .more _ _ _ next, h => by
      rcases someCloses_append.mp h with hfirst | hnext
      · exact (inner_brackets hfirst).left _
      · exact (next.brackets hnext).right _

theorem StatementTree.brackets {statement : StatementTree}
    (h : SomeCloses (statement.actions q)) : Brackets q (statement.actions q) := by
  cases statement with
  | tripleSeq1 subject list =>
      rcases someCloses_append.mp h with h | hown
      · rcases someCloses_append.mp h with h | hlist
        · rcases someCloses_append.mp h with hsubject | hown
          · cases subject with
            | term leaf => exact absurd hsubject leaf.not_someCloses
            | collection members =>
                refine Brackets.left (Brackets.left (Brackets.left ?_ _) _) _
                exact .inl (List.suffix_append _ _).isInfix
          · exact absurd (someCloses_single.mp hown) Bool.false_ne_true
        · exact ((list.brackets hlist).right _).left _
      · simp [SomeCloses, closesBracket] at hown
  | tripleSeq2 list rest =>
      exact ((list.brackets_closed [(.blankNodePropertyListBegin, [])] []).left _).left _

/-! ### A closed bracket inserts a triple about its node -/

/-- A verb with an object leaves a pair. -/
theorem verbEnd_pairs (h : runActions (verbEnd q) s = (s', none)) : s'.verbObjectPairList ≠ [] := by
  obtain ⟨s₁, hpush, hinner⟩ := runActions_cons_inv h
  obtain rfl : s.pushCurrentTermIntoBnplCollectionList = s₁ := Except.ok.inj hpush
  have hinner : s.pushCurrentTermIntoBnplCollectionList.processPredicateObjectListInner =
      .ok s' := runActions_single_inv hinner
  unfold State.processPredicateObjectListInner at hinner
  split at hinner <;> cases hinner
  simp [State.pushCurrentTermIntoBnplCollectionList]

theorem listCells_subject (n : Nat) (values : List (Element q)) :
    ∀ t ∈ listCells n values, ∃ m, t.subject = unlabeledNode q m := by
  induction values with
  | nil => simp [listCells]
  | cons value values ih =>
      intro t ht
      rcases List.mem_append.mp ht with ht | ht
      · exact ih t ht
      · simp only [List.mem_cons, List.not_mem_nil, or_false] at ht
        rcases ht with rfl | rfl
        · exact ⟨_, rfl⟩
        · exact ⟨_, rfl⟩

theorem collectionTriples_subject (n : Nat) (values : List (Element q)) :
    ∀ t ∈ collectionTriples n values, ∃ m, t.subject = unlabeledNode q m := by
  unfold collectionTriples
  split
  · simp only [List.mem_singleton, forall_eq]
    exact ⟨n, rfl⟩
  · exact listCells_subject n values

theorem collectionTriples_ne_nil (n : Nat) (values : List (Element q)) :
    collectionTriples n values ≠ [] := by
  cases values <;> simp [collectionTriples, listCells]

/-- A triple about a generated node is among those inserted. -/
def State.HasNode (s : State q) : Prop := ∃ t ∈ s.inserted, ∃ n, t.subject = unlabeledNode q n

theorem State.processCollection_hasNode (h : s.processCollection = .ok s') : s'.HasNode := by
  obtain ⟨t, ht⟩ := List.exists_mem_of_ne_nil _
    (collectionTriples_ne_nil s.latestBNLabel s.bnplCollectionList)
  refine ⟨t, ?_, collectionTriples_subject _ _ t ht⟩
  rw [processCollection_inserted h]
  exact List.mem_append_right _ ht

theorem State.processBlankNodePropertyList_hasNode (hpairs : s.verbObjectPairList ≠ [])
    (h : s.processBlankNodePropertyList = .ok s') : s'.HasNode := by
  obtain ⟨pair, hpair⟩ := List.exists_mem_of_ne_nil _ hpairs
  refine ⟨tripleOf _ pair, ?_, s.latestBNLabel, rfl⟩
  rw [processBlankNodePropertyList_inserted h]
  exact List.mem_append_right _ (List.mem_map_of_mem hpair)

theorem Brackets.hasNode (h : Brackets q trace) (hrun : runActions trace s = (s', none)) :
    s'.HasNode := by
  have hkept : ∀ {s₁ s₂ : State q} {after : Trace RuleName}, s₁.HasNode →
      runActions after s₁ = (s₂, none) → s₂.HasNode := by
    rintro s₁ s₂ after ⟨t, ht, hnode⟩ hafter
    exact ⟨t, (runActions_keeps_inserted hafter).subset ht, hnode⟩
  rcases h with ⟨before, after, rfl⟩ | ⟨before, after, rfl⟩
  · obtain ⟨s₂, hrun, hafter⟩ := runActions_append_inv hrun
    obtain ⟨s₁, -, hclose⟩ := runActions_snoc_inv hrun
    exact hkept (State.processCollection_hasNode hclose) hafter
  · obtain ⟨s₃, hrun, hafter⟩ := runActions_append_inv hrun
    obtain ⟨s₁, -, hrun⟩ := runActions_append_inv hrun
    obtain ⟨s₂, hverb, hclose⟩ := runActions_snoc_inv hrun
    exact hkept (State.processBlankNodePropertyList_hasNode (verbEnd_pairs hverb) hclose) hafter

end Brackets

/-! ## Subjects -/

section Subjects

variable {q : Bool} {trace : Trace RuleName} {s s' : State q}

/-- The rules whose actions neither set the subject of a statement nor insert its triples. -/
def belowTriple : RuleName → Bool
  | .subject _ | .tripleSeq1 _ | .tripleSeq2 _ => false
  | _ => true

theorem belowTriple_of_termLevel (h : trace.Within termLevel) : trace.Within belowTriple := by
  intro entry hentry
  have hterm := h entry hentry
  cases hname : entry.1 <;> rw [hname] at hterm <;>
    first | rfl | exact absurd hterm Bool.false_ne_true

theorem belowTriple_single {name : RuleName} (h : belowTriple name = true) :
    Trace.Within belowTriple [(name, [])] := by
  simp [Trace.Within, h]

theorem VerbTree.belowTriple (verb : VerbTree) : (verb.actions q).Within belowTriple := by
  cases verb with
  | term leaf =>
      exact (belowTriple_of_termLevel leaf.actions_termLevel).append (belowTriple_single rfl)
  | a => exact (belowTriple_single rfl).append (belowTriple_single rfl)

mutual

theorem ObjectTree.belowTriple : ∀ object : ObjectTree, (object.actions q).Within belowTriple
  | .term leaf =>
      (belowTriple_of_termLevel leaf.actions_termLevel).append (belowTriple_single rfl)
  | .collection members =>
      ((belowTriple_single rfl).append members.belowTriple).append
        ((belowTriple_single rfl).append (belowTriple_single rfl))
  | .blankNodePropertyList list =>
      ((belowTriple_single rfl).append list.belowTriple).append
        ((belowTriple_single rfl).append (belowTriple_single rfl))

theorem ObjectsTree.belowTriple : ∀ objects : ObjectsTree, (objects.actions q).Within belowTriple
  | .nil => .nil
  | .cons object objects => object.belowTriple.append objects.belowTriple

theorem ListTree.belowTriple : ∀ list : ListTree, (list.actions q).Within belowTriple
  | .last verb object objects =>
      ((verb.belowTriple.append object.belowTriple).append objects.belowTriple).append
        (belowTriple_single rfl)
  | .more verb object objects next =>
      (((verb.belowTriple.append object.belowTriple).append objects.belowTriple).append
        (belowTriple_single rfl)).append next.belowTriple

end

theorem apply_subject (name : RuleName) (text : Bytes) (s s' : State q)
    (hname : belowTriple name = true) (h : apply name text s = .ok s') :
    s'.subject = s.subject := by
  cases name
  case subject | tripleSeq1 | tripleSeq2 => exact absurd hname Bool.false_ne_true
  case collection =>
      obtain ⟨_, _, -, hcloses⟩ := processCollection_closes h
      exact hcloses.subject
  case blankNodePropertyList =>
      obtain ⟨_, _, -, hcloses⟩ := processBlankNodePropertyList_closes h
      exact hcloses.subject
  case predicateObjectListInner =>
      have h : s.processPredicateObjectListInner = .ok s' := h
      unfold State.processPredicateObjectListInner at h
      split at h <;> cases h
      rfl
  case verb =>
      obtain rfl : s.processVerb = s' := Except.ok.inj h
      unfold State.processVerb
      simp only
      split <;> rfl
  all_goals first
    | rw [State.lift_frame h]
    | (cases h
       rfl)

/-- Only generated nodes get triples before the statement ends. -/
theorem apply_inserts {name : RuleName} {text : Bytes} (hname : belowTriple name = true)
    (h : apply name text s = .ok s') :
    ∀ t ∈ s'.inserted, t ∈ s.inserted ∨ ∃ n, t.subject = unlabeledNode q n := by
  cases hinserting : inserting name with
  | false =>
      rw [apply_inserted (by rw [hinserting]; rfl) h]
      exact fun t ht => .inl ht
  | true =>
      cases name
      case collection =>
          intro t ht
          rw [processCollection_inserted h] at ht
          exact (List.mem_append.mp ht).imp_right (collectionTriples_subject _ _ t)
      case blankNodePropertyList =>
          intro t ht
          rw [processBlankNodePropertyList_inserted h] at ht
          refine (List.mem_append.mp ht).imp_right fun hnew => ?_
          obtain ⟨pair, -, rfl⟩ := List.mem_map.mp hnew
          exact ⟨_, rfl⟩
      all_goals first
        | exact absurd hname Bool.false_ne_true
        | exact absurd hinserting Bool.false_ne_true

theorem runActions_inserts (htrace : trace.Within belowTriple)
    (h : runActions trace s = (s', none)) :
    ∀ t ∈ s'.inserted, t ∈ s.inserted ∨ ∃ n, t.subject = unlabeledNode q n := by
  induction trace generalizing s with
  | nil =>
      cases h
      exact fun t ht => .inl ht
  | cons entry trace ih =>
      obtain ⟨s₁, happly, hrest⟩ := runActions_cons_inv h
      intro t ht
      rcases ih (fun other hother => htrace other (List.mem_cons_of_mem _ hother)) hrest t ht with
        hearlier | hnode
      · exact apply_inserts (htrace entry List.mem_cons_self) happly t hearlier
      · exact .inr hnode

/-- A statement with a subject inserts triples about it, and otherwise about generated
nodes. -/
theorem tripleSeq1_subjects {list : ListTree} {s₁ : State q} (hstart : s₁.inserted = [])
    (h : runActions (list.actions q ++ [(.tripleSeq1 q, []), (.triple q, [])]) s₁ = (s', none)) :
    (∃ t ∈ s'.inserted, t.subject = s₁.subject) ∧
      ∀ t ∈ s'.inserted, t.subject = s₁.subject ∨ ∃ n, t.subject = unlabeledNode q n := by
  obtain ⟨s₂, hlist, hlast⟩ := runActions_append_inv h
  obtain ⟨s₃, hseq, hclear⟩ := runActions_cons_inv hlast
  obtain rfl : s₂.processTripleSeq = s₃ := Except.ok.inj hseq
  obtain rfl : s₂.processTripleSeq.clearTripleParameters = s' :=
    Except.ok.inj (runActions_single_inv hclear)
  have hsubject : s₂.subject = s₁.subject := by
    have hframe := runActions_frame State.subject apply_subject (list.belowTriple (q := q)) s₁
    rwa [hlist] at hframe
  have hpairs : s₂.verbObjectPairList ≠ [] := by
    obtain ⟨front, hfront⟩ := list.actions_end q
    rw [← hfront] at hlist
    obtain ⟨_, -, hverb⟩ := runActions_append_inv hlist
    exact verbEnd_pairs hverb
  have hinserted : s₂.processTripleSeq.clearTripleParameters.inserted =
      s₂.inserted ++ s₂.verbObjectPairList.map (tripleOf s₁.subject) := by
    rw [← hsubject]
    exact run_tripleSeq s₂
  rw [hinserted]
  constructor
  · obtain ⟨pair, hpair⟩ := List.exists_mem_of_ne_nil _ hpairs
    exact ⟨_, List.mem_append_right _ (List.mem_map_of_mem hpair), rfl⟩
  · intro t ht
    rcases List.mem_append.mp ht with hearlier | hnew
    · refine (runActions_inserts (list.belowTriple (q := q)) hlist t hearlier).elim ?_ .inr
      intro hnone
      rw [hstart] at hnone
      cases hnone
    · obtain ⟨pair, -, rfl⟩ := List.mem_map.mp hnew
      exact .inl rfl

end Subjects

end RdfParser.Turtle
