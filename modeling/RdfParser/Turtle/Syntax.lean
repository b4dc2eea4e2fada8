/-
  Turtle/Syntax.lean --- statements as they are written.

  The trees follow the rules of triples down to the spellings of the terms.  What a match
  of such a rule keeps are the actions of a tree, and a statement up to its full stop runs
  these actions and no others.
-/
import RdfParser.Turtle.Pieces
import RdfParser.Turtle.Replay

set_option autoImplicit false

namespace RdfParser.Turtle

open RdfParser.Foundation RdfParser.Rdf RdfParser.Peg RdfParser.Peg.Rule

/-! ## Trees -/

/-- `verb`. -/
inductive VerbTree where
  | term (leaf : Leaf)
  /-- `a` -/
  | a
  deriving DecidableEq, Repr

mutual

/-- `object`. -/
inductive ObjectTree where
  | term (leaf : Leaf)
  | collection (members : ObjectsTree)
  | blankNodePropertyList (list : ListTree)

/-- The members of a collection, or the objects of a verb after the first one. -/
inductive ObjectsTree where
  | nil
  | cons (object : ObjectTree) (objects : ObjectsTree)

/-- `predicateObjectList`; semicolons without a verb leave no trace. -/
inductive ListTree where
  | last (verb : VerbTree) (object : ObjectTree) (objects : ObjectsTree)
  | more (verb : VerbTree) (object : ObjectTree) (objects : ObjectsTree) (next : ListTree)

end

/-- `subject`. -/
inductive SubjectTree where
  | term (leaf : Leaf)
  | collection (members : ObjectsTree)

/-- `triple`. -/
inductive StatementTree where
  | tripleSeq1 (subject : SubjectTree) (list : ListTree)
  | tripleSeq2 (list : ListTree) (rest : Option ListTree)

/-! ### Actions -/

def VerbTree.actions (q : Bool) : VerbTree → Trace RuleName
  | .term leaf => leaf.actions ++ [(.verb q, [])]
  | .a => [(.verbA, []), (.verb q, [])]

mutual

def ObjectTree.actions (q : Bool) : ObjectTree → Trace RuleName
  | .term leaf => leaf.actions ++ [(.object q, [])]
  | .collection members =>
      [(.collectionBegin, [])] ++ members.actions q ++ [(.collection q, []), (.object q, [])]
  | .blankNodePropertyList list =>
      [(.blankNodePropertyListBegin, [])] ++ list.actions q ++
        [(.blankNodePropertyList q, []), (.object q, [])]

def ObjectsTree.actions (q : Bool) : ObjectsTree → Trace RuleName
  | .nil => []
  | .cons object objects => object.actions q ++ objects.actions q

def ListTree.actions (q : Bool) : ListTree → Trace RuleName
  | .last verb object objects =>
      verb.actions q ++ object.actions q ++ objects.actions q ++
        [(.predicateObjectListInner q, [])]
  | .more verb object objects next =>
      verb.actions q ++ object.actions q ++ objects.actions q ++
        [(.predicateObjectListInner q, [])] ++ next.actions q

end

/-- Without `action<subject>`. -/
def SubjectTree.actions (q : Bool) : SubjectTree → Trace RuleName
  | .term leaf => leaf.actions
  | .collection members =>
      [(.collectionBegin, [])] ++ members.actions q ++ [(.collection q, [])]

def StatementTree.actions (q : Bool) : StatementTree → Trace RuleName
  | .tripleSeq1 subject list =>
      subject.actions q ++ [(.subject q, [])] ++ list.actions q ++
        [(.tripleSeq1 q, []), (.triple q, [])]
  | .tripleSeq2 list rest =>
      [(.blankNodePropertyListBegin, [])] ++ list.actions q ++ [(.blankNodePropertyList q, [])] ++
        rest.elim [] (·.actions q) ++ [(.tripleSeq2 q, []), (.triple q, [])]

/-! ### Well-formed trees -/

/-- A spelling that the grammar `q` can match. -/
structure Leaf.Readable (q : Bool) (leaf : Leaf) : Prop where
  wellFormed : leaf.WellFormed
  allowed : leaf.Allowed q

def VerbTree.Readable (q : Bool) : VerbTree → Prop
  | .term leaf => leaf.Readable q
  | .a => True

mutual

def ObjectTree.Readable (q : Bool) : ObjectTree → Prop
  | .term leaf => leaf.Readable q
  | .collection members => members.Readable q
  | .blankNodePropertyList list => list.Readable q

def ObjectsTree.Readable (q : Bool) : ObjectsTree → Prop
  | .nil => True
  | .cons object objects => object.Readable q ∧ objects.Readable q

def ListTree.Readable (q : Bool) : ListTree → Prop
  | .last verb object objects => verb.Readable q ∧ object.Readable q ∧ objects.Readable q
  | .more verb object objects next =>
      verb.Readable q ∧ object.Readable q ∧ objects.Readable q ∧ next.Readable q

end

def SubjectTree.Readable (q : Bool) : SubjectTree → Prop
  | .term leaf => leaf.Readable q
  | .collection members => members.Readable q

def StatementTree.Readable (q : Bool) : StatementTree → Prop
  | .tripleSeq1 subject list => subject.Readable q ∧ list.Readable q
  | .tripleSeq2 list rest => list.Readable q ∧ ∀ more ∈ rest, more.Readable q

/-! ## Reading -/

section Reading

variable {q : Bool} {input rest : Bytes} {k : Trace RuleName}

/-- A match of a rule by which the others refer to a term. -/
theorem leaf_read {name : RuleName} (hspelled : spelled name = true)
    (houter : outer q name = true) (hterm : inTerm name = true)
    (h : Keeps turtle (.ref name) input rest k) :
    ∃ leaf : Leaf, leaf.Readable q ∧ essence k = leaf.actions := by
  have hsettles : (Rule.ref name).settles (quietFailure false) inTerm = true := hterm
  obtain ⟨t, hrun, hessence⟩ := settled_yields hsettles h
  obtain ⟨leaf, hwell, hallowed, hactions⟩ := spelled_leaf hspelled houter hrun
  exact ⟨leaf, ⟨hwell, hallowed⟩, hessence.symm.trans hactions⟩

theorem verb_read (h : Keeps turtle (.ref (.verb q)) input rest k) :
    ∃ verb : VerbTree, verb.Readable q ∧ essence k = verb.actions q := by
  obtain ⟨k, hbody, rfl⟩ := h.ref_inv
  have hpredicate : ∀ k, Keeps turtle (.ref .predicate) input rest k →
      ∃ leaf : Leaf, leaf.Readable q ∧ essence k = leaf.actions := by
    intro k hk
    obtain ⟨k, hbody, rfl⟩ := hk.ref_inv
    have hidle := essence_idle (show acts .predicate = false from rfl) (consumed input rest)
    rw [essence_append, hidle, List.append_nil]
    rcases hbody.sor_inv with hiriref | ⟨_, -, hname⟩
    · exact leaf_read rfl rfl rfl hiriref
    · exact leaf_read rfl rfl rfl hname
  have hverbA : ∀ k, Keeps turtle (.ref .verbA) input rest k → essence k = [(.verbA, [])] := by
    intro k hk
    obtain ⟨k, hbody, rfl⟩ := hk.ref_inv
    obtain ⟨rfl, -, -⟩ := ch_yields hbody
    rfl
  have hterm : ∀ k, (∃ leaf : Leaf, leaf.Readable q ∧ essence k = leaf.actions) →
      ∃ verb : VerbTree, verb.Readable q ∧
        essence (k ++ [(.verb q, consumed input rest)]) = verb.actions q := by
    rintro k ⟨leaf, hleaf, hactions⟩
    refine ⟨.term leaf, hleaf, ?_⟩
    rw [essence_append, hactions]
    rfl
  have ha : ∀ k, Keeps turtle (.ref .verbA) input rest k → ∃ verb : VerbTree, verb.Readable q ∧
      essence (k ++ [(.verb q, consumed input rest)]) = verb.actions q := by
    intro k hk
    refine ⟨.a, trivial, ?_⟩
    rw [essence_append, hverbA k hk]
    rfl
  cases q with
  | false =>
      rcases hbody.sor_inv with hpred | ⟨_, -, hk⟩
      · exact hterm k (hpredicate k hpred)
      · exact ha k hk
  | true =>
      rcases hbody.sor_inv with hfirst | ⟨_, -, hk⟩
      · rcases hfirst.sor_inv with hvar | ⟨_, -, hpred⟩
        · exact hterm k (leaf_read rfl rfl rfl hvar)
        · exact hterm k (hpredicate k hpred)
      · exact ha k hk

/-- The objects in inputs shorter than this are those of trees. -/
def ObjectsRead (q : Bool) (bound : Nat) : Prop :=
  ∀ input rest k, input.length < bound → Keeps turtle (.ref (.object q)) input rest k →
    ∃ object : ObjectTree, object.Readable q ∧ essence k = object.actions q

variable {bound : Nat}

theorem star_read {body : Rule RuleName}
    (hbody : ∀ input middle k, input.length < bound → Keeps turtle body input middle k →
      ∃ object : ObjectTree, object.Readable q ∧ essence k = object.actions q)
    (hinput : input.length < bound) (h : Keeps turtle (.star body) input rest k) :
    ∃ objects : ObjectsTree, objects.Readable q ∧ essence k = objects.actions q := by
  generalize hrule : Rule.star body = rule at h
  induction h with
  | token htoken _ =>
      subst hrule
      cases htoken
  | starNext h₁ _ _ ih =>
      cases hrule
      obtain ⟨object, hobject, hactions⟩ := hbody _ _ _ hinput h₁
      obtain ⟨objects, hobjects, hactions'⟩ := ih (h₁.length_le.trans_lt hinput) rfl
      refine ⟨.cons object objects, ⟨hobject, hobjects⟩, ?_⟩
      rw [essence_append, hactions, hactions']
      rfl
  | starDone _ => exact ⟨.nil, trivial, rfl⟩
  | _ => cases hrule

theorem objectList_read (hobjects : ObjectsRead q bound) (hinput : input.length < bound)
    (h : Keeps turtle (.ref (.objectList q)) input rest k) :
    ∃ (object : ObjectTree) (objects : ObjectsTree), object.Readable q ∧ objects.Readable q ∧
      essence k = object.actions q ++ objects.actions q := by
  obtain ⟨k, hbody, rfl⟩ := h.ref_inv
  obtain ⟨middle, k₁, k₂, hfirst, hmore, rfl⟩ := hbody.seq_inv
  obtain ⟨object, hobject, hactions⟩ := hobjects _ _ _ hinput hfirst
  have hnext : ∀ input middle k, input.length < bound →
      Keeps turtle (seqOf [.ref .ignored, ch ',', .ref .ignored, .ref (.object q)])
        input middle k → ∃ object : ObjectTree, object.Readable q ∧
          essence k = object.actions q := by
    intro input middle k hshort hk
    obtain ⟨m₁, k₁, more₁, hlayout, hk₁, rfl⟩ := hk.seqOf_cons_inv
    obtain ⟨m₂, k₂, more₂, hcomma, hk₂, rfl⟩ := hk₁.seqOf_cons_inv
    obtain ⟨m₃, k₃, k₄, hlayout', hobject, rfl⟩ := hk₂.seqOf_cons_inv
    obtain ⟨rfl, -, -⟩ := ch_yields hcomma
    have hle := hlayout.length_le.trans_lt hshort
    have hle' := hlayout'.length_le.trans_lt (hcomma.length_le.trans_lt hle)
    obtain ⟨object, hobject, hactions⟩ := hobjects _ _ _ hle' hobject
    refine ⟨object, hobject, ?_⟩
    simp [(layout_yields hlayout).1, (layout_yields hlayout').1, hactions]
  obtain ⟨objects, hobjects', hactions'⟩ :=
    star_read hnext (hfirst.length_le.trans_lt hinput) hmore
  have hidle := essence_idle (show acts (.objectList q) = false from rfl) (consumed input rest)
  refine ⟨object, objects, hobject, hobjects', ?_⟩
  rw [essence_append, hidle, List.append_nil, essence_append, hactions, hactions']

theorem inner_read (hobjects : ObjectsRead q bound) (hinput : input.length < bound)
    (h : Keeps turtle (.ref (.predicateObjectListInner q)) input rest k) :
    ∃ (verb : VerbTree) (object : ObjectTree) (objects : ObjectsTree), verb.Readable q ∧
      object.Readable q ∧ objects.Readable q ∧
      essence k = verb.actions q ++ object.actions q ++ objects.actions q ++
        [(.predicateObjectListInner q, [])] := by
  obtain ⟨k, hbody, rfl⟩ := h.ref_inv
  obtain ⟨m₁, k₁, more, hverb, hmore, rfl⟩ := hbody.seqOf_cons_inv
  obtain ⟨m₂, k₂, k₃, hlayout, hlist, rfl⟩ := hmore.seqOf_cons_inv
  obtain ⟨verb, hverb', hactions⟩ := verb_read hverb
  have hshort := hlayout.length_le.trans_lt (hverb.length_le.trans_lt hinput)
  obtain ⟨object, objects, hobject, hobjects', hactions'⟩ :=
    objectList_read hobjects hshort hlist
  refine ⟨verb, object, objects, hverb', hobject, hobjects', ?_⟩
  have hsame : essence (k₁ ++ (k₂ ++ k₃)) =
      verb.actions q ++ object.actions q ++ objects.actions q := by
    simp [(layout_yields hlayout).1, hactions, hactions']
  rw [essence_append, hsame]
  rfl

/-- The further verbs of a list. -/
theorem further_read (hobjects : ObjectsRead q bound) (hinput : input.length < bound)
    (h : Keeps turtle (.star (seqOf [.ref .ignored, ch ';',
      opt (.seq (.ref .ignored) (.ref (.predicateObjectListInner q)))])) input rest k) :
    ∃ more : Option ListTree, (∀ list ∈ more, list.Readable q) ∧
      essence k = more.elim [] (·.actions q) := by
  generalize hrule : Rule.star _ = rule at h
  induction h with
  | token htoken _ =>
      subst hrule
      cases htoken
  | @starNext _ input middle rest k₁ k₂ h₁ _ _ ih =>
      cases hrule
      obtain ⟨more, hmore, hactions⟩ := ih (h₁.length_le.trans_lt hinput) rfl
      obtain ⟨m₁, k₁, more₁, hlayout, hk₁, rfl⟩ := h₁.seqOf_cons_inv
      obtain ⟨m₂, k₂, k₃, hsemicolon, hk₂, rfl⟩ := hk₁.seqOf_cons_inv
      obtain ⟨rfl, -, -⟩ := ch_yields hsemicolon
      have hshort := hsemicolon.length_le.trans_lt (hlayout.length_le.trans_lt hinput)
      rcases Keeps.sor_inv hk₂ with hnext | ⟨t, -, hempty⟩
      · obtain ⟨m₃, k₃, k₄, hlayout', hinner, rfl⟩ := hnext.seq_inv
        obtain ⟨verb, object, objects, hverb, hobject, hobjects', hactions'⟩ :=
          inner_read hobjects (hlayout'.length_le.trans_lt hshort) hinner
        have hsame : essence (k₁ ++ ([] ++ (k₃ ++ k₄))) = essence k₄ := by
          simp [(layout_yields hlayout).1, (layout_yields hlayout').1]
        rw [essence_append, hsame, hactions, hactions']
        cases more with
        | none =>
            refine ⟨some (.last verb object objects), ?_, List.append_nil _⟩
            intro list hlist
            obtain rfl := Option.mem_some_iff.mp hlist
            exact ⟨hverb, hobject, hobjects'⟩
        | some next =>
            refine ⟨some (.more verb object objects next), ?_, rfl⟩
            intro list hlist
            obtain rfl := Option.mem_some_iff.mp hlist
            exact ⟨hverb, hobject, hobjects', hmore next rfl⟩
      · obtain ⟨-, rfl⟩ := hempty.success_inv
        refine ⟨more, hmore, ?_⟩
        have hsame : essence (k₁ ++ ([] ++ [])) = [] := by simp [(layout_yields hlayout).1]
        rw [essence_append, hsame, hactions]
        rfl
  | starDone _ => exact ⟨none, by simp, rfl⟩
  | _ => cases hrule

theorem list_read (hobjects : ObjectsRead q bound) (hinput : input.length < bound)
    (h : Keeps turtle (.ref (.predicateObjectList q)) input rest k) :
    ∃ list : ListTree, list.Readable q ∧ essence k = list.actions q := by
  obtain ⟨k, hbody, rfl⟩ := h.ref_inv
  obtain ⟨middle, k₁, k₂, hfirst, hmore, rfl⟩ := hbody.seq_inv
  obtain ⟨verb, object, objects, hverb, hobject, hobjects', hactions⟩ :=
    inner_read hobjects hinput hfirst
  obtain ⟨more, hreadable, hactions'⟩ :=
    further_read hobjects (hfirst.length_le.trans_lt hinput) hmore
  have hidle := essence_idle (show acts (.predicateObjectList q) = false from rfl)
    (consumed input rest)
  rw [essence_append, hidle, List.append_nil, essence_append, hactions, hactions']
  cases more with
  | none => exact ⟨.last verb object objects, ⟨hverb, hobject, hobjects'⟩, List.append_nil _⟩
  | some next =>
      exact ⟨.more verb object objects next, ⟨hverb, hobject, hobjects', hreadable next rfl⟩, rfl⟩

theorem collection_read (hobjects : ObjectsRead q bound) (hinput : input.length ≤ bound)
    (h : Keeps turtle (.ref (.collection q)) input rest k) :
    ∃ members : ObjectsTree, members.Readable q ∧
      essence k = [(.collectionBegin, [])] ++ members.actions q ++ [(.collection q, [])] := by
  obtain ⟨k, hbody, rfl⟩ := h.ref_inv
  obtain ⟨m₁, k₁, more₁, hbegin, hk₁, rfl⟩ := hbody.seqOf_cons_inv
  obtain ⟨m₂, k₂, more₂, hmembers, hk₂, rfl⟩ := hk₁.seqOf_cons_inv
  obtain ⟨m₃, k₃, k₄, hlayout, hclose, rfl⟩ := hk₂.seqOf_cons_inv
  obtain ⟨rfl, -, -⟩ := ch_yields hclose
  obtain ⟨k₁, hbracket, rfl⟩ := hbegin.ref_inv
  obtain ⟨rfl, rfl, -⟩ := ch_yields hbracket
  have hnext : ∀ input middle k, input.length < bound →
      Keeps turtle (.seq (.ref .ignored) (.ref (.object q))) input middle k →
        ∃ object : ObjectTree, object.Readable q ∧ essence k = object.actions q := by
    intro input middle k hshort hk
    obtain ⟨m₁, k₁, k₂, hlayout, hobject, rfl⟩ := hk.seq_inv
    obtain ⟨object, hobject, hactions⟩ :=
      hobjects _ _ _ (hlayout.length_le.trans_lt hshort) hobject
    exact ⟨object, hobject, by simp [(layout_yields hlayout).1, hactions]⟩
  have hshort : m₁.length < bound := Nat.lt_of_succ_le (by simpa using hinput)
  obtain ⟨members, hreadable, hactions⟩ := star_read hnext hshort hmembers
  refine ⟨members, hreadable, ?_⟩
  have hopen : ∀ text, essence [(.collectionBegin, text)] = [(.collectionBegin, [])] :=
    fun _ => rfl
  have hown : ∀ text, essence [(.collection q, text)] = [(.collection q, [])] := fun _ => rfl
  rw [essence_append, essence_append, essence_append, essence_append, essence_append, hactions,
    (layout_yields hlayout).1, hopen, hown]
  simp

theorem blankNodePropertyList_read (hobjects : ObjectsRead q bound)
    (hinput : input.length ≤ bound)
    (h : Keeps turtle (.ref (.blankNodePropertyList q)) input rest k) :
    ∃ list : ListTree, list.Readable q ∧
      essence k = [(.blankNodePropertyListBegin, [])] ++ list.actions q ++
        [(.blankNodePropertyList q, [])] := by
  obtain ⟨k, hbody, rfl⟩ := h.ref_inv
  obtain ⟨m₁, k₁, more₁, hbegin, hk₁, rfl⟩ := hbody.seqOf_cons_inv
  obtain ⟨m₂, k₂, more₂, hlayout, hk₂, rfl⟩ := hk₁.seqOf_cons_inv
  obtain ⟨m₃, k₃, more₃, hlist, hk₃, rfl⟩ := hk₂.seqOf_cons_inv
  obtain ⟨m₄, k₄, k₅, hlayout', hclose, rfl⟩ := hk₃.seqOf_cons_inv
  obtain ⟨rfl, -, -⟩ := ch_yields hclose
  obtain ⟨k₁, hbracket, rfl⟩ := hbegin.ref_inv
  obtain ⟨rfl, rfl, -⟩ := ch_yields hbracket
  have hshort : m₂.length < bound :=
    hlayout.length_le.trans_lt (Nat.lt_of_succ_le (by simpa using hinput))
  obtain ⟨list, hreadable, hactions⟩ := list_read hobjects hshort hlist
  refine ⟨list, hreadable, ?_⟩
  have hopen : ∀ text,
      essence [(.blankNodePropertyListBegin, text)] = [(.blankNodePropertyListBegin, [])] :=
    fun _ => rfl
  have hown : ∀ text,
      essence [(.blankNodePropertyList q, text)] = [(.blankNodePropertyList q, [])] := fun _ => rfl
  rw [essence_append, essence_append, essence_append, essence_append, essence_append,
    essence_append, hactions, (layout_yields hlayout).1, (layout_yields hlayout').1, hopen, hown]
  simp

/-- By induction on the length of the input. -/
theorem objectsRead (q : Bool) (bound : Nat) : ObjectsRead q bound := by
  induction bound with
  | zero => exact fun input _ _ hshort => absurd hshort (Nat.not_lt_zero _)
  | succ bound ih =>
      intro input rest k hshort h
      obtain ⟨k, hbody, rfl⟩ := h.ref_inv
      have hinput : input.length ≤ bound := Nat.le_of_lt_succ hshort
      have hown : essence [(.object q, consumed input rest)] = [(.object q, [])] := rfl
      rw [essence_append, hown]
      rcases hbody.sor_inv with hleaf | ⟨_, -, hbody⟩
      · have hread : ∃ leaf : Leaf, leaf.Readable q ∧ essence k = leaf.actions := by
          cases q
          · exact leaf_read rfl rfl rfl hleaf
          · exact leaf_read rfl rfl rfl hleaf
        obtain ⟨leaf, hreadable, hactions⟩ := hread
        exact ⟨.term leaf, hreadable, by rw [hactions]; rfl⟩
      · rcases hbody.sor_inv with hcollection | ⟨_, -, hlist⟩
        · obtain ⟨members, hreadable, hactions⟩ := collection_read ih hinput hcollection
          refine ⟨.collection members, hreadable, ?_⟩
          rw [hactions, ObjectTree.actions, List.append_assoc]
          rfl
        · obtain ⟨list, hreadable, hactions⟩ := blankNodePropertyList_read ih hinput hlist
          refine ⟨.blankNodePropertyList list, hreadable, ?_⟩
          rw [hactions, ObjectTree.actions, List.append_assoc]
          rfl

theorem subject_read (h : Keeps turtle (.ref (.subject q)) input rest k) :
    ∃ subject : SubjectTree, subject.Readable q ∧
      essence k = subject.actions q ++ [(.subject q, [])] := by
  obtain ⟨k, hbody, rfl⟩ := h.ref_inv
  have hown : essence [(.subject q, consumed input rest)] = [(.subject q, [])] := rfl
  rw [essence_append, hown]
  have hterm : (∃ leaf : Leaf, leaf.Readable q ∧ essence k = leaf.actions) →
      ∃ subject : SubjectTree, subject.Readable q ∧
        essence k ++ [(.subject q, [])] = subject.actions q ++ [(.subject q, [])] := by
    rintro ⟨leaf, hleaf, hactions⟩
    exact ⟨.term leaf, hleaf, by rw [hactions]; rfl⟩
  cases q with
  | true =>
      rcases hbody.sor_inv with hvar | ⟨_, -, hk⟩
      · exact hterm (leaf_read rfl rfl rfl hvar)
      · exact hterm (leaf_read rfl rfl rfl hk)
  | false =>
      rcases hbody.sor_inv with hiri | ⟨_, -, hbody⟩
      · exact hterm (leaf_read rfl rfl rfl hiri)
      · rcases hbody.sor_inv with hblank | ⟨_, -, hcollection⟩
        · exact hterm (leaf_read rfl rfl rfl hblank)
        · obtain ⟨members, hreadable, hactions⟩ :=
            collection_read (objectsRead false input.length) le_rfl hcollection
          exact ⟨.collection members, hreadable, by rw [hactions]; rfl⟩

/-- A triple begins with a subject or with a property list. -/
theorem triple_parts (h : Keeps turtle (.ref (.triple q)) input rest k) :
    (∃ (middle : Bytes) (k₁ : Trace RuleName) (list : ListTree),
      Keeps turtle (.ref (.subject q)) input middle k₁ ∧ list.Readable q ∧
      essence k = essence k₁ ++ (list.actions q ++ [(.tripleSeq1 q, []), (.triple q, [])])) ∨
    ∃ (middle : Bytes) (k₁ : Trace RuleName) (further : Option ListTree),
      Keeps turtle (.ref (.blankNodePropertyList q)) input middle k₁ ∧
      (∀ list ∈ further, list.Readable q) ∧
      essence k = essence k₁ ++
        (further.elim [] (·.actions q) ++ [(.tripleSeq2 q, []), (.triple q, [])]) := by
  obtain ⟨k, hbody, rfl⟩ := h.ref_inv
  have hown : essence [(.triple q, consumed input rest)] = [(.triple q, [])] := rfl
  rcases hbody.sor_inv with hseq1 | ⟨_, -, hseq2⟩
  · obtain ⟨k, hparts, rfl⟩ := hseq1.ref_inv
    obtain ⟨m₁, k₁, more₁, hsubject, hk₁, rfl⟩ := hparts.seqOf_cons_inv
    obtain ⟨m₂, k₂, k₃, hlayout, hlist, rfl⟩ := hk₁.seqOf_cons_inv
    obtain ⟨list, hlist, hactions⟩ := list_read (objectsRead q _) (Nat.lt_succ_self _) hlist
    refine .inl ⟨m₁, k₁, list, hsubject, hlist, ?_⟩
    have hseq : ∀ text, essence [(.tripleSeq1 q, text)] = [(.tripleSeq1 q, [])] := fun _ => rfl
    rw [essence_append, hown, essence_append, essence_append, essence_append, hactions,
      (layout_yields hlayout).1, hseq]
    simp
  · obtain ⟨k, hparts, rfl⟩ := hseq2.ref_inv
    obtain ⟨m₁, k₁, more₁, hlist, hk₁, rfl⟩ := hparts.seqOf_cons_inv
    obtain ⟨m₂, k₂, k₃, hlayout, hmore, rfl⟩ := hk₁.seqOf_cons_inv
    have hrest : ∃ further : Option ListTree, (∀ list ∈ further, list.Readable q) ∧
        essence k₃ = further.elim [] (·.actions q) := by
      rcases Keeps.sor_inv hmore with hlist' | ⟨_, -, hempty⟩
      · obtain ⟨list, hlist, hactions⟩ := list_read (objectsRead q _) (Nat.lt_succ_self _) hlist'
        refine ⟨some list, ?_, hactions⟩
        intro other hother
        exact Option.mem_some_iff.mp hother ▸ hlist
      · obtain ⟨-, rfl⟩ := hempty.success_inv
        exact ⟨none, by simp, rfl⟩
    obtain ⟨further, hfurther, hactions⟩ := hrest
    refine .inr ⟨m₁, k₁, further, hlist, hfurther, ?_⟩
    have hseq : ∀ text, essence [(.tripleSeq2 q, text)] = [(.tripleSeq2 q, [])] := fun _ => rfl
    rw [essence_append, hown, essence_append, essence_append, essence_append, hactions,
      (layout_yields hlayout).1, hseq]
    simp

theorem triple_read (h : Keeps turtle (.ref (.triple q)) input rest k) :
    ∃ statement : StatementTree, statement.Readable q ∧ essence k = statement.actions q := by
  rcases triple_parts h with ⟨m₁, k₁, list, hsubject, hlist, hactions⟩ |
    ⟨m₁, k₁, further, hlist, hfurther, hactions⟩
  · obtain ⟨subject, hsubject, hactions'⟩ := subject_read hsubject
    exact ⟨.tripleSeq1 subject list, ⟨hsubject, hlist⟩, by
      simp [StatementTree.actions, hactions, hactions']⟩
  · obtain ⟨list, hlist, hactions'⟩ :=
      blankNodePropertyList_read (objectsRead q input.length) le_rfl hlist
    exact ⟨.tripleSeq2 list further, ⟨hlist, hfurther⟩, by
      simp [StatementTree.actions, hactions, hactions']⟩

/-- The triple of a statement. -/
theorem tripleExtended_triple (h : Keeps turtle (.ref (.tripleExtended q)) input rest k) :
    ∃ middle k₁, Keeps turtle (.ref (.triple q)) input middle k₁ ∧ essence k = essence k₁ := by
  obtain ⟨k, hbody, rfl⟩ := h.ref_inv
  obtain ⟨m₁, k₁, more₁, htriple, hk₁, rfl⟩ := hbody.seqOf_cons_inv
  obtain ⟨m₂, k₂, k₃, hlayout, hstop, rfl⟩ := hk₁.seqOf_cons_inv
  obtain ⟨rfl, -, -⟩ := ch_yields hstop
  have hidle := essence_idle (show acts (.tripleExtended q) = false from rfl)
    (consumed input rest)
  exact ⟨m₁, k₁, htriple, by simp [(layout_yields hlayout).1, hidle]⟩

/-- A statement up to its full stop runs the actions of a tree. -/
theorem tripleExtended_read {t : Trace RuleName}
    (h : Run turtle (.ref (.tripleExtended q)) input (.ok rest) t) :
    ∃ statement : StatementTree, statement.Readable q ∧ essence t = statement.actions q := by
  obtain ⟨k, hk, hsame⟩ := tripleExtended_kept h
  obtain ⟨middle, k₁, htriple, hsame'⟩ := tripleExtended_triple hk
  obtain ⟨statement, hreadable, hactions⟩ := triple_read htriple
  exact ⟨statement, hreadable, (hsame.trans hsame').trans hactions⟩

end Reading

end RdfParser.Turtle
