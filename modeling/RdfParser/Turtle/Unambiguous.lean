/-
  Turtle/Unambiguous.lean --- a text has at most one reading.

  The context-free reading says nothing about an order in which alternatives are tried.
  Two trees that derive the beginning of one text are the same nevertheless: the PEG
  matches what each of them derives, and with the actions of each, so that they end at one
  place and run the same actions; and what the actions leave open, the text decides.
-/
import RdfParser.Turtle.Blocks

set_option autoImplicit false

namespace RdfParser.Turtle

open RdfParser.Foundation RdfParser.Rdf RdfParser.Peg RdfParser.Peg.Rule

/-! ## Tokens -/

theorem IriLeaf.actions_injective {i i' : IriLeaf} (h : i.actions = i'.actions) : i = i' := by
  cases i <;> cases i' <;> simp_all [IriLeaf.actions]

theorem Suffix.actions_injective {suffix suffix' : Suffix}
    (h : suffix.actions = suffix'.actions) : suffix = suffix' := by
  cases suffix with
  | plain => cases suffix' <;> simp_all [Suffix.actions]
  | langtag text =>
      cases suffix' with
      | plain => simp [Suffix.actions] at h
      | langtag text' => simpa [Suffix.actions] using h
      | typeTag i => cases i <;> simp [Suffix.actions, IriLeaf.actions] at h
  | typeTag i =>
      cases suffix' with
      | plain => simp [Suffix.actions] at h
      | langtag text => cases i <;> simp [Suffix.actions, IriLeaf.actions] at h
      | typeTag i' =>
          have hiri := (List.append_inj' h rfl).1
          rw [IriLeaf.actions_injective hiri]

/-- The actions leave no more open than the layout inside `[]`. -/
theorem Leaf.eq_of_actions {leaf leaf' : Leaf} (h : leaf.actions = leaf'.actions)
    (htext : leaf.text = leaf'.text) : leaf = leaf' := by
  cases leaf with
  | iri i =>
      cases leaf' with
      | iri i' => rw [IriLeaf.actions_injective h]
      | numericLiteral kind _ => cases kind <;> cases i <;> simp_all [actions, IriLeaf.actions]
      | _ => cases i <;> simp_all [actions, IriLeaf.actions]
  | numericLiteral kind text =>
      cases leaf' with
      | iri i => cases kind <;> cases i <;> simp_all [actions, IriLeaf.actions]
      | numericLiteral kind' _ =>
          cases kind <;> cases kind' <;> simp_all [actions, NumberKind.rule]
      | _ => cases kind <;> simp_all [actions, NumberKind.rule]
  | rdfLiteral text suffix =>
      cases leaf' with
      | rdfLiteral text' suffix' =>
          simp only [actions, List.cons.injEq, Prod.mk.injEq, true_and] at h
          rw [h.1, Suffix.actions_injective (List.append_inj' h.2 rfl).1]
      | iri i => cases i <;> simp [actions, IriLeaf.actions] at h
      | numericLiteral kind _ => cases kind <;> simp [actions, NumberKind.rule] at h
      | _ => simp [actions] at h
  | _ =>
      cases leaf' with
      | iri i => cases i <;> simp [actions, IriLeaf.actions] at h
      | numericLiteral kind _ => cases kind <;> simp [actions, NumberKind.rule] at h
      | _ => simp_all [actions, text]

theorem Leaf.actions_ne_verbA (leaf : Leaf) : leaf.actions ≠ [(.verbA, [])] := by
  cases leaf with
  | iri i => cases i <;> simp [actions, IriLeaf.actions]
  | numericLiteral kind text => cases kind <;> simp [actions, NumberKind.rule]
  | _ => simp [actions]

theorem Leaf.actions_ne_collection (leaf : Leaf) (more : Trace RuleName) :
    leaf.actions ≠ [(.collectionBegin, [])] ++ more := by
  cases leaf with
  | iri i => cases i <;> simp [actions, IriLeaf.actions]
  | numericLiteral kind text => cases kind <;> simp [actions, NumberKind.rule]
  | _ => simp [actions]

section Trees

variable {q : Bool} {input rest rest' m m' : Bytes}

theorem Leaf.ReadAs.eq {name : RuleName} {leaf leaf' : Leaf} (h : leaf.ReadAs q name input rest)
    (h' : leaf'.ReadAs q name input rest') : leaf = leaf' := by
  obtain ⟨hrest, hactions⟩ := h.yields.unique h'.yields
  have htext : leaf.text ++ rest = leaf'.text ++ rest := by
    rw [← h.text, Outcome.ok.inj hrest, ← h'.text]
  exact Leaf.eq_of_actions hactions (List.append_cancel_right htext)

/-! ## Layout and punctuation -/

theorem Gap.eq (h : Gap input m) (h' : Gap input m') (hm : StartsToken m) (hm' : StartsToken m') :
    m = m' :=
  Outcome.ok.inj ((h.yields hm).unique (h'.yields hm')).1

theorem Mark.eq {c : Char} (hc : c ∈ punctuation) (h : Mark c input m) (h' : Mark c input m') :
    m = m' := by
  have heq := Gap.eq h h' (punctuation_starts hc m) (punctuation_starts hc m')
  exact (List.cons.inj heq).2

/-- The last of some semicolons, where none follows. -/
theorem Semicolons.last_eq {start stop stop' : Bytes} (h : Semicolons start stop)
    (h' : Semicolons start stop') (hlast : Mark ';' stop m) (hlast' : Mark ';' stop' m')
    (hnone : ∀ r, ¬ Mark ';' m r) (hnone' : ∀ r, ¬ Mark ';' m' r) : m = m' := by
  induction h using Relation.ReflTransGen.head_induction_on with
  | refl =>
      rcases Relation.ReflTransGen.cases_head h' with rfl | ⟨next, hmark, hmore⟩
      · exact hlast.eq (by decide) hlast'
      · obtain rfl := hlast.eq (by decide) hmark
        rcases Relation.ReflTransGen.cases_head hmore with rfl | ⟨_, hmark, -⟩
        · exact absurd hlast' (hnone _)
        · exact absurd hmark (hnone _)
  | head hmark hmore ih =>
      rcases Relation.ReflTransGen.cases_head h' with rfl | ⟨next, hmark', hmore'⟩
      · obtain rfl := hlast'.eq (by decide) hmark
        rcases Relation.ReflTransGen.cases_head hmore with rfl | ⟨_, hmark, -⟩
        · exact absurd hlast (hnone' _)
        · exact absurd hmark (hnone' _)
      · obtain rfl := hmark.eq (by decide) hmark'
        exact ih hmore'

/-! ## Trees -/

theorem VerbTree.Derives.eq {verb verb' : VerbTree} (h : verb.Derives q input rest)
    (h' : verb'.Derives q input rest') : verb = verb' ∧ rest = rest' := by
  obtain ⟨hrest, hactions⟩ := h.yields.unique h'.yields
  obtain rfl := Outcome.ok.inj hrest
  refine ⟨?_, rfl⟩
  cases verb with
  | a =>
      cases verb' with
      | a => rfl
      | term leaf =>
          change [(RuleName.verbA, [])] ++ [_] = leaf.actions ++ [_] at hactions
          exact absurd (List.append_inj' hactions rfl).1.symm leaf.actions_ne_verbA
  | term leaf =>
      cases verb' with
      | a =>
          change leaf.actions ++ [_] = [(RuleName.verbA, [])] ++ [_] at hactions
          exact absurd (List.append_inj' hactions rfl).1 leaf.actions_ne_verbA
      | term leaf' =>
          obtain ⟨_, -, hleaf⟩ := h
          obtain ⟨_, -, hleaf'⟩ := h'
          have htext : leaf.text ++ rest = leaf'.text ++ rest := by
            rw [← hleaf.text, ← hleaf'.text]
          rw [Leaf.eq_of_actions (List.append_inj' hactions rfl).1
            (List.append_cancel_right htext)]

/-- No term begins where a collection or a property list does. -/
theorem Leaf.ReadAs.not_parenthesized {leaf : Leaf} {members : Bytes → Bytes → Prop}
    (h : leaf.ReadAs q (leafRule q) input rest) : ¬ Parenthesized members input rest' := by
  rintro ⟨m, _, rfl, -, -⟩
  have hleaf := refused_fails (b := char '(') (by decide) (leafRule q)
    (by cases q <;> decide) (by cases q <;> rfl) m
  cases (h.yields.unique hleaf).1

theorem Leaf.ReadAs.not_bracketed {leaf : Leaf} {list : ListTree}
    (h : leaf.ReadAs q (leafRule q) input rest) : ¬ Bracketed (list.Derives q) input rest' := by
  intro hlist
  have hleaf := leaf_refused (Bracketed.yields (fun h hrest => list.yields h hrest) hlist)
  cases (h.yields.unique hleaf.1).1

theorem Parenthesized.not_bracketed {members list : Bytes → Bytes → Prop}
    (h : Parenthesized members input rest) : ¬ Bracketed list input rest' := by
  obtain ⟨_, _, rfl, -, -⟩ := h
  rintro ⟨_, _, _, heq, -⟩
  exact absurd (List.cons.inj heq).1 (by decide)

theorem ObjectTree.starts {object : ObjectTree} (h : object.Derives q input rest) :
    StartsToken input :=
  startsToken_of_yields (by cases q <;> decide) (object.yields h)

theorem ListTree.starts {list : ListTree} (h : list.Derives q input rest)
    (hrest : Follows afterList rest) : StartsToken input :=
  startsToken_of_yields (by cases q <;> decide) (list.yields h hrest)

/-- Behind the last semicolon of a verb there is the next verb. -/
theorem ListTree.not_semicolon {list : ListTree} (h : list.Derives q m' rest)
    (hrest : Follows afterList rest) (hgap : Gap m m') (r : Bytes) : ¬ Mark ';' m r := by
  intro hmark
  obtain rfl := hgap.eq hmark (ListTree.starts h hrest) (punctuation_starts (by decide) r)
  have hrefused : Yields (.ref (.predicateObjectList q)) (char ';' :: r) .fail [] :=
    .ref_fail (inner_refused q (c := ';') (by decide) r).stop
  cases ((list.yields h hrest).unique hrefused).1

theorem ObjectTree.actions_ne_nil (object : ObjectTree) : object.actions q ≠ [] := by
  cases object <;> simp [ObjectTree.actions]

theorem ListTree.actions_ne_nil (list : ListTree) : list.actions q ≠ [] := by
  cases list <;> simp [ListTree.actions]

theorem ObjectsTree.eq_nil {objects : ObjectsTree} (h : objects.actions q = []) :
    objects = .nil := by
  cases objects with
  | nil => rfl
  | cons object objects =>
      rw [ObjectsTree.actions, List.append_eq_nil_iff] at h
      exact absurd h.1 object.actions_ne_nil

theorem ObjectTree.end_eq {object : ObjectTree} (h : object.Derives q input rest)
    (h' : object.Derives q input rest') : rest = rest' :=
  Outcome.ok.inj ((object.yields h).unique (object.yields h')).1

/-- The verb and the objects of two lists that begin at one place. -/
theorem PairDerives.eq {verb verb' : VerbTree} {object object' : ObjectTree}
    {objects objects' : ObjectsTree}
    (hobject : ∀ {input rest rest'}, object.Derives q input rest →
      object'.Derives q input rest' → object = object')
    (hobjects : ∀ {input}, objects.Further q input rest → objects'.Further q input rest' →
      objects = objects')
    (h : PairDerives q verb (object.Derives q) (objects.Further q) input rest)
    (h' : PairDerives q verb' (object'.Derives q) (objects'.Further q) input rest') :
    verb = verb' ∧ object = object' ∧ objects = objects' := by
  obtain ⟨m₁, m₂, m₃, hverb, hgap, hfirst, hmore⟩ := h
  obtain ⟨m₁', m₂', m₃', hverb', hgap', hfirst', hmore'⟩ := h'
  obtain ⟨rfl, rfl⟩ := hverb.eq hverb'
  obtain rfl := hgap.eq hgap' (ObjectTree.starts hfirst) (ObjectTree.starts hfirst')
  obtain rfl := hobject hfirst hfirst'
  obtain rfl := ObjectTree.end_eq hfirst hfirst'
  exact ⟨rfl, rfl, hobjects hmore hmore'⟩

theorem PairDerives.end_eq {verb verb' : VerbTree} {object object' : ObjectTree}
    {objects objects' : ObjectsTree}
    (h : PairDerives q verb (object.Derives q) (objects.Further q) input rest)
    (h' : PairDerives q verb' (object'.Derives q) (objects'.Further q) input rest')
    (hrest : Follows afterObjects rest) (hrest' : Follows afterObjects rest') : rest = rest' := by
  have hyields := h.yields (fun h => object.yields h) (fun h => objects.further_yields h hrest)
  have hyields' := h'.yields (fun h => object'.yields h)
    (fun h => objects'.further_yields h hrest')
  exact Outcome.ok.inj (hyields.unique hyields').1

mutual

theorem ObjectTree.eq : ∀ (object : ObjectTree) {object' : ObjectTree} {input rest rest' : Bytes},
    object.Derives q input rest → object'.Derives q input rest' → object = object'
  | .term leaf, object', input, rest, rest', h, h' => by
      cases object' with
      | term leaf' => rw [Leaf.ReadAs.eq h h']
      | collection members => exact absurd h' (Leaf.ReadAs.not_parenthesized h)
      | blankNodePropertyList list => exact absurd h' (Leaf.ReadAs.not_bracketed h)
  | .collection members, object', input, rest, rest', h, h' => by
      cases object' with
      | term leaf => exact absurd h (Leaf.ReadAs.not_parenthesized h')
      | blankNodePropertyList list => exact absurd h' (Parenthesized.not_bracketed h)
      | collection members' =>
          obtain ⟨m₁, m₂, rfl, hinner, hclose⟩ := h
          obtain ⟨m₁', m₂', hopen, hinner', hclose'⟩ := h'
          obtain rfl := (List.cons.inj hopen).2
          rw [members.members_eq hinner hinner' (hclose.follows (by decide) (by decide))
            (hclose'.follows (by decide) (by decide))]
  | .blankNodePropertyList list, object', input, rest, rest', h, h' => by
      cases object' with
      | term leaf => exact absurd h (Leaf.ReadAs.not_bracketed h')
      | collection members => exact absurd h (Parenthesized.not_bracketed h')
      | blankNodePropertyList list' =>
          obtain ⟨m₁, m₂, m₃, rfl, hgap, hinner, hclose⟩ := h
          obtain ⟨m₁', m₂', m₃', hopen, hgap', hinner', hclose'⟩ := h'
          obtain rfl := (List.cons.inj hopen).2
          have hend : Follows afterList m₃ := hclose.follows (by decide) (by decide)
          have hend' : Follows afterList m₃' := hclose'.follows (by decide) (by decide)
          obtain rfl := hgap.eq hgap' (ListTree.starts hinner hend) (ListTree.starts hinner' hend')
          rw [list.eq hinner hinner' hend hend']

theorem ObjectsTree.members_eq : ∀ (objects : ObjectsTree) {objects' : ObjectsTree}
    {input rest rest' : Bytes}, objects.Members q input rest → objects'.Members q input rest' →
    Follows [')'] rest → Follows [')'] rest' → objects = objects'
  | .nil, objects', input, rest, rest', h, h', hrest, hrest' => by
      have hactions := ((ObjectsTree.members_yields .nil h hrest).unique
        (objects'.members_yields h' hrest')).2
      exact (ObjectsTree.eq_nil hactions.symm).symm
  | .cons object objects, objects', input, rest, rest', h, h', hrest, hrest' => by
      cases objects' with
      | nil =>
          have hactions := ((ObjectsTree.members_yields (.cons object objects) h hrest).unique
            (ObjectsTree.members_yields .nil h' hrest')).2
          exact ObjectsTree.eq_nil hactions
      | cons object' objects' =>
          obtain ⟨m₁, m₂, hgap, hobject, hobjects⟩ := h
          obtain ⟨m₁', m₂', hgap', hobject', hobjects'⟩ := h'
          obtain rfl := hgap.eq hgap' (ObjectTree.starts hobject) (ObjectTree.starts hobject')
          obtain rfl := object.eq hobject hobject'
          obtain rfl := ObjectTree.end_eq hobject hobject'
          rw [objects.members_eq hobjects hobjects' hrest hrest']

theorem ObjectsTree.further_eq : ∀ (objects : ObjectsTree) {objects' : ObjectsTree}
    {input rest rest' : Bytes}, objects.Further q input rest → objects'.Further q input rest' →
    Follows afterObjects rest → Follows afterObjects rest' → objects = objects'
  | .nil, objects', input, rest, rest', h, h', hrest, hrest' => by
      have hactions := ((ObjectsTree.further_yields .nil h hrest).unique
        (objects'.further_yields h' hrest')).2
      exact (ObjectsTree.eq_nil hactions.symm).symm
  | .cons object objects, objects', input, rest, rest', h, h', hrest, hrest' => by
      cases objects' with
      | nil =>
          have hactions := ((ObjectsTree.further_yields (.cons object objects) h hrest).unique
            (ObjectsTree.further_yields .nil h' hrest')).2
          exact ObjectsTree.eq_nil hactions
      | cons object' objects' =>
          obtain ⟨m₁, m₂, m₃, hcomma, hgap, hobject, hobjects⟩ := h
          obtain ⟨m₁', m₂', m₃', hcomma', hgap', hobject', hobjects'⟩ := h'
          obtain rfl := hcomma.eq (by decide) hcomma'
          obtain rfl := hgap.eq hgap' (ObjectTree.starts hobject) (ObjectTree.starts hobject')
          obtain rfl := object.eq hobject hobject'
          obtain rfl := ObjectTree.end_eq hobject hobject'
          rw [objects.further_eq hobjects hobjects' hrest hrest']

theorem ListTree.eq : ∀ (list : ListTree) {list' : ListTree} {input rest rest' : Bytes},
    list.Derives q input rest → list'.Derives q input rest' → Follows afterList rest →
    Follows afterList rest' → list = list'
  | .last verb object objects, list', input, rest, rest', h, h', hrest, hrest' => by
      have hactions := ((ListTree.yields _ h hrest).unique (list'.yields h' hrest')).2
      obtain ⟨m, hpair, hsemicolons⟩ := h
      have hm := hsemicolons.follows (hrest.mono (by decide))
      cases list' with
      | last verb' object' objects' =>
          obtain ⟨m', hpair', hsemicolons'⟩ := h'
          have hm' := hsemicolons'.follows (hrest'.mono (by decide))
          obtain ⟨rfl, rfl, rfl⟩ := hpair.eq (fun h h' => object.eq h h')
            (fun h h' => objects.further_eq h h' hm hm') hpair'
          rfl
      | more verb' object' objects' next' =>
          obtain ⟨m', _, _, _, hpair', hsemicolons', hmark', -⟩ := h'
          have hm' := hsemicolons'.follows (hmark'.follows (by decide) (by decide))
          obtain ⟨rfl, rfl, rfl⟩ := hpair.eq (fun h h' => object.eq h h')
            (fun h h' => objects.further_eq h h' hm hm') hpair'
          exact absurd (List.self_eq_append_right.mp hactions) next'.actions_ne_nil
  | .more verb object objects next, list', input, rest, rest', h, h', hrest, hrest' => by
      have hactions := ((ListTree.yields _ h hrest).unique (list'.yields h' hrest')).2
      obtain ⟨m, m₂, m₃, m₄, hpair, hsemicolons, hmark, hgap, hnext⟩ := h
      have hm := hsemicolons.follows (hmark.follows (by decide) (by decide))
      cases list' with
      | last verb' object' objects' =>
          obtain ⟨m', hpair', hsemicolons'⟩ := h'
          have hm' := hsemicolons'.follows (hrest'.mono (by decide))
          obtain ⟨rfl, rfl, rfl⟩ := hpair.eq (fun h h' => object.eq h h')
            (fun h h' => objects.further_eq h h' hm hm') hpair'
          exact absurd (List.append_right_eq_self.mp hactions) next.actions_ne_nil
      | more verb' object' objects' next' =>
          obtain ⟨m', m₂', m₃', m₄', hpair', hsemicolons', hmark', hgap', hnext'⟩ := h'
          have hm' := hsemicolons'.follows (hmark'.follows (by decide) (by decide))
          have hsame := hpair.end_eq hpair' hm hm'
          obtain ⟨rfl, rfl, rfl⟩ := hpair.eq (fun h h' => object.eq h h')
            (fun h h' => objects.further_eq h h' hm hm') hpair'
          obtain rfl := hsame
          obtain rfl := hsemicolons.last_eq hsemicolons' hmark hmark'
            (ListTree.not_semicolon hnext hrest hgap) (ListTree.not_semicolon hnext' hrest' hgap')
          obtain rfl := hgap.eq hgap' (ListTree.starts hnext hrest) (ListTree.starts hnext' hrest')
          rw [next.eq hnext hnext' hrest hrest']

end

/-! ## Statements -/

theorem SubjectTree.Derives.eq {subject subject' : SubjectTree}
    (h : subject.Derives q input rest) (h' : subject'.Derives q input rest') :
    subject = subject' ∧ rest = rest' := by
  obtain ⟨hrest, hactions⟩ := h.yields.unique h'.yields
  obtain rfl := Outcome.ok.inj hrest
  have hactions := (List.append_inj' hactions rfl).1
  refine ⟨?_, rfl⟩
  cases subject with
  | term leaf =>
      cases subject' with
      | term leaf' =>
          obtain ⟨_, -, hleaf⟩ := h
          obtain ⟨_, -, hleaf'⟩ := h'
          have htext : leaf.text ++ rest = leaf'.text ++ rest := by
            rw [← hleaf.text, ← hleaf'.text]
          rw [Leaf.eq_of_actions hactions (List.append_cancel_right htext)]
      | collection members => exact absurd hactions (leaf.actions_ne_collection _)
  | collection members =>
      cases subject' with
      | term leaf => exact absurd hactions.symm (leaf.actions_ne_collection _)
      | collection members' =>
          obtain ⟨-, m₁, m₂, rfl, hinner, hclose⟩ := h
          obtain ⟨-, m₁', m₂', hopen, hinner', hclose'⟩ := h'
          obtain rfl := (List.cons.inj hopen).2
          rw [members.members_eq hinner hinner' (hclose.follows (by decide) (by decide))
            (hclose'.follows (by decide) (by decide))]

theorem Bracketed.eq {list list' : ListTree} (h : Bracketed (list.Derives q) input rest)
    (h' : Bracketed (list'.Derives q) input rest') : list = list' ∧ rest = rest' := by
  have hyields := Bracketed.yields (fun h hrest => list.yields h hrest) h
  have hyields' := Bracketed.yields (fun h hrest => list'.yields h hrest) h'
  refine ⟨?_, Outcome.ok.inj (hyields.unique hyields').1⟩
  obtain ⟨m₁, m₂, m₃, rfl, hgap, hinner, hclose⟩ := h
  obtain ⟨m₁', m₂', m₃', hopen, hgap', hinner', hclose'⟩ := h'
  obtain rfl := (List.cons.inj hopen).2
  have hend : Follows afterList m₃ := hclose.follows (by decide) (by decide)
  have hend' : Follows afterList m₃' := hclose'.follows (by decide) (by decide)
  obtain rfl := hgap.eq hgap' (ListTree.starts hinner hend) (ListTree.starts hinner' hend')
  exact list.eq hinner hinner' hend hend'

/-- The lists of two statements behind the same beginning. -/
theorem ListTree.eq_behind {list list' : ListTree} {start stop stop' : Bytes}
    (hgap : Gap start m) (h : list.Derives q m stop) (hstop : Mark '.' stop rest)
    (hgap' : Gap start m') (h' : list'.Derives q m' stop') (hstop' : Mark '.' stop' rest') :
    list = list' := by
  have hend : Follows afterList stop := hstop.follows (by decide) (by decide)
  have hend' : Follows afterList stop' := hstop'.follows (by decide) (by decide)
  obtain rfl := hgap.eq hgap' (ListTree.starts h hend) (ListTree.starts h' hend')
  exact list.eq h h' hend hend'

/-- Two trees that derive the beginning of one text are the same, and end at one place. -/
theorem StatementTree.Derives.eq {statement statement' : StatementTree}
    (h : statement.Derives q input rest) (h' : statement'.Derives q input rest') :
    statement = statement' ∧ rest = rest' := by
  obtain ⟨hrest, hactions⟩ := h.yields.unique h'.yields
  refine ⟨?_, Outcome.ok.inj hrest⟩
  cases statement with
  | tripleSeq1 subject list =>
      cases statement' with
      | tripleSeq2 list' more => exact absurd (List.append_inj' hactions rfl).2 (by simp)
      | tripleSeq1 subject' list' =>
          obtain ⟨m₁, m₂, m₃, hsubject, hgap, hlist, hstop⟩ := h
          obtain ⟨m₁', m₂', m₃', hsubject', hgap', hlist', hstop'⟩ := h'
          obtain ⟨rfl, rfl⟩ := hsubject.eq hsubject'
          rw [ListTree.eq_behind hgap hlist hstop hgap' hlist' hstop']
  | tripleSeq2 list more =>
      cases statement' with
      | tripleSeq1 subject' list' => exact absurd (List.append_inj' hactions rfl).2 (by simp)
      | tripleSeq2 list' more' =>
          cases more with
          | none =>
              cases more' with
              | none =>
                  obtain ⟨m, hlist, -⟩ := h
                  obtain ⟨m', hlist', -⟩ := h'
                  rw [(hlist.eq hlist').1]
              | some more' =>
                  obtain ⟨m, hlist, -⟩ := h
                  obtain ⟨m', _, _, hlist', -⟩ := h'
                  obtain ⟨rfl, rfl⟩ := hlist.eq hlist'
                  have hnone := (List.append_inj' hactions rfl).1
                  exact absurd (List.append_cancel_left hnone).symm more'.actions_ne_nil
          | some more =>
              cases more' with
              | none =>
                  obtain ⟨m, _, _, hlist, -⟩ := h
                  obtain ⟨m', hlist', -⟩ := h'
                  obtain ⟨rfl, rfl⟩ := hlist.eq hlist'
                  have hnone := (List.append_inj' hactions rfl).1
                  exact absurd (List.append_cancel_left hnone) more.actions_ne_nil
              | some more' =>
                  obtain ⟨m₁, m₂, m₃, hlist, hgap, hmore, hstop⟩ := h
                  obtain ⟨m₁', m₂', m₃', hlist', hgap', hmore', hstop'⟩ := h'
                  obtain ⟨rfl, rfl⟩ := hlist.eq hlist'
                  rw [ListTree.eq_behind hgap hmore hstop hgap' hmore' hstop']

end Trees

/-! ## Documents and blocks -/

/-- What is written in an item: the tree of its triples, or its directive and the text. -/
def Item.written : Item → StatementTree ⊕ Directive × Bytes
  | .triples statement => .inl statement
  | .directive d layout pre iri => .inr (d, d.text layout pre iri)

section Series

variable {input rest rest' last last' : Bytes}

theorem Directive.rule_injective {d d' : Directive} (h : d.rule = d'.rule) : d = d' := by
  cases d <;> cases d' <;> first | rfl | cases h

theorem StatementTree.actions_ne_directive (statement : StatementTree) {d : Directive}
    {iri text : Bytes} : statement.actions false ≠ [(.iriref, iri), (d.rule, text)] := by
  intro h
  have hends : ∃ before, statement.actions false = before ++ [(.triple false, [])] := by
    cases statement with
    | tripleSeq1 subject list => exact ⟨_ ++ [_], by rw [List.append_assoc]; rfl⟩
    | tripleSeq2 list more => exact ⟨_ ++ [_], by rw [List.append_assoc]; rfl⟩
  obtain ⟨before, hbefore⟩ := hends
  rw [hbefore] at h
  change before ++ [_] = [_] ++ [_] at h
  have hlast := (List.append_inj' h rfl).2
  cases d <;> cases hlast

theorem Item.Derives.eq {item item' : Item} (h : item.Derives input rest)
    (h' : item'.Derives input rest') : item.written = item'.written ∧ rest = rest' := by
  obtain ⟨hrest, hactions⟩ := h.yields.unique h'.yields
  refine ⟨?_, Outcome.ok.inj hrest⟩
  cases item with
  | triples statement =>
      cases item' with
      | directive d layout pre iri =>
          change statement.actions false ++ [_] = [_, _] ++ [_] at hactions
          exact absurd (List.append_inj' hactions rfl).1 statement.actions_ne_directive
      | triples statement' =>
          obtain ⟨m, hgap, hstatement⟩ := h
          obtain ⟨m', hgap', hstatement'⟩ := h'
          have hstarts := startsToken_of_yields (by decide) hstatement.yields
          have hstarts' := startsToken_of_yields (by decide) hstatement'.yields
          obtain rfl := hgap.eq hgap' hstarts hstarts'
          rw [(hstatement.eq hstatement').1]
  | directive d layout pre iri =>
      cases item' with
      | triples statement =>
          change [_, _] ++ [_] = statement.actions false ++ [_] at hactions
          exact absurd (List.append_inj' hactions rfl).1.symm statement.actions_ne_directive
      | directive d' layout' pre' iri' =>
          simp only [Item.actions, List.cons.injEq, Prod.mk.injEq, true_and, and_true] at hactions
          rw [Item.written, Item.written, hactions.2.2, Directive.rule_injective hactions.2.1]

theorem ItemsDerive.eq {items items' : List Item} (h : ItemsDerive items input last)
    (h' : ItemsDerive items' input last') (hlast : Gap last []) (hlast' : Gap last' []) :
    items.map Item.written = items'.map Item.written := by
  induction items generalizing items' input with
  | nil =>
      obtain rfl : input = last := h
      cases items' with
      | nil => rfl
      | cons item' items' =>
          obtain ⟨_, hitem', -⟩ := h'
          obtain ⟨_, hend⟩ := hlast.ends
          cases ((iteration_ends hend).unique hitem'.yields).1
  | cons item items ih =>
      obtain ⟨m, hitem, hitems⟩ := h
      cases items' with
      | nil =>
          obtain rfl : input = last' := h'
          obtain ⟨_, hend⟩ := hlast'.ends
          cases ((iteration_ends hend).unique hitem.yields).1
      | cons item' items' =>
          obtain ⟨m', hitem', hitems'⟩ := h'
          obtain ⟨hwritten, rfl⟩ := hitem.eq hitem'
          rw [List.map_cons, List.map_cons, hwritten, ih hitems hitems']

theorem StatementsDerive.eq {statements statements' : List StatementTree}
    (h : StatementsDerive true statements input last)
    (h' : StatementsDerive true statements' input last') (hlast : Gap last [])
    (hlast' : Gap last' []) : statements = statements' := by
  induction statements generalizing statements' input with
  | nil =>
      obtain rfl : input = last := h
      cases statements' with
      | nil => rfl
      | cons statement' statements' =>
          obtain ⟨_, _, hgap', hstatement', -⟩ := h'
          obtain ⟨_, hend⟩ := hlast.ends
          cases ((blockIteration_ends hend).unique (blockIteration_yields hgap' hstatement')).1
  | cons statement statements ih =>
      obtain ⟨m₁, m₂, hgap, hstatement, hmore⟩ := h
      cases statements' with
      | nil =>
          obtain rfl : input = last' := h'
          obtain ⟨_, hend⟩ := hlast'.ends
          cases ((blockIteration_ends hend).unique (blockIteration_yields hgap hstatement)).1
      | cons statement' statements' =>
          obtain ⟨m₁', m₂', hgap', hstatement', hmore'⟩ := h'
          have hstarts := startsToken_of_yields (by decide) hstatement.yields
          have hstarts' := startsToken_of_yields (by decide) hstatement'.yields
          obtain rfl := hgap.eq hgap' hstarts hstarts'
          obtain ⟨rfl, rfl⟩ := hstatement.eq hstatement'
          rw [ih hmore hmore']

end Series

/-- The grammar is unambiguous: whatever two trees derive the beginning of a text, they are
the same and end at one place; so are two readings of a document and of a triples block. -/
theorem readings_unique :
    (∀ (q : Bool) (statement statement' : StatementTree) (input rest rest' : Bytes),
      statement.Derives q input rest → statement'.Derives q input rest' →
        statement = statement' ∧ rest = rest') ∧
    (∀ (items items' : List Item) (document : Bytes), DocumentDerives items document →
      DocumentDerives items' document → items.map Item.written = items'.map Item.written) ∧
    ∀ (trees trees' : List StatementTree) (block : Bytes), BlockDerives trees block →
      BlockDerives trees' block → trees = trees' := by
  refine ⟨?_, ?_, ?_⟩
  · intro q statement statement' input rest rest' h h'
    exact h.eq h'
  · rintro items items' document ⟨-, last, h, hlast⟩ ⟨-, last', h', hlast'⟩
    exact h.eq h' hlast hlast'
  · rintro trees trees' block ⟨-, last, h, hlast⟩ ⟨-, last', h', hlast'⟩
    exact h.eq h' hlast hlast'

end RdfParser.Turtle
