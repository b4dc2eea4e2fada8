/-
  Turtle/Interpretation.lean --- what a document stands for.

  The items of a document are read from the front: a directive changes the prefixes or the
  base for what follows, and triples become a statement over elements with the prefixes
  and the base in front of them.  The parser accepts the documents that can be read in
  this way, and delivers what the builder makes of the statements, one behind the other.
-/
import RdfParser.Turtle.Meaning
import RdfParser.Turtle.Rendering

set_option autoImplicit false

namespace RdfParser.Turtle

open RdfParser.Foundation RdfParser.Rdf RdfParser.Peg RdfParser.Peg.Rule

/-! ## Reading the items -/

/-- What a directive makes of the prefixes and the base, as its action reads the text. -/
def Directive.bind (d : Directive) (text : Bytes) (prefixMap : PrefixMap) (base : Bytes) :
    Except Fault (PrefixMap × Bytes) :=
  if d.declaresPrefix then do
    let (pre, value) ← prefixArguments text
    return (prefixMap.emplace pre value, base)
  else do
    return (prefixMap, ← baseArgument text)

/-- A directive with its tokens; its IRI is read as a term first, and that may throw. -/
def Directive.read (d : Directive) (layout : DirectiveLayout) (pre iri : Bytes)
    (prefixMap : PrefixMap) (base : Bytes) : Except Fault (PrefixMap × Bytes) := do
  let _ ← (IriLeaf.iriref (irirefToken iri)).uri prefixMap base
  d.bind (d.text layout pre iri) prefixMap base

/-- The statements of the items. -/
def resolveItems : List Item → PrefixMap → Bytes → Except Fault (List (Statement false))
  | [], _, _ => .ok []
  | .triples statement :: items, prefixMap, base => do
      let st ← statement.resolve false prefixMap base
      return st :: (← resolveItems items prefixMap base)
  | .directive d layout pre iri :: items, prefixMap, base => do
      let scope ← d.read layout pre iri prefixMap base
      resolveItems items scope.1 scope.2

/-- The book behind a series of statements. -/
def bookAfter {q : Bool} (statements : List (Statement q)) (b : PairBook q) : PairBook q :=
  statements.foldl (fun b st => st.after b) b

/-! ## What is derived is legal -/

section Legal

variable {q : Bool} {input rest : Bytes}

/-- No verb is `[]`. -/
theorem VerbTree.Derives.legal {verb : VerbTree} (h : verb.Derives q input rest) :
    verb.Legal q := by
  cases verb with
  | a => trivial
  | term leaf =>
      obtain ⟨name, hname, hreadable, -, t, hrun, hessence⟩ := h
      refine ⟨hreadable.allowed, ?_⟩
      rintro text rfl
      have hanon : essence t = [(.anon, []), (.blankNode, [])] := hessence
      have hpredicate : name ≠ .predicate := by
        rintro rfl
        obtain ⟨i, -, -, hactions⟩ := predicate_leaf hrun
        rw [hanon] at hactions
        cases i <;> cases hactions
      have hvar : name ≠ .var := by
        rintro rfl
        obtain ⟨_, -, -, hactions⟩ := token_essence (by decide) hrun
        rw [hanon] at hactions
        cases hactions
      cases q <;> simp [verbRules, hpredicate, hvar] at hname

mutual

theorem ObjectTree.Derives.legal : ∀ (object : ObjectTree) {input rest : Bytes},
    object.Derives q input rest → object.Legal q
  | .term leaf, _, _, h => h.readable.allowed
  | .collection members, _, _, h => by
      obtain ⟨m₁, m₂, -, hmembers, -⟩ := h
      exact members.members_legal hmembers
  | .blankNodePropertyList list, _, _, h => by
      obtain ⟨m₁, m₂, m₃, -, -, hlist, -⟩ := h
      exact list.derives_legal hlist

theorem ObjectsTree.members_legal : ∀ (objects : ObjectsTree) {input rest : Bytes},
    objects.Members q input rest → objects.Legal q
  | .nil, _, _, _ => trivial
  | .cons object objects, _, _, h => by
      obtain ⟨m₁, m₂, -, hobject, hobjects⟩ := h
      exact ⟨ObjectTree.Derives.legal object hobject, objects.members_legal hobjects⟩

theorem ObjectsTree.further_legal : ∀ (objects : ObjectsTree) {input rest : Bytes},
    objects.Further q input rest → objects.Legal q
  | .nil, _, _, _ => trivial
  | .cons object objects, _, _, h => by
      obtain ⟨m₁, m₂, m₃, -, -, hobject, hobjects⟩ := h
      exact ⟨ObjectTree.Derives.legal object hobject, objects.further_legal hobjects⟩

theorem ListTree.derives_legal : ∀ (list : ListTree) {input rest : Bytes},
    list.Derives q input rest → list.Legal q
  | .last verb object objects, _, _, h => by
      obtain ⟨m, ⟨m₁, m₂, m₃, hverb, -, hobject, hobjects⟩, -⟩ := h
      exact ⟨hverb.legal, ObjectTree.Derives.legal object hobject, objects.further_legal hobjects⟩
  | .more verb object objects next, _, _, h => by
      obtain ⟨m, _, _, _, ⟨m₁, m₂, m₃, hverb, -, hobject, hobjects⟩, -, -, -, hnext⟩ := h
      exact ⟨hverb.legal, ObjectTree.Derives.legal object hobject, objects.further_legal hobjects,
        next.derives_legal hnext⟩

end

theorem StatementTree.Derives.legal {statement : StatementTree}
    (h : statement.Derives q input rest) : statement.Legal q := by
  cases statement with
  | tripleSeq1 subject list =>
      obtain ⟨m₁, m₂, m₃, hsubject, -, hlist, -⟩ := h
      refine ⟨?_, list.derives_legal hlist⟩
      cases subject with
      | term leaf =>
          obtain ⟨_, -, hleaf⟩ := hsubject
          exact hleaf.readable.allowed
      | collection members =>
          obtain ⟨-, _, _, -, hmembers, -⟩ := hsubject
          exact members.members_legal hmembers
  | tripleSeq2 list more =>
      cases more with
      | none =>
          obtain ⟨_, ⟨_, _, _, -, -, hlist, -⟩, -⟩ := h
          exact ⟨list.derives_legal hlist, fun _ hmem => by cases hmem⟩
      | some more =>
          obtain ⟨_, _, _, ⟨_, _, _, -, -, hlist, -⟩, -, hmore, -⟩ := h
          refine ⟨list.derives_legal hlist, fun other hmem => ?_⟩
          obtain rfl := Option.mem_some_iff.mp hmem
          exact more.derives_legal hmore

/-- The spellings of the item may stand where they do. -/
def Item.Legal : Item → Prop
  | .triples statement => statement.Legal false
  | .directive _ _ _ _ => True

theorem ItemsDerive.legal {items : List Item} (h : ItemsDerive items input rest) :
    ∀ item ∈ items, item.Legal := by
  induction items generalizing input with
  | nil => exact fun _ hmem => by cases hmem
  | cons first items ih =>
      obtain ⟨m, hfirst, hitems⟩ := h
      refine List.forall_mem_cons.mpr ⟨?_, ih hitems⟩
      cases first with
      | directive d layout pre iri => trivial
      | triples statement =>
          obtain ⟨_, -, hstatement⟩ := hfirst
          exact hstatement.legal

end Legal

/-! ## Performing the items -/

section Items

variable {prefixMap prefixMap' : PrefixMap} {base base' : Bytes} {s s₁ : State false}
  {b : PairBook false} {items : List Item}

/-- The state in front of an item. -/
abbrev Between (prefixMap : PrefixMap) (base : Bytes) (b : PairBook false) (s : State false) :
    Prop :=
  Scope.Holds ⟨prefixMap, base, b⟩ s

theorem Between.statement (h : Between prefixMap base b s) :
    Between prefixMap base b s.syncWithMainThread := by
  refine ⟨⟨h.within.settled, h.within.prefixMap, h.within.base⟩, ?_, h.verbStack, h.list⟩
  rw [← h.book]
  unfold State.book
  rw [State.inserted_syncWithMainThread]
  rfl

/-- A directive changes what it says, and nothing else. -/
theorem Directive.apply_eq (d : Directive) (text : Bytes) (s : State false) :
    apply d.rule text s = (d.bind text s.prefixMap s.base).map fun scope =>
      { s with toBasicState :=
          { s.toBasicState with prefixMap := scope.1, base := scope.2 } } := by
  cases d with
  | prefixID | sparqlPrefix =>
      simp only [apply, rule, State.lift, Action.prefixID, Action.sparqlPrefix, bind]
      cases prefixArguments text <;> rfl
  | base | sparqlBase =>
      simp only [apply, rule, State.lift, Action.base, Action.sparqlBase, bind]
      cases baseArgument text <;> rfl

/-- The IRI of a directive is read as a term. -/
theorem iriref_apply (text : Bytes) (s : State false) :
    apply .iriref text s = ((IriLeaf.iriref text).uri s.prefixMap s.base).map fun uri =>
      { s with toBasicState :=
          { s.toBasicState with
            element := Element.ofTerm false (uriRef uri), iriIsIriref := true } } := by
  have haction : apply .iriref text s = s.lift (Action.iriref text) := rfl
  rw [haction, State.lift, Action.iriref_eq]
  unfold IriLeaf.action
  cases (IriLeaf.iriref text).uri s.prefixMap s.base <;> rfl

/-- The actions of a directive run where it can be read. -/
theorem Directive.run_ok {d : Directive} {layout : DirectiveLayout} {pre iri : Bytes}
    {scope : PrefixMap × Bytes} (h : Between prefixMap base b s)
    (hread : d.read layout pre iri prefixMap base = .ok scope) :
    ∃ s₁, runActions (Item.directive d layout pre iri).actions s = (s₁, none) ∧
      Between scope.1 scope.2 b s₁ := by
  have hmap : s.prefixMap = prefixMap := h.within.prefixMap
  have hbase : s.base = base := h.within.base
  obtain ⟨uri, huri, hbind⟩ := ok_of_bind hread
  rw [← hmap, ← hbase] at huri hbind
  have hiri := iriref_apply (irirefToken iri) s
  rw [huri] at hiri
  let read : BasicState false :=
    { s.toBasicState with element := Element.ofTerm false (uriRef uri), iriIsIriref := true }
  have hrule := d.apply_eq (d.text layout pre iri) { s with toBasicState := read }
  rw [hbind] at hrule
  have hs₁ : Between scope.1 scope.2 b
      { s with toBasicState := { read with prefixMap := scope.1, base := scope.2 } } :=
    ⟨⟨⟨h.within.settled.typeTagFound, h.within.settled.langTagFound⟩, rfl, rfl⟩, h.book,
      h.verbStack, h.list⟩
  refine ⟨_, ?_, Between.statement hs₁⟩
  rw [Item.actions, runActions_cons_ok hiri, runActions_cons_ok hrule]
  rfl

/-- It does not run otherwise. -/
theorem Directive.run_inv {d : Directive} {layout : DirectiveLayout} {pre iri : Bytes}
    (h : Between prefixMap base b s)
    (hrun : runActions (Item.directive d layout pre iri).actions s = (s₁, none)) :
    ∃ scope, d.read layout pre iri prefixMap base = .ok scope := by
  have hmap : s.prefixMap = prefixMap := h.within.prefixMap
  have hbase : s.base = base := h.within.base
  obtain ⟨s₂, hiri, hrun⟩ := runActions_cons_inv hrun
  obtain ⟨s₃, hrule, -⟩ := runActions_cons_inv hrun
  rw [iriref_apply, hmap, hbase] at hiri
  cases huri : (IriLeaf.iriref (irirefToken iri)).uri prefixMap base with
  | error fault => simp [huri, Except.map] at hiri
  | ok uri =>
      simp only [huri, Except.map, Except.ok.injEq] at hiri
      subst hiri
      rw [d.apply_eq] at hrule
      simp only [hmap, hbase] at hrule
      unfold Directive.read
      rw [huri]
      cases hbind : d.bind (d.text layout pre iri) prefixMap base with
      | error fault => simp [hbind, Except.map] at hrule
      | ok scope => exact ⟨scope, rfl⟩

/-- The actions of the items run where each item can be read. -/
theorem items_run (hlegal : ∀ item ∈ items, item.Legal) (h : Between prefixMap base b s)
    {statements : List (Statement false)}
    (hresolve : resolveItems items prefixMap base = .ok statements) :
    ∃ s₁, runActions (items.flatMap Item.actions) s = (s₁, none) ∧
      s₁.book = bookAfter statements b := by
  induction items generalizing prefixMap base b s statements with
  | nil =>
      obtain rfl := Except.ok.inj hresolve
      exact ⟨s, rfl, h.book⟩
  | cons item items ih =>
      have hmore : ∀ item ∈ items, item.Legal :=
        fun other hother => hlegal other (List.mem_cons_of_mem _ hother)
      rw [List.flatMap_cons, runActions_append]
      cases item with
      | triples statement =>
          obtain ⟨st, hst, hresolve⟩ := ok_of_bind hresolve
          obtain ⟨statements, hrest, hpure⟩ := ok_of_bind hresolve
          obtain rfl := Except.ok.inj hpure
          obtain ⟨s₂, hrun, hs₂⟩ := StatementTree.run_ok (hlegal _ List.mem_cons_self) h hst
          rw [Item.actions, runActions_append, hrun]
          exact ih hmore (Between.statement hs₂) hrest
      | directive d layout pre iri =>
          obtain ⟨scope, hread, hrest⟩ := ok_of_bind hresolve
          obtain ⟨s₂, hrun, hs₂⟩ := Directive.run_ok h hread
          rw [hrun]
          exact ih hmore hs₂ hrest

/-- They do not run otherwise. -/
theorem items_read (hlegal : ∀ item ∈ items, item.Legal) (h : Between prefixMap base b s)
    (hrun : runActions (items.flatMap Item.actions) s = (s₁, none)) :
    ∃ statements, resolveItems items prefixMap base = .ok statements := by
  induction items generalizing prefixMap base b s with
  | nil => exact ⟨[], rfl⟩
  | cons item items ih =>
      have hmore : ∀ item ∈ items, item.Legal :=
        fun other hother => hlegal other (List.mem_cons_of_mem _ hother)
      rw [List.flatMap_cons] at hrun
      obtain ⟨s₃, hitem, hitems⟩ := runActions_append_inv hrun
      cases item with
      | triples statement =>
          obtain ⟨s₂, hstatement, hsync⟩ := runActions_append_inv hitem
          obtain rfl : s₂.syncWithMainThread = s₃ := (Prod.mk.inj hsync).1
          obtain ⟨st, hst, hs₂⟩ := StatementTree.run_inv (hlegal _ List.mem_cons_self) h hstatement
          obtain ⟨statements, hrest⟩ := ih hmore (Between.statement hs₂) hitems
          refine ⟨st :: statements, ?_⟩
          have hst : statement.resolve false prefixMap base = .ok st := hst
          simp only [resolveItems, hst, hrest, bind, Except.bind, pure, Except.pure]
      | directive d layout pre iri =>
          obtain ⟨scope, hread⟩ := Directive.run_inv h hitem
          obtain ⟨s₂, hrun₂, hs₂⟩ := Directive.run_ok h hread
          rw [hitem] at hrun₂
          obtain rfl := (Prod.mk.inj hrun₂).1
          obtain ⟨statements, hrest⟩ := ih hmore hs₂ hitems
          refine ⟨statements, ?_⟩
          simp only [resolveItems, hread, hrest, bind, Except.bind]

end Items

/-! ## Accepted documents -/

theorem between_initial (prefixMap : PrefixMap) :
    Between prefixMap [] (initialState false prefixMap).book (initialState false prefixMap) :=
  ⟨⟨⟨rfl, rfl⟩, rfl, rfl⟩, rfl, rfl, rfl⟩

/-- What the parser delivers for these statements. -/
def delivered {q : Bool} (prefixMap : PrefixMap) (statements : List (Statement q)) :
    List (Triple q) :=
  (bookAfter statements (initialState q prefixMap).book).inserted

/-- A document whose items can be read is accepted. -/
theorem DocumentDerives.accepts {prefixMap : PrefixMap} {document : Bytes} {items : List Item}
    {statements : List (Statement false)} (h : DocumentDerives items document)
    (hresolve : resolveItems items prefixMap [] = .ok statements) :
    ∃ final, Accepts prefixMap document final ∧
      final.inserted = delivered prefixMap statements := by
  obtain ⟨last, hyields, t, hend⟩ := h.yields
  obtain ⟨-, _, hitems, -⟩ := h
  obtain ⟨s₁, hrun, hbook⟩ := items_run hitems.legal (between_initial prefixMap) hresolve
  refine ⟨s₁.setParsingIsDone, accepts_iff.mpr ⟨last, _, hyields, ⟨t, hend⟩, ?_⟩, ?_⟩
  · rw [runActions_append, hrun]
    rfl
  · rw [State.inserted_setParsingIsDone]
    exact congrArg PairBook.inserted hbook

/-- The document is accepted with these triples. -/
def Delivers {q : Bool} (prefixMap : PrefixMap) (document : Bytes) (triples : List (Triple q)) :
    Prop :=
  ∃ final : State q, Accepts prefixMap document final ∧ final.inserted = triples

theorem DocumentDerives.means {prefixMap : PrefixMap} {document : Bytes} {items : List Item}
    {triples : List (Triple false)} (h : DocumentDerives items document) :
    Delivers prefixMap document triples ↔
      ∃ statements, resolveItems items prefixMap [] = .ok statements ∧
        delivered prefixMap statements = triples := by
  constructor
  · rintro ⟨final, haccepts, rfl⟩
    obtain ⟨last, actions, hplus, -, hrun⟩ := accepts_iff.mp haccepts
    obtain ⟨_, hyields, -⟩ := h.yields
    rw [(hplus.unique hyields).2] at hrun
    obtain ⟨s₁, hitems, hdone⟩ := runActions_append_inv hrun
    obtain rfl : s₁.setParsingIsDone = final := (Prod.mk.inj hdone).1
    obtain ⟨-, _, hderived, -⟩ := h
    obtain ⟨statements, hresolve⟩ := items_read hderived.legal (between_initial prefixMap) hitems
    obtain ⟨s₂, hrun₂, hbook⟩ := items_run hderived.legal (between_initial prefixMap) hresolve
    rw [hitems] at hrun₂
    obtain rfl := (Prod.mk.inj hrun₂).1
    refine ⟨statements, hresolve, ?_⟩
    rw [State.inserted_setParsingIsDone]
    exact (congrArg PairBook.inserted hbook).symm
  · rintro ⟨statements, hresolve, rfl⟩
    exact h.accepts hresolve

/-- An accepted document has items, unless a directive in it is read by accident. -/
theorem Accepts.items {prefixMap : PrefixMap} {document : Bytes} {final : State false}
    (h : Accepts prefixMap document final) (hunglued : Unglued document) :
    ∃ items, DocumentDerives items document := by
  obtain ⟨last, actions, hplus, ⟨t, hend⟩, -⟩ := accepts_iff.mp h
  obtain ⟨items, hderives, -⟩ := document_derives hunglued hplus hend
  exact ⟨items, hderives⟩

/-- The parser accepts the documents whose items can be read, and delivers what the builder
makes of their statements. -/
theorem documents_mean {prefixMap : PrefixMap} {document : Bytes}
    {triples : List (Triple false)} :
    (∃ final, Accepts prefixMap document final ∧ Unglued document ∧
        final.inserted = triples) ↔
      ∃ items statements, DocumentDerives items document ∧
        resolveItems items prefixMap [] = .ok statements ∧
        delivered prefixMap statements = triples := by
  constructor
  · rintro ⟨final, haccepts, hunglued, hinserted⟩
    obtain ⟨items, hderives⟩ := haccepts.items hunglued
    obtain ⟨statements, hresolve, hdelivered⟩ := hderives.means.mp ⟨final, haccepts, hinserted⟩
    exact ⟨items, statements, hderives, hresolve, hdelivered⟩
  · rintro ⟨items, statements, hderives, hmeans⟩
    obtain ⟨final, haccepts, hinserted⟩ := hderives.means.mpr ⟨statements, hmeans⟩
    exact ⟨final, haccepts, hderives.unglued, hinserted⟩

/-! ## Normal forms -/

/-- `@prefix p: <i#> .` -/
def sampleDirective : Item :=
  .directive .prefixID ⟨bytes "@prefix", bytes " ", bytes " ", bytes " "⟩ (bytes "p") (bytes "i#")

/-- `p:s a [ <q> ( 1 [] ) ] .` -/
def sampleTriples : Item :=
  .triples (.tripleSeq1 (.term (.iri (.prefixedName (bytes "p:s"))))
    (.last .a (.blankNodePropertyList (.last (.term (.iri (.iriref (bytes "<q>"))))
      (.collection (.cons (.term (.numericLiteral .integer (bytes "1")))
        (.cons (.term (.anon (bytes "[]"))) .nil))) .nil)) .nil))

def sampleItems : List Item := [sampleDirective, sampleTriples]

theorem sample_derives : DocumentDerives sampleItems (renderItems sampleItems) := by
  have hblank : IsLayout (bytes " ") := .space (by decide) .nil
  have hdirective : sampleDirective.Writable :=
    ⟨⟨by decide, hblank, hblank, hblank⟩, ⟨[], _, exec_sound 40 rfl⟩, ⟨[], _, exec_sound 40 rfl⟩,
      by simp⟩
  have htriples : sampleTriples.Writable := by
    refine ⟨⟨⟨[], _, exec_sound 40 rfl⟩, .inl rfl⟩, trivial,
      ⟨⟨⟨[], _, exec_sound 40 rfl⟩, rfl⟩, ⟨⟨⟨?_, .inl rfl⟩, trivial⟩,
        ⟨⟨?_, .inl rfl⟩, trivial⟩, trivial⟩, trivial⟩, trivial⟩
    · exact ⟨[], _, exec_sound 40 rfl⟩
    · exact ⟨[], _, exec_sound 40 rfl⟩
  exact renderItems_derives (by simp [sampleItems])
    (by simpa [sampleItems] using ⟨hdirective, htriples⟩)

theorem sample_resolves : ∃ statements, resolveItems sampleItems [] [] = .ok statements ∧
    ∀ st ∈ statements, st.wellNested = true :=
  ⟨_, rfl, by simp only [List.forall_mem_singleton]; rfl⟩

/-- The triples of the statements, each with the labels in front of it used up. -/
def denoteAll {q : Bool} : List (Statement q) → Nat → List (Triple q)
  | [], _ => []
  | st :: statements, n => st.denote n ++ denoteAll statements (st.next n)

theorem bookAfter_inserted {q : Bool} {statements : List (Statement q)} {b : PairBook q}
    (hfresh : b.Fresh) (hnested : ∀ st ∈ statements, st.wellNested = true) :
    (bookAfter statements b).inserted = b.inserted ++ denoteAll statements b.label := by
  induction statements generalizing b with
  | nil => exact (List.append_nil _).symm
  | cons st statements ih =>
      obtain ⟨hst, hmore⟩ := List.forall_mem_cons.mp hnested
      have hrest := ih (st.after_fresh hfresh hst) hmore
      rw [st.after_inserted, st.effect_wellNested b hfresh hst, st.after_label,
        List.append_assoc] at hrest
      exact hrest

end RdfParser.Turtle
