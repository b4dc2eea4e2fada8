/-
  Turtle/Places.lean --- what may stand in the places of a triple.

  The builder moves elements around and can give a pair the wrong subject.  It never mixes
  up the places: whatever is required of subjects, predicates and objects, and met by the
  tree of a statement and by the nodes and names the builder makes, is met by every triple
  it inserts.  So the triples of a document have no literal as a subject or a predicate,
  and no blank node as a predicate.
-/
import RdfParser.Turtle.Interpretation
import RdfParser.Turtle.Misnesting

set_option autoImplicit false

namespace RdfParser.Turtle

open RdfParser.Foundation RdfParser.Rdf

variable {q : Bool}

/-! ## Places -/

/-- What is required in the three places. -/
structure Places (q : Bool) where
  subject : Element q → Prop
  predicate : Element q → Prop
  object : Element q → Prop

/-- What the builder makes itself meets the requirements. -/
structure Places.Supplied (P : Places q) : Prop where
  node : ∀ n, P.subject (unlabeledNode q n) ∧ P.object (unlabeledNode q n)
  anon : ∀ n, P.subject (Action.blankNodeElement q (blankNodeLabel n)) ∧
    P.object (Action.blankNodeElement q (blankNodeLabel n))
  rdfFirst : P.predicate (rdfFirst q)
  rdfRest : P.predicate (rdfRest q)
  rdfNil : P.object (rdfNil q)

/-- The triple meets the requirements. -/
structure Places.Hold (P : Places q) (t : Triple q) : Prop where
  subject : P.subject t.subject
  predicate : P.predicate t.predicate
  object : P.object t.object

section Trees

variable (P : Places q)

mutual

def Object.Placed : Object q → Prop
  | .term t => P.object t
  | .anon => True
  | .collection members => members.Placed
  | .blankNodePropertyList list => list.Placed

def Objects.Placed : Objects q → Prop
  | .nil => True
  | .cons object objects => object.Placed ∧ objects.Placed

def PredicateObjectList.Placed : PredicateObjectList q → Prop
  | .last verb object objects => P.predicate verb ∧ object.Placed ∧ objects.Placed
  | .more verb object objects next =>
      P.predicate verb ∧ object.Placed ∧ objects.Placed ∧ next.Placed

end

def Subject.Placed : Subject q → Prop
  | .term t => P.subject t
  | .anon => True
  | .collection members => members.Placed P

def Statement.Placed : Statement q → Prop
  | .tripleSeq1 subject list => subject.Placed P ∧ list.Placed P
  | .tripleSeq2 list rest => list.Placed P ∧ ∀ more ∈ rest, more.Placed P

/-- The waiting pairs and the inserted triples meet the requirements, and so does the node
kept for a property list in subject position, if there is one. -/
structure PairBook.Placed (kept : Bool) (b : PairBook q) : Prop where
  pairs : ∀ pair ∈ b.pairs, P.predicate pair.1 ∧ P.object pair.2
  pairsStack : ∀ list ∈ b.pairsStack, ∀ pair ∈ list, P.predicate pair.1 ∧ P.object pair.2
  firstBNPL : kept = true → P.subject b.firstBNPL
  inserted : ∀ t ∈ b.inserted, P.Hold t

end Trees

/-! ## The operations of the book -/

section Book

variable {P : Places q} {kept : Bool} {b : PairBook q}

theorem tripleOf_placed {subject : Element q} (hsubject : P.subject subject)
    {pairs : List (Element q × Element q)}
    (hpairs : ∀ pair ∈ pairs, P.predicate pair.1 ∧ P.object pair.2) :
    ∀ t ∈ pairs.map (tripleOf subject), P.Hold t := by
  intro t ht
  obtain ⟨pair, hpair, rfl⟩ := List.mem_map.mp ht
  exact ⟨hsubject, (hpairs pair hpair).1, (hpairs pair hpair).2⟩

theorem listCells_placed (hP : P.Supplied) (n : Nat) {values : List (Element q)}
    (hvalues : ∀ e ∈ values, P.object e) : ∀ t ∈ listCells n values, P.Hold t := by
  induction values with
  | nil => exact fun _ hmem => by cases hmem
  | cons value values ih =>
      obtain ⟨hvalue, hvalues⟩ := List.forall_mem_cons.mp hvalues
      have hsuccessor : P.object (if values = [] then rdfNil q
          else unlabeledNode q (n + values.length - 1)) := by
        split
        · exact hP.rdfNil
        · exact (hP.node _).2
      refine List.forall_mem_append.mpr ⟨ih hvalues, ?_⟩
      refine List.forall_mem_cons.mpr ⟨⟨(hP.node _).1, hP.rdfRest, hsuccessor⟩, ?_⟩
      exact List.forall_mem_singleton.mpr ⟨(hP.node _).1, hP.rdfFirst, hvalue⟩

theorem collectionTriples_placed (hP : P.Supplied) (n : Nat) {values : List (Element q)}
    (hvalues : ∀ e ∈ values, P.object e) : ∀ t ∈ collectionTriples n values, P.Hold t := by
  unfold collectionTriples
  split
  · exact List.forall_mem_singleton.mpr ⟨(hP.node n).1, hP.rdfFirst, hP.rdfNil⟩
  · exact listCells_placed hP n hvalues

namespace PairBook.Placed

theorem verb (hb : b.Placed P kept) (height : Nat) : (b.verb height).Placed P kept := by
  unfold PairBook.verb
  split
  · exact ⟨List.forall_mem_nil _, List.forall_mem_cons.mpr ⟨hb.pairs, hb.pairsStack⟩,
      hb.firstBNPL, hb.inserted⟩
  · exact ⟨hb.pairs, hb.pairsStack, hb.firstBNPL, hb.inserted⟩

theorem add (hb : b.Placed P kept) {verb : Element q} (hverb : P.predicate verb)
    {values : List (Element q)} (hvalues : ∀ e ∈ values, P.object e) :
    (b.add verb values).Placed P kept := by
  refine ⟨List.forall_mem_append.mpr ⟨hb.pairs, fun pair hpair => ?_⟩, hb.pairsStack,
    hb.firstBNPL, hb.inserted⟩
  obtain ⟨value, hvalue, rfl⟩ := List.mem_map.mp hpair
  exact ⟨hverb, hvalues value hvalue⟩

theorem fresh (hb : b.Placed P kept) : b.fresh.Placed P kept :=
  ⟨hb.pairs, hb.pairsStack, hb.firstBNPL, hb.inserted⟩

theorem closeCollection (hP : P.Supplied) (hb : b.Placed P kept) {values : List (Element q)}
    (hvalues : ∀ e ∈ values, P.object e) : (b.closeCollection values).Placed P kept :=
  ⟨hb.pairs, hb.pairsStack, hb.firstBNPL,
    List.forall_mem_append.mpr ⟨hb.inserted, collectionTriples_placed hP _ hvalues⟩⟩

/-- The pairs of a property list get its node, which may be a subject. -/
theorem close (hP : P.Supplied) (hb : b.Placed P kept) : b.close.Placed P kept := by
  have hnode := hP.node b.label
  refine ⟨?_, fun list hlist => hb.pairsStack list (List.mem_of_mem_tail hlist), ?_,
    List.forall_mem_append.mpr ⟨hb.inserted, tripleOf_placed hnode.1 hb.pairs⟩⟩
  · unfold PairBook.close
    dsimp only
    cases hstack : b.pairsStack with
    | nil => exact List.forall_mem_nil _
    | cons outer stack => exact hb.pairsStack outer (hstack ▸ List.mem_cons_self)
  · unfold PairBook.close
    dsimp only
    split
    · exact fun _ => hnode.1
    · exact hb.firstBNPL

theorem finish (hb : b.Placed P kept) {subject : Element q} (hsubject : P.subject subject) :
    (b.finish subject).Placed P kept :=
  ⟨List.forall_mem_nil _, hb.pairsStack, hb.firstBNPL,
    List.forall_mem_append.mpr ⟨hb.inserted, tripleOf_placed hsubject hb.pairs⟩⟩

end PairBook.Placed

/-! ## Trees -/

theorem collectionHead_placed (hP : P.Supplied) (n : Nat) (values : List (Element q)) :
    P.subject (collectionHead n values) ∧ P.object (collectionHead n values) :=
  ⟨(hP.node _).1, (hP.node _).2⟩

mutual

theorem Object.effect_placed (hP : P.Supplied) : ∀ (o : Object q) (height : Nat)
    {b : PairBook q}, o.Placed P → b.Placed P kept →
    P.object (o.effect height b).1 ∧ (o.effect height b).2.Placed P kept
  | .term _, _, _, ho, hb => ⟨ho, hb⟩
  | .anon, _, _, _, hb => ⟨(hP.anon _).2, hb.fresh⟩
  | .collection members, height, b, ho, hb => by
      obtain ⟨hvalues, hbook⟩ := members.effect_placed hP height ho hb
      exact ⟨(collectionHead_placed hP _ _).2, hbook.closeCollection hP hvalues⟩
  | .blankNodePropertyList list, height, b, ho, hb =>
      ⟨(hP.node _).2, (list.effect_placed hP height ho hb).close hP⟩

theorem Objects.effect_placed (hP : P.Supplied) : ∀ (os : Objects q) (height : Nat)
    {b : PairBook q}, os.Placed P → b.Placed P kept →
    (∀ e ∈ (os.effect height b).1, P.object e) ∧ (os.effect height b).2.Placed P kept
  | .nil, _, _, _, hb => ⟨List.forall_mem_nil _, hb⟩
  | .cons object objects, height, b, hos, hb => by
      obtain ⟨hvalue, hb₁⟩ := object.effect_placed hP height hos.1 hb
      obtain ⟨hvalues, hb₂⟩ := objects.effect_placed hP height hos.2 hb₁
      exact ⟨List.forall_mem_cons.mpr ⟨hvalue, hvalues⟩, hb₂⟩

theorem PredicateObjectList.effect_placed (hP : P.Supplied) :
    ∀ (list : PredicateObjectList q) (height : Nat) {b : PairBook q}, list.Placed P →
    b.Placed P kept → (list.effect height b).Placed P kept
  | .last verb object objects, height, b, hlist, hb => by
      obtain ⟨hvalue, hb₁⟩ := object.effect_placed hP (height + 1) hlist.2.1 (hb.verb height)
      obtain ⟨hvalues, hb₂⟩ := objects.effect_placed hP (height + 1) hlist.2.2 hb₁
      exact hb₂.add hlist.1 (List.forall_mem_cons.mpr ⟨hvalue, hvalues⟩)
  | .more verb object objects next, height, b, hlist, hb => by
      obtain ⟨hverb, hobject, hobjects, hnext⟩ := hlist
      obtain ⟨hvalue, hb₁⟩ := object.effect_placed hP (height + 1) hobject (hb.verb height)
      obtain ⟨hvalues, hb₂⟩ := objects.effect_placed hP (height + 1) hobjects hb₁
      exact next.effect_placed hP height hnext
        (hb₂.add hverb (List.forall_mem_cons.mpr ⟨hvalue, hvalues⟩))

end

/-! ## Statements -/

theorem Subject.effect_placed (hP : P.Supplied) {subject : Subject q} (h : subject.Placed P)
    (hb : b.Placed P kept) :
    P.subject (subject.effect b).1 ∧ (subject.effect b).2.Placed P kept := by
  cases subject with
  | term t => exact ⟨h, hb⟩
  | anon => exact ⟨(hP.anon _).1, hb.fresh⟩
  | collection members =>
      obtain ⟨hvalues, hbook⟩ := members.effect_placed hP 0 h hb
      exact ⟨(collectionHead_placed hP _ _).1, hbook.closeCollection hP hvalues⟩

/-- The lists set aside by a statement are all used up at its end. -/
theorem Statement.after_empty (st : Statement q) (hfresh : b.Fresh) : (st.after b).Fresh := by
  refine ⟨by cases st <;> rfl, List.length_eq_zero_iff.mp (Nat.le_zero.mp ?_)⟩
  have hstack : b.pairsStack.length = 0 := by rw [hfresh.pairsStack]; rfl
  cases st with
  | tripleSeq1 subject list =>
      have hlist := list.effect_depth 0 (subject.effect b).2
      rw [PairBook.verb_zero] at hlist
      exact hlist.trans ((subject.effect_depth b).trans_eq hstack)
  | tripleSeq2 list rest =>
      have hlist := ((Object.blankNodePropertyList list).effect_depth 0 b).trans_eq hstack
      cases rest with
      | none => exact hlist
      | some rest =>
          have hrest := rest.effect_depth 0 ((Object.blankNodePropertyList list).effect 0 b).2
          rw [PairBook.verb_zero] at hrest
          exact hrest.trans hlist

theorem Statement.after_placed (hP : P.Supplied) {st : Statement q} (hst : st.Placed P)
    (hfresh : b.Fresh) (hb : b.Placed P false) : (st.after b).Placed P false := by
  cases st with
  | tripleSeq1 subject list =>
      obtain ⟨hsubject, hbook⟩ := Subject.effect_placed hP hst.1 hb
      exact (list.effect_placed hP 0 hst.2 hbook).finish hsubject
  | tripleSeq2 list rest =>
      have hlist := list.effect_placed hP 0 hst.1 hb
      have hstack : (list.effect 0 b).pairsStack = [] := by
        have hle := list.effect_depth 0 b
        rw [PairBook.verb_zero, hfresh.pairsStack] at hle
        exact List.length_eq_zero_iff.mp (Nat.le_zero.mp hle)
      have hclose := hlist.close hP
      -- no list is set aside when the bracket is closed, so its node is kept
      have hkept : ((Object.blankNodePropertyList list).effect 0 b).2.Placed P true := by
        refine ⟨hclose.pairs, hclose.pairsStack, fun _ => ?_, hclose.inserted⟩
        unfold Object.effect PairBook.close
        simp only [hstack, if_true]
        exact (hP.node _).1
      have hrest : (rest.elim ((Object.blankNodePropertyList list).effect 0 b).2
          fun rest => rest.effect 0 ((Object.blankNodePropertyList list).effect 0 b).2).Placed P
          true := by
        cases rest with
        | none => exact hkept
        | some rest => exact rest.effect_placed hP 0 (hst.2 rest rfl) hkept
      have hall := hrest.finish (hrest.firstBNPL rfl)
      exact ⟨hall.pairs, hall.pairsStack, fun h => absurd h Bool.false_ne_true,
        hall.inserted⟩

/-- Every triple of a series of statements meets the requirements. -/
theorem bookAfter_placed {P : Places false} (hP : P.Supplied)
    {statements : List (Statement false)} (hstatements : ∀ st ∈ statements, st.Placed P)
    {b : PairBook false} (hfresh : b.Fresh) (hb : b.Placed P false) :
    (bookAfter statements b).Placed P false := by
  induction statements generalizing b with
  | nil => exact hb
  | cons st statements ih =>
      obtain ⟨hst, hmore⟩ := List.forall_mem_cons.mp hstatements
      exact ih hmore (st.after_empty hfresh) (Statement.after_placed hP hst hfresh hb)

end Book

/-! ## The triples of a document -/

section Document

variable {prefixMap : PrefixMap} {base : Bytes}

/-- An IRI. -/
def IsUriRef (t : Term) : Prop := ∃ uri, t = uriRef uri

/-- What RDF allows: an IRI or a blank node, an IRI, and any term. -/
def rdfPlaces : Places false where
  subject t := IsUriRef t ∨ ∃ label, t = bNode label
  predicate := IsUriRef
  object := Constructed

theorem rdfPlaces_supplied : rdfPlaces.Supplied where
  node _ := ⟨.inr ⟨_, rfl⟩, Constructed.bNode _⟩
  anon _ := ⟨.inr ⟨_, rfl⟩, Constructed.bNode _⟩
  rdfFirst := ⟨_, rfl⟩
  rdfRest := ⟨_, rfl⟩
  rdfNil := Constructed.uriRef _

theorem ok_of_map {α β : Type} {x : Except Fault α} {f : α → β} {r : β}
    (h : x.map f = .ok r) : ∃ a, x = .ok a ∧ f a = r := by
  cases x with
  | error fault => cases h
  | ok a => exact ⟨a, rfl, Except.ok.inj h⟩

theorem Leaf.element_uriRef {leaf : Leaf} {n : Nat} {t : Element false}
    (hiri : leaf.isIri = true) (h : leaf.element false prefixMap base n = .ok t) :
    IsUriRef t := by
  cases leaf with
  | iri i =>
      obtain ⟨uri, -, rfl⟩ := ok_of_map h
      exact ⟨uri, rfl⟩
  | _ => cases hiri

theorem Leaf.element_node {leaf : Leaf} {n : Nat} {t : Element false}
    (hnode : leaf.isBlankNode = true) (h : leaf.element false prefixMap base n = .ok t) :
    ∃ label, t = bNode label := by
  cases leaf with
  | blankNodeLabel text =>
      obtain ⟨label, -, rfl⟩ := ok_of_map h
      exact ⟨label, rfl⟩
  | anon text => exact ⟨_, (Except.ok.inj h).symm⟩
  | _ => cases hnode

theorem VerbTree.resolve_placed {verb : VerbTree} {e : Element false} (hw : verb.Writable)
    (h : verb.resolve false prefixMap base = .ok e) : rdfPlaces.predicate e := by
  cases verb with
  | term leaf => exact Leaf.element_uriRef hw.2 h
  | a => exact ⟨_, (Except.ok.inj h).symm⟩

mutual

theorem ObjectTree.resolve_placed : ∀ (object : ObjectTree) {o : Object false}, object.Writable →
    object.resolve false prefixMap base = .ok o → o.Placed rdfPlaces
  | .term leaf, o, hw, h => by
      have hvar : leaf.isVar = false := hw.1.allowed.resolve_right Bool.false_ne_true
      unfold ObjectTree.resolve Leaf.resolve at h
      split at h
      · obtain rfl := Except.ok.inj h
        trivial
      · obtain ⟨e, he, rfl⟩ := ok_of_map h
        exact Leaf.element_constructed hvar he
  | .collection members, o, hw, h => by
      obtain ⟨os, hmembers, hpure⟩ := ok_of_bind h
      obtain rfl := Except.ok.inj hpure
      exact members.resolve_placed hw hmembers
  | .blankNodePropertyList list, o, hw, h => by
      obtain ⟨list', hlist, hpure⟩ := ok_of_bind h
      obtain rfl := Except.ok.inj hpure
      exact list.resolve_placed hw hlist

theorem ObjectsTree.resolve_placed : ∀ (objects : ObjectsTree) {os : Objects false},
    objects.Writable → objects.resolve false prefixMap base = .ok os → os.Placed rdfPlaces
  | .nil, os, _, h => by
      obtain rfl := Except.ok.inj h
      trivial
  | .cons object objects, os, hw, h => by
      obtain ⟨o, ho, hmore⟩ := ok_of_bind h
      obtain ⟨os', hos, hpure⟩ := ok_of_bind hmore
      obtain rfl := Except.ok.inj hpure
      exact ⟨object.resolve_placed hw.1 ho, objects.resolve_placed hw.2 hos⟩

theorem ListTree.resolve_placed : ∀ (list : ListTree) {list' : PredicateObjectList false},
    list.Writable → list.resolve false prefixMap base = .ok list' → list'.Placed rdfPlaces
  | .last verb object objects, list', hw, h => by
      obtain ⟨v, hv, hmore⟩ := ok_of_bind h
      obtain ⟨o, ho, hmore⟩ := ok_of_bind hmore
      obtain ⟨os, hos, hpure⟩ := ok_of_bind hmore
      obtain rfl := Except.ok.inj hpure
      exact ⟨VerbTree.resolve_placed hw.1 hv, object.resolve_placed hw.2.1 ho,
        objects.resolve_placed hw.2.2 hos⟩
  | .more verb object objects next, list', hw, h => by
      obtain ⟨v, hv, hmore⟩ := ok_of_bind h
      obtain ⟨o, ho, hmore⟩ := ok_of_bind hmore
      obtain ⟨os, hos, hmore⟩ := ok_of_bind hmore
      obtain ⟨next', hnext, hpure⟩ := ok_of_bind hmore
      obtain rfl := Except.ok.inj hpure
      obtain ⟨hverb, hobject, hobjects, hlist⟩ := hw
      exact ⟨VerbTree.resolve_placed hverb hv, object.resolve_placed hobject ho,
        objects.resolve_placed hobjects hos, next.resolve_placed hlist hnext⟩

end

theorem SubjectTree.resolve_placed {subject : SubjectTree} {subject' : Subject false}
    (hw : subject.Writable) (h : subject.resolve false prefixMap base = .ok subject') :
    subject'.Placed rdfPlaces := by
  unfold SubjectTree.resolve at h
  split at h
  · obtain rfl := Except.ok.inj h
    trivial
  · obtain ⟨e, he, rfl⟩ := ok_of_map h
    exact hw.2.imp (Leaf.element_uriRef · he) (Leaf.element_node · he)
  · obtain ⟨os, hmembers, hpure⟩ := ok_of_bind h
    obtain rfl := Except.ok.inj hpure
    exact ObjectsTree.resolve_placed _ hw hmembers

theorem StatementTree.resolve_placed {statement : StatementTree} {st : Statement false}
    (hw : statement.Writable) (h : statement.resolve false prefixMap base = .ok st) :
    st.Placed rdfPlaces := by
  unfold StatementTree.resolve at h
  split at h
  · obtain ⟨subject, hsubject, hmore⟩ := ok_of_bind h
    obtain ⟨list, hlist, hpure⟩ := ok_of_bind hmore
    obtain rfl := Except.ok.inj hpure
    exact ⟨SubjectTree.resolve_placed hw.1 hsubject, ListTree.resolve_placed _ hw.2 hlist⟩
  · obtain ⟨list, hlist, hpure⟩ := ok_of_bind h
    obtain rfl := Except.ok.inj hpure
    exact ⟨ListTree.resolve_placed _ hw.1 hlist, fun _ hmem => by cases hmem⟩
  · obtain ⟨list, hlist, hmore⟩ := ok_of_bind h
    obtain ⟨rest, hrest, hpure⟩ := ok_of_bind hmore
    obtain rfl := Except.ok.inj hpure
    refine ⟨ListTree.resolve_placed _ hw.1 hlist, fun other hmem => ?_⟩
    obtain rfl := Option.mem_some_iff.mp hmem
    exact ListTree.resolve_placed _ (hw.2 _ rfl) hrest

theorem resolveItems_placed {items : List Item} {statements : List (Statement false)}
    (hw : ∀ item ∈ items, item.Writable)
    (h : resolveItems items prefixMap base = .ok statements) :
    ∀ st ∈ statements, st.Placed rdfPlaces := by
  induction items generalizing prefixMap base statements with
  | nil =>
      obtain rfl := Except.ok.inj h
      exact List.forall_mem_nil _
  | cons item items ih =>
      obtain ⟨hitem, hitems⟩ := List.forall_mem_cons.mp hw
      cases item with
      | directive d layout pre iri =>
          obtain ⟨scope, -, hmore⟩ := ok_of_bind h
          exact ih hitems hmore
      | triples statement =>
          obtain ⟨st, hst, hmore⟩ := ok_of_bind h
          obtain ⟨statements, hstatements, hpure⟩ := ok_of_bind hmore
          obtain rfl := Except.ok.inj hpure
          exact List.forall_mem_cons.mpr
            ⟨StatementTree.resolve_placed hitem hst, ih hitems hstatements⟩

theorem DocumentDerives.placed {document : Bytes} {items : List Item}
    {triples : List (Triple false)} (hderives : DocumentDerives items document)
    (h : Delivers prefixMap document triples) : ∀ t ∈ triples, rdfPlaces.Hold t := by
  obtain ⟨statements, hresolve, rfl⟩ := hderives.means.mp h
  obtain ⟨-, _, hitems, -⟩ := hderives
  have hempty : (initialState false prefixMap).book.Placed rdfPlaces false :=
    ⟨List.forall_mem_nil _, List.forall_mem_nil _, fun h => absurd h Bool.false_ne_true,
      List.forall_mem_nil _⟩
  have hplaced := bookAfter_placed rdfPlaces_supplied (resolveItems_placed hitems.writable hresolve)
    ⟨rfl, rfl⟩ hempty
  exact hplaced.inserted

/-- Every triple of an accepted document is one that RDF allows, whatever subject its pairs
have got. -/
theorem accepted_rdf {document : Bytes} {final : State false}
    (h : Accepts prefixMap document final) (hunglued : Unglued document) :
    ∀ t ∈ final.inserted, rdfPlaces.Hold t := by
  obtain ⟨items, hderives⟩ := h.items hunglued
  exact hderives.placed ⟨final, h, rfl⟩

theorem sample_rdf : ∃ final, Accepts [] (renderItems sampleItems) final ∧
    ∀ t ∈ final.inserted, rdfPlaces.Hold t := by
  obtain ⟨statements, hresolve, -⟩ := sample_resolves
  obtain ⟨final, haccepts, -⟩ := sample_derives.accepts hresolve
  exact ⟨final, haccepts, accepted_rdf haccepts sample_derives.unglued⟩

end Document

end RdfParser.Turtle
