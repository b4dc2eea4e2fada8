/-
  Turtle/Isomorphism.lean --- documents up to the names of their blank nodes.

  A label is only a name, and the order of the triples of a graph means nothing.  The nodes
  that the builder makes are numbered through the whole document, so a statement gets other
  labels where it stands behind others, but the same triples up to these labels.  Hence
  documents that state the same in any order, with any names for the nodes they label, have
  isomorphic graphs, as long as no label is written that the builder might make.
-/
import Mathlib.GroupTheory.Perm.ViaEmbedding
import RdfParser.Foundation.Renaming
import RdfParser.Turtle.Places

set_option autoImplicit false

namespace RdfParser.Turtle

open RdfParser.Foundation RdfParser.Rdf RdfParser.Peg

/-! ## Renaming the elements of a statement -/

section Rename

variable {q : Bool} (f : Element q → Element q)

mutual

def Object.rename : Object q → Object q
  | .term t => .term (f t)
  | .anon => .anon
  | .collection members => .collection members.rename
  | .blankNodePropertyList list => .blankNodePropertyList list.rename

def Objects.rename : Objects q → Objects q
  | .nil => .nil
  | .cons object objects => .cons object.rename objects.rename

def PredicateObjectList.rename : PredicateObjectList q → PredicateObjectList q
  | .last verb object objects => .last (f verb) object.rename objects.rename
  | .more verb object objects next => .more (f verb) object.rename objects.rename next.rename

end

def Subject.rename : Subject q → Subject q
  | .term t => .term (f t)
  | .anon => .anon
  | .collection members => .collection (members.rename f)

def Statement.rename : Statement q → Statement q
  | .tripleSeq1 subject list => .tripleSeq1 (subject.rename f) (list.rename f)
  | .tripleSeq2 list rest => .tripleSeq2 (list.rename f) (rest.map (PredicateObjectList.rename f))

variable {f}

/-! ### Renaming keeps the shape -/

mutual

theorem Object.depths_rename : ∀ (o : Object q) (height : Nat),
    (o.rename f).depths height = o.depths height
  | .term _, _ | .anon, _ => rfl
  | .collection members, height => by
      rw [Object.rename, Object.depths, Object.depths, members.depths_rename, members.count_rename]
  | .blankNodePropertyList list, height => by
      rw [Object.rename, Object.depths, Object.depths, list.depths_rename]

theorem Objects.depths_rename : ∀ (os : Objects q) (height : Nat),
    (os.rename f).depths height = os.depths height
  | .nil, _ => rfl
  | .cons object objects, height => by
      rw [Objects.rename, Objects.depths, Objects.depths, object.depths_rename,
        objects.depths_rename]

theorem PredicateObjectList.depths_rename : ∀ (list : PredicateObjectList q) (height : Nat),
    (list.rename f).depths height = list.depths height
  | .last _ object objects, height => by
      rw [PredicateObjectList.rename, PredicateObjectList.depths, PredicateObjectList.depths,
        object.depths_rename, objects.depths_rename]
  | .more _ object objects next, height => by
      rw [PredicateObjectList.rename, PredicateObjectList.depths, PredicateObjectList.depths,
        object.depths_rename, objects.depths_rename, next.depths_rename]

theorem Objects.count_rename : ∀ os : Objects q, (os.rename f).count = os.count
  | .nil => rfl
  | .cons _ objects => congrArg (· + 1) objects.count_rename

end

mutual

theorem Object.propertyLists_rename : ∀ o : Object q, (o.rename f).propertyLists = o.propertyLists
  | .term _ | .anon | .blankNodePropertyList _ => rfl
  | .collection members => members.propertyLists_rename

theorem Objects.propertyLists_rename : ∀ os : Objects q,
    (os.rename f).propertyLists = os.propertyLists
  | .nil => rfl
  | .cons object objects =>
      congrArg₂ (· + ·) object.propertyLists_rename objects.propertyLists_rename

end

mutual

theorem Object.separated_rename : ∀ o : Object q, (o.rename f).separated = o.separated
  | .term _ | .anon => rfl
  | .collection members => members.separated_rename
  | .blankNodePropertyList list => list.separated_rename

theorem Objects.separated_rename : ∀ os : Objects q, (os.rename f).separated = os.separated
  | .nil => rfl
  | .cons object objects => by
      rw [Objects.rename, Objects.separated, Objects.separated, object.separated_rename,
        objects.separated_rename]

theorem PredicateObjectList.separated_rename : ∀ list : PredicateObjectList q,
    (list.rename f).separated = list.separated
  | .last _ object objects => by
      simp only [PredicateObjectList.rename, PredicateObjectList.separated,
        object.propertyLists_rename, objects.propertyLists_rename, object.separated_rename,
        objects.separated_rename]
  | .more _ object objects next => by
      simp only [PredicateObjectList.rename, PredicateObjectList.separated,
        object.propertyLists_rename, objects.propertyLists_rename, object.separated_rename,
        objects.separated_rename, next.separated_rename]

end

mutual

theorem Object.leading_rename : ∀ o : Object q, (o.rename f).leading = o.leading
  | .term _ | .anon => rfl
  | .collection members => members.leading_rename
  | .blankNodePropertyList list => list.leading_rename

theorem Objects.leading_rename : ∀ os : Objects q, (os.rename f).leading = os.leading
  | .nil => rfl
  | .cons object objects => by
      rw [Objects.rename, Objects.leading, Objects.leading, object.leading_rename,
        objects.leading_rename]

theorem PredicateObjectList.leading_rename : ∀ list : PredicateObjectList q,
    (list.rename f).leading = list.leading
  | .last _ object objects => by
      rw [PredicateObjectList.rename, PredicateObjectList.leading, PredicateObjectList.leading,
        object.leading_rename, objects.leading_rename]
  | .more _ object objects next => by
      rw [PredicateObjectList.rename, PredicateObjectList.leading, PredicateObjectList.leading,
        object.leading_rename, objects.leading_rename, next.separated_rename]

end

theorem Statement.wellNested_rename (st : Statement q) :
    (st.rename f).wellNested = st.wellNested := by
  cases st with
  | tripleSeq1 subject list =>
      have hsubject : (subject.rename f).leading = subject.leading := by
        cases subject with
        | term t => rfl
        | anon => rfl
        | collection members => exact members.leading_rename
      rw [Statement.rename, Statement.wellNested, Statement.wellNested, hsubject,
        list.leading_rename]
  | tripleSeq2 list rest =>
      cases rest with
      | none => exact congrArg (· && true) list.leading_rename
      | some rest =>
          rw [Statement.rename, Statement.wellNested, Statement.wellNested, list.leading_rename]
          exact congrArg (list.leading && ·) rest.separated_rename

/-! ### The written elements -/

/-- A requirement on all elements that are written. -/
def everywhere (P : Element q → Prop) : Places q := ⟨P, P, P⟩

variable {P P' : Element q → Prop}

mutual

theorem Object.rename_eq (hf : ∀ e, P e → f e = e) :
    ∀ {o : Object q}, o.Placed (everywhere P) → o.rename f = o
  | .term t, h => congrArg Object.term (hf t h)
  | .anon, _ => rfl
  | .collection _, h => congrArg Object.collection (Objects.rename_eq hf h)
  | .blankNodePropertyList _, h =>
      congrArg Object.blankNodePropertyList (PredicateObjectList.rename_eq hf h)

theorem Objects.rename_eq (hf : ∀ e, P e → f e = e) :
    ∀ {os : Objects q}, os.Placed (everywhere P) → os.rename f = os
  | .nil, _ => rfl
  | .cons _ _, h => congrArg₂ Objects.cons (Object.rename_eq hf h.1) (Objects.rename_eq hf h.2)

theorem PredicateObjectList.rename_eq (hf : ∀ e, P e → f e = e) :
    ∀ {list : PredicateObjectList q}, list.Placed (everywhere P) → list.rename f = list
  | .last verb _ _, ⟨hverb, hobject, hobjects⟩ => by
      rw [PredicateObjectList.rename, hf verb hverb, Object.rename_eq hf hobject,
        Objects.rename_eq hf hobjects]
  | .more verb _ _ _, ⟨hverb, hobject, hobjects, hnext⟩ => by
      rw [PredicateObjectList.rename, hf verb hverb, Object.rename_eq hf hobject,
        Objects.rename_eq hf hobjects, PredicateObjectList.rename_eq hf hnext]

end

theorem Statement.rename_eq (hf : ∀ e, P e → f e = e) {st : Statement q}
    (h : st.Placed (everywhere P)) : st.rename f = st := by
  cases st with
  | tripleSeq1 subject list =>
      have hsubject : subject.rename f = subject := by
        cases subject with
        | term t => exact congrArg Subject.term (hf t h.1)
        | anon => rfl
        | collection members => exact congrArg Subject.collection (Objects.rename_eq hf h.1)
      rw [Statement.rename, hsubject, PredicateObjectList.rename_eq hf h.2]
  | tripleSeq2 list rest =>
      cases rest with
      | none => exact congrArg (Statement.tripleSeq2 · none) (PredicateObjectList.rename_eq hf h.1)
      | some rest =>
          have hrest := PredicateObjectList.rename_eq hf (h.2 rest rfl)
          rw [Statement.rename, PredicateObjectList.rename_eq hf h.1, Option.map_some, hrest]

mutual

theorem Object.rename_placed (hf : ∀ e, P e → P' (f e)) :
    ∀ {o : Object q}, o.Placed (everywhere P) → (o.rename f).Placed (everywhere P')
  | .term t, h => hf t h
  | .anon, _ => trivial
  | .collection _, h => Objects.rename_placed hf h
  | .blankNodePropertyList _, h => PredicateObjectList.rename_placed hf h

theorem Objects.rename_placed (hf : ∀ e, P e → P' (f e)) :
    ∀ {os : Objects q}, os.Placed (everywhere P) → (os.rename f).Placed (everywhere P')
  | .nil, _ => trivial
  | .cons _ _, h => ⟨Object.rename_placed hf h.1, Objects.rename_placed hf h.2⟩

theorem PredicateObjectList.rename_placed (hf : ∀ e, P e → P' (f e)) :
    ∀ {list : PredicateObjectList q},
      list.Placed (everywhere P) → (list.rename f).Placed (everywhere P')
  | .last verb _ _, ⟨hverb, hobject, hobjects⟩ =>
      ⟨hf verb hverb, Object.rename_placed hf hobject, Objects.rename_placed hf hobjects⟩
  | .more verb _ _ _, ⟨hverb, hobject, hobjects, hnext⟩ =>
      ⟨hf verb hverb, Object.rename_placed hf hobject, Objects.rename_placed hf hobjects,
        PredicateObjectList.rename_placed hf hnext⟩

end

theorem Statement.rename_placed (hf : ∀ e, P e → P' (f e)) {st : Statement q}
    (h : st.Placed (everywhere P)) : (st.rename f).Placed (everywhere P') := by
  cases st with
  | tripleSeq1 subject list =>
      refine ⟨?_, PredicateObjectList.rename_placed hf h.2⟩
      cases subject with
      | term t => exact hf t h.1
      | anon => trivial
      | collection members => exact Objects.rename_placed hf h.1
  | tripleSeq2 list rest =>
      refine ⟨PredicateObjectList.rename_placed hf h.1, fun more hmore => ?_⟩
      obtain ⟨rest, hrest, rfl⟩ := Option.map_eq_some_iff.mp hmore
      exact PredicateObjectList.rename_placed hf (h.2 rest hrest)

end Rename

/-! ## Nodes with other numbers -/

section Denote

variable {f : Element false → Element false} {n m a b : ℕ} {values : List (Element false)}

/-- The nodes made from `n` on are taken to those made from `m` on. -/
def Carries (f : Element false → Element false) (n m count : ℕ) : Prop :=
  ∀ i < count, f (unlabeledNode false (n + i)) = unlabeledNode false (m + i)

theorem Carries.left (h : Carries f n m (a + b)) : Carries f n m a :=
  fun i hi => h i (by omega)

theorem Carries.right (h : Carries f n m (a + b)) : Carries f (n + a) (m + a) b := by
  intro i hi
  have hnode := h (a + i) (by omega)
  rwa [← Nat.add_assoc, ← Nat.add_assoc] at hnode

theorem listCells_carried (hiris : KeepsIris f) (h : Carries f n m values.length) :
    listCells m (values.map f) = (listCells n values).map (mapTriple f) := by
  induction values with
  | nil => rfl
  | cons value values ih =>
      have hfirst : f (rdfFirst false) = rdfFirst false := hiris _
      have hrest : f (rdfRest false) = rdfRest false := hiris _
      have hnil : f (rdfNil false) = rdfNil false := hiris _
      have hnode := h values.length (by simp)
      have hsuccessor : values ≠ [] → f (unlabeledNode false (n + values.length - 1)) =
          unlabeledNode false (m + values.length - 1) := by
        intro hne
        have hpos := List.length_pos_iff.mpr hne
        have hlast := h (values.length - 1) (by simp)
        rwa [← Nat.add_sub_assoc hpos, ← Nat.add_sub_assoc hpos] at hlast
      simp only [listCells, List.map_cons, List.map_append, List.map_nil, List.length_map,
        ih h.left, mapTriple, List.map_eq_nil_iff, hnode, hrest, hfirst]
      by_cases hvalues : values = []
      · rw [if_pos hvalues, if_pos hvalues, hnil]
      · rw [if_neg hvalues, if_neg hvalues, hsuccessor hvalues]

theorem collectionTriples_carried (hiris : KeepsIris f) (h : Carries f n m (cellCount values)) :
    collectionTriples m (values.map f) = (collectionTriples n values).map (mapTriple f) := by
  have hfirst : f (rdfFirst false) = rdfFirst false := hiris _
  have hnil : f (rdfNil false) = rdfNil false := hiris _
  have hnode : f (unlabeledNode false n) = unlabeledNode false m :=
    h 0 (le_max_left 1 values.length)
  have hcells := listCells_carried hiris fun i hi => h i (hi.trans_le (le_max_right 1 _))
  simp only [collectionTriples, List.map_eq_nil_iff]
  split
  · simp only [List.map_cons, List.map_nil, mapTriple, hnode, hfirst, hnil]
  · exact hcells

theorem collectionHead_carried (h : Carries f n m (cellCount values)) :
    collectionHead m (values.map f) = f (collectionHead n values) := by
  unfold collectionHead
  rw [List.length_map]
  exact (h _ (by unfold cellCount; omega)).symm

/-- The second meaning is the first one renamed, and its nodes are made from `m` on where those
of the first one are made from `n` on. -/
structure Renamed {V : Type} (f : Element false → Element false) (g : V → V) (n m count : ℕ)
    (x y : Meaning false V) : Prop where
  value : y.value = g x.value
  triples : y.triples = x.triples.map (mapTriple f)
  next : x.next = n + count
  next' : y.next = m + count

theorem map_pair (f : Element false → Element false) (verb : Element false)
    (values : List (Element false)) :
    (values.map f).map (f verb, ·) = (values.map (verb, ·)).map (mapPair f) := by
  rw [List.map_map, List.map_map]
  rfl

/-- A verb and its objects. -/
theorem Renamed.pairs {object object' : Object false} {objects objects' : Objects false}
    (hobject : Renamed f f n m a (object.denote n) (object'.denote m))
    (hobjects : Renamed f (List.map f) (n + a) (m + a) b (objects.denote (n + a))
      (objects'.denote (m + a))) (verb : Element false) :
    Renamed f (List.map (mapPair f)) n m (a + b)
      ((PredicateObjectList.last verb object objects).denote n)
      ((PredicateObjectList.last (f verb) object' objects').denote m) := by
  rw [← hobject.next, ← hobject.next'] at hobjects
  refine ⟨?_, ?_, ?_, ?_⟩
  · simp only [PredicateObjectList.denote, hobject.value, hobjects.value]
    exact map_pair f verb (_ :: _)
  · simp only [PredicateObjectList.denote, hobject.triples, hobjects.triples, List.map_append]
  · rw [PredicateObjectList.denote, hobjects.next, hobject.next, Nat.add_assoc]
  · rw [PredicateObjectList.denote, hobjects.next', hobject.next', Nat.add_assoc]

/-- Pairs behind pairs of the same scope. -/
theorem PredicateObjectList.denote_more (verb : Element false) (object : Object false)
    (objects : Objects false) (next : PredicateObjectList false) (n : ℕ) :
    (PredicateObjectList.more verb object objects next).denote n =
      ⟨((PredicateObjectList.last verb object objects).denote n).value ++
          (next.denote ((PredicateObjectList.last verb object objects).denote n).next).value,
        ((PredicateObjectList.last verb object objects).denote n).triples ++
          (next.denote ((PredicateObjectList.last verb object objects).denote n).next).triples,
        (next.denote ((PredicateObjectList.last verb object objects).denote n).next).next⟩ := rfl

mutual

theorem Object.denote_rename (hiris : KeepsIris f) : ∀ (o : Object false) (height : ℕ) {n m : ℕ},
    Carries f n m (o.depths height).length →
    Renamed f f n m (o.depths height).length (o.denote n) ((o.rename f).denote m)
  | .term _, _, _, _, _ => ⟨rfl, rfl, rfl, rfl⟩
  | .anon, _, _, _, h => ⟨(h 0 Nat.one_pos).symm, rfl, rfl, rfl⟩
  | .collection members, height, n, m, h => by
      have hcount : ((Object.collection members).depths height).length =
          (members.depths height).length + cellCount (members.denote n).value := by
        rw [Object.depths, List.length_append, List.length_replicate, cellCount,
          members.length_value]
      rw [hcount] at h ⊢
      have hmembers := members.denote_rename hiris height h.left
      have hcells := h.right
      rw [← hmembers.next, ← hmembers.next'] at hcells
      have hlength : cellCount ((members.denote n).value.map f) =
          cellCount (members.denote n).value := by
        rw [cellCount, List.length_map, cellCount]
      refine ⟨?_, ?_, ?_, ?_⟩
      · simp only [Object.rename, Object.denote, hmembers.value, collectionHead_carried hcells]
      · simp only [Object.rename, Object.denote, hmembers.value, hmembers.triples,
          List.map_append, collectionTriples_carried hiris hcells]
      · rw [Object.denote, hmembers.next, Nat.add_assoc]
      · rw [Object.rename, Object.denote, hmembers.value, hlength, hmembers.next', Nat.add_assoc]
  | .blankNodePropertyList list, height, n, m, h => by
      rw [Object.depths, List.length_append, List.length_singleton] at h ⊢
      have hlist := list.denote_rename hiris height h.left
      have hnode := h.right 0 Nat.one_pos
      rw [Nat.add_zero, Nat.add_zero, ← hlist.next, ← hlist.next'] at hnode
      refine ⟨hnode.symm, ?_, ?_, ?_⟩
      · simp only [Object.rename, Object.denote, hlist.value, hlist.triples, List.map_append,
          map_tripleOf, hnode]
      · rw [Object.denote, hlist.next, Nat.add_assoc]
      · rw [Object.rename, Object.denote, hlist.next', Nat.add_assoc]

theorem Objects.denote_rename (hiris : KeepsIris f) :
    ∀ (os : Objects false) (height : ℕ) {n m : ℕ}, Carries f n m (os.depths height).length →
    Renamed f (List.map f) n m (os.depths height).length (os.denote n) ((os.rename f).denote m)
  | .nil, _, _, _, _ => ⟨rfl, rfl, rfl, rfl⟩
  | .cons object objects, height, n, m, h => by
      rw [Objects.depths, List.length_append] at h ⊢
      have hobject := object.denote_rename hiris height h.left
      have hobjects := objects.denote_rename hiris height h.right
      rw [← hobject.next, ← hobject.next'] at hobjects
      refine ⟨?_, ?_, ?_, ?_⟩
      · simp only [Objects.rename, Objects.denote, hobject.value, hobjects.value, List.map_cons]
      · simp only [Objects.rename, Objects.denote, hobject.triples, hobjects.triples,
          List.map_append]
      · rw [Objects.denote, hobjects.next, hobject.next, Nat.add_assoc]
      · rw [Objects.rename, Objects.denote, hobjects.next', hobject.next', Nat.add_assoc]

theorem PredicateObjectList.denote_rename (hiris : KeepsIris f) :
    ∀ (list : PredicateObjectList false) (height : ℕ) {n m : ℕ},
    Carries f n m (list.depths height).length →
    Renamed f (List.map (mapPair f)) n m (list.depths height).length (list.denote n)
      ((list.rename f).denote m)
  | .last verb object objects, height, n, m, h => by
      rw [PredicateObjectList.depths, List.length_append] at h ⊢
      have hobject := object.denote_rename hiris (height + 1) h.left
      exact hobject.pairs (objects.denote_rename hiris (height + 1) h.right) verb
  | .more verb object objects next, height, n, m, h => by
      rw [PredicateObjectList.depths, List.length_append, List.length_append] at h ⊢
      have hobject := object.denote_rename hiris (height + 1) h.left.left
      have hpairs := hobject.pairs (objects.denote_rename hiris (height + 1) h.left.right) verb
      have hnext := next.denote_rename hiris height h.right
      rw [← hpairs.next, ← hpairs.next'] at hnext
      rw [PredicateObjectList.rename, PredicateObjectList.denote_more,
        PredicateObjectList.denote_more]
      refine ⟨?_, ?_, ?_, ?_⟩
      · simp only [hpairs.value, hnext.value, List.map_append]
      · simp only [hpairs.triples, hnext.triples, List.map_append]
      · rw [hnext.next, hpairs.next, Nat.add_assoc]
      · rw [hnext.next', hpairs.next', Nat.add_assoc]

end

theorem Subject.denote_rename (hiris : KeepsIris f) (subject : Subject false)
    (h : Carries f n m subject.depths.length) :
    Renamed f f n m subject.depths.length (subject.denote n) ((subject.rename f).denote m) := by
  cases subject with
  | term t => exact (Object.term t).denote_rename hiris 0 h
  | anon => exact Object.anon.denote_rename hiris 0 h
  | collection members => exact (Object.collection members).denote_rename hiris 0 h

/-- How many nodes a statement makes. -/
def Statement.size : Statement false → ℕ
  | .tripleSeq1 subject list => subject.depths.length + (list.depths 0).length
  | .tripleSeq2 list rest => ((Object.blankNodePropertyList list).depths 0).length +
      rest.elim 0 fun more => (more.depths 0).length

theorem Statement.next_size (st : Statement false) (n : ℕ) : st.next n = n + st.size := by
  cases st with
  | tripleSeq1 subject list =>
      rw [Statement.next, Statement.size, list.next_eq 0, subject.next_eq, Nat.add_assoc]
  | tripleSeq2 list rest =>
      have hlist := (Object.blankNodePropertyList list).next_eq 0 n
      cases rest with
      | none => exact hlist
      | some rest =>
          rw [Statement.next, Statement.size, Option.elim_some, Option.elim_some, rest.next_eq 0,
            hlist, Nat.add_assoc]

/-- The triples of a statement with other names are its triples with other names. -/
theorem Statement.denote_rename (hiris : KeepsIris f) (st : Statement false)
    (h : Carries f n m st.size) : (st.rename f).denote m = (st.denote n).map (mapTriple f) := by
  cases st with
  | tripleSeq1 subject list =>
      have hsubject := subject.denote_rename hiris h.left
      have hlist := list.denote_rename hiris 0 h.right
      rw [← hsubject.next, ← hsubject.next'] at hlist
      simp only [Statement.rename, Statement.denote, hsubject.value, hsubject.triples, hlist.value,
        hlist.triples, List.map_append, map_tripleOf]
  | tripleSeq2 list rest =>
      have hlist := (Object.blankNodePropertyList list).denote_rename hiris 0 h.left
      rw [Object.rename] at hlist
      cases rest with
      | none => exact hlist.triples
      | some rest =>
          have hrest := rest.denote_rename hiris 0 h.right
          rw [← hlist.next, ← hlist.next'] at hrest
          simp only [Statement.rename, Option.map_some, Statement.denote, hlist.value,
            hlist.triples, hrest.value, hrest.triples, List.map_append, map_tripleOf]

end Denote

theorem Statement.size_rename (f : Element false → Element false) (st : Statement false) :
    (st.rename f).size = st.size := by
  cases st with
  | tripleSeq1 subject list =>
      have hsubject : (subject.rename f).depths = subject.depths := by
        cases subject with
        | term t => rfl
        | anon => rfl
        | collection members => exact (Object.collection members).depths_rename 0
      rw [Statement.rename, Statement.size, Statement.size, hsubject, list.depths_rename]
  | tripleSeq2 list rest =>
      have hlist := (Object.blankNodePropertyList list).depths_rename (f := f) 0
      rw [Object.rename] at hlist
      cases rest with
      | none => rw [Statement.rename, Statement.size, Statement.size, hlist]; rfl
      | some rest =>
          rw [Statement.rename, Statement.size, Statement.size, hlist, Option.map_some,
            Option.elim_some, Option.elim_some, rest.depths_rename]

/-! ## Names of nodes -/

section Names

/-- The node with a label. -/
def nodeOf : Bytes ↪ Element false := ⟨bNode, fun _ _ => bNode_inj.mp⟩

/-- The labels that the builder makes. -/
def madeLabel : ℕ ↪ Bytes := ⟨blankNodeLabel, blankNodeLabel_injective⟩

/-- A permutation of the labels renames the nodes and keeps every other term. -/
noncomputable def renameNodes (ρ : Equiv.Perm Bytes) : Element false → Element false :=
  ρ.viaEmbedding nodeOf

/-- A permutation of the numbers as one of the labels made from them. -/
noncomputable def renumber : Equiv.Perm ℕ →* Equiv.Perm Bytes :=
  Equiv.Perm.viaEmbeddingHom madeLabel

noncomputable instance : MulAction (Equiv.Perm Bytes) (Triple false) where
  smul ρ := mapTriple (renameNodes ρ)
  one_smul t := by
    have hone : ∀ e, renameNodes 1 e = e := fun e =>
      Equiv.congr_fun (map_one (Equiv.Perm.viaEmbeddingHom nodeOf)) e
    show mapTriple (renameNodes 1) t = t
    simp only [mapTriple, hone]
  mul_smul ρ ρ' t := by
    have hmul : ∀ e, renameNodes (ρ * ρ') e = renameNodes ρ (renameNodes ρ' e) := fun e =>
      Equiv.congr_fun (map_mul (Equiv.Perm.viaEmbeddingHom nodeOf) ρ ρ') e
    show mapTriple (renameNodes (ρ * ρ')) t =
      mapTriple (renameNodes ρ) (mapTriple (renameNodes ρ') t)
    simp only [mapTriple, hmul]

variable {ρ : Equiv.Perm Bytes} {σ : Equiv.Perm ℕ} {n m count : ℕ}

theorem smul_triple (ρ : Equiv.Perm Bytes) : (ρ • · : Triple false → Triple false) =
    mapTriple (renameNodes ρ) := rfl

theorem renameNodes_bNode (ρ : Equiv.Perm Bytes) (label : Bytes) :
    renameNodes ρ (bNode label) = bNode (ρ label) :=
  ρ.viaEmbedding_apply nodeOf label

theorem renameNodes_other (ρ : Equiv.Perm Bytes) {e : Element false}
    (h : ∀ label, e ≠ bNode label) : renameNodes ρ e = e := by
  refine ρ.viaEmbedding_apply_of_notMem nodeOf e ?_
  rintro ⟨label, hlabel⟩
  exact h label hlabel.symm

theorem uriRef_ne_bNode (uri label : Bytes) : uriRef uri ≠ bNode label := by
  intro heq
  have hkind : NodeType.uriRef = NodeType.bNode := congrArg Term.nodeType heq
  cases hkind

theorem renameNodes_keepsIris (ρ : Equiv.Perm Bytes) : KeepsIris (renameNodes ρ) :=
  fun uri => renameNodes_other ρ (uriRef_ne_bNode uri)

theorem renumber_made (σ : Equiv.Perm ℕ) (n : ℕ) :
    renumber σ (blankNodeLabel n) = blankNodeLabel (σ n) :=
  σ.viaEmbedding_apply madeLabel n

theorem carries_renumber (h : Moves σ n m count) :
    Carries (renameNodes (renumber σ)) n m count := by
  intro i hi
  have hnode := renameNodes_bNode (renumber σ) (blankNodeLabel (n + i))
  rw [renumber_made, h i hi] at hnode
  exact hnode

/-- A term other than the nodes that the builder makes. -/
def Foreign (e : Element false) : Prop := ∀ n, e ≠ unlabeledNode false n

theorem Foreign.renumber {e : Element false} (h : Foreign e) (σ : Equiv.Perm ℕ) :
    renameNodes (renumber σ) e = e := by
  by_cases hnode : ∃ label, e = bNode label
  · obtain ⟨label, rfl⟩ := hnode
    have hother : label ∉ Set.range madeLabel := by
      rintro ⟨n, rfl⟩
      exact h n rfl
    rw [renameNodes_bNode]
    exact congrArg bNode (σ.viaEmbedding_apply_of_notMem madeLabel label hother)
  · exact renameNodes_other _ (not_exists.mp hnode)

/-- The names of nodes that are not made by the builder are kept apart from those that are. -/
theorem Foreign.rename {e : Element false} (h : Foreign e)
    (hρ : ∀ n, ρ (blankNodeLabel n) = blankNodeLabel n) : Foreign (renameNodes ρ e) := by
  intro n heq
  have hmade : renameNodes ρ (unlabeledNode false n) = unlabeledNode false n := by
    have hnode := renameNodes_bNode ρ (blankNodeLabel n)
    rw [hρ] at hnode
    exact hnode
  exact h n ((ρ.viaEmbedding nodeOf).injective (heq.trans hmade.symm))

end Names

/-! ## Documents -/

section Documents

/-- Statements without the nodes that the builder makes, which it numbers. -/
noncomputable def numberedStatements :
    Numbered (Equiv.Perm Bytes) (Statement false) (Triple false) renumber where
  Fit st := st.Placed (everywhere Foreign)
  size := Statement.size
  records := Statement.denote
  moved st hst σ n m hmoves := by
    have hrename := st.denote_rename (renameNodes_keepsIris _) (carries_renumber hmoves)
    rw [Statement.rename_eq (fun e he => Foreign.renumber he σ) hst] at hrename
    exact hrename.symm

theorem denoteAll_numbered (statements : List (Statement false)) (n : ℕ) :
    denoteAll statements n = numberedStatements.recordsAll statements n := by
  induction statements generalizing n with
  | nil => rfl
  | cons st statements ih =>
      rw [denoteAll, st.next_size, ih]
      rfl

variable {statements statements' : List (Statement false)} {ρ : Equiv.Perm Bytes}

theorem denoteAll_rename (hρ : ∀ n, ρ (blankNodeLabel n) = blankNodeLabel n) (n : ℕ) :
    denoteAll (statements.map (Statement.rename (renameNodes ρ))) n =
      (denoteAll statements n).map (ρ • ·) := by
  induction statements generalizing n with
  | nil => rfl
  | cons st statements ih =>
      have hcarries : Carries (renameNodes ρ) n n st.size := by
        intro i _
        have hnode := renameNodes_bNode ρ (blankNodeLabel (n + i))
        rw [hρ] at hnode
        exact hnode
      rw [List.map_cons, denoteAll, denoteAll, List.map_append, ← ih, smul_triple,
        st.denote_rename (renameNodes_keepsIris ρ) hcarries, Statement.next_size,
        Statement.next_size, st.size_rename]

/-- What a document of well-nested statements delivers. -/
theorem DocumentDerives.delivers {prefixMap : PrefixMap} {document : Bytes} {items : List Item}
    (h : DocumentDerives items document)
    (hresolve : resolveItems items prefixMap [] = .ok statements)
    (hnested : ∀ st ∈ statements, st.wellNested = true) :
    Delivers prefixMap document (denoteAll statements 1) :=
  h.means.mpr ⟨statements, hresolve, bookAfter_inserted ⟨rfl, rfl⟩ hnested⟩

/-- Documents that state the same, in any order and with any names for the nodes that they
label, have isomorphic graphs. -/
theorem documents_isomorphic {prefixMap prefixMap' : PrefixMap} {document document' : Bytes}
    {items items' : List Item} (h : DocumentDerives items document)
    (h' : DocumentDerives items' document')
    (hresolve : resolveItems items prefixMap [] = .ok statements)
    (hresolve' : resolveItems items' prefixMap' [] = .ok statements')
    (hnested : ∀ st ∈ statements, st.wellNested = true)
    (hforeign : ∀ st ∈ statements, st.Placed (everywhere Foreign))
    (hρ : ∀ n, ρ (blankNodeLabel n) = blankNodeLabel n)
    (hperm : (statements.map (Statement.rename (renameNodes ρ))).Perm statements') :
    ∃ triples triples' : List (Triple false), Delivers prefixMap document triples ∧
      Delivers prefixMap' document' triples' ∧
      Isomorphic (Equiv.Perm Bytes) triples triples' := by
  have hnested' : ∀ st ∈ statements', st.wellNested = true := by
    intro renamed hrenamed
    obtain ⟨st, hst, rfl⟩ := List.mem_map.mp (hperm.mem_iff.mpr hrenamed)
    rw [st.wellNested_rename]
    exact hnested st hst
  have hfit : ∀ st ∈ statements.map (Statement.rename (renameNodes ρ)),
      numberedStatements.Fit st := by
    intro renamed hrenamed
    obtain ⟨st, hst, rfl⟩ := List.mem_map.mp hrenamed
    exact Statement.rename_placed (fun e he => Foreign.rename he hρ) (hforeign st hst)
  refine ⟨_, _, h.delivers hresolve hnested, h'.delivers hresolve' hnested', ?_⟩
  have horder := Numbered.isomorphic_of_perm hperm 1 hfit
  rw [← denoteAll_numbered, ← denoteAll_numbered, denoteAll_rename hρ] at horder
  exact (Isomorphic.map_smul ρ _).trans horder

/-- `_:label <p> [] .` -/
def nodeItem (label : Bytes) : Item :=
  .triples (.tripleSeq1 (.term (.blankNodeLabel (bytes "_:" ++ label)))
    (.last (.term (.iri (.iriref (bytes "<p>")))) (.term (.anon (bytes "[]"))) .nil))

/-- `<s> <q> ( _:label ) .` -/
def memberItem (label : Bytes) : Item :=
  .triples (.tripleSeq1 (.term (.iri (.iriref (bytes "<s>"))))
    (.last (.term (.iri (.iriref (bytes "<q>"))))
      (.collection (.cons (.term (.blankNodeLabel (bytes "_:" ++ label))) .nil)) .nil))

def nodeStatement (label : Bytes) : Statement false :=
  .tripleSeq1 (.term (bNode label)) (.last (uriRef (bytes "p")) .anon .nil)

def memberStatement (label : Bytes) : Statement false :=
  .tripleSeq1 (.term (uriRef (bytes "s")))
    (.last (uriRef (bytes "q")) (.collection (.cons (.term (bNode label)) .nil)) .nil)

theorem labelled_writable (label : Bytes)
    (hlabel : Matches turtle .blankNodeLabel (bytes "_:" ++ label)) :
    (nodeItem label).Writable ∧ (memberItem label).Writable :=
  ⟨⟨⟨hlabel, .inr rfl⟩, ⟨⟨[], _, exec_sound 40 rfl⟩, rfl⟩,
      ⟨⟨⟨[], _, exec_sound 40 rfl⟩, .inl rfl⟩, trivial⟩, trivial⟩,
    ⟨⟨⟨[], _, exec_sound 40 rfl⟩, .inl rfl⟩, ⟨⟨[], _, exec_sound 40 rfl⟩, rfl⟩,
      ⟨⟨⟨hlabel, .inl rfl⟩, trivial⟩, trivial⟩, trivial⟩⟩

theorem labelled_rename (ρ : Equiv.Perm Bytes) (label : Bytes) :
    (nodeStatement label).rename (renameNodes ρ) = nodeStatement (ρ label) ∧
      (memberStatement label).rename (renameNodes ρ) = memberStatement (ρ label) := by
  have hiri : ∀ uri, renameNodes ρ (uriRef uri) = uriRef uri := renameNodes_keepsIris ρ
  constructor
  · simp only [nodeStatement, Statement.rename, Subject.rename, PredicateObjectList.rename,
      Object.rename, Objects.rename, renameNodes_bNode, hiri]
  · simp only [memberStatement, Statement.rename, Subject.rename, PredicateObjectList.rename,
      Object.rename, Objects.rename, renameNodes_bNode, hiri]

theorem labelled_foreign {label : Bytes} (h : ∀ n, blankNodeLabel n ≠ label) :
    (nodeStatement label).Placed (everywhere Foreign) ∧
      (memberStatement label).Placed (everywhere Foreign) := by
  have hiri : ∀ uri, Foreign (uriRef uri) := fun uri n => uriRef_ne_bNode uri _
  have hlabel : Foreign (bNode label) := fun n heq => h n (bNode_inj.mp heq).symm
  exact ⟨⟨hlabel, hiri _, trivial, trivial⟩,
    ⟨hiri _, hiri _, ⟨hlabel, trivial⟩, trivial⟩⟩

/-- `_:x <p> [] .` and `<s> <q> ( _:x ) .`, and the same about `_:y` the other way round. -/
theorem labelled_isomorphic : ∃ triples triples' : List (Triple false),
    Delivers [] (renderItems [nodeItem (bytes "x"), memberItem (bytes "x")]) triples ∧
      Delivers [] (renderItems [memberItem (bytes "y"), nodeItem (bytes "y")]) triples' ∧
      Isomorphic (Equiv.Perm Bytes) triples triples' := by
  obtain ⟨hnode, hlist⟩ := labelled_writable (bytes "x") ⟨[], _, exec_sound 40 rfl⟩
  obtain ⟨hnode', hlist'⟩ := labelled_writable (bytes "y") ⟨[], _, exec_sound 40 rfl⟩
  have hwritable : ∀ item ∈ [nodeItem (bytes "x"), memberItem (bytes "x")], item.Writable :=
    List.forall_mem_cons.mpr ⟨hnode, List.forall_mem_singleton.mpr hlist⟩
  have hwritable' : ∀ item ∈ [memberItem (bytes "y"), nodeItem (bytes "y")], item.Writable :=
    List.forall_mem_cons.mpr ⟨hlist', List.forall_mem_singleton.mpr hnode'⟩
  have hmade : ∀ n label, label.head? ≠ some (char 'b') → blankNodeLabel n ≠ label := by
    rintro n _ hhead rfl
    exact hhead rfl
  have hx : ∀ n, blankNodeLabel n ≠ bytes "x" := fun n => hmade n _ (by decide)
  have hy : ∀ n, blankNodeLabel n ≠ bytes "y" := fun n => hmade n _ (by decide)
  obtain ⟨hforeign, hforeign'⟩ := labelled_foreign hx
  have hperm : ([nodeStatement (bytes "x"), memberStatement (bytes "x")].map
      (Statement.rename (renameNodes (Equiv.swap (bytes "x") (bytes "y"))))).Perm
      [memberStatement (bytes "y"), nodeStatement (bytes "y")] := by
    simp only [List.map_cons, List.map_nil, labelled_rename, Equiv.swap_apply_left]
    exact .swap _ _ _
  refine documents_isomorphic (renderItems_derives (by simp) hwritable)
    (renderItems_derives (by simp) hwritable') rfl rfl ?_ ?_ ?_ hperm
  · exact List.forall_mem_cons.mpr ⟨rfl, List.forall_mem_singleton.mpr rfl⟩
  · exact List.forall_mem_cons.mpr ⟨hforeign, List.forall_mem_singleton.mpr hforeign'⟩
  · exact fun n => Equiv.swap_apply_of_ne_of_ne (hx n) (hy n)

end Documents

end RdfParser.Turtle
