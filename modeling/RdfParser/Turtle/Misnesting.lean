/-
  Turtle/Misnesting.lean --- statements that are not well nested lose.

  Weigh a triple by how deep the scope of its subject is.  A property list that
  is not set aside where it should be pushes every waiting pair one scope deeper,
  so the inserted triples weigh more than the denoted ones: `excess` is the
  difference, and it is zero exactly for well-nested statements.
-/
import Mathlib
import RdfParser.Turtle.Nesting

set_option autoImplicit false

namespace RdfParser.Turtle

open RdfParser.Foundation RdfParser.Rdf

variable {q : Bool}

/-! ## Depths of the generated nodes -/

mutual

/-- The depths of the nodes generated for an object, in the order of their
labels: a property list under `height` verbs is at depth `height + 1`. -/
def Object.depths : Object q → Nat → List Nat
  | .term _, _ => []
  | .anon, _ => [1]
  | .collection members, height =>
      members.depths height ++ List.replicate (max 1 members.count) 1
  | .blankNodePropertyList list, height => list.depths height ++ [height + 1]

def Objects.depths : Objects q → Nat → List Nat
  | .nil, _ => []
  | .cons object objects, height => object.depths height ++ objects.depths height

def PredicateObjectList.depths : PredicateObjectList q → Nat → List Nat
  | .last _ object objects, height => object.depths (height + 1) ++ objects.depths (height + 1)
  | .more _ object objects next, height =>
      object.depths (height + 1) ++ objects.depths (height + 1) ++ next.depths height

/-- How many objects there are. -/
def Objects.count : Objects q → Nat
  | .nil => 0
  | .cons _ objects => objects.count + 1

end

theorem Objects.length_value : ∀ (os : Objects q) (n : Nat), (os.denote n).value.length = os.count
  | .nil, _ => rfl
  | .cons object objects, n => by
      have ih := objects.length_value (object.denote n).next
      simp only [Objects.denote, Objects.count, List.length_cons, ih]

mutual

theorem Object.next_eq : ∀ (o : Object q) (height n : Nat),
    (o.denote n).next = n + (o.depths height).length
  | .term _, _, _ => rfl
  | .anon, _, _ => rfl
  | .collection members, height, n => by
      have hnext := members.next_eq height n
      simp only [Object.denote, Object.depths, cellCount, members.length_value, hnext,
        List.length_append, List.length_replicate]
      omega
  | .blankNodePropertyList list, height, n => by
      have hnext := list.next_eq height n
      simp only [Object.denote, Object.depths, hnext, List.length_append, List.length_singleton]
      omega

theorem Objects.next_eq : ∀ (os : Objects q) (height n : Nat),
    (os.denote n).next = n + (os.depths height).length
  | .nil, _, _ => rfl
  | .cons object objects, height, n => by
      have hnext₁ := object.next_eq height n
      have hnext₂ := objects.next_eq height (object.denote n).next
      simp only [Objects.denote, Objects.depths, List.length_append]
      omega

theorem PredicateObjectList.next_eq : ∀ (list : PredicateObjectList q) (height n : Nat),
    (list.denote n).next = n + (list.depths height).length
  | .last verb object objects, height, n => by
      have hnext₁ := object.next_eq (height + 1) n
      have hnext₂ := objects.next_eq (height + 1) (object.denote n).next
      simp only [PredicateObjectList.denote, PredicateObjectList.depths, List.length_append]
      omega
  | .more verb object objects next, height, n => by
      have hnext₁ := object.next_eq (height + 1) n
      have hnext₂ := objects.next_eq (height + 1) (object.denote n).next
      have hnext₃ := next.next_eq height (objects.denote (object.denote n).next).next
      simp only [PredicateObjectList.denote, PredicateObjectList.depths, List.length_append]
      omega

end

/-! ## Weights -/

/-- The nodes from label `n` on have the given depths as their weights. -/
def Weighs (weight : Element q → Nat) : Nat → List Nat → Prop
  | _, [] => True
  | n, depth :: depths => weight (unlabeledNode q n) = depth ∧ Weighs weight (n + 1) depths

theorem Weighs.append {weight : Element q → Nat} {left right : List Nat} {n : Nat} :
    Weighs weight n (left ++ right) ↔
      Weighs weight n left ∧ Weighs weight (n + left.length) right := by
  induction left generalizing n with
  | nil => simp [Weighs]
  | cons depth left ih =>
      have hlength : n + 1 + left.length = n + (left.length + 1) := by omega
      simp only [List.cons_append, Weighs, ih, List.length_cons, hlength, and_assoc]

theorem Weighs.get {weight : Element q → Nat} {depths : List Nat} {n i : Nat}
    (h : Weighs weight n depths) (hi : i < depths.length) :
    weight (unlabeledNode q (n + i)) = depths[i] := by
  induction depths generalizing n i with
  | nil => exact absurd hi (Nat.not_lt_zero i)
  | cons depth depths ih =>
      cases i with
      | zero => exact h.1
      | succ i =>
          have hi' : i < depths.length := Nat.lt_of_succ_lt_succ hi
          rw [show n + (i + 1) = n + 1 + i by omega, ih h.2 hi']
          rfl

theorem Weighs.congr {weight weight' : Element q → Nat} {depths : List Nat} {n : Nat}
    (h : Weighs weight n depths)
    (heq : ∀ m, n ≤ m → weight' (unlabeledNode q m) = weight (unlabeledNode q m)) :
    Weighs weight' n depths := by
  induction depths generalizing n with
  | nil => trivial
  | cons depth depths ih =>
      refine ⟨(heq n le_rfl).trans h.1, ih h.2 ?_⟩
      intro m hm
      exact heq m (by omega)

/-- Some weight gives the nodes their depths and every other element the weight 1. -/
theorem Weighs.exists (n : Nat) (depths : List Nat) :
    ∃ weight : Element q → Nat, Weighs weight n depths ∧
      ∀ e, (∀ m, n ≤ m → e ≠ unlabeledNode q m) → weight e = 1 := by
  induction depths generalizing n with
  | nil => exact ⟨fun _ => 1, trivial, fun _ _ => rfl⟩
  | cons depth depths ih =>
      obtain ⟨weight, hweighs, hother⟩ := ih (n + 1)
      refine ⟨Function.update weight (unlabeledNode q n) depth, ⟨?_, ?_⟩, ?_⟩
      · rw [Function.update_self]
      · refine hweighs.congr ?_
        intro m hm
        have hne : unlabeledNode q m ≠ unlabeledNode q n := by
          intro heq
          have hmn := unlabeledNode_injective q heq
          omega
        rw [Function.update_of_ne hne]
      · intro e he
        rw [Function.update_of_ne (he n le_rfl)]
        refine hother e ?_
        intro m hm
        exact he m (by omega)

/-- The weight of some triples is that of their subjects. -/
def weigh (weight : Element q → Nat) (ts : List (Triple q)) : Nat :=
  (ts.map fun t => weight t.subject).sum

@[simp] theorem weigh_append (weight : Element q → Nat) (left right : List (Triple q)) :
    weigh weight (left ++ right) = weigh weight left + weigh weight right := by
  unfold weigh
  rw [List.map_append, List.sum_append]

theorem weigh_tripleOf (weight : Element q → Nat) (subject : Element q)
    (pairs : List (Element q × Element q)) :
    weigh weight (pairs.map (tripleOf subject)) = weight subject * pairs.length := by
  unfold weigh
  induction pairs with
  | nil => simp
  | cons pair pairs ih =>
      simp only [List.map_cons, List.sum_cons, ih, List.length_cons]
      rw [Nat.mul_succ]
      exact Nat.add_comm _ _

theorem weigh_perm (weight : Element q → Nat) {left right : List (Triple q)}
    (h : left.Perm right) : weigh weight left = weigh weight right :=
  (h.map _).sum_eq

/-! ## Waiting pairs

A waiting pair weighs as much as the triple it becomes if every later property
list is set aside where it should be. -/

/-- The weight of lists of pairs, the first of them at the given depth. -/
def held : Nat → List (List (Element q × Element q)) → Nat
  | _, [] => 0
  | depth, pairs :: stack => depth * pairs.length + held (depth - 1) stack

/-- How many pairs wait for their subject. -/
def pending (stack : List (List (Element q × Element q))) : Nat :=
  (stack.map List.length).sum

/-- One scope deeper, every waiting pair weighs one more. -/
theorem held_succ (depth : Nat) (stack : List (List (Element q × Element q)))
    (hlength : stack.length ≤ depth + 1) :
    held (depth + 1) stack = held depth stack + pending stack := by
  induction stack generalizing depth with
  | nil => rfl
  | cons pairs stack ih =>
      have hrest : held depth stack = held (depth - 1) stack + pending stack := by
        cases depth with
        | zero =>
            have hnil : stack = [] := by
              simpa [List.length_eq_zero_iff] using hlength
            rw [hnil]
            rfl
        | succ depth => exact ih depth (by simpa using hlength)
      simp only [held, pending, List.map_cons, List.sum_cons, Nat.add_sub_cancel]
      rw [hrest, Nat.succ_mul]
      unfold pending
      omega

namespace PairBook

/-- The weight of the pairs in a book, those of the current scope at `depth`. -/
def held (b : PairBook q) (depth : Nat) : Nat := Turtle.held depth (b.pairs :: b.pairsStack)

/-- How many pairs in a book wait for their subject. -/
def pending (b : PairBook q) : Nat := Turtle.pending (b.pairs :: b.pairsStack)

theorem idle_of_pending {b : PairBook q} (h : b.pending = 0) : b.Idle := by
  unfold PairBook.pending Turtle.pending at h
  rw [List.sum_eq_zero_iff_forall_eq_nat] at h
  refine ⟨List.length_eq_zero_iff.mp (h _ (by simp)), ?_⟩
  intro pairs hmem
  refine List.length_eq_zero_iff.mp (h _ ?_)
  exact List.mem_map_of_mem (List.mem_cons_of_mem _ hmem)

/-- What a verb adds to the weight of the waiting pairs. -/
def misplaced (b : PairBook q) (height : Nat) : Nat :=
  if height = b.oneStepPreSize + 1 then 0 else b.pending

theorem verb_depth {height : Nat} (b : PairBook q) (hdepth : b.pairsStack.length ≤ height) :
    (b.verb height).pairsStack.length ≤ height + 1 := by
  unfold verb
  split <;> simp only [List.length_cons] <;> omega

theorem held_verb (b : PairBook q) (height : Nat) (hdepth : b.pairsStack.length ≤ height) :
    (b.verb height).held (height + 1) = b.held height + b.misplaced height := by
  unfold misplaced
  by_cases hpush : height = b.oneStepPreSize + 1
  · rw [verb_push hpush, if_pos hpush]
    simp [PairBook.held, Turtle.held]
  · rw [verb_keep hpush, if_neg hpush]
    exact held_succ height (b.pairs :: b.pairsStack) (by simpa using hdepth)

/-- Closing a property list turns the weight of its pairs into that of triples. -/
theorem held_close {weight : Element q → Nat} (b : PairBook q) (height : Nat)
    (hweight : weight (unlabeledNode q b.label) = height + 1) :
    weigh weight b.close.inserted + b.close.held height =
      weigh weight b.inserted + b.held (height + 1) := by
  have hheld : b.close.held height = Turtle.held height b.pairsStack := by
    unfold close PairBook.held
    cases b.pairsStack with
    | nil => simp [Turtle.held]
    | cons top rest => rfl
  rw [hheld]
  unfold close PairBook.held
  rw [Turtle.held, Nat.add_sub_cancel]
  simp only [weigh_append, weigh_tripleOf, hweight]
  omega

theorem held_add (b : PairBook q) (verb : Element q) (values : List (Element q)) (depth : Nat) :
    (b.add verb values).held depth = b.held depth + depth * (values.map (verb, ·)).length := by
  unfold add PairBook.held Turtle.held
  simp only [List.length_append, Nat.mul_add]
  omega

end PairBook

/-! ## The height of the stack of lists -/

mutual

theorem Object.effect_depth : ∀ (o : Object q) (height : Nat) (b : PairBook q),
    (o.effect height b).2.pairsStack.length ≤ b.pairsStack.length
  | .term _, _, _ => le_rfl
  | .anon, _, _ => le_rfl
  | .collection members, height, b => members.effect_depth height b
  | .blankNodePropertyList list, height, b => by
      have hdepth := list.effect_depth height b
      have hverb : (b.verb height).pairsStack.length ≤ b.pairsStack.length + 1 := by
        unfold PairBook.verb
        split <;> simp
      unfold Object.effect PairBook.close
      simp only [List.length_tail]
      omega

theorem Objects.effect_depth : ∀ (os : Objects q) (height : Nat) (b : PairBook q),
    (os.effect height b).2.pairsStack.length ≤ b.pairsStack.length
  | .nil, _, _ => le_rfl
  | .cons object objects, height, b =>
      (objects.effect_depth height (object.effect height b).2).trans (object.effect_depth height b)

theorem PredicateObjectList.effect_depth : ∀ (list : PredicateObjectList q) (height : Nat)
    (b : PairBook q), (list.effect height b).pairsStack.length ≤ (b.verb height).pairsStack.length
  | .last verb object objects, height, b =>
      (objects.effect_depth (height + 1) (object.effect (height + 1) (b.verb height)).2).trans
        (object.effect_depth (height + 1) (b.verb height))
  | .more verb object objects next, height, b => by
      have hobject := object.effect_depth (height + 1) (b.verb height)
      have hobjects := objects.effect_depth (height + 1)
        (object.effect (height + 1) (b.verb height)).2
      have hsize := (PredicateObjectList.last verb object objects).effect_oneStep height b
      have hfirst :
          ((PredicateObjectList.last verb object objects).effect height b).pairsStack.length ≤
            (b.verb height).pairsStack.length := hobjects.trans hobject
      rw [PredicateObjectList.more_effect]
      generalize (PredicateObjectList.last verb object objects).effect height b = b₁ at *
      have hnext := next.effect_depth height b₁
      rw [PairBook.verb_keep (by omega)] at hnext
      exact hnext.trans hfirst

end

/-! ## The excess -/

mutual

/-- The weight gained by pairs that are not set aside. -/
def Object.excess : Object q → Nat → PairBook q → Nat
  | .term _, _, _ | .anon, _, _ => 0
  | .collection members, height, b => members.excess height b
  | .blankNodePropertyList list, height, b => b.misplaced height + list.excess height b

def Objects.excess : Objects q → Nat → PairBook q → Nat
  | .nil, _, _ => 0
  | .cons object objects, height, b =>
      object.excess height b + objects.excess height (object.effect height b).2

def PredicateObjectList.excess : PredicateObjectList q → Nat → PairBook q → Nat
  | .last _ object objects, height, b =>
      object.excess (height + 1) (b.verb height) +
        objects.excess (height + 1) (object.effect (height + 1) (b.verb height)).2
  | .more verb object objects next, height, b =>
      object.excess (height + 1) (b.verb height) +
        objects.excess (height + 1) (object.effect (height + 1) (b.verb height)).2 +
        next.excess height
          (b.verbObjects verb (object.effect (height + 1)) (objects.effect (height + 1)) height)

end

theorem PredicateObjectList.more_excess (verb : Element q) (object : Object q)
    (objects : Objects q) (next : PredicateObjectList q) (height : Nat) (b : PairBook q) :
    (PredicateObjectList.more verb object objects next).excess height b =
      (PredicateObjectList.last verb object objects).excess height b +
        next.excess height ((PredicateObjectList.last verb object objects).effect height b) := rfl

/-- Weights of the labels of two pieces of syntax, one after the other. -/
theorem Weighs.split {weight : Element q → Nat} {n m : Nat} {left right : List Nat}
    (h : Weighs weight n (left ++ right)) (hnext : m = n + left.length) :
    Weighs weight n left ∧ Weighs weight m right := by
  rw [hnext]
  exact Weighs.append.mp h

/-- The inserted triples and the waiting pairs together gain the weight of the
given triples and something more. -/
def PairBook.Balances (weight : Element q → Nat) (depth : Nat) (b b' : PairBook q)
    (triples : List (Triple q)) (gain : Nat) : Prop :=
  weigh weight b'.inserted + b'.held depth =
    weigh weight b.inserted + b.held depth + weigh weight triples + gain

namespace PairBook.Balances

variable {weight : Element q → Nat} {depth gain gain' : Nat} {b b' b'' : PairBook q}
  {triples triples' : List (Triple q)}

theorem trans (h : Balances weight depth b b' triples gain)
    (h' : Balances weight depth b' b'' triples' gain') :
    Balances weight depth b b'' (triples ++ triples') (gain + gain') := by
  unfold Balances at *
  rw [weigh_append]
  omega

theorem refl (b : PairBook q) : Balances weight depth b b [] 0 := rfl

/-- The pairs of a verb are added to the current scope. -/
theorem add (h : Balances weight depth b b' triples gain) (verb : Element q)
    (values : List (Element q)) :
    Balances weight depth b (b'.add verb values) triples
      (depth * (values.map (verb, ·)).length + gain) := by
  have hheld := b'.held_add verb values depth
  have hinserted : (b'.add verb values).inserted = b'.inserted := rfl
  unfold Balances at *
  rw [hheld, hinserted]
  omega

/-- A collection is closed; its cells are inserted and denoted alike. -/
theorem closeCollection (h : Balances weight depth b b' triples gain)
    (values : List (Element q)) :
    Balances weight depth b (b'.closeCollection values)
      (triples ++ collectionTriples b'.label values) gain := by
  have hheld : (b'.closeCollection values).held depth = b'.held depth := rfl
  unfold Balances at *
  rw [hheld, weigh_append]
  unfold PairBook.closeCollection
  rw [weigh_append]
  omega

/-- A property list is closed: its pairs become triples of its node. -/
theorem close {height : Nat} {pairs : List (Element q × Element q)}
    (h : Balances weight (height + 1) (b.verb height) b' triples
      ((height + 1) * pairs.length + gain))
    (hdepth : b.pairsStack.length ≤ height)
    (hweight : weight (unlabeledNode q b'.label) = height + 1) :
    Balances weight height b b'.close
      (triples ++ pairs.map (tripleOf (unlabeledNode q b'.label)))
      (b.misplaced height + gain) := by
  have hclose := b'.held_close height hweight
  have hverb := b.held_verb height hdepth
  unfold Balances at *
  rw [hclose, h, weigh_append, weigh_tripleOf, hweight, hverb, verb_inserted]
  omega

end PairBook.Balances

/-- A verb with its objects, given the balance of the objects. -/
theorem PairBook.verbObjects_balances {weight : Element q → Nat} (verb : Element q)
    (object : Object q) (objects : Objects q) (height : Nat) (b : PairBook q)
    (hobject : ∀ b : PairBook q, b.pairsStack.length ≤ height + 1 →
      Weighs weight b.label (object.depths (height + 1)) →
      b.Balances weight (height + 1) (object.effect (height + 1) b).2
        (object.denote b.label).triples (object.excess (height + 1) b))
    (hobjects : ∀ b : PairBook q, b.pairsStack.length ≤ height + 1 →
      Weighs weight b.label (objects.depths (height + 1)) →
      b.Balances weight (height + 1) (objects.effect (height + 1) b).2
        (objects.denote b.label).triples (objects.excess (height + 1) b))
    (hdepth : (b.verb height).pairsStack.length ≤ height + 1)
    (hweighs : Weighs weight b.label (object.depths (height + 1) ++ objects.depths (height + 1))) :
    (b.verb height).Balances weight (height + 1)
      ((PredicateObjectList.last verb object objects).effect height b)
      ((PredicateObjectList.last verb object objects).denote b.label).triples
      ((height + 1) * ((PredicateObjectList.last verb object objects).denote b.label).value.length +
        (PredicateObjectList.last verb object objects).excess height b) := by
  obtain ⟨hweighs₁, hweighs₂⟩ := hweighs.split (object.next_eq (height + 1) b.label)
  obtain ⟨hvalue₁, hlabel₁⟩ := object.effect_value (height + 1) (b.verb height)
  obtain ⟨hvalue₂, -⟩ := objects.effect_value (height + 1)
    (object.effect (height + 1) (b.verb height)).2
  have h₁ := hobject (b.verb height) hdepth
  have h₂ := hobjects (object.effect (height + 1) (b.verb height)).2
    ((object.effect_depth (height + 1) (b.verb height)).trans hdepth)
  rw [PairBook.verb_label] at h₁ hvalue₁ hlabel₁
  rw [hlabel₁] at h₂ hvalue₂
  have h := ((h₁ hweighs₁).trans (h₂ hweighs₂)).add verb
    ((object.denote b.label).value :: (objects.denote (object.denote b.label).next).value)
  unfold PredicateObjectList.effect PredicateObjectList.denote PairBook.verbObjects
  simp only [hvalue₁, hvalue₂]
  exact h

mutual

theorem Object.balances {weight : Element q → Nat} : ∀ (o : Object q) (height : Nat)
    (b : PairBook q), b.pairsStack.length ≤ height →
    Weighs weight b.label (o.depths height) →
    b.Balances weight height (o.effect height b).2 (o.denote b.label).triples
      (o.excess height b)
  | .term _, _, b, _, _ => PairBook.Balances.refl b
  | .anon, _, b, _, _ => PairBook.Balances.refl b
  | .collection members, height, b, hdepth, hweighs => by
      obtain ⟨hmembers, -⟩ := Weighs.append.mp hweighs
      obtain ⟨hvalue, hlabel⟩ := members.effect_value height b
      have h := (members.balances height b hdepth hmembers).closeCollection
        (members.denote b.label).value
      rw [hlabel] at h
      unfold Object.effect Object.denote
      simp only [hvalue]
      exact h
  | .blankNodePropertyList list, height, b, hdepth, hweighs => by
      obtain ⟨hlist, hnode, -⟩ := hweighs.split (list.next_eq height b.label)
      have hlabel := list.effect_label height b
      have h := list.balances height b (b.verb_depth hdepth) hlist
      rw [← hlabel] at hnode
      have hclose := h.close hdepth hnode
      rw [hlabel] at hclose
      exact hclose

theorem Objects.balances {weight : Element q → Nat} : ∀ (os : Objects q) (height : Nat)
    (b : PairBook q), b.pairsStack.length ≤ height →
    Weighs weight b.label (os.depths height) →
    b.Balances weight height (os.effect height b).2 (os.denote b.label).triples
      (os.excess height b)
  | .nil, _, b, _, _ => PairBook.Balances.refl b
  | .cons object objects, height, b, hdepth, hweighs => by
      obtain ⟨hobject, hobjects⟩ := hweighs.split (object.next_eq height b.label)
      obtain ⟨-, hlabel⟩ := object.effect_value height b
      rw [← hlabel] at hobjects
      have h₁ := object.balances height b hdepth hobject
      have h₂ := objects.balances height (object.effect height b).2
        ((object.effect_depth height b).trans hdepth) hobjects
      rw [hlabel] at h₂
      exact h₁.trans h₂

theorem PredicateObjectList.balances {weight : Element q → Nat} :
    ∀ (list : PredicateObjectList q) (height : Nat) (b : PairBook q),
    (b.verb height).pairsStack.length ≤ height + 1 →
    Weighs weight b.label (list.depths height) →
    (b.verb height).Balances weight (height + 1) (list.effect height b)
      (list.denote b.label).triples
      ((height + 1) * (list.denote b.label).value.length + list.excess height b)
  | .last verb object objects, height, b, hdepth, hweighs =>
      PairBook.verbObjects_balances verb object objects height b
        (fun b => object.balances (height + 1) b) (fun b => objects.balances (height + 1) b)
        hdepth hweighs
  | .more verb object objects next, height, b, hdepth, hweighs => by
      obtain ⟨hfirst, hnext⟩ := hweighs.split
        ((PredicateObjectList.last verb object objects).next_eq height b.label)
      have h₁ := PairBook.verbObjects_balances verb object objects height b
        (fun b => object.balances (height + 1) b) (fun b => objects.balances (height + 1) b)
        hdepth hfirst
      have hsize := (PredicateObjectList.last verb object objects).effect_oneStep height b
      have hdepth₁ := (PredicateObjectList.last verb object objects).effect_depth height b
      have hlabel := (PredicateObjectList.last verb object objects).effect_label height b
      rw [PredicateObjectList.more_effect, PredicateObjectList.more_denote,
        PredicateObjectList.more_excess]
      rw [← hlabel] at hnext ⊢
      generalize (PredicateObjectList.last verb object objects).effect height b = b₁ at *
      have hkeep : b₁.verb height = { b₁ with oneStepPreSize := height } :=
        PairBook.verb_keep (by omega)
      have h₂ := next.balances height b₁ (by rw [hkeep]; exact hdepth₁.trans hdepth) hnext
      rw [hkeep] at h₂
      -- the remembered size is no part of the balance
      have h := h₁.trans h₂
      simp only [List.length_append, Nat.mul_add]
      unfold PairBook.Balances at h ⊢
      omega

end

/-! ## Syntax without excess

An idle book stays idle over leading syntax; otherwise every property list has
to be set aside, which needs it to be the only one of its verb. -/

/-- A property list is set aside: it is the first one of its verb, or there is none. -/
def PairBook.Admits (b : PairBook q) (height lists : Nat) : Prop :=
  height = b.oneStepPreSize + 1 ∧ lists ≤ 1 ∨ lists = 0

/-- The objects after the first one: if both parts are admitted, so is the whole. -/
theorem Objects.admits_cons {object : Object q} {objects : Objects q} {height : Nat}
    {b : PairBook q} (h₁ : b.Admits height object.propertyLists)
    (h₂ : (object.effect height b).2.Admits height objects.propertyLists) :
    b.Admits height (object.propertyLists + objects.propertyLists) := by
  have hsize := object.effect_oneStep height b
  unfold PairBook.Admits at *
  omega

theorem PairBook.misplaced_eq_zero {b : PairBook q} {height : Nat} (h : b.misplaced height = 0)
    (hidle : ¬ b.Idle) : height = b.oneStepPreSize + 1 := by
  by_contra hne
  unfold PairBook.misplaced at h
  rw [if_neg hne] at h
  exact hidle (PairBook.idle_of_pending h)

theorem PairBook.idle_verb {b : PairBook q} {height : Nat} : (b.verb height).Idle ↔ b.Idle := by
  refine ⟨?_, fun h => h.verb height⟩
  intro h
  by_cases hpush : height = b.oneStepPreSize + 1
  · rw [PairBook.verb_push hpush] at h
    exact ⟨h.2 b.pairs (by simp), fun pairs hmem => h.2 pairs (by simp [hmem])⟩
  · rw [PairBook.verb_keep hpush] at h
    exact h

/-- After a verb some pair waits for its subject. -/
theorem PredicateObjectList.effect_pairs : ∀ (list : PredicateObjectList q) (height : Nat)
    (b : PairBook q), (list.effect height b).pairs ≠ []
  | .last verb object objects, height, b => by
      simp [PredicateObjectList.effect, PairBook.verbObjects, PairBook.add]
  | .more _ _ _ next, height, _ => next.effect_pairs height _

theorem PredicateObjectList.effect_not_idle (list : PredicateObjectList q) (height : Nat)
    (b : PairBook q) : ¬ (list.effect height b).Idle :=
  fun h => list.effect_pairs height b h.1

/-- Several objects on an idle book, given each part. -/
theorem Objects.cons_leading_of_excess {object : Object q} {objects : Objects q} {height : Nat}
    (hobject : ∀ b : PairBook q, b.Idle → object.excess height b = 0 → object.leading = true)
    (hobjects : ∀ b : PairBook q, b.Idle → objects.excess height b = 0 → objects.leading = true)
    {b : PairBook q} (hidle : b.Idle)
    (hexcess : (Objects.cons object objects).excess height b = 0) :
    (object.leading && objects.leading) = true := by
  simp only [Objects.excess, Nat.add_eq_zero_iff] at hexcess
  have hfirst := hobject b hidle hexcess.1
  have hidle₁ := (object.effect_leading height b hfirst hidle).idle
  have hrest := hobjects (object.effect height b).2 hidle₁ hexcess.2
  rw [hfirst, hrest, Bool.and_self]

/-- Several objects on a book with waiting pairs, given each part. -/
theorem Objects.cons_separated_of_excess {object : Object q} {objects : Objects q} {height : Nat}
    (hobject : ∀ b : PairBook q, ¬ b.Idle → object.excess height b = 0 →
      object.separated = true ∧ b.Admits height object.propertyLists)
    (hobjects : ∀ b : PairBook q, ¬ b.Idle → objects.excess height b = 0 →
      objects.separated = true ∧ b.Admits height objects.propertyLists)
    {b : PairBook q} (hidle : ¬ b.Idle)
    (hexcess : (Objects.cons object objects).excess height b = 0) :
    (object.separated && objects.separated) = true ∧
      b.Admits height (object.propertyLists + objects.propertyLists) := by
  simp only [Objects.excess, Nat.add_eq_zero_iff] at hexcess
  obtain ⟨hfirst, hadmits⟩ := hobject b hidle hexcess.1
  obtain ⟨size, heffect, -⟩ := object.effect_separated height b hfirst hadmits
  have hidle₁ : ¬ (object.effect height b).2.Idle := by
    rw [heffect]
    exact hidle
  obtain ⟨hrest, hadmits₁⟩ := hobjects (object.effect height b).2 hidle₁ hexcess.2
  refine ⟨?_, Objects.admits_cons hadmits hadmits₁⟩
  rw [hfirst, hrest, Bool.and_self]

/-- A verb admits at most one property list. -/
theorem PairBook.Admits.le_one {b : PairBook q} {height lists : Nat}
    (h : b.Admits height lists) : lists ≤ 1 := by
  unfold PairBook.Admits at h
  omega

mutual

theorem Object.separated_of_excess : ∀ (o : Object q) (height : Nat) (b : PairBook q),
    ¬ b.Idle → o.excess height b = 0 → o.separated = true ∧ b.Admits height o.propertyLists
  | .term _, _, _, _, _ => ⟨rfl, .inr rfl⟩
  | .anon, _, _, _, _ => ⟨rfl, .inr rfl⟩
  | .collection members, height, b, hidle, hexcess =>
      members.separated_of_excess height b hidle hexcess
  | .blankNodePropertyList list, height, b, hidle, hexcess => by
      simp only [Object.excess, Nat.add_eq_zero_iff] at hexcess
      refine ⟨list.separated_of_excess height b hidle hexcess.2, .inl ⟨?_, le_rfl⟩⟩
      exact PairBook.misplaced_eq_zero hexcess.1 hidle

theorem Objects.separated_of_excess : ∀ (os : Objects q) (height : Nat) (b : PairBook q),
    ¬ b.Idle → os.excess height b = 0 → os.separated = true ∧ b.Admits height os.propertyLists
  | .nil, _, _, _, _ => ⟨rfl, .inr rfl⟩
  | .cons object objects, height, _, hidle, hexcess =>
      Objects.cons_separated_of_excess (fun b => object.separated_of_excess height b)
        (fun b => objects.separated_of_excess height b) hidle hexcess

theorem PredicateObjectList.separated_of_excess : ∀ (list : PredicateObjectList q) (height : Nat)
    (b : PairBook q), ¬ b.Idle → list.excess height b = 0 → list.separated = true
  | .last verb object objects, height, b, hidle, hexcess => by
      obtain ⟨hsep, hadmits⟩ := Objects.cons_separated_of_excess
        (fun b => object.separated_of_excess (height + 1) b)
        (fun b => objects.separated_of_excess (height + 1) b)
        (mt PairBook.idle_verb.mp hidle) hexcess
      unfold PredicateObjectList.separated
      rw [hsep, decide_eq_true hadmits.le_one, Bool.and_self]
  | .more verb object objects next, height, b, hidle, hexcess => by
      rw [PredicateObjectList.more_excess, Nat.add_eq_zero_iff] at hexcess
      obtain ⟨hsep, hadmits⟩ := Objects.cons_separated_of_excess
        (fun b => object.separated_of_excess (height + 1) b)
        (fun b => objects.separated_of_excess (height + 1) b)
        (mt PairBook.idle_verb.mp hidle) hexcess.1
      have hnext := next.separated_of_excess height _
        ((PredicateObjectList.last verb object objects).effect_not_idle height b) hexcess.2
      unfold PredicateObjectList.separated
      rw [hsep, decide_eq_true hadmits.le_one, hnext, Bool.and_self, Bool.and_self]

end

mutual

theorem Object.leading_of_excess : ∀ (o : Object q) (height : Nat) (b : PairBook q), b.Idle →
    o.excess height b = 0 → o.leading = true
  | .term _, _, _, _, _ => rfl
  | .anon, _, _, _, _ => rfl
  | .collection members, height, b, hidle, hexcess =>
      members.leading_of_excess height b hidle hexcess
  | .blankNodePropertyList list, height, b, hidle, hexcess => by
      simp only [Object.excess, Nat.add_eq_zero_iff] at hexcess
      exact list.leading_of_excess height b hidle hexcess.2

theorem Objects.leading_of_excess : ∀ (os : Objects q) (height : Nat) (b : PairBook q), b.Idle →
    os.excess height b = 0 → os.leading = true
  | .nil, _, _, _, _ => rfl
  | .cons object objects, height, _, hidle, hexcess =>
      Objects.cons_leading_of_excess (fun b => object.leading_of_excess height b)
        (fun b => objects.leading_of_excess height b) hidle hexcess

theorem PredicateObjectList.leading_of_excess : ∀ (list : PredicateObjectList q) (height : Nat)
    (b : PairBook q), b.Idle → list.excess height b = 0 → list.leading = true
  | .last verb object objects, height, _, hidle, hexcess =>
      Objects.cons_leading_of_excess (fun b => object.leading_of_excess (height + 1) b)
        (fun b => objects.leading_of_excess (height + 1) b) (hidle.verb height) hexcess
  | .more verb object objects next, height, b, hidle, hexcess => by
      rw [PredicateObjectList.more_excess, Nat.add_eq_zero_iff] at hexcess
      have hlead := Objects.cons_leading_of_excess
        (fun b => object.leading_of_excess (height + 1) b)
        (fun b => objects.leading_of_excess (height + 1) b) (hidle.verb height) hexcess.1
      -- the first verb leaves pairs behind, so the rest is on its own
      have hnext := next.separated_of_excess height _
        ((PredicateObjectList.last verb object objects).effect_not_idle height b) hexcess.2
      unfold PredicateObjectList.leading
      rw [hlead, hnext, Bool.and_self]

end

/-! ## The node kept for a property list in subject position

A property list closed while no list is set aside overwrites that node.  Below
the first verb of a scope this is a deeper node. -/

/-- Either the kept node is deeper now, or it is the same and every property list
was set aside. -/
def PairBook.Keeps (weight : Element q → Nat) (b b' : PairBook q) (good : Prop) : Prop :=
  1 < weight b'.firstBNPL ∨
    b'.firstBNPL = b.firstBNPL ∧ b'.pairsStack.length ≤ b.pairsStack.length ∧
      (b'.pairsStack.length = b.pairsStack.length → good)

theorem PairBook.Keeps.trans {weight : Element q → Nat} {b b' b'' : PairBook q}
    {good good' : Prop} (h : b.Keeps weight b' good) (h' : b'.Keeps weight b'' good') :
    b.Keeps weight b'' (good ∧ good') := by
  unfold PairBook.Keeps at *
  rcases h' with hdeep | ⟨hsame', hle', hgood'⟩
  · exact .inl hdeep
  · rw [hsame']
    rcases h with hdeep | ⟨hsame, hle, hgood⟩
    · exact .inl hdeep
    · refine .inr ⟨hsame, hle'.trans hle, ?_⟩
      intro heq
      exact ⟨hgood (by omega), hgood' (by omega)⟩

theorem PairBook.Keeps.mono {weight : Element q → Nat} {b b' : PairBook q} {good good' : Prop}
    (h : b.Keeps weight b' good) (himp : good → good') : b.Keeps weight b' good' := by
  rcases h with hdeep | ⟨hsame, hle, hgood⟩
  · exact .inl hdeep
  · exact .inr ⟨hsame, hle, fun heq => himp (hgood heq)⟩

theorem PairBook.Keeps.refl {weight : Element q → Nat} {good : Prop} (b : PairBook q)
    (hgood : good) : b.Keeps weight b good :=
  .inr ⟨rfl, le_rfl, fun _ => hgood⟩

/-- Closing a property list below some verb. -/
theorem PairBook.Keeps.close {weight : Element q → Nat} {b b' : PairBook q} {height : Nat}
    {good : Prop} (h : (b.verb height).Keeps weight b' good)
    (hweight : 1 < weight (unlabeledNode q b'.label)) :
    b.Keeps weight b'.close (good ∧ height = b.oneStepPreSize + 1) := by
  unfold PairBook.close
  by_cases hnil : b'.pairsStack = []
  · refine .inl ?_
    simpa [hnil] using hweight
  · have hpos : 1 ≤ b'.pairsStack.length := List.length_pos_iff.mpr hnil
    rcases h with hdeep | ⟨hsame, hle, hgood⟩
    · refine .inl ?_
      simpa [hnil] using hdeep
    · refine .inr ⟨?_, ?_, ?_⟩
      · simpa [hnil] using hsame
      · have hverb : (b.verb height).pairsStack.length ≤ b.pairsStack.length + 1 := by
          unfold PairBook.verb
          split <;> simp
        simp only [List.length_tail]
        omega
      · intro heq
        simp only [List.length_tail] at heq
        by_cases hpush : height = b.oneStepPreSize + 1
        · refine ⟨hgood ?_, hpush⟩
          rw [PairBook.verb_push hpush, List.length_cons]
          omega
        · rw [PairBook.verb_keep hpush] at hle
          simp only at hle
          omega

/-- A verb with its objects, given each part. -/
theorem PairBook.verbObjects_keeps {weight : Element q → Nat} {object : Object q}
    {objects : Objects q} {height : Nat} (verb : Element q)
    (hobject : ∀ b : PairBook q, Weighs weight b.label (object.depths (height + 1)) →
      b.Keeps weight (object.effect (height + 1) b).2
        (object.separated = true ∧ b.Admits (height + 1) object.propertyLists))
    (hobjects : ∀ b : PairBook q, Weighs weight b.label (objects.depths (height + 1)) →
      b.Keeps weight (objects.effect (height + 1) b).2
        (objects.separated = true ∧ b.Admits (height + 1) objects.propertyLists))
    (b : PairBook q)
    (hweighs : Weighs weight b.label (object.depths (height + 1) ++ objects.depths (height + 1))) :
    (b.verb height).Keeps weight
      ((PredicateObjectList.last verb object objects).effect height b)
      ((PredicateObjectList.last verb object objects).separated = true) := by
  obtain ⟨hweighs₁, hweighs₂⟩ := hweighs.split (object.next_eq (height + 1) b.label)
  obtain ⟨-, hlabel⟩ := object.effect_value (height + 1) (b.verb height)
  rw [PairBook.verb_label] at hlabel
  have h₁ := hobject (b.verb height) (by rw [PairBook.verb_label]; exact hweighs₁)
  have h₂ := hobjects (object.effect (height + 1) (b.verb height)).2
    (by rw [hlabel]; exact hweighs₂)
  refine (h₁.trans h₂).mono ?_
  intro ⟨⟨hsep₁, hadmits₁⟩, hsep₂, hadmits₂⟩
  have hadmits := Objects.admits_cons hadmits₁ hadmits₂
  unfold PredicateObjectList.separated
  rw [hsep₁, hsep₂, decide_eq_true hadmits.le_one, Bool.and_self, Bool.and_self]

mutual

theorem Object.keeps {weight : Element q → Nat} : ∀ (o : Object q) (height : Nat)
    (b : PairBook q), 1 ≤ height → Weighs weight b.label (o.depths height) →
    b.Keeps weight (o.effect height b).2
      (o.separated = true ∧ b.Admits height o.propertyLists)
  | .term _, _, b, _, _ => PairBook.Keeps.refl b ⟨rfl, .inr rfl⟩
  | .anon, _, b, _, _ => PairBook.Keeps.refl b ⟨rfl, .inr rfl⟩
  | .collection members, height, b, hpos, hweighs =>
      members.keeps height b hpos (Weighs.append.mp hweighs).1
  | .blankNodePropertyList list, height, b, hpos, hweighs => by
      obtain ⟨hlist, hnode, -⟩ := hweighs.split (list.next_eq height b.label)
      have h := list.keeps height b hlist
      rw [← list.effect_label height b] at hnode
      refine (h.close (by rw [hnode]; omega)).mono ?_
      intro ⟨hsep, hpush⟩
      exact ⟨hsep, .inl ⟨hpush, le_rfl⟩⟩

theorem Objects.keeps {weight : Element q → Nat} : ∀ (os : Objects q) (height : Nat)
    (b : PairBook q), 1 ≤ height → Weighs weight b.label (os.depths height) →
    b.Keeps weight (os.effect height b).2
      (os.separated = true ∧ b.Admits height os.propertyLists)
  | .nil, _, b, _, _ => PairBook.Keeps.refl b ⟨rfl, .inr rfl⟩
  | .cons object objects, height, b, hpos, hweighs => by
      obtain ⟨hobject, hobjects⟩ := hweighs.split (object.next_eq height b.label)
      rw [← (object.effect_value height b).2] at hobjects
      have h₁ := object.keeps height b hpos hobject
      have h₂ := objects.keeps height (object.effect height b).2 hpos hobjects
      refine (h₁.trans h₂).mono ?_
      intro ⟨⟨hsep₁, hadmits₁⟩, hsep₂, hadmits₂⟩
      refine ⟨?_, Objects.admits_cons hadmits₁ hadmits₂⟩
      unfold Objects.separated
      rw [hsep₁, hsep₂, Bool.and_self]

theorem PredicateObjectList.keeps {weight : Element q → Nat} :
    ∀ (list : PredicateObjectList q) (height : Nat) (b : PairBook q),
    Weighs weight b.label (list.depths height) →
    (b.verb height).Keeps weight (list.effect height b) (list.separated = true)
  | .last verb object objects, height, b, hweighs =>
      PairBook.verbObjects_keeps verb
        (fun b => object.keeps (height + 1) b (Nat.succ_pos height))
        (fun b => objects.keeps (height + 1) b (Nat.succ_pos height)) b hweighs
  | .more verb object objects next, height, b, hweighs => by
      obtain ⟨hfirst, hnext⟩ := hweighs.split
        ((PredicateObjectList.last verb object objects).next_eq height b.label)
      have h₁ := PairBook.verbObjects_keeps verb
        (fun b => object.keeps (height + 1) b (Nat.succ_pos height))
        (fun b => objects.keeps (height + 1) b (Nat.succ_pos height)) b hfirst
      have hsize := (PredicateObjectList.last verb object objects).effect_oneStep height b
      rw [← (PredicateObjectList.last verb object objects).effect_label height b] at hnext
      rw [PredicateObjectList.more_effect]
      generalize (PredicateObjectList.last verb object objects).effect height b = b₁ at *
      have h₂ := next.keeps height b₁ hnext
      rw [PairBook.verb_keep (by omega)] at h₂
      refine (h₁.trans h₂).mono ?_
      intro ⟨hsep₁, hsep₂⟩
      unfold PredicateObjectList.separated at hsep₁ ⊢
      rw [hsep₁, hsep₂, Bool.and_self]

end

/-! ## Subjects -/

def Subject.depths : Subject q → List Nat
  | .term _ => []
  | .anon => [1]
  | .collection members => (Object.collection members).depths 0

def Subject.excess : Subject q → PairBook q → Nat
  | .term _, _ | .anon, _ => 0
  | .collection members, b => (Object.collection members).excess 0 b

theorem Subject.next_eq (subject : Subject q) (n : Nat) :
    (subject.denote n).next = n + subject.depths.length := by
  cases subject with
  | term t => rfl
  | anon => rfl
  | collection members => exact (Object.collection members).next_eq 0 n

theorem Subject.balances {weight : Element q → Nat} (subject : Subject q) (b : PairBook q)
    (hdepth : b.pairsStack = []) (hweighs : Weighs weight b.label subject.depths) :
    b.Balances weight 0 (subject.effect b).2 (subject.denote b.label).triples
      (subject.excess b) := by
  cases subject with
  | term t => exact PairBook.Balances.refl b
  | anon => exact PairBook.Balances.refl b
  | collection members =>
      exact (Object.collection members).balances 0 b (by rw [hdepth]; exact le_rfl) hweighs

theorem Subject.effect_depth (subject : Subject q) (b : PairBook q) :
    (subject.effect b).2.pairsStack.length ≤ b.pairsStack.length := by
  cases subject with
  | term t => exact le_rfl
  | anon => exact le_rfl
  | collection members => exact (Object.collection members).effect_depth 0 b

theorem Subject.leading_of_excess (subject : Subject q) (b : PairBook q) (hidle : b.Idle)
    (hexcess : subject.excess b = 0) : subject.leading = true := by
  cases subject with
  | term t => rfl
  | anon => rfl
  | collection members => exact (Object.collection members).leading_of_excess 0 b hidle hexcess

/-- A collection has the weight of its last cell. -/
theorem Weighs.collectionHead {weight : Element q → Nat} {values : List (Element q)} {n : Nat}
    (h : Weighs weight n (List.replicate (max 1 values.length) 1)) :
    weight (collectionHead n values) = 1 := by
  have hlt : values.length - 1 < (List.replicate (max 1 values.length) 1).length := by
    rw [List.length_replicate]
    omega
  unfold Turtle.collectionHead
  rw [h.get hlt, List.getElem_replicate]

/-! ## Statements that lose -/

/-- The subject is not written with a label that is generated from `n` on. -/
def Statement.SubjectFresh : Statement q → Nat → Prop
  | .tripleSeq1 (.term t) _, n => ∀ m, n ≤ m → t ≠ unlabeledNode q m
  | _, _ => True

/-- The subject of a statement has weight 1. -/
theorem Statement.weight_subject {weight : Element q → Nat} {subject : Subject q}
    {list : PredicateObjectList q} {n : Nat}
    (hfresh : (Statement.tripleSeq1 subject list).SubjectFresh n)
    (hweighs : Weighs weight n subject.depths)
    (hother : ∀ e, (∀ m, n ≤ m → e ≠ unlabeledNode q m) → weight e = 1) :
    weight (subject.denote n).value = 1 := by
  cases subject with
  | term t => exact hother t hfresh
  | anon =>
      cases q with
      | false => exact hweighs.1
      | true =>
          refine hother _ ?_
          intro m _ heq
          exact VarOrTerm.noConfusion heq
  | collection members =>
      obtain ⟨-, hcells⟩ := hweighs.split (members.next_eq 0 n)
      rw [← members.length_value n] at hcells
      exact hcells.collectionHead

theorem PairBook.held_nil {b : PairBook q} (hstack : b.pairsStack = []) (depth : Nat) :
    b.held depth = depth * b.pairs.length := by
  unfold PairBook.held
  rw [hstack]
  rfl

/-- The verbs of the statement itself, read while no list is set aside. -/
theorem PredicateObjectList.balance_zero {weight : Element q → Nat}
    (list : PredicateObjectList q) (b : PairBook q) (hstack : b.pairsStack = [])
    (hweighs : Weighs weight b.label (list.depths 0)) :
    (list.effect 0 b).pairsStack = [] ∧
      weigh weight (list.effect 0 b).inserted + (list.effect 0 b).pairs.length =
        weigh weight b.inserted + b.pairs.length +
          weigh weight (list.denote b.label).triples + (list.denote b.label).value.length +
          list.excess 0 b := by
  have hverb : (b.verb 0).pairsStack = [] := by
    rw [PairBook.verb_zero]
    exact hstack
  have hdepth : (list.effect 0 b).pairsStack = [] := by
    have hle := list.effect_depth 0 b
    rw [hverb] at hle
    exact List.length_eq_zero_iff.mp (Nat.le_zero.mp hle)
  have h := list.balances 0 b (by rw [hverb]; exact Nat.zero_le 1) hweighs
  unfold PairBook.Balances at h
  rw [PairBook.held_nil hdepth, PairBook.held_nil hverb, PairBook.verb_zero] at h
  simp only at h
  refine ⟨hdepth, ?_⟩
  omega

/-- A statement with the effect it denotes is well nested: `tripleSeq1`. -/
theorem Statement.tripleSeq1_wellNested (subject : Subject q) (list : PredicateObjectList q)
    (b : PairBook q) (hfresh : b.Fresh)
    (hsubject : (Statement.tripleSeq1 subject list).SubjectFresh b.label)
    (hperm : ((Statement.tripleSeq1 subject list).effect b).Perm
      (b.inserted ++ (Statement.tripleSeq1 subject list).denote b.label)) :
    (Statement.tripleSeq1 subject list).wellNested = true := by
  obtain ⟨weight, hweighs, hother⟩ :=
    Weighs.exists (q := q) b.label (subject.depths ++ list.depths 0)
  obtain ⟨hweighs₁, hweighs₂⟩ := hweighs.split (subject.next_eq b.label)
  obtain ⟨hvalue, hlabel⟩ := subject.effect_value b
  have hweight := Statement.weight_subject hsubject hweighs₁ hother
  have hstack : (subject.effect b).2.pairsStack = [] := by
    have hle := subject.effect_depth b
    rw [hfresh.pairsStack] at hle
    exact List.length_eq_zero_iff.mp (Nat.le_zero.mp hle)
  have h₁ := subject.balances b hfresh.pairsStack hweighs₁
  obtain ⟨-, h₂⟩ := list.balance_zero (subject.effect b).2 hstack (by rw [hlabel]; exact hweighs₂)
  have hequal := weigh_perm weight hperm
  unfold Statement.effect Statement.denote at hequal
  unfold PairBook.Balances at h₁
  rw [PairBook.held_nil hstack, PairBook.held_nil hfresh.pairsStack] at h₁
  rw [hlabel] at h₂
  simp only [weigh_append, weigh_tripleOf, hvalue, hweight] at hequal
  -- the two weights differ by the excess of both parts
  have hexcess₁ : subject.excess b = 0 := by omega
  have hexcess₂ : list.excess 0 (subject.effect b).2 = 0 := by omega
  have hlead₁ := subject.leading_of_excess b hfresh.idle hexcess₁
  have hidle := (subject.effect_leading b hlead₁ hfresh.idle).idle
  have hlead₂ := list.leading_of_excess 0 (subject.effect b).2 hidle hexcess₂
  show (subject.leading && list.leading) = true
  rw [hlead₁, hlead₂, Bool.and_self]

/-- A statement with the effect it denotes is well nested: `tripleSeq2`. -/
theorem Statement.tripleSeq2_wellNested (list : PredicateObjectList q)
    (rest : Option (PredicateObjectList q)) (b : PairBook q) (hfresh : b.Fresh)
    (hperm : ((Statement.tripleSeq2 list rest).effect b).Perm
      (b.inserted ++ (Statement.tripleSeq2 list rest).denote b.label)) :
    (Statement.tripleSeq2 list rest).wellNested = true := by
  obtain ⟨weight, hweighs, -⟩ := Weighs.exists (q := q) b.label
    ((Object.blankNodePropertyList list).depths 0 ++ rest.elim [] (·.depths 0))
  obtain ⟨hweighs₁, hweighs₂⟩ := hweighs.split
    ((Object.blankNodePropertyList list).next_eq 0 b.label)
  obtain ⟨hlist, hnode, -⟩ := hweighs₁.split (list.next_eq 0 b.label)
  have hlabel := ((Object.blankNodePropertyList list).effect_value 0 b).2
  obtain ⟨hdepth, -⟩ := list.balance_zero b hfresh.pairsStack hlist
  have h₁ := (Object.blankNodePropertyList list).balances 0 b
    (by rw [hfresh.pairsStack]; exact le_rfl) hweighs₁
  have hstack : ((Object.blankNodePropertyList list).effect 0 b).2.pairsStack = [] := by
    unfold Object.effect PairBook.close
    simp only [hdepth, List.tail_nil]
  have hfirst : ((Object.blankNodePropertyList list).effect 0 b).2.firstBNPL =
      ((Object.blankNodePropertyList list).denote b.label).value := by
    unfold Object.effect Object.denote PairBook.close
    simp only [hdepth, if_true, list.effect_label]
  have hweight : weight ((Object.blankNodePropertyList list).denote b.label).value = 1 := hnode
  have hequal := weigh_perm weight hperm
  unfold PairBook.Balances at h₁
  rw [PairBook.held_nil hstack, PairBook.held_nil hfresh.pairsStack] at h₁
  have hexcess : (Object.blankNodePropertyList list).excess 0 b = 0 → list.leading = true :=
    (Object.blankNodePropertyList list).leading_of_excess 0 b hfresh.idle
  show (list.leading && rest.all PredicateObjectList.separated) = true
  unfold Statement.effect Statement.denote at hequal
  simp only at hequal
  generalize ((Object.blankNodePropertyList list).effect 0 b).2 = b₁ at *
  cases rest with
  | none =>
      simp only [Option.elim, weigh_append, weigh_tripleOf, hfirst, hweight] at hequal
      rw [hexcess (by omega)]
      rfl
  | some rest =>
      rw [← hlabel] at hweighs₂ hequal
      obtain ⟨hdepth₂, h₂⟩ := rest.balance_zero b₁ hstack hweighs₂
      have hkeeps := rest.keeps 0 b₁ hweighs₂
      have hpairs : 1 ≤ (rest.effect 0 b₁).pairs.length :=
        List.length_pos_iff.mpr (rest.effect_pairs 0 b₁)
      simp only [Option.elim, weigh_append, weigh_tripleOf, hweight] at hequal
      rcases hkeeps with hdeep | ⟨hsame, -, hseparated⟩
      · -- a deeper subject makes the pairs of the statement too heavy
        have hheavy := Nat.mul_le_mul_right (rest.effect 0 b₁).pairs.length hdeep
        omega
      · rw [PairBook.verb_firstBNPL, hfirst] at hsame
        rw [hsame, hweight] at hequal
        have hrest : rest.separated = true := by
          refine hseparated ?_
          rw [hdepth₂, PairBook.verb_zero, hstack]
        rw [hexcess (by omega)]
        simpa using hrest

theorem Statement.wellNested_of_perm (st : Statement q) (b : PairBook q) (hfresh : b.Fresh)
    (hsubject : st.SubjectFresh b.label)
    (hperm : (st.effect b).Perm (b.inserted ++ st.denote b.label)) : st.wellNested = true := by
  cases st with
  | tripleSeq1 subject list =>
      exact Statement.tripleSeq1_wellNested subject list b hfresh hsubject hperm
  | tripleSeq2 list rest => exact Statement.tripleSeq2_wellNested list rest b hfresh hperm

/-! ## What a statement inserts -/

/-- The actions of a statement succeed and insert exactly the triples it denotes. -/
def Statement.Inserts (st : Statement q) (s : State q) : Prop :=
  ∃ s', runBuilder st.actions s = .ok s' ∧
    s'.inserted.Perm (s.inserted ++ st.denote s.latestBNLabel)

theorem State.Clean.fresh {s : State q} (h : s.Clean) : s.book.Fresh :=
  ⟨h.pairs, h.pairsStack⟩

/-- From a clean state, a well-nested statement inserts the triples it denotes,
and only such a statement does unless its subject reuses a generated label. -/
theorem Statement.inserts_wellNested (st : Statement q) (s : State q) (hclean : s.Clean) :
    (st.wellNested = true → st.Inserts s) ∧
      (st.SubjectFresh s.latestBNLabel → st.Inserts s → st.wellNested = true) := by
  obtain ⟨s', hrun, heffect⟩ := st.run_actions s hclean
  constructor
  · intro hnested
    refine ⟨s', hrun, ?_⟩
    rw [heffect, st.effect_wellNested s.book hclean.fresh hnested]
    exact List.Perm.refl _
  · intro hsubject ⟨s'', hrun', hperm⟩
    rw [hrun, Except.ok.injEq] at hrun'
    rw [← hrun', heffect] at hperm
    exact st.wellNested_of_perm s.book hclean.fresh hsubject hperm

/-- `:s :p ( :o [ :a :b ] ) ; :r [ :c [] ] .` -/
def nestedExample : Statement false :=
  let iri (name : String) : Element false := uriRef (bytes name)
  .tripleSeq1 (.term (iri "s"))
    (.more (iri "p") (.collection (.cons (.term (iri "o")) (.cons
        (.blankNodePropertyList (.last (iri "a") (.term (iri "b")) .nil)) .nil))) .nil
      (.last (iri "r") (.blankNodePropertyList (.last (iri "c") .anon .nil)) .nil))

theorem State.initial_clean (q : Bool) (prefixMap : PrefixMap) : (initialState q prefixMap).Clean :=
  ⟨rfl, rfl, rfl, rfl, rfl⟩

theorem nestedExample_inserts : nestedExample.Inserts (initialState false []) :=
  (nestedExample.inserts_wellNested (initialState false []) (State.initial_clean false [])).1
    (by decide)

/-- `:s :p1 :o1 ; :p2 [ :a :b ] , [ :c :d ] .` -/
def twoListsExample : Statement false :=
  let iri (name : String) : Element false := uriRef (bytes name)
  .tripleSeq1 (.term (iri "s"))
    (.more (iri "p1") (.term (iri "o1")) .nil
      (.last (iri "p2") (.blankNodePropertyList (.last (iri "a") (.term (iri "b")) .nil))
        (.cons (.blankNodePropertyList (.last (iri "c") (.term (iri "d")) .nil)) .nil)))

/-- The second list takes the pair `:p1 :o1` of the statement. -/
theorem twoListsExample_loses : ¬ twoListsExample.Inserts (initialState false []) := by
  intro ⟨s', hrun, hperm⟩
  obtain ⟨s'', hrun', heffect⟩ :=
    twoListsExample.run_actions (initialState false []) (State.initial_clean false [])
  rw [hrun, Except.ok.injEq] at hrun'
  rw [hrun', heffect] at hperm
  revert hperm
  decide

end RdfParser.Turtle
