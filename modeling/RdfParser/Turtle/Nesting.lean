/-
  Turtle/Nesting.lean --- the statements whose pairs all reach their own subject.

  `processVerb` does not know in which scope it is; it compares the size of the
  verb stack with its size before the previous verb.  This works for a property
  list that is the first one under its verb, and it does no harm while no pair
  waits for its subject.  `wellNested` names the statements built from these two
  cases, and `effect_wellNested` shows that they get the triples they denote.
-/
import RdfParser.Turtle.PairBook

set_option autoImplicit false

namespace RdfParser.Turtle

open RdfParser.Foundation RdfParser.Rdf

variable {q : Bool}

mutual

/-- The property lists written directly in the scope of an object. -/
def Object.propertyLists : Object q → Nat
  | .term _ | .anon => 0
  | .collection members => members.propertyLists
  | .blankNodePropertyList _ => 1

def Objects.propertyLists : Objects q → Nat
  | .nil => 0
  | .cons object objects => object.propertyLists + objects.propertyLists

end

mutual

/-- No verb, at any depth, has two property lists among its objects. -/
def Object.separated : Object q → Bool
  | .term _ | .anon => true
  | .collection members => members.separated
  | .blankNodePropertyList list => list.separated

def Objects.separated : Objects q → Bool
  | .nil => true
  | .cons object objects => object.separated && objects.separated

def PredicateObjectList.separated : PredicateObjectList q → Bool
  | .last _ object objects =>
      decide (object.propertyLists + objects.propertyLists ≤ 1) &&
        (object.separated && objects.separated)
  | .more _ object objects next =>
      decide (object.propertyLists + objects.propertyLists ≤ 1) &&
        (object.separated && objects.separated) && next.separated

end

mutual

/-- A verb may have several property lists among its objects as long as it and
every verb around it is the first one of its scope. -/
def Object.leading : Object q → Bool
  | .term _ | .anon => true
  | .collection members => members.leading
  | .blankNodePropertyList list => list.leading

def Objects.leading : Objects q → Bool
  | .nil => true
  | .cons object objects => object.leading && objects.leading

def PredicateObjectList.leading : PredicateObjectList q → Bool
  | .last _ object objects => object.leading && objects.leading
  | .more _ object objects next => object.leading && objects.leading && next.separated

end

def Subject.leading : Subject q → Bool
  | .term _ | .anon => true
  | .collection members => members.leading

/-- The statements whose pairs all reach their own subject. -/
def Statement.wellNested : Statement q → Bool
  | .tripleSeq1 subject list => subject.leading && list.leading
  | .tripleSeq2 list rest => list.leading && rest.all PredicateObjectList.separated

/-! ## The book, field by field -/

namespace PairBook

variable {b : PairBook q} {height : Nat}

@[simp] theorem verb_label (b : PairBook q) (height : Nat) : (b.verb height).label = b.label := by
  unfold verb
  split <;> rfl

@[simp] theorem verb_inserted (b : PairBook q) (height : Nat) :
    (b.verb height).inserted = b.inserted := by
  unfold verb
  split <;> rfl

@[simp] theorem verb_firstBNPL (b : PairBook q) (height : Nat) :
    (b.verb height).firstBNPL = b.firstBNPL := by
  unfold verb
  split <;> rfl

@[simp] theorem verb_oneStepPreSize (b : PairBook q) (height : Nat) :
    (b.verb height).oneStepPreSize = height := by
  unfold verb
  split <;> rfl

/-- A verb one level above the previous one sets the pairs aside. -/
theorem verb_push (h : height = b.oneStepPreSize + 1) :
    b.verb height =
      { b with
        oneStepPreSize := height, pairs := [], pairsStack := b.pairs :: b.pairsStack } :=
  if_pos h

/-- Any other verb leaves the pairs where they are. -/
theorem verb_keep (h : ¬ height = b.oneStepPreSize + 1) :
    b.verb height = { b with oneStepPreSize := height } :=
  if_neg h

/-- The triples of a piece of syntax are inserted and its labels used up. -/
def tell {V : Type} (b : PairBook q) (m : Meaning q V) : PairBook q :=
  { b with label := m.next, inserted := b.inserted ++ m.triples }

/-- No pair is waiting for its subject. -/
def Idle (b : PairBook q) : Prop := b.pairs = [] ∧ ∀ pairs ∈ b.pairsStack, pairs = []

theorem Idle.verb (h : b.Idle) (height : Nat) : (b.verb height).Idle := by
  obtain ⟨hpairs, hstack⟩ := h
  by_cases hpush : height = b.oneStepPreSize + 1
  · rw [verb_push hpush]
    refine ⟨rfl, ?_⟩
    intro pairs hmem
    rcases List.mem_cons.mp hmem with rfl | hmem
    · exact hpairs
    · exact hstack pairs hmem
  · rw [verb_keep hpush]
    exact ⟨hpairs, hstack⟩

end PairBook

/-! ## One verb after another -/

theorem PredicateObjectList.more_effect (verb : Element q) (object : Object q)
    (objects : Objects q) (next : PredicateObjectList q) (height : Nat) (b : PairBook q) :
    (PredicateObjectList.more verb object objects next).effect height b =
      next.effect height ((PredicateObjectList.last verb object objects).effect height b) := rfl

theorem PredicateObjectList.more_denote (verb : Element q) (object : Object q)
    (objects : Objects q) (next : PredicateObjectList q) (n : Nat) :
    (PredicateObjectList.more verb object objects next).denote n =
      { value := ((PredicateObjectList.last verb object objects).denote n).value ++
          (next.denote ((PredicateObjectList.last verb object objects).denote n).next).value
        triples := ((PredicateObjectList.last verb object objects).denote n).triples ++
          (next.denote ((PredicateObjectList.last verb object objects).denote n).next).triples
        next := (next.denote
          ((PredicateObjectList.last verb object objects).denote n).next).next } := rfl

/-! ## Values and labels

Whatever happens to the pairs, values and labels are those of the denotation. -/

mutual

theorem Object.effect_value : ∀ (o : Object q) (height : Nat) (b : PairBook q),
    (o.effect height b).1 = (o.denote b.label).value ∧
      (o.effect height b).2.label = (o.denote b.label).next
  | .term _, _, _ => ⟨rfl, rfl⟩
  | .anon, _, _ => ⟨rfl, rfl⟩
  | .collection members, height, b => by
      obtain ⟨hvalue, hlabel⟩ := members.effect_value height b
      simp only [Object.effect, Object.denote, PairBook.closeCollection]
      rw [hvalue, hlabel]
      exact ⟨rfl, rfl⟩
  | .blankNodePropertyList list, height, b => by
      have hlabel := list.effect_label height b
      simp only [Object.effect, Object.denote, PairBook.close]
      rw [hlabel]
      exact ⟨rfl, rfl⟩

theorem Objects.effect_value : ∀ (os : Objects q) (height : Nat) (b : PairBook q),
    (os.effect height b).1 = (os.denote b.label).value ∧
      (os.effect height b).2.label = (os.denote b.label).next
  | .nil, _, _ => ⟨rfl, rfl⟩
  | .cons object objects, height, b => by
      obtain ⟨hvalue₁, hlabel₁⟩ := object.effect_value height b
      obtain ⟨hvalue₂, hlabel₂⟩ := objects.effect_value height (object.effect height b).2
      simp only [Objects.effect, Objects.denote]
      rw [hvalue₁, hvalue₂, hlabel₂, hlabel₁]
      exact ⟨rfl, rfl⟩

theorem PredicateObjectList.effect_label : ∀ (list : PredicateObjectList q) (height : Nat)
    (b : PairBook q), (list.effect height b).label = (list.denote b.label).next
  | .last verb object objects, height, b => by
      have hlabel₁ := (object.effect_value (height + 1) (b.verb height)).2
      have hlabel₂ := (objects.effect_value (height + 1)
        (object.effect (height + 1) (b.verb height)).2).2
      simp only [PredicateObjectList.effect, PredicateObjectList.denote, PairBook.verbObjects,
        PairBook.add]
      rw [hlabel₂, hlabel₁, PairBook.verb_label]
  | .more verb object objects next, height, b => by
      have hlabel₁ := (object.effect_value (height + 1) (b.verb height)).2
      have hlabel₂ := (objects.effect_value (height + 1)
        (object.effect (height + 1) (b.verb height)).2).2
      simp only [PredicateObjectList.effect, PredicateObjectList.denote]
      rw [next.effect_label]
      simp only [PairBook.verbObjects, PairBook.add]
      rw [hlabel₂, hlabel₁, PairBook.verb_label]

end

/-! ## The remembered stack size

While the objects of a verb are read, the remembered size is the height of that
verb until the first property list, and at least one more afterwards. -/

mutual

theorem Object.effect_oneStep : ∀ (o : Object q) (height : Nat) (b : PairBook q),
    o.propertyLists = 0 ∧ (o.effect height b).2.oneStepPreSize = b.oneStepPreSize ∨
      height ≤ (o.effect height b).2.oneStepPreSize
  | .term _, _, _ => .inl ⟨rfl, rfl⟩
  | .anon, _, _ => .inl ⟨rfl, rfl⟩
  | .collection members, height, b => members.effect_oneStep height b
  | .blankNodePropertyList list, height, b => .inr (list.effect_oneStep height b)

theorem Objects.effect_oneStep : ∀ (os : Objects q) (height : Nat) (b : PairBook q),
    os.propertyLists = 0 ∧ (os.effect height b).2.oneStepPreSize = b.oneStepPreSize ∨
      height ≤ (os.effect height b).2.oneStepPreSize
  | .nil, _, _ => .inl ⟨rfl, rfl⟩
  | .cons object objects, height, b => by
      have h₁ := object.effect_oneStep height b
      have h₂ := objects.effect_oneStep height (object.effect height b).2
      unfold Objects.propertyLists Objects.effect
      simp only
      omega

theorem PredicateObjectList.effect_oneStep : ∀ (list : PredicateObjectList q) (height : Nat)
    (b : PairBook q), height ≤ (list.effect height b).oneStepPreSize
  | .last verb object objects, height, b => by
      have h₁ := object.effect_oneStep (height + 1) (b.verb height)
      have h₂ := objects.effect_oneStep (height + 1)
        (object.effect (height + 1) (b.verb height)).2
      rw [PairBook.verb_oneStepPreSize] at h₁
      show height ≤ (objects.effect (height + 1)
        (object.effect (height + 1) (b.verb height)).2).2.oneStepPreSize
      omega
  | .more _ _ _ next, height, b => next.effect_oneStep height _

end

/-! ## Separated syntax is transparent

Without two property lists under one verb, every list that is set aside comes
back where it belongs: the book only gains the triples of the denotation. -/

/-- The objects of a verb: the verb sets the pairs aside or keeps them, and the
pairs of the verb are added to what it left. -/
theorem PairBook.verbObjects_separated (verb : Element q) (object : Object q)
    (objects : Objects q) (height : Nat) (b : PairBook q)
    (hobject : ∀ b : PairBook q,
      (height + 1 = b.oneStepPreSize + 1 ∧ object.propertyLists ≤ 1 ∨
        object.propertyLists = 0) →
      ∃ size, (object.effect (height + 1) b).2 =
          { b.tell (object.denote b.label) with oneStepPreSize := size } ∧
        (object.propertyLists = 0 → size = b.oneStepPreSize))
    (hobjects : ∀ b : PairBook q,
      (height + 1 = b.oneStepPreSize + 1 ∧ objects.propertyLists ≤ 1 ∨
        objects.propertyLists = 0) →
      ∃ size, (objects.effect (height + 1) b).2 =
          { b.tell (objects.denote b.label) with oneStepPreSize := size } ∧
        (objects.propertyLists = 0 → size = b.oneStepPreSize))
    (hcount : object.propertyLists + objects.propertyLists ≤ 1) :
    ∃ size, (PredicateObjectList.last verb object objects).effect height b =
      { (b.verb height).tell ((PredicateObjectList.last verb object objects).denote b.label) with
        pairs := (b.verb height).pairs ++
          ((PredicateObjectList.last verb object objects).denote b.label).value
        oneStepPreSize := size } := by
  have hheight : (b.verb height).oneStepPreSize = height := PairBook.verb_oneStepPreSize b height
  obtain ⟨size₁, heffect₁, hsize₁⟩ := hobject (b.verb height) (by omega)
  have hsecond : height + 1 = size₁ + 1 ∧ objects.propertyLists ≤ 1 ∨
      objects.propertyLists = 0 := by
    by_cases hnone : object.propertyLists = 0
    · have hkept : size₁ = (b.verb height).oneStepPreSize := hsize₁ hnone
      omega
    · omega
  obtain ⟨size₂, heffect₂, -⟩ := hobjects (object.effect (height + 1) (b.verb height)).2
    (by rw [heffect₁]; exact hsecond)
  have hvalue₁ := (object.effect_value (height + 1) (b.verb height)).1
  have hvalue₂ := (objects.effect_value (height + 1)
    (object.effect (height + 1) (b.verb height)).2).1
  refine ⟨size₂, ?_⟩
  unfold PredicateObjectList.effect PredicateObjectList.denote PairBook.verbObjects
  simp only [hvalue₁, hvalue₂, heffect₂]
  simp only [heffect₁, PairBook.add, PairBook.tell, PairBook.verb_label, List.append_assoc]

mutual

theorem Object.effect_separated : ∀ (o : Object q) (height : Nat) (b : PairBook q),
    o.separated = true →
    (height = b.oneStepPreSize + 1 ∧ o.propertyLists ≤ 1 ∨ o.propertyLists = 0) →
    ∃ size, (o.effect height b).2 =
        { b.tell (o.denote b.label) with oneStepPreSize := size } ∧
      (o.propertyLists = 0 → size = b.oneStepPreSize)
  | .term _, _, b, _, _ => ⟨_, by simp [Object.effect, Object.denote, PairBook.tell], fun _ => rfl⟩
  | .anon, _, b, _, _ =>
      ⟨_, by simp [Object.effect, Object.denote, PairBook.tell, PairBook.fresh], fun _ => rfl⟩
  | .collection members, height, b, hsep, hcount => by
      obtain ⟨size, heffect, hsize⟩ := members.effect_separated height b hsep hcount
      obtain ⟨hvalue, -⟩ := members.effect_value height b
      refine ⟨size, ?_, hsize⟩
      simp only [Object.effect, Object.denote, hvalue, heffect, PairBook.closeCollection,
        PairBook.tell, List.append_assoc]
  | .blankNodePropertyList list, height, b, hsep, hcount => by
      have hpush : height = b.oneStepPreSize + 1 := by
        simp only [Object.propertyLists] at hcount
        omega
      obtain ⟨size, heffect⟩ := list.effect_separated height b hsep
      rw [PairBook.verb_push hpush] at heffect
      refine ⟨size, ?_, by simp [Object.propertyLists]⟩
      simp only [Object.effect, Object.denote, heffect, PairBook.close, PairBook.tell]
      simp

theorem Objects.effect_separated : ∀ (os : Objects q) (height : Nat) (b : PairBook q),
    os.separated = true →
    (height = b.oneStepPreSize + 1 ∧ os.propertyLists ≤ 1 ∨ os.propertyLists = 0) →
    ∃ size, (os.effect height b).2 =
        { b.tell (os.denote b.label) with oneStepPreSize := size } ∧
      (os.propertyLists = 0 → size = b.oneStepPreSize)
  | .nil, _, b, _, _ => ⟨_, by simp [Objects.effect, Objects.denote, PairBook.tell], fun _ => rfl⟩
  | .cons object objects, height, b, hsep, hcount => by
      simp only [Objects.separated, Bool.and_eq_true] at hsep
      simp only [Objects.propertyLists] at hcount ⊢
      obtain ⟨size₁, heffect₁, hsize₁⟩ := object.effect_separated height b hsep.1 (by omega)
      obtain ⟨size₂, heffect₂, hsize₂⟩ := objects.effect_separated height
        (object.effect height b).2 hsep.2 (by rw [heffect₁]; simp only; omega)
      refine ⟨size₂, ?_, ?_⟩
      · simp only [Objects.effect, Objects.denote, heffect₂]
        simp only [heffect₁, PairBook.tell, List.append_assoc]
      · intro hnone
        rw [hsize₂ (by omega), heffect₁]
        exact hsize₁ (by omega)

theorem PredicateObjectList.effect_separated : ∀ (list : PredicateObjectList q) (height : Nat)
    (b : PairBook q), list.separated = true →
    ∃ size, list.effect height b =
      { (b.verb height).tell (list.denote b.label) with
        pairs := (b.verb height).pairs ++ (list.denote b.label).value
        oneStepPreSize := size }
  | .last verb object objects, height, b, hsep => by
      simp only [PredicateObjectList.separated, Bool.and_eq_true, decide_eq_true_eq] at hsep
      obtain ⟨hcount, hobject, hobjects⟩ := hsep
      exact PairBook.verbObjects_separated verb object objects height b
        (fun b => object.effect_separated (height + 1) b hobject)
        (fun b => objects.effect_separated (height + 1) b hobjects) hcount
  | .more verb object objects next, height, b, hsep => by
      simp only [PredicateObjectList.separated, Bool.and_eq_true, decide_eq_true_eq] at hsep
      obtain ⟨⟨hcount, hobject, hobjects⟩, hnext⟩ := hsep
      obtain ⟨size₁, heffect₁⟩ := PairBook.verbObjects_separated verb object objects height b
        (fun b => object.effect_separated (height + 1) b hobject)
        (fun b => objects.effect_separated (height + 1) b hobjects) hcount
      have hsize₁ := (PredicateObjectList.last verb object objects).effect_oneStep height b
      rw [heffect₁] at hsize₁
      have hlabel := (PredicateObjectList.last verb object objects).effect_label height b
      rw [PredicateObjectList.more_effect, PredicateObjectList.more_denote]
      generalize (PredicateObjectList.last verb object objects).effect height b = b₁ at *
      obtain ⟨size₂, heffect₂⟩ := next.effect_separated height b₁ hnext
      have hkeep : ¬ height = b₁.oneStepPreSize + 1 := by
        have hle : height ≤ size₁ := hsize₁
        rw [heffect₁]
        omega
      rw [PairBook.verb_keep hkeep] at heffect₂
      refine ⟨size₂, ?_⟩
      rw [heffect₂]
      simp only [heffect₁, PairBook.tell, List.append_assoc]

end

/-! ## Leading syntax on an idle book

While no pair waits for its subject, it does not matter which list comes back:
all of them are empty. -/

/-- The triples are inserted, the pairs are the given ones, and nothing waits
behind them. -/
structure PairBook.Settles (b b' : PairBook q) (triples : List (Triple q))
    (pairs : List (Element q × Element q)) : Prop where
  inserted : b'.inserted = b.inserted ++ triples
  pairs : b'.pairs = pairs
  stack : ∀ pairs ∈ b'.pairsStack, pairs = []
  depth : b'.pairsStack.length ≤ b.pairsStack.length

theorem PairBook.Settles.idle {b b' : PairBook q} {triples : List (Triple q)}
    (h : b.Settles b' triples []) : b'.Idle :=
  ⟨h.pairs, h.stack⟩

/-- Closing a property list whose verb found an idle book. -/
theorem PairBook.Settles.close {b b' : PairBook q} {height : Nat} {triples : List (Triple q)}
    {pairs : List (Element q × Element q)} (h : (b.verb height).Settles b' triples pairs) :
    b.Settles b'.close (triples ++ pairs.map (tripleOf (unlabeledNode q b'.label))) [] where
  inserted := by
    unfold PairBook.close
    rw [h.pairs, h.inserted, verb_inserted]
    exact List.append_assoc _ _ _
  pairs := by
    unfold PairBook.close
    cases hstack : b'.pairsStack with
    | nil => simp
    | cons top rest => simpa using h.stack top (by simp [hstack])
  stack := by
    intro pairs hmem
    exact h.stack pairs (List.mem_of_mem_tail hmem)
  depth := by
    have hverb : (b.verb height).pairsStack.length ≤ b.pairsStack.length + 1 := by
      unfold PairBook.verb
      split <;> simp
    have hdepth := h.depth
    unfold PairBook.close
    simp only [List.length_tail]
    omega

/-- The objects of the first verb of a scope. -/
theorem PairBook.verbObjects_leading (verb : Element q) (object : Object q)
    (objects : Objects q) (height : Nat) (b : PairBook q)
    (hobject : ∀ b : PairBook q, b.Idle →
      b.Settles (object.effect (height + 1) b).2 (object.denote b.label).triples [])
    (hobjects : ∀ b : PairBook q, b.Idle →
      b.Settles (objects.effect (height + 1) b).2 (objects.denote b.label).triples [])
    (hidle : b.Idle) :
    (b.verb height).Settles ((PredicateObjectList.last verb object objects).effect height b)
      ((PredicateObjectList.last verb object objects).denote b.label).triples
      ((PredicateObjectList.last verb object objects).denote b.label).value := by
  have h₁ := hobject (b.verb height) (hidle.verb height)
  have h₂ := hobjects (object.effect (height + 1) (b.verb height)).2 h₁.idle
  obtain ⟨hvalue₁, hlabel₁⟩ := object.effect_value (height + 1) (b.verb height)
  have hvalue₂ := (objects.effect_value (height + 1)
    (object.effect (height + 1) (b.verb height)).2).1
  rw [PairBook.verb_label] at h₁ hlabel₁ hvalue₁
  rw [hlabel₁] at h₂ hvalue₂
  unfold PredicateObjectList.effect PredicateObjectList.denote PairBook.verbObjects
  refine ⟨?_, ?_, h₂.stack, h₂.depth.trans h₁.depth⟩
  · simp only [PairBook.add, h₂.inserted, h₁.inserted, List.append_assoc]
  · simp only [PairBook.add, h₂.pairs, hvalue₁, hvalue₂, List.nil_append]

mutual

theorem Object.effect_leading : ∀ (o : Object q) (height : Nat) (b : PairBook q),
    o.leading = true → b.Idle →
    b.Settles (o.effect height b).2 (o.denote b.label).triples []
  | .term _, _, _, _, hidle => ⟨(List.append_nil _).symm, hidle.1, hidle.2, le_rfl⟩
  | .anon, _, _, _, hidle => ⟨(List.append_nil _).symm, hidle.1, hidle.2, le_rfl⟩
  | .collection members, height, b, hlead, hidle => by
      have h := members.effect_leading height b hlead hidle
      obtain ⟨hvalue, hlabel⟩ := members.effect_value height b
      refine ⟨?_, h.pairs, h.stack, h.depth⟩
      simp only [Object.effect, Object.denote, PairBook.closeCollection, h.inserted, hvalue,
        hlabel, List.append_assoc]
  | .blankNodePropertyList list, height, b, hlead, hidle => by
      have h := (list.effect_leading height b hlead hidle).close
      rw [list.effect_label] at h
      exact h

theorem Objects.effect_leading : ∀ (os : Objects q) (height : Nat) (b : PairBook q),
    os.leading = true → b.Idle →
    b.Settles (os.effect height b).2 (os.denote b.label).triples []
  | .nil, _, _, _, hidle => ⟨(List.append_nil _).symm, hidle.1, hidle.2, le_rfl⟩
  | .cons object objects, height, b, hlead, hidle => by
      simp only [Objects.leading, Bool.and_eq_true] at hlead
      have h₁ := object.effect_leading height b hlead.1 hidle
      have h₂ := objects.effect_leading height (object.effect height b).2 hlead.2 h₁.idle
      rw [(object.effect_value height b).2] at h₂
      refine ⟨?_, h₂.pairs, h₂.stack, h₂.depth.trans h₁.depth⟩
      rw [Objects.denote, ← List.append_assoc, ← h₁.inserted]
      exact h₂.inserted

theorem PredicateObjectList.effect_leading : ∀ (list : PredicateObjectList q) (height : Nat)
    (b : PairBook q), list.leading = true → b.Idle →
    (b.verb height).Settles (list.effect height b) (list.denote b.label).triples
      (list.denote b.label).value
  | .last verb object objects, height, b, hlead, hidle => by
      simp only [PredicateObjectList.leading, Bool.and_eq_true] at hlead
      exact PairBook.verbObjects_leading verb object objects height b
        (fun b => object.effect_leading (height + 1) b hlead.1)
        (fun b => objects.effect_leading (height + 1) b hlead.2) hidle
  | .more verb object objects next, height, b, hlead, hidle => by
      simp only [PredicateObjectList.leading, Bool.and_eq_true] at hlead
      obtain ⟨⟨hobject, hobjects⟩, hnext⟩ := hlead
      have h₁ := PairBook.verbObjects_leading verb object objects height b
        (fun b => object.effect_leading (height + 1) b hobject)
        (fun b => objects.effect_leading (height + 1) b hobjects) hidle
      have hsize := (PredicateObjectList.last verb object objects).effect_oneStep height b
      rw [PredicateObjectList.more_effect, PredicateObjectList.more_denote,
        ← (PredicateObjectList.last verb object objects).effect_label height b]
      generalize (PredicateObjectList.last verb object objects).effect height b = b₁ at *
      obtain ⟨size, heffect⟩ := next.effect_separated height b₁ hnext
      rw [PairBook.verb_keep (by omega)] at heffect
      rw [heffect]
      refine ⟨?_, ?_, h₁.stack, h₁.depth⟩
      · simp only [PairBook.tell, h₁.inserted, List.append_assoc]
      · simp only [h₁.pairs]

end

/-! ## Well-nested statements -/

theorem Subject.effect_value (subject : Subject q) (b : PairBook q) :
    (subject.effect b).1 = (subject.denote b.label).value ∧
      (subject.effect b).2.label = (subject.denote b.label).next := by
  cases subject with
  | term t => exact ⟨rfl, rfl⟩
  | anon => exact ⟨rfl, rfl⟩
  | collection members => exact (Object.collection members).effect_value 0 b

theorem Subject.effect_leading (subject : Subject q) (b : PairBook q)
    (hlead : subject.leading = true) (hidle : b.Idle) :
    b.Settles (subject.effect b).2 (subject.denote b.label).triples [] := by
  cases subject with
  | term t => exact (Object.term t).effect_leading 0 b rfl hidle
  | anon => exact Object.anon.effect_leading 0 b rfl hidle
  | collection members => exact (Object.collection members).effect_leading 0 b hlead hidle

/-- A book before a statement: nothing waits, and no verb has been seen. -/
structure PairBook.Fresh (b : PairBook q) : Prop where
  pairs : b.pairs = []
  pairsStack : b.pairsStack = []

theorem PairBook.Fresh.idle {b : PairBook q} (h : b.Fresh) : b.Idle :=
  ⟨h.pairs, by simp [h.pairsStack]⟩

/-- A verb of the statement itself never sets the pairs aside. -/
theorem PairBook.verb_zero (b : PairBook q) : b.verb 0 = { b with oneStepPreSize := 0 } :=
  PairBook.verb_keep (Nat.succ_ne_zero _).symm

/-- The effect of a well-nested statement is its denotation. -/
theorem Statement.effect_wellNested (st : Statement q) (b : PairBook q) (hfresh : b.Fresh)
    (hnested : st.wellNested = true) :
    st.effect b = b.inserted ++ st.denote b.label := by
  cases st with
  | tripleSeq1 subject list =>
      simp only [Statement.wellNested, Bool.and_eq_true] at hnested
      have h₁ := subject.effect_leading b hnested.1 hfresh.idle
      have h₂ := list.effect_leading 0 (subject.effect b).2 hnested.2 h₁.idle
      obtain ⟨hvalue, hlabel⟩ := subject.effect_value b
      rw [hlabel] at h₂
      unfold Statement.effect Statement.denote
      simp only [h₂.inserted, h₂.pairs, PairBook.verb_inserted, h₁.inserted, hvalue,
        List.append_assoc]
  | tripleSeq2 list rest =>
      simp only [Statement.wellNested, Bool.and_eq_true] at hnested
      have hlist := list.effect_leading 0 b hnested.1 hfresh.idle
      have hdepth : (list.effect 0 b).pairsStack = [] := by
        have hle := hlist.depth
        rw [PairBook.verb_zero, hfresh.pairsStack] at hle
        exact List.length_eq_zero_iff.mp (Nat.le_zero.mp hle)
      have hfirst : ((Object.blankNodePropertyList list).effect 0 b).2.firstBNPL =
          ((Object.blankNodePropertyList list).denote b.label).value := by
        unfold Object.effect Object.denote PairBook.close
        simp only [hdepth, if_true, list.effect_label]
      have h₁ := (Object.blankNodePropertyList list).effect_leading 0 b hnested.1 hfresh.idle
      have hlabel := ((Object.blankNodePropertyList list).effect_value 0 b).2
      unfold Statement.effect Statement.denote
      simp only
      generalize ((Object.blankNodePropertyList list).effect 0 b).2 = b₁ at *
      cases rest with
      | none => simp [h₁.inserted, h₁.pairs]
      | some rest =>
          obtain ⟨size, heffect⟩ := rest.effect_separated 0 b₁ hnested.2
          rw [PairBook.verb_zero] at heffect
          simp only [Option.elim, heffect, PairBook.tell, h₁.pairs, h₁.inserted, hfirst, hlabel,
            List.nil_append, List.append_assoc]

/-! ## One statement after another -/

/-- The next label after a statement. -/
def Statement.next : Statement q → Nat → Nat
  | .tripleSeq1 subject list, n => (list.denote (subject.denote n).next).next
  | .tripleSeq2 list rest, n =>
      let label := ((Object.blankNodePropertyList list).denote n).next
      rest.elim label fun rest => (rest.denote label).next

theorem Statement.after_label (st : Statement q) (b : PairBook q) :
    (st.after b).label = st.next b.label := by
  cases st with
  | tripleSeq1 subject list =>
      have hsubject := (subject.effect_value b).2
      have hlist := list.effect_label 0 (subject.effect b).2
      rw [hsubject] at hlist
      exact hlist
  | tripleSeq2 list rest =>
      have hlist := ((Object.blankNodePropertyList list).effect_value 0 b).2
      cases rest with
      | none => exact hlist
      | some rest =>
          have hrest := rest.effect_label 0 ((Object.blankNodePropertyList list).effect 0 b).2
          rw [hlist] at hrest
          exact hrest

/-- A well-nested statement leaves nothing behind for the next one. -/
theorem Statement.after_fresh (st : Statement q) {b : PairBook q} (hfresh : b.Fresh)
    (hnested : st.wellNested = true) : (st.after b).Fresh := by
  refine ⟨by cases st <;> rfl, ?_⟩
  have hnone : ∀ {n : Nat}, n ≤ b.pairsStack.length → n = 0 := by
    intro n hle
    rw [hfresh.pairsStack] at hle
    exact Nat.le_zero.mp hle
  cases st with
  | tripleSeq1 subject list =>
      simp only [Statement.wellNested, Bool.and_eq_true] at hnested
      have h₁ := subject.effect_leading b hnested.1 hfresh.idle
      have h₂ := list.effect_leading 0 (subject.effect b).2 hnested.2 h₁.idle
      have hdepth := h₂.depth
      rw [PairBook.verb_zero] at hdepth
      exact List.length_eq_zero_iff.mp (hnone (hdepth.trans h₁.depth))
  | tripleSeq2 list rest =>
      simp only [Statement.wellNested, Bool.and_eq_true] at hnested
      have h₁ := (Object.blankNodePropertyList list).effect_leading 0 b hnested.1 hfresh.idle
      have hempty := List.length_eq_zero_iff.mp (hnone h₁.depth)
      cases rest with
      | none => exact hempty
      | some rest =>
          obtain ⟨size, heffect⟩ := rest.effect_separated 0
            ((Object.blankNodePropertyList list).effect 0 b).2 hnested.2
          have hstack := congrArg PairBook.pairsStack heffect
          rw [PairBook.verb_zero] at hstack
          exact hstack.trans hempty

end RdfParser.Turtle
