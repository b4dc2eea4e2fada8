/-
  Rdf/Hash.lean --- equality and hashing of terms, variables and triples.

  Sources: `Dice/RDF/Term.hpp`, `Dice/RDF/Triple.hpp`, `Dice/RDF/internal/AbstractTriple.hpp`,
  `Dice/SPARQL/Variable.hpp`, `Dice/SPARQL/TriplePattern.hpp`.

  Unordered containers need equal elements to have equal hashes.  Terms and triples
  do: they compare and hash their identifiers.  A variable compares its name only, but
  hashes the flag `is_anonym_` as well.
-/
import RdfParser.Foundation.UnorderedSet
import RdfParser.Rdf.Term

set_option autoImplicit false

namespace RdfParser.Rdf

open RdfParser.Foundation

/-! ## Equality -/

/-- `operator==` of `AbstractTriple` compares the three entries. -/
local instance {E : Type} [BEq E] : BEq (AbstractTriple E) where
  beq triple1 triple2 :=
    triple1.subject == triple2.subject && triple1.predicate == triple2.predicate &&
      triple1.object == triple2.object

/-- `TriplePattern`. -/
abbrev TriplePattern : Type := AbstractTriple VarOrTerm

theorem Variable.beq_iff (left right : Variable) :
    (left == right) = true ↔ left.name = right.name := by
  show (left.name == right.name) = true ↔ _
  exact beq_iff_eq

theorem AbstractTriple.beq_iff {E : Type} [BEq E] (left right : AbstractTriple E) :
    (left == right) = true ↔ (left.subject == right.subject) = true ∧
      (left.predicate == right.predicate) = true ∧ (left.object == right.object) = true := by
  show (left.subject == right.subject && left.predicate == right.predicate &&
    left.object == right.object) = true ↔ _
  rw [Bool.and_eq_true, Bool.and_eq_true, and_assoc]

/-- What variables and terms are compared by. -/
def VarOrTerm.text : VarOrTerm → Bytes ⊕ Bytes
  | .variable v => .inl v.name
  | .term t => .inr t.identifier

theorem VarOrTerm.beq_iff (left right : VarOrTerm) :
    (left == right) = true ↔ left.text = right.text := by
  match left, right with
  | .variable left, .variable right =>
      rw [text, text, Sum.inl.injEq]
      exact Variable.beq_iff left right
  | .term left, .term right =>
      rw [text, text, Sum.inr.injEq]
      exact Term.beq_iff left right
  | .variable _, .term _ => exact iff_of_false Bool.false_ne_true Sum.inl_ne_inr
  | .term _, .variable _ => exact iff_of_false Bool.false_ne_true Sum.inr_ne_inl

/-- A comparison of what the two carry is an equivalence. -/
theorem equivBEq_of_text {α κ : Type} [BEq α] (text : α → κ)
    (h : ∀ left right : α, (left == right) = true ↔ text left = text right) : EquivBEq α where
  symm := by
    intro left right heq
    rw [h] at heq ⊢
    exact heq.symm
  trans := by
    intro left middle right heq heq'
    rw [h] at heq heq' ⊢
    exact heq.trans heq'
  rfl := by
    intro left
    rw [h]

instance : EquivBEq Term := equivBEq_of_text Term.identifier Term.beq_iff

instance : EquivBEq Variable := equivBEq_of_text Variable.name Variable.beq_iff

instance : EquivBEq VarOrTerm := equivBEq_of_text VarOrTerm.text VarOrTerm.beq_iff

local instance {E : Type} [BEq E] [EquivBEq E] : EquivBEq (AbstractTriple E) where
  symm := by
    intro left right h
    rw [AbstractTriple.beq_iff] at h ⊢
    exact ⟨BEq.symm h.1, BEq.symm h.2.1, BEq.symm h.2.2⟩
  trans := by
    intro left middle right h h'
    rw [AbstractTriple.beq_iff] at h h' ⊢
    exact ⟨BEq.trans h.1 h'.1, BEq.trans h.2.1 h'.2.1, BEq.trans h.2.2 h'.2.2⟩
  rfl := by
    intro triple
    rw [AbstractTriple.beq_iff]
    exact ⟨BEq.rfl, BEq.rfl, BEq.rfl⟩

/-! ## Hashes -/

/-- The hash functions of the libraries.  Those of tuples, arrays and variants are made
from the hashes of what they hold. -/
structure Hashing where
  /-- `dice_hash(std::string)` -/
  string : Bytes → UInt64
  /-- `dice_hash(bool)` -/
  bool : Bool → UInt64
  /-- `dice_hash(std::tuple)` -/
  tuple : UInt64 → UInt64 → UInt64
  /-- `dice_hash(std::array)` -/
  array : UInt64 → UInt64 → UInt64 → UInt64
  /-- `std::hash<std::variant>`, by the index of the alternative -/
  variant : Nat → UInt64 → UInt64

variable (H : Hashing)

/-- `Term::hash`. -/
def Term.hash (t : Term) : UInt64 := H.string t.identifier

/-- `Variable::hash`. -/
def Variable.hash (v : Variable) : UInt64 := H.tuple (H.string v.name) (H.bool v.isAnonym)

/-- The types with an overload of `dice_hash`. -/
class DiceHash (α : Type) where
  diceHash : Hashing → α → UInt64

instance : DiceHash Term where
  diceHash H v := v.hash H

instance : DiceHash Variable where
  diceHash H v := v.hash H

instance : DiceHash VarOrTerm where
  diceHash H
    | .variable v => DiceHash.diceHash H v
    | .term t => DiceHash.diceHash H t

/-- `Triple::hash` and `TriplePattern::hash`. -/
def AbstractTriple.hash {E : Type} [DiceHash E] (triple : AbstractTriple E) : UInt64 :=
  H.array (DiceHash.diceHash H triple.subject) (DiceHash.diceHash H triple.predicate)
    (DiceHash.diceHash H triple.object)

instance {E : Type} [DiceHash E] : DiceHash (AbstractTriple E) where
  diceHash H v := v.hash H

/-- The types with a `std::hash`. -/
class StdHash (α : Type) where
  stdHash : Hashing → α → UInt64

instance : StdHash Term where
  stdHash H v := v.hash H

instance : StdHash Variable where
  stdHash H v := v.hash H

instance : StdHash VarOrTerm where
  stdHash H
    | .variable v => H.variant 0 (StdHash.stdHash H v)
    | .term t => H.variant 1 (StdHash.stdHash H t)

instance {E : Type} [DiceHash E] : StdHash (AbstractTriple E) where
  stdHash H v := v.hash H

/-! ## Consistency -/

section Consistency

variable {α : Type} [BEq α] [DiceHash α] [StdHash α]

/-- If the two are equal, so are their hashes, whatever the libraries hash. -/
def HashesAgree (a b : α) : Prop :=
  (a == b) = true → ∀ H, DiceHash.diceHash H a = DiceHash.diceHash H b ∧
    StdHash.stdHash H a = StdHash.stdHash H b

/-- The place of an element in an unordered container. -/
def place (bucket : UInt64 → Nat) (a : α) : Nat := bucket (StdHash.stdHash H a)

/-- No unordered container of these elements holds two equal ones, whatever the
libraries hash and however the container makes buckets of hashes. -/
def HoldsNoEquals (elements : List α) : Prop :=
  ∀ H bucket, UnorderedSet.Distinct (UnorderedSet.insertAll (place H bucket) [] elements)

/-- Equality and hashing go together, except for elements that clash. -/
structure AgreeUnless (clash : α → α → Prop) : Prop where
  hashes : ∀ a b : α, HashesAgree a b ↔ ¬ clash a b
  containers : ∀ elements : List α,
    HoldsNoEquals elements ↔ ∀ a ∈ elements, ∀ b ∈ elements, ¬ clash a b

/-- It is enough that the hashes of others agree, and that those of two that clash differ
for some hash functions. -/
theorem agreeUnless [EquivBEq α] {clash : α → α → Prop}
    (hothers : ∀ a b : α, ¬ clash a b → HashesAgree a b)
    (hclash : ∀ a b : α, clash a b →
      (a == b) = true ∧ ∃ H, StdHash.stdHash H a ≠ StdHash.stdHash H b) :
    AgreeUnless clash := by
  constructor
  · intro a b
    constructor
    · intro h hab
      obtain ⟨hequal, H, hne⟩ := hclash a b hab
      exact hne (h hequal H).2
    · exact hothers a b
  · intro elements
    constructor
    · intro h a ha b hb hab
      obtain ⟨hequal, H, hne⟩ := hclash a b hab
      -- with a bucket for each hash, the two go into different buckets
      have hplace := (UnorderedSet.insertAll_distinct_iff _ _).mp (h H UInt64.toNat) a ha b hb
        hequal
      exact hne (UInt64.toNat_inj.mp hplace)
    · intro h H bucket
      refine (UnorderedSet.insertAll_distinct_iff _ _).mpr fun a ha b hb hab => ?_
      exact congrArg bucket (hothers a b (h a ha b hb) hab H).2

end Consistency

/-! ## Variables that clash -/

/-- Two variables of one name, of which one is anonymous. -/
def Variable.Clashes (left right : Variable) : Prop :=
  left.name = right.name ∧ left.isAnonym ≠ right.isAnonym

/-- Two entries of patterns that are such variables. -/
def VarOrTerm.Clashes : VarOrTerm → VarOrTerm → Prop
  | .variable left, .variable right => left.Clashes right
  | _, _ => False

/-- Two patterns with the same names and identifiers, and with such variables at one of
the three positions. -/
def TriplePattern.Clashes (left right : TriplePattern) : Prop :=
  (left.subject.text = right.subject.text ∧ left.predicate.text = right.predicate.text ∧
    left.object.text = right.object.text) ∧
  (left.subject.Clashes right.subject ∨ left.predicate.Clashes right.predicate ∨
    left.object.Clashes right.object)

theorem Variable.hash_congr {left right : Variable} (hname : left.name = right.name)
    (hclash : ¬ left.Clashes right) : left.hash H = right.hash H := by
  have hflag : left.isAnonym = right.isAnonym := not_not.mp fun hne => hclash ⟨hname, hne⟩
  rw [Variable.hash, Variable.hash, hname, hflag]

/-- The hashes of two entries agree. -/
theorem VarOrTerm.hash_congr {left right : VarOrTerm} (htext : left.text = right.text)
    (hclash : ¬ left.Clashes right) :
    DiceHash.diceHash H left = DiceHash.diceHash H right ∧
      StdHash.stdHash H left = StdHash.stdHash H right := by
  match left, right with
  | .variable left, .variable right =>
      have hhash := Variable.hash_congr H (Sum.inl.inj htext) hclash
      exact ⟨hhash, congrArg (H.variant 0) hhash⟩
  | .term left, .term right =>
      have hhash : left.hash H = right.hash H := congrArg H.string (Sum.inr.inj htext)
      exact ⟨hhash, congrArg (H.variant 1) hhash⟩

/-- Hash functions that see nothing but the flags of variables. -/
def flagHashing (array : UInt64 → UInt64 → UInt64 → UInt64) : Hashing where
  string _ := 0
  bool b := if b then 1 else 0
  tuple _ flag := flag
  array := array
  variant _ hash := hash

theorem Variable.flag_ne {left right : Variable} (h : left.Clashes right)
    (array : UInt64 → UInt64 → UInt64 → UInt64) :
    left.hash (flagHashing array) ≠ right.hash (flagHashing array) := by
  obtain ⟨-, hflag⟩ := h
  intro hhash
  simp only [Variable.hash, flagHashing] at hhash
  cases hleft : left.isAnonym <;> cases hright : right.isAnonym <;> simp_all

/-- Entries that clash are variables, equal ones with different hashes. -/
theorem VarOrTerm.clash_inv {left right : VarOrTerm} (h : left.Clashes right)
    (array : UInt64 → UInt64 → UInt64 → UInt64) :
    left.text = right.text ∧
      DiceHash.diceHash (flagHashing array) left ≠
        DiceHash.diceHash (flagHashing array) right ∧
      StdHash.stdHash (flagHashing array) left ≠ StdHash.stdHash (flagHashing array) right := by
  match left, right with
  | .variable left, .variable right =>
      exact ⟨congrArg Sum.inl h.1, Variable.flag_ne h array, Variable.flag_ne h array⟩

theorem AbstractTriple.beq_pattern_iff (left right : TriplePattern) :
    (left == right) = true ↔ left.subject.text = right.subject.text ∧
      left.predicate.text = right.predicate.text ∧ left.object.text = right.object.text := by
  rw [AbstractTriple.beq_iff, VarOrTerm.beq_iff, VarOrTerm.beq_iff, VarOrTerm.beq_iff]

theorem Term.hash_congr {left right : Term} (h : (left == right) = true) :
    left.hash H = right.hash H :=
  congrArg H.string ((Term.beq_iff left right).mp h)

theorem AbstractTriple.hash_congr {E : Type} [DiceHash E] {left right : AbstractTriple E}
    (hsubject : DiceHash.diceHash H left.subject = DiceHash.diceHash H right.subject)
    (hpredicate : DiceHash.diceHash H left.predicate = DiceHash.diceHash H right.predicate)
    (hobject : DiceHash.diceHash H left.object = DiceHash.diceHash H right.object) :
    left.hash H = right.hash H := by
  rw [hash, hash, hsubject, hpredicate, hobject]

/-! ## The five types -/

theorem terms_agree : AgreeUnless (fun _ _ : Term => False) := by
  refine agreeUnless (fun left right _ h H => ?_) fun _ _ h => h.elim
  exact ⟨Term.hash_congr H h, Term.hash_congr H h⟩

theorem triples_agree : AgreeUnless (fun _ _ : AbstractTriple Term => False) := by
  refine agreeUnless (fun left right _ h H => ?_) fun _ _ h => h.elim
  obtain ⟨hsubject, hpredicate, hobject⟩ := (AbstractTriple.beq_iff left right).mp h
  have hhash : left.hash H = right.hash H :=
    AbstractTriple.hash_congr H (Term.hash_congr H hsubject) (Term.hash_congr H hpredicate)
      (Term.hash_congr H hobject)
  exact ⟨hhash, hhash⟩

theorem variables_agree : AgreeUnless Variable.Clashes := by
  refine agreeUnless (fun left right hclash h H => ?_) fun left right hclash => ?_
  · have hhash := Variable.hash_congr H ((Variable.beq_iff left right).mp h) hclash
    exact ⟨hhash, hhash⟩
  · exact ⟨(Variable.beq_iff left right).mpr hclash.1, flagHashing fun hash _ _ => hash,
      Variable.flag_ne hclash _⟩

theorem varOrTerms_agree : AgreeUnless VarOrTerm.Clashes := by
  refine agreeUnless (fun left right hclash h H => ?_) fun left right hclash => ?_
  · exact VarOrTerm.hash_congr H ((VarOrTerm.beq_iff left right).mp h) hclash
  · obtain ⟨htext, -, hstd⟩ := VarOrTerm.clash_inv hclash fun hash _ _ => hash
    exact ⟨(VarOrTerm.beq_iff left right).mpr htext, _, hstd⟩

theorem triplePatterns_agree : AgreeUnless TriplePattern.Clashes := by
  refine agreeUnless (fun left right hclash h H => ?_) fun left right hclash => ?_
  · have htext := (AbstractTriple.beq_pattern_iff left right).mp h
    have hnone := not_or.mp fun hany => hclash ⟨htext, hany⟩
    obtain ⟨hpredicate, hobject⟩ := not_or.mp hnone.2
    have hhash : left.hash H = right.hash H :=
      AbstractTriple.hash_congr H (VarOrTerm.hash_congr H htext.1 hnone.1).1
        (VarOrTerm.hash_congr H htext.2.1 hpredicate).1
        (VarOrTerm.hash_congr H htext.2.2 hobject).1
    exact ⟨hhash, hhash⟩
  · obtain ⟨htext, hany⟩ := hclash
    refine ⟨(AbstractTriple.beq_pattern_iff left right).mpr htext, ?_⟩
    -- hash functions for which only the position of the clash counts
    rcases hany with hsubject | hpredicate | hobject
    · exact ⟨flagHashing fun subject _ _ => subject, (VarOrTerm.clash_inv hsubject _).2.1⟩
    · exact ⟨flagHashing fun _ predicate _ => predicate,
        (VarOrTerm.clash_inv hpredicate _).2.1⟩
    · exact ⟨flagHashing fun _ _ object => object, (VarOrTerm.clash_inv hobject _).2.1⟩

/-- The types with `==` and with hashes. -/
inductive Hashed where
  | term | triple | variable | varOrTerm | triplePattern
  deriving DecidableEq, Repr

namespace Hashed

/-- The values of such a type. -/
def Value : Hashed → Type
  | .term => Term
  | .triple => AbstractTriple Term
  | .variable => Variable
  | .varOrTerm => VarOrTerm
  | .triplePattern => TriplePattern

instance : (kind : Hashed) → BEq kind.Value
  | .term => inferInstanceAs (BEq Term)
  | .triple => inferInstanceAs (BEq (AbstractTriple Term))
  | .variable => inferInstanceAs (BEq Variable)
  | .varOrTerm => inferInstanceAs (BEq VarOrTerm)
  | .triplePattern => inferInstanceAs (BEq TriplePattern)

instance : (kind : Hashed) → DiceHash kind.Value
  | .term => inferInstanceAs (DiceHash Term)
  | .triple => inferInstanceAs (DiceHash (AbstractTriple Term))
  | .variable => inferInstanceAs (DiceHash Variable)
  | .varOrTerm => inferInstanceAs (DiceHash VarOrTerm)
  | .triplePattern => inferInstanceAs (DiceHash TriplePattern)

instance : (kind : Hashed) → StdHash kind.Value
  | .term => inferInstanceAs (StdHash Term)
  | .triple => inferInstanceAs (StdHash (AbstractTriple Term))
  | .variable => inferInstanceAs (StdHash Variable)
  | .varOrTerm => inferInstanceAs (StdHash VarOrTerm)
  | .triplePattern => inferInstanceAs (StdHash TriplePattern)

/-- The pairs of values that are hashed apart though they are equal. -/
def Clashes : (kind : Hashed) → kind.Value → kind.Value → Prop
  | .term, _, _ | .triple, _, _ => False
  | .variable, left, right => Variable.Clashes left right
  | .varOrTerm, left, right => VarOrTerm.Clashes left right
  | .triplePattern, left, right => TriplePattern.Clashes left right

theorem agreeUnless : (kind : Hashed) → AgreeUnless kind.Clashes
  | .term => terms_agree
  | .triple => triples_agree
  | .variable => variables_agree
  | .varOrTerm => varOrTerms_agree
  | .triplePattern => triplePatterns_agree

end Hashed

/-- Terms and triples are hashed consistently with their equality.  So are variables, and
what contains them, but for two variables of one name of which one is anonymous. -/
theorem hashes_agree_unless (kind : Hashed) (a b : kind.Value) (elements : List kind.Value) :
    (HashesAgree a b ↔ ¬ kind.Clashes a b) ∧
      (HoldsNoEquals elements ↔ ∀ a ∈ elements, ∀ b ∈ elements, ¬ kind.Clashes a b) :=
  ⟨kind.agreeUnless.hashes a b, kind.agreeUnless.containers elements⟩

/-- `Variable("x")`. -/
def namedVariable : Variable := { name := bytes "x" }

/-- `Variable("x", true)`. -/
def anonymousVariable : Variable := { name := bytes "x", isAnonym := true }

/-- They are equal, but can have two hashes, and then a container holds both. -/
theorem anonymousVariable_hashed_apart :
    (namedVariable == anonymousVariable) = true ∧ ¬ HashesAgree namedVariable anonymousVariable ∧
      ∃ H, namedVariable.hash H ≠ anonymousVariable.hash H ∧
        UnorderedSet.insertAll (place H UInt64.toNat) [] [namedVariable, anonymousVariable] =
          [namedVariable, anonymousVariable] := by
  have hequal : (namedVariable == anonymousVariable) = true := by decide
  have hne : ∀ hash, namedVariable.hash (flagHashing hash) ≠
      anonymousVariable.hash (flagHashing hash) :=
    Variable.flag_ne ⟨rfl, Bool.false_ne_true⟩
  refine ⟨hequal, fun h => ?_, flagHashing fun hash _ _ => hash, hne _, by decide⟩
  exact hne (fun hash _ _ => hash) (h hequal _).1

end RdfParser.Rdf
