/-
  Foundation/UnorderedSet.lean --- unordered containers.

  An unordered container sorts its elements into buckets by their hashes, and compares
  a new element with those in its bucket only.  Whether two equal elements can get in
  depends on where equal elements are sent.
-/
import Mathlib.Data.List.Pairwise

set_option autoImplicit false

namespace RdfParser.Foundation.UnorderedSet

variable {α : Type} [BEq α]

/-- `insert` of a container in which `bucket a` is the place of `a`: the element is added
unless its bucket has an equal one. -/
def insert (bucket : α → Nat) (set : List α) (a : α) : List α :=
  if set.any fun b => bucket b == bucket a && b == a then set else set ++ [a]

/-- The container after a series of insertions. -/
def insertAll (bucket : α → Nat) (set elements : List α) : List α :=
  elements.foldl (insert bucket) set

/-- The container holds no two equal elements. -/
def Distinct (set : List α) : Prop := set.Pairwise fun a b => (a == b) = false

variable {bucket : α → Nat} {set elements : List α} {a b : α}

/-- Nothing is taken out again. -/
theorem insert_keeps (hb : b ∈ set) : b ∈ insert bucket set a := by
  unfold insert
  split
  · exact hb
  · exact List.mem_append_left [a] hb

theorem insertAll_keeps (hb : b ∈ set) : b ∈ insertAll bucket set elements := by
  induction elements generalizing set with
  | nil => exact hb
  | cons a elements ih => exact ih (insert_keeps hb)

/-- Afterwards the bucket of the element has it, or an equal one. -/
theorem insert_represents [EquivBEq α] (bucket : α → Nat) (set : List α) (a : α) :
    ∃ b ∈ insert bucket set a, bucket b = bucket a ∧ (b == a) = true := by
  unfold insert
  split
  · rename_i hany
    obtain ⟨b, hb, hsame⟩ := List.any_eq_true.mp hany
    rw [Bool.and_eq_true, beq_iff_eq] at hsame
    exact ⟨b, hb, hsame⟩
  · exact ⟨a, List.mem_append_right set (List.mem_singleton_self a), rfl, BEq.rfl⟩

theorem insertAll_represents [EquivBEq α] (bucket : α → Nat) (set : List α)
    (ha : a ∈ elements) :
    ∃ b ∈ insertAll bucket set elements, bucket b = bucket a ∧ (b == a) = true := by
  induction elements generalizing set with
  | nil => exact absurd ha List.not_mem_nil
  | cons c elements ih =>
      rcases List.mem_cons.mp ha with rfl | ha
      · obtain ⟨b, hb, hsame⟩ := insert_represents bucket set a
        have hkept : b ∈ insertAll bucket (insert bucket set a) elements := insertAll_keeps hb
        exact ⟨b, hkept, hsame⟩
      · exact ih (insert bucket set c) ha

/-- In a container without two equal elements, equal elements are one. -/
theorem Distinct.eq [EquivBEq α] (h : Distinct set) (ha : a ∈ set) (hb : b ∈ set)
    (hab : (a == b) = true) : a = b := by
  by_contra hne
  have hsymm : Std.Symm fun a b : α => (a == b) = false :=
    ⟨fun _ _ hfalse => BEq.comm.trans hfalse⟩
  rw [h.forall ha hb hne] at hab
  exact Bool.false_ne_true hab

/-- An insertion keeps the elements apart, where equal ones share a bucket. -/
theorem Distinct.insert (h : Distinct set)
    (hbucket : ∀ b ∈ set, (b == a) = true → bucket b = bucket a) :
    Distinct (insert bucket set a) := by
  unfold UnorderedSet.insert
  split
  · exact h
  · rename_i hnone
    refine List.pairwise_append.mpr ⟨h, List.pairwise_singleton _ a, ?_⟩
    intro b hb c hc
    obtain rfl := List.mem_singleton.mp hc
    by_contra hequal
    rw [Bool.not_eq_false] at hequal
    have hfound : (bucket b == bucket c && b == c) = true := by
      rw [hbucket b hb hequal, hequal, beq_self_eq_true, Bool.and_true]
    exact hnone (List.any_eq_true.mpr ⟨b, hb, hfound⟩)

theorem insert_mem (hb : b ∈ insert bucket set a) : b ∈ set ∨ b = a := by
  unfold insert at hb
  split at hb
  · exact .inl hb
  · exact (List.mem_append.mp hb).imp id List.mem_singleton.mp

theorem Distinct.insertAll (h : Distinct set)
    (hbucket : ∀ a b, a ∈ set ++ elements → b ∈ elements → (a == b) = true →
      bucket a = bucket b) : Distinct (insertAll bucket set elements) := by
  induction elements generalizing set with
  | nil => exact h
  | cons c elements ih =>
      refine ih (h.insert fun b hb => hbucket b c (List.mem_append_left _ hb)
        List.mem_cons_self) ?_
      intro a b ha hb
      refine hbucket a b ?_ (List.mem_cons_of_mem c hb)
      rcases List.mem_append.mp ha with ha | ha
      · rcases insert_mem ha with ha | rfl
        · exact List.mem_append_left _ ha
        · exact List.mem_append_right _ List.mem_cons_self
      · exact List.mem_append_right _ (List.mem_cons_of_mem c ha)

/-- A container comes to hold two equal elements exactly when equal elements go into
different buckets. -/
theorem insertAll_distinct_iff [EquivBEq α] (bucket : α → Nat) (elements : List α) :
    Distinct (insertAll bucket [] elements) ↔
      ∀ a ∈ elements, ∀ b ∈ elements, (a == b) = true → bucket a = bucket b := by
  constructor
  · intro h a ha b hb hab
    obtain ⟨a', ha', hbucket, hequal⟩ := insertAll_represents bucket [] ha
    obtain ⟨b', hb', hbucket', hequal'⟩ := insertAll_represents bucket [] hb
    have hsame : (a' == b') = true :=
      BEq.trans (BEq.trans hequal hab) (BEq.symm hequal')
    rw [← hbucket, ← hbucket', h.eq ha' hb' hsame]
  · intro h
    exact Distinct.insertAll List.Pairwise.nil fun a b ha hb => h a ha b hb

end RdfParser.Foundation.UnorderedSet
