/-
  Foundation/Renaming.lean --- lists of records up to their names.

  A group acts on records by renaming what they mention.  Two lists are isomorphic if some
  element of the group takes the one to the other, up to their order.  Records often mention
  names that a counter makes: each unit of a text uses up some numbers, and what it states
  depends on the number it starts with only through these names.  Then the order of the units
  does not matter.
-/
import Mathlib.Algebra.Group.Action.Defs
import Mathlib.Algebra.Group.End
import Mathlib.Data.List.Perm.Basic

set_option autoImplicit false

namespace RdfParser.Foundation

/-! ## Isomorphic lists -/

section Isomorphic

variable {G R : Type} [Group G] [MulAction G R] {xs ys zs : List R}

/-- Renaming takes the first records to the second, in any order. -/
def Isomorphic (G : Type) {R : Type} [Group G] [MulAction G R] (xs ys : List R) : Prop :=
  ∃ g : G, (xs.map (g • ·)).Perm ys

namespace Isomorphic

theorem map_smul (g : G) (xs : List R) : Isomorphic G xs (xs.map (g • ·)) := ⟨g, .rfl⟩

theorem trans (h : Isomorphic G xs ys) (h' : Isomorphic G ys zs) : Isomorphic G xs zs := by
  obtain ⟨g, hperm⟩ := h
  obtain ⟨g', hperm'⟩ := h'
  refine ⟨g' * g, ?_⟩
  have hmul : xs.map ((g' * g) • ·) = (xs.map (g • ·)).map (g' • ·) := by
    rw [List.map_map]
    exact List.map_congr_left fun x _ => mul_smul g' g x
  rw [hmul]
  exact (hperm.map _).trans hperm'

end Isomorphic

end Isomorphic

/-! ## Swapping two blocks of numbers -/

/-- The `a` numbers from `n` on and the `b` numbers behind them change places. -/
def swapBlocks (n a b : ℕ) : Equiv.Perm ℕ where
  toFun i := if i < n then i else if i < n + a then i + b else if i < n + a + b then i - a else i
  invFun i := if i < n then i else if i < n + b then i + a else if i < n + b + a then i - b else i
  left_inv i := by
    simp only
    split_ifs <;> omega
  right_inv i := by
    simp only
    split_ifs <;> omega

/-- The numbers from `n` on go to those from `m` on. -/
def Moves (σ : Equiv.Perm ℕ) (n m count : ℕ) : Prop := ∀ i < count, σ (n + i) = m + i

section SwapBlocks

variable {n a b i : ℕ}

theorem swapBlocks_apply (n a b i : ℕ) : swapBlocks n a b i =
    if i < n then i else if i < n + a then i + b else if i < n + a + b then i - a else i := rfl

theorem swapBlocks_front (h : i < n) : swapBlocks n a b i = i := by
  rw [swapBlocks_apply, if_pos h]

theorem swapBlocks_behind (h : n + a + b ≤ i) : swapBlocks n a b i = i := by
  rw [swapBlocks_apply, if_neg (by omega), if_neg (by omega), if_neg (by omega)]

theorem swapBlocks_first (n a b : ℕ) : Moves (swapBlocks n a b) n (n + b) a := by
  intro i hi
  rw [swapBlocks_apply, if_neg (by omega), if_pos (by omega)]
  omega

theorem swapBlocks_second (n a b : ℕ) : Moves (swapBlocks n a b) (n + a) n b := by
  intro i hi
  rw [swapBlocks_apply, if_neg (by omega), if_neg (by omega), if_pos (by omega)]
  omega

end SwapBlocks

/-! ## Units that number their names -/

/-- Units, how many numbers each of them uses up, and what it states with its numbers from a
given one on.  Moving the numbers of a unit that is fit moves what it states. -/
structure Numbered (G S R : Type) [Group G] [MulAction G R] (φ : Equiv.Perm ℕ →* G) where
  Fit : S → Prop
  size : S → ℕ
  records : S → ℕ → List R
  moved : ∀ s, Fit s → ∀ σ n m, Moves σ n m (size s) →
    (records s n).map (φ σ • ·) = records s m

namespace Numbered

variable {G S R : Type} [Group G] [MulAction G R] {φ : Equiv.Perm ℕ →* G}

/-- The records of the units, each with the numbers in front of it used up. -/
def recordsAll (U : Numbered G S R φ) : List S → ℕ → List R
  | [], _ => []
  | s :: units, n => U.records s n ++ U.recordsAll units (n + U.size s)

variable {U : Numbered G S R φ} {units units' : List S}

/-- Numbers that stay where they are keep the records. -/
theorem recordsAll_fixed {σ : Equiv.Perm ℕ} {n : ℕ} (hσ : ∀ i, n ≤ i → σ i = i)
    (hfit : ∀ s ∈ units, U.Fit s) :
    (U.recordsAll units n).map (φ σ • ·) = U.recordsAll units n := by
  induction units generalizing n with
  | nil => rfl
  | cons s units ih =>
      obtain ⟨hs, hunits⟩ := List.forall_mem_cons.mp hfit
      have hfirst := U.moved s hs σ n n fun i _ => hσ _ (Nat.le_add_right n i)
      have hbehind : ∀ i, n + U.size s ≤ i → σ i = i := fun i hi =>
        hσ i ((Nat.le_add_right n _).trans hi)
      have hrest := ih hbehind hunits
      rw [recordsAll, List.map_append, hfirst, hrest]

/-- Units in another order state the same, up to the numbers from the first one on. -/
theorem recordsAll_perm (hperm : units.Perm units') (n : ℕ) (hfit : ∀ s ∈ units, U.Fit s) :
    ∃ σ : Equiv.Perm ℕ, (∀ i < n, σ i = i) ∧
      ((U.recordsAll units n).map (φ σ • ·)).Perm (U.recordsAll units' n) := by
  induction hperm generalizing n with
  | nil => exact ⟨1, fun _ _ => rfl, .rfl⟩
  | @cons s units units' _ ih =>
      obtain ⟨hs, hunits⟩ := List.forall_mem_cons.mp hfit
      obtain ⟨σ, hσ, hrest⟩ := ih (n + U.size s) hunits
      refine ⟨σ, fun i hi => hσ i (by omega), ?_⟩
      have hfirst := U.moved s hs σ n n fun i hi => hσ _ (by omega)
      rw [recordsAll, List.map_append, hfirst]
      exact hrest.append_left _
  | swap s s' units =>
      obtain ⟨hs', hmore⟩ := List.forall_mem_cons.mp hfit
      obtain ⟨hs, hunits⟩ := List.forall_mem_cons.mp hmore
      refine ⟨swapBlocks n (U.size s') (U.size s), fun i hi => swapBlocks_front hi, ?_⟩
      have hfirst := U.moved s' hs' _ _ _ (swapBlocks_first n (U.size s') (U.size s))
      have hsecond := U.moved s hs _ _ _ (swapBlocks_second n (U.size s') (U.size s))
      have hbehind : ∀ i, n + U.size s' + U.size s ≤ i →
          swapBlocks n (U.size s') (U.size s) i = i := fun i hi => swapBlocks_behind hi
      have hrest := recordsAll_fixed hbehind hunits
      have hsizes := Nat.add_right_comm n (U.size s) (U.size s')
      simp only [recordsAll, List.map_append, hsizes, hfirst, hsecond, hrest]
      rw [← List.append_assoc, ← List.append_assoc]
      exact List.perm_append_comm.append_right _
  | trans hperm _ ih ih' =>
      obtain ⟨σ, hσ, hrecords⟩ := ih n hfit
      obtain ⟨σ', hσ', hrecords'⟩ := ih' n fun s hs => hfit s (hperm.mem_iff.mpr hs)
      refine ⟨σ' * σ, fun i hi => ?_, ?_⟩
      · rw [Equiv.Perm.mul_apply, hσ i hi, hσ' i hi]
      have hmul : ∀ xs : List R,
          xs.map (φ (σ' * σ) • ·) = (xs.map (φ σ • ·)).map (φ σ' • ·) := by
        intro xs
        rw [List.map_map, map_mul]
        exact List.map_congr_left fun x _ => mul_smul _ _ x
      rw [hmul]
      exact (hrecords.map _).trans hrecords'

/-- The order of the units does not matter. -/
theorem isomorphic_of_perm (hperm : units.Perm units') (n : ℕ) (hfit : ∀ s ∈ units, U.Fit s) :
    Isomorphic G (U.recordsAll units n) (U.recordsAll units' n) := by
  obtain ⟨σ, -, hrecords⟩ := recordsAll_perm hperm n hfit
  exact ⟨φ σ, hrecords⟩

end Numbered

end RdfParser.Foundation
