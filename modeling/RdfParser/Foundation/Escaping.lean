/-
  Foundation/Escaping.lean --- texts with escapes, up to a closing delimiter.

  An escape character takes away the meaning of the character behind it, unless it is
  escaped itself.  A text ends at the first delimiter that is not escaped.
-/
import Mathlib.Data.List.Basic

set_option autoImplicit false

namespace RdfParser.Foundation

variable {α : Type} [DecidableEq α]

/-- The character at this position stands behind an escape character that is not escaped
itself. -/
def escaped (slash : α) (text : List α) : Nat → Bool
  | 0 => false
  | i + 1 => text[i]? == some slash && !escaped slash text i

/-- Behind a piece that leaves nothing escaped the positions of a text count anew. -/
theorem escaped_append {slash : α} {piece more : List α}
    (h : escaped slash (piece ++ more) piece.length = false) (i : Nat) :
    escaped slash (piece ++ more) (piece.length + i) = escaped slash more i := by
  induction i with
  | zero => exact h
  | succ i ih =>
      rw [← Nat.add_assoc, escaped, escaped, ih, List.getElem?_append_right (Nat.le_add_right _ _),
        Nat.add_sub_cancel_left]

variable (slash : α) (delimiter : List α) (Valid : List α → Prop)

/-- A delimiter that is not escaped. -/
def ClosesAt (text : List α) (i : Nat) : Prop :=
  escaped slash text i = false ∧ delimiter <+: text.drop i

instance (text : List α) (i : Nat) : Decidable (ClosesAt slash delimiter text i) :=
  inferInstanceAs (Decidable (_ ∧ _))

/-- If an escape begins here, it is a valid one. -/
def ValidAt (text : List α) (i : Nat) : Prop :=
  text[i]? = some slash → escaped slash text i = false → Valid (text.drop i)

/-- The first delimiter of the text, behind valid escapes only. -/
structure FirstClose (text : List α) (i : Nat) : Prop where
  closes : ClosesAt slash delimiter text i
  first : ∀ j < i, ¬ ClosesAt slash delimiter text j
  valid : ∀ j < i, ValidAt slash Valid text j

/-- The text is closed in this way, and `rest` is what follows the delimiter. -/
def Closed (text rest : List α) : Prop :=
  ∃ i, FirstClose slash delimiter Valid text i ∧ rest = text.drop (i + delimiter.length)

variable {slash delimiter Valid} {text piece more rest rest' : List α} {i j : Nat}

theorem FirstClose.unique (hi : FirstClose slash delimiter Valid text i)
    (hj : FirstClose slash delimiter Valid text j) : i = j := by
  rcases Nat.lt_trichotomy i j with hlt | heq | hgt
  · exact absurd hi.closes (hj.first i hlt)
  · exact heq
  · exact absurd hj.closes (hi.first j hgt)

theorem Closed.unique (h : Closed slash delimiter Valid text rest)
    (h' : Closed slash delimiter Valid text rest') : rest = rest' := by
  obtain ⟨i, hi, rfl⟩ := h
  obtain ⟨j, hj, rfl⟩ := h'
  rw [hi.unique hj]

/-- A delimiter at the front closes the text. -/
theorem closed_here (delimiter rest : List α) :
    Closed slash delimiter Valid (delimiter ++ rest) rest := by
  refine ⟨0, ⟨⟨rfl, List.prefix_append delimiter rest⟩, nofun, nofun⟩, ?_⟩
  rw [Nat.zero_add, List.drop_left]

section Shift

variable (hpiece : escaped slash (piece ++ more) piece.length = false)
include hpiece

theorem closesAt_append_iff :
    ClosesAt slash delimiter (piece ++ more) (piece.length + i) ↔
      ClosesAt slash delimiter more i := by
  rw [ClosesAt, ClosesAt, escaped_append hpiece, List.drop_length_add_append]

theorem validAt_append_iff :
    ValidAt slash Valid (piece ++ more) (piece.length + i) ↔ ValidAt slash Valid more i := by
  rw [ValidAt, ValidAt, escaped_append hpiece, List.drop_length_add_append,
    List.getElem?_append_right (Nat.le_add_right _ _), Nat.add_sub_cancel_left]

/-- A piece without delimiters, whose escapes are valid, does not matter. -/
theorem closed_append_iff
    (hnone : ∀ j < piece.length, ¬ ClosesAt slash delimiter (piece ++ more) j)
    (hvalid : ∀ j < piece.length, ValidAt slash Valid (piece ++ more) j) :
    Closed slash delimiter Valid (piece ++ more) rest ↔
      Closed slash delimiter Valid more rest := by
  have hdrop : ∀ i, (piece ++ more).drop (piece.length + i + delimiter.length) =
      more.drop (i + delimiter.length) := by
    intro i
    rw [Nat.add_assoc, List.drop_length_add_append]
  constructor
  · rintro ⟨i, hi, rfl⟩
    obtain ⟨i, rfl⟩ : ∃ i', i = piece.length + i' := by
      refine Nat.exists_eq_add_of_le (Nat.le_of_not_lt fun hlt => ?_)
      exact hnone i hlt hi.closes
    refine ⟨i, ⟨(closesAt_append_iff hpiece).mp hi.closes, fun j hj => ?_, fun j hj => ?_⟩,
      hdrop i⟩
    · rw [← closesAt_append_iff hpiece]
      exact hi.first _ (Nat.add_lt_add_left hj _)
    · rw [← validAt_append_iff hpiece]
      exact hi.valid _ (Nat.add_lt_add_left hj _)
  · rintro ⟨i, hi, rfl⟩
    refine ⟨piece.length + i, ⟨(closesAt_append_iff hpiece).mpr hi.closes, fun j hj => ?_,
      fun j hj => ?_⟩, (hdrop i).symm⟩
    · rcases Nat.lt_or_ge j piece.length with hlt | hge
      · exact hnone j hlt
      · obtain ⟨j, rfl⟩ := Nat.exists_eq_add_of_le hge
        rw [closesAt_append_iff hpiece]
        exact hi.first j (Nat.lt_of_add_lt_add_left hj)
    · rcases Nat.lt_or_ge j piece.length with hlt | hge
      · exact hvalid j hlt
      · obtain ⟨j, rfl⟩ := Nat.exists_eq_add_of_le hge
        rw [validAt_append_iff hpiece]
        exact hi.valid j (Nat.lt_of_add_lt_add_left hj)

end Shift

/-- A character that neither escapes nor begins a delimiter does not matter. -/
theorem closed_cons_iff {a : α} (hslash : a ≠ slash) (hclose : ¬ delimiter <+: a :: more) :
    Closed slash delimiter Valid (a :: more) rest ↔ Closed slash delimiter Valid more rest := by
  have hpiece : escaped slash ([a] ++ more) [a].length = false := by simp [escaped, hslash]
  refine closed_append_iff hpiece (fun j hj => ?_) fun j hj => ?_
  · obtain rfl : j = 0 := Nat.lt_one_iff.mp hj
    exact fun hcloses => hclose hcloses.2
  · obtain rfl : j = 0 := Nat.lt_one_iff.mp hj
    intro hfirst
    exact absurd (Option.some.inj hfirst) hslash

/-- Neither does a valid escape with the character it escapes. -/
theorem closed_escape_iff {a : α} (hvalid : Valid (slash :: a :: more))
    (hclose : ¬ delimiter <+: slash :: a :: more) :
    Closed slash delimiter Valid (slash :: a :: more) rest ↔
      Closed slash delimiter Valid more rest := by
  have hsecond : escaped slash ([slash, a] ++ more) 1 = true := by simp [escaped]
  have hpiece : escaped slash ([slash, a] ++ more) [slash, a].length = false := by
    simp [escaped]
  have htwo : ∀ j < [slash, a].length, j = 0 ∨ j = 1 := by
    intro j hj
    rw [List.length_cons, List.length_singleton] at hj
    omega
  refine closed_append_iff hpiece (fun j hj => ?_) fun j hj => ?_
  · obtain rfl | rfl := htwo j hj
    · exact fun hcloses => hclose hcloses.2
    · exact fun hcloses => Bool.false_ne_true (hcloses.1.symm.trans hsecond)
  · obtain rfl | rfl := htwo j hj
    · exact fun _ _ => hvalid
    · exact fun _ hfree => absurd (hfree.symm.trans hsecond) Bool.false_ne_true

end RdfParser.Foundation
