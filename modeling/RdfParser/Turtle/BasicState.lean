/-
  Turtle/BasicState.lean --- the term level of the parser state.

  Source: `internal/Turtle/States/BasicState.hpp`.

  The prefix map is a `robin_hood::unordered_map`, a drop-in replacement for
  `std::unordered_map`; what the parser uses of it is `find` and `emplace`, and
  `emplace` does nothing when the key is already present.
-/
import RdfParser.Rdf.Term

set_option autoImplicit false

namespace RdfParser.Turtle

open RdfParser.Foundation RdfParser.Rdf

/-! ## The prefix map -/

/-- A map from prefixes to IRIs, as the list of its entries. -/
abbrev PrefixMap : Type := List (Bytes × Bytes)

namespace PrefixMap

/-- `find`. -/
def find (map : PrefixMap) (key : Bytes) : Option Bytes :=
  (List.find? (fun entry => entry.1 == key) map).map (·.2)

/-- `emplace`: an existing key keeps its value. -/
def emplace (map : PrefixMap) (key value : Bytes) : PrefixMap :=
  match map.find key with
  | some _ => map
  | none => map ++ [(key, value)]

@[simp] theorem find_nil (key : Bytes) : find [] key = none := rfl

theorem find_append (left right : PrefixMap) (key : Bytes) :
    find (left ++ right) key = (find left key).or (find right key) := by
  simp only [find, List.find?_append]
  cases List.find? (fun entry => entry.1 == key) left <;> simp

theorem find_singleton (key value other : Bytes) :
    find [(key, value)] other = if key = other then some value else none := by
  by_cases h : key = other
  · simp [find, h]
  · simp [find, h]

/-- Looking a key up after an `emplace`: the old value if there is one. -/
theorem find_emplace (map : PrefixMap) (key value other : Bytes) :
    (map.emplace key value).find other =
      (map.find other).or (if key = other then some value else none) := by
  unfold emplace
  cases hkey : map.find key with
  | none => rw [find_append, find_singleton]
  | some old =>
      by_cases h : key = other
      · subst h
        simp [hkey]
      · simp [h]

end PrefixMap

/-! ## The state -/

/-- `BasicState<sparqlQuery>` with its default member values.  `latest_BN_label`
is an `int` in the source; the model does not bound it. -/
structure BasicState (sparqlQuery : Bool) where
  element : Element sparqlQuery := Element.default sparqlQuery
  typeTagFound : Bool := false
  langTagFound : Bool := false
  iriIsIriref : Bool := false
  langTag : Bytes := []
  typeTag : Bytes := []
  literalString : Bytes := []
  blankNodeString : Bytes := []
  base : Bytes := []
  latestBNLabel : Nat := 1
  prefixMap : PrefixMap := []

/-- The `n`-th label `createBlankNodeLabel` hands out. -/
def blankNodeLabel (n : Nat) : Bytes := bytes "b" ++ decimal n

/-- Generated labels are pairwise distinct. -/
theorem blankNodeLabel_injective : Function.Injective blankNodeLabel := by
  intro m n h
  exact decimal_injective (List.append_cancel_left h)

namespace BasicState

variable {q : Bool}

/-- `setElement` with the conversion of a term to `Element_t`. -/
def setTerm (s : BasicState q) (t : Term) : BasicState q :=
  { s with element := Element.ofTerm q t }

/-- `addPrefix`. -/
def addPrefix (s : BasicState q) (pre value : Bytes) : BasicState q :=
  { s with prefixMap := s.prefixMap.emplace pre value }

/-- `getPrefixValue`. -/
def getPrefixValue (s : BasicState q) (pre : Bytes) : Option Bytes := s.prefixMap.find pre

/-- `setBase`. -/
def setBase (s : BasicState q) (base : Bytes) : BasicState q := { s with base := base }

/-- `createBlankNodeLabel`: the label and the state with the counter advanced. -/
def createBlankNodeLabel (s : BasicState q) : Bytes × BasicState q :=
  (blankNodeLabel s.latestBNLabel, { s with latestBNLabel := s.latestBNLabel + 1 })

end BasicState

end RdfParser.Turtle
