/-
  Turtle/Iterator.lean --- iterating over the triples of a string parser.

  Sources: `internal/Turtle/Parsers/AbstractParser.hpp` and
  `internal/Turtle/Parsers/BaseStringParser.hpp`.

  The iterator has always fetched the triple it stands on, so it learns one step
  before the end that there is no further one: `parser_done_` is raised there, and
  `done_` one increment later.
-/
import RdfParser.Turtle.Actions

set_option autoImplicit false

namespace RdfParser.Turtle

open RdfParser.Foundation RdfParser.Rdf

/-- A default constructed `Triple_t`. -/
def defaultTriple (q : Bool) : Triple q :=
  ⟨Element.default q, Element.default q, Element.default q⟩

/-- `BaseStringParser<sparqlQuery>`: the queue the parse has filled, and the current
triple of `AbstractParser`. -/
structure StringParser (q : Bool) where
  parsedTerms : List (Triple q)
  currentTriple : Triple q := defaultTriple q
  deriving DecidableEq

namespace StringParser

variable {q : Bool}

/-- The parser as its constructor leaves it: `SequentialState` pushes every inserted
triple. -/
def ofState (final : State q) : StringParser q where
  parsedTerms := final.inserted

/-- `hasNextTriple_impl`. -/
def hasNextTriple (parser : StringParser q) : Bool := !parser.parsedTerms.isEmpty

/-- `nextTriple_impl`; `front` and `pop` of an empty queue are undefined. -/
def nextTriple (parser : StringParser q) : Option (StringParser q) :=
  match parser.parsedTerms with
  | [] => none
  | t :: parsedTerms => some { parsedTerms := parsedTerms, currentTriple := t }

end StringParser

/-- `Iterator<Parser, sparqlQuery>`. -/
structure Iterator (q : Bool) where
  done : Bool := false
  parserDone : Bool := false
  triplesParser : StringParser q

namespace Iterator

variable {q : Bool}

/-- `operator++`. -/
def increment (it : Iterator q) : Option (Iterator q) :=
  if it.parserDone then some { it with done := true }
  else
    it.triplesParser.nextTriple.map fun parser =>
      { it with
        triplesParser := parser
        parserDone := if parser.hasNextTriple then it.parserDone else true }

/-- The constructor of the iterator, which `begin_impl` calls. -/
def ofParser (parser : StringParser q) : Option (Iterator q) :=
  let it : Iterator q := { triplesParser := parser }
  if parser.hasNextTriple then it.increment else some { it with parserDone := true }

/-- `operator bool`. -/
def toBool (it : Iterator q) : Bool := !it.done

/-- `operator*`. -/
def current (it : Iterator q) : Triple q := it.triplesParser.currentTriple

/-- The triples that the rest of the loop visits, with a bound on its rounds. -/
def visitWithin : Nat → Iterator q → Option (List (Triple q))
  | 0, _ => none
  | rounds + 1, it =>
      if it.toBool then
        (it.increment.bind (visitWithin rounds)).map (it.current :: ·)
      else some []

end Iterator

namespace StringParser

variable {q : Bool}

/-- `for (it = parser.begin(); it; ++it) visit(*it)` ends and visits these triples. -/
def Visits (parser : StringParser q) (visited : List (Triple q)) : Prop :=
  ∃ rounds, (Iterator.ofParser parser).bind (Iterator.visitWithin rounds) = some visited

end StringParser

namespace Iterator

variable {q : Bool}

/-- An iterator that stands on a triple, with the given ones still in the queue. -/
def on (t : Triple q) (rest : List (Triple q)) : Iterator q where
  parserDone := rest.isEmpty
  triplesParser := { parsedTerms := rest, currentTriple := t }

theorem increment_on_cons (t t' : Triple q) (rest : List (Triple q)) :
    (on t (t' :: rest)).increment = some (on t' rest) := by
  cases rest <;> rfl

/-- The constructor fetches the first triple. -/
theorem ofParser_cons (t current : Triple q) (rest : List (Triple q)) :
    ofParser { parsedTerms := t :: rest, currentTriple := current } = some (on t rest) := by
  cases rest <;> rfl

/-- From a triple on, the loop visits it and everything in the queue. -/
theorem visitWithin_on (t : Triple q) (rest : List (Triple q)) :
    visitWithin (rest.length + 2) (on t rest) = some (t :: rest) := by
  induction rest generalizing t with
  | nil => rfl
  | cons t' rest ih =>
      have hround : visitWithin ((t' :: rest).length + 2) (on t (t' :: rest)) =
          ((on t (t' :: rest)).increment.bind (visitWithin (rest.length + 2))).map
            (t :: ·) := rfl
      rw [hround, increment_on_cons, Option.bind_some, ih]
      rfl

/-- More rounds than the loop needs do not change what it visits. -/
theorem visitWithin_mono {rounds more : Nat} (hle : rounds ≤ more) {it : Iterator q}
    {visited : List (Triple q)} (h : visitWithin rounds it = some visited) :
    visitWithin more it = some visited := by
  induction rounds generalizing it visited more with
  | zero => cases h
  | succ rounds ih =>
      obtain ⟨more, rfl⟩ := Nat.exists_eq_add_one_of_ne_zero (by omega : more ≠ 0)
      simp only [visitWithin] at h ⊢
      split at h
      · rename_i hgoes
        obtain ⟨rest, hrest, rfl⟩ := Option.map_eq_some_iff.mp h
        obtain ⟨next, hnext, hvisits⟩ := Option.bind_eq_some_iff.mp hrest
        rw [if_pos hgoes, hnext, Option.bind_some, ih (Nat.le_of_succ_le_succ hle) hvisits]
        rfl
      · rename_i hends
        rw [if_neg hends]
        exact h

/-- With an empty queue the loop visits whatever the current triple is. -/
theorem visitWithin_empty {current : Triple q} {rounds : Nat} {visited : List (Triple q)}
    (h : (ofParser { parsedTerms := [], currentTriple := current }).bind (visitWithin rounds) =
      some visited) : visited = [current] := by
  match rounds with
  | 0 => cases h
  | 1 => cases h
  | rounds + 2 =>
      have hrounds : (ofParser { parsedTerms := [], currentTriple := current }).bind
          (visitWithin (rounds + 2)) = some [current] := rfl
      rw [hrounds, Option.some.injEq] at h
      exact h.symm

end Iterator

namespace StringParser

variable {q : Bool}

/-- The loop visits one list of triples at most. -/
theorem Visits.unique {parser : StringParser q} {visited visited' : List (Triple q)}
    (h : parser.Visits visited) (h' : parser.Visits visited') : visited = visited' := by
  obtain ⟨rounds, h⟩ := h
  obtain ⟨rounds', h'⟩ := h'
  obtain ⟨it, hit, hvisits⟩ := Option.bind_eq_some_iff.mp h
  rw [hit, Option.bind_some] at h'
  have hmore := Iterator.visitWithin_mono (Nat.le_max_left rounds rounds') hvisits
  have hmore' := Iterator.visitWithin_mono (Nat.le_max_right rounds rounds') h'
  exact Option.some.inj (hmore.symm.trans hmore')

/-- The loop visits the parsed triples, in order and each once, exactly when there is
one. -/
theorem visits_iff (parser : StringParser q) :
    parser.Visits parser.parsedTerms ↔ parser.parsedTerms ≠ [] := by
  obtain ⟨parsedTerms, current⟩ := parser
  cases parsedTerms with
  | nil =>
      refine iff_of_false ?_ (by simp)
      intro ⟨rounds, hvisits⟩
      exact absurd (Iterator.visitWithin_empty hvisits) (by simp)
  | cons t rest =>
      refine iff_of_true ⟨rest.length + 2, ?_⟩ (by simp)
      rw [Iterator.ofParser_cons]
      exact Iterator.visitWithin_on t rest

/-- `@prefix p: <i> .` -/
def onlyDirective : Bytes := bytes "@prefix p: <i> ."

/-- The loop over a document without triples visits a default constructed one. -/
theorem onlyDirective_visited : ¬ ∀ (prefixMap : PrefixMap) (text : Bytes) (final : State false),
    Accepts prefixMap text final → (ofState final).Visits final.inserted := by
  intro hclaim
  have hcomputed : (parseWithin (q := false) 60 [] onlyDirective).map
      (fun p => (decide p.throws, p.final.signals)) =
      some (false, [.syncWithMainThread, .setParsingIsDone]) := by
    decide +kernel
  obtain ⟨p, hparse, hthrows, hsignals⟩ := parseWithin_signals hcomputed
  have hok : p.outcome ≠ .error ∧ p.fault = none := by
    have hnot := of_decide_eq_false hthrows
    unfold Parse.throws at hnot
    simpa using hnot
  have haccepts : Accepts [] onlyDirective p.final := by
    refine ⟨p.outcome, hok.1, ?_⟩
    rw [← hok.2]
    exact hparse
  have hnone : p.final.inserted = [] := by
    unfold State.inserted
    rw [hsignals]
    rfl
  obtain ⟨rounds, hvisits⟩ := hclaim [] onlyDirective p.final haccepts
  unfold ofState at hvisits
  rw [hnone] at hvisits
  exact absurd (Iterator.visitWithin_empty hvisits) (by simp)

end StringParser

end RdfParser.Turtle
