/-
  Turtle/Capture.lean --- variables and blank nodes in a triples block.

  In a query a blank node becomes a variable: `_:x` and `?x` both become the variable
  `x`, and `[]` becomes a variable with a generated name.  Nothing keeps these three
  kinds of names apart, and equality of variables does not look at their origin.
-/
import Mathlib.Data.List.Pairwise
import Mathlib.Data.Set.Function
import RdfParser.Turtle.BlankNodes
import RdfParser.Turtle.Image
import RdfParser.Turtle.Spelling

set_option autoImplicit false

namespace RdfParser.Turtle

open RdfParser.Foundation RdfParser.Rdf RdfParser.Peg

/-! ## Occurrences -/

/-- What a variable of a pattern is written as: `?name` or `$name`, `_:label`, or `[]`. -/
inductive Occurrence where
  | var (name : Bytes)
  | label (label : Bytes)
  | anon
  deriving DecidableEq, Repr

/-- The occurrence is a blank node. -/
def Occurrence.isBlank : Occurrence → Bool
  | .var _ => false
  | .label _ | .anon => true

/-- The occurrence that is complete with a match. -/
def occurrence? (rule : RuleName) (text : Bytes) : Option Occurrence :=
  match rule with
  | .var => some (.var (text.drop 1))
  | .blankNode =>
      some (if text.head? = some (char '_') then .label (text.drop 2) else .anon)
  | _ => none

/-- The variables and blank nodes of a run in order, each with the element that its
action produces. -/
def produced : Trace RuleName → State true → List (Occurrence × VarOrTerm)
  | [], _ => []
  | (rule, text) :: trace, s =>
      match apply rule text s with
      | .ok s' =>
          match occurrence? rule text with
          | some occurrence => (occurrence, s'.element) :: produced trace s'
          | none => produced trace s'
      | .error _ => []

/-- No blank node is equal to a variable, and two blank nodes are equal only if they
carry the same label. -/
structure NoCapture (run : List (Occurrence × VarOrTerm)) : Prop where
  apart : ∀ x ∈ run, ∀ y ∈ run, x.1.isBlank = true → y.1.isBlank = false → ¬ x.2 == y.2
  same : run.Pairwise fun x y => x.1.isBlank = true → y.1.isBlank = true → x.2 == y.2 →
    ∃ label, x.1 = .label label ∧ y.1 = .label label

/-! ## Names -/

/-- The name that a match gives to a variable or a blank node, where the tally says how
many labels have been generated. -/
def naming? (t : Tally) : RuleName × Bytes → List (Occurrence × Bytes)
  | (.var, text) => [(.var (text.drop 1), text.drop 1)]
  | (.blankNodeLabel, text) => [(.label (text.drop 2), text.drop 2)]
  | (.anon, _) => [(.anon, blankNodeLabel (t.nodes + 1))]
  | _ => []

/-- The names in a trace, in order. -/
def names (t : Tally) : Trace RuleName → List (Occurrence × Bytes)
  | [] => []
  | entry :: trace => naming? t entry ++ names (t.read entry.1) trace

/-- No variable has the name of a blank node, and no `[]` is given a label that is also
written. -/
structure NamesApart (trace : Trace RuleName) : Prop where
  apart : ∀ x ∈ names {} trace, ∀ y ∈ names {} trace,
    x.1.isBlank = true → y.1.isBlank = false → x.2 ≠ y.2
  fresh : ∀ x ∈ names {} trace, ∀ y ∈ names {} trace,
    x.1 = .anon → y.1.isBlank = true → y.1 ≠ .anon → x.2 ≠ y.2

instance (trace : Trace RuleName) : Decidable (NamesApart trace) :=
  decidable_of_iff
    ((∀ x ∈ names {} trace, ∀ y ∈ names {} trace,
        x.1.isBlank = true → y.1.isBlank = false → x.2 ≠ y.2) ∧
      ∀ x ∈ names {} trace, ∀ y ∈ names {} trace,
        x.1 = .anon → y.1.isBlank = true → y.1 ≠ .anon → x.2 ≠ y.2)
    ⟨fun h => ⟨h.1, h.2⟩, fun h => ⟨h.apart, h.fresh⟩⟩

/-- A rule without an action does not count. -/
theorem Tally.read_idle {name : RuleName} (h : acts name = false) (t : Tally) :
    t.read name = t := by
  cases name <;> first | rfl | exact absurd h.symm Bool.false_ne_true

theorem naming?_idle {name : RuleName} (h : acts name = false) (t : Tally) (text : Bytes) :
    naming? t (name, text) = [] := by
  cases name <;> first | rfl | exact absurd h.symm Bool.false_ne_true

/-- The names depend on the essence of a trace only. -/
theorem names_essence (t : Tally) (trace : Trace RuleName) :
    names t (essence trace) = names t trace := by
  induction trace generalizing t with
  | nil => rfl
  | cons entry trace ih =>
      obtain ⟨name, text⟩ := entry
      cases hacts : acts name with
      | false =>
          have hskip : essence ((name, text) :: trace) = essence trace := by
            simp [essence, essential, hacts]
          rw [hskip, names, naming?_idle hacts, Tally.read_idle hacts, ih]
          rfl
      | true =>
          have hkeep : essence ((name, text) :: trace) =
              (name, if readsText name then text else []) :: essence trace := by
            simp [essence, essential, hacts]
          have hname : naming? t (name, if readsText name then text else []) =
              naming? t (name, text) := by
            cases name <;> rfl
          rw [hkeep, names, names, hname, ih]

theorem names_append (t : Tally) (left right : Trace RuleName) :
    names t (left ++ right) =
      names t left ++ names (left.foldl (fun t entry => t.read entry.1) t) right := by
  induction left generalizing t with
  | nil => rfl
  | cons entry left ih => rw [List.cons_append, names, names, ih, List.append_assoc,
      List.foldl_cons]

/-! ### Generated names -/

theorem Tally.nodes_le_read (t : Tally) (rule : RuleName) : t.nodes ≤ (t.read rule).nodes := by
  cases rule <;> simp only [Tally.read] <;> omega

/-- The names generated from here on. -/
theorem names_generated {t : Tally} {trace : Trace RuleName} :
    ∀ x ∈ names t trace, x.1 = .anon → ∃ n, t.nodes < n ∧ x.2 = blankNodeLabel n := by
  induction trace generalizing t with
  | nil => simp [names]
  | cons entry trace ih =>
      obtain ⟨rule, text⟩ := entry
      intro x hx hanon
      rcases List.mem_append.mp hx with hhere | hlater
      · cases rule <;> simp only [naming?, List.mem_singleton, List.not_mem_nil] at hhere
        case anon => exact ⟨t.nodes + 1, by omega, by rw [hhere]⟩
        case var | blankNodeLabel =>
            rw [hhere] at hanon
            cases hanon
      · obtain ⟨n, hn, hname⟩ := ih x hlater hanon
        exact ⟨n, lt_of_le_of_lt (t.nodes_le_read rule) hn, hname⟩

/-- No name is generated twice. -/
theorem names_pairwise (t : Tally) (trace : Trace RuleName) :
    (names t trace).Pairwise fun x y => x.1 = .anon → y.1 = .anon → x.2 ≠ y.2 := by
  induction trace generalizing t with
  | nil => exact .nil
  | cons entry trace ih =>
      obtain ⟨rule, text⟩ := entry
      refine List.pairwise_append.mpr ⟨?_, ih _, ?_⟩
      · cases rule <;> simp [naming?]
      · intro x hx y hy hanon hanon'
        cases rule <;> simp only [naming?, List.mem_singleton, List.not_mem_nil] at hx
        case var | blankNodeLabel =>
            rw [hx] at hanon
            cases hanon
        case anon =>
            obtain ⟨n, hn, hname⟩ := names_generated y hy hanon'
            rw [hx, hname]
            intro heq
            have hsame := blankNodeLabel_injective heq
            have hread : (t.read .anon).nodes = t.nodes + 1 := rfl
            simp only at hn
            omega

/-- A written name is the name. -/
theorem names_written {t : Tally} {trace : Trace RuleName} :
    ∀ x ∈ names t trace, x.1 = .var x.2 ∨ x.1 = .label x.2 ∨ x.1 = .anon := by
  induction trace generalizing t with
  | nil => simp [names]
  | cons entry trace ih =>
      obtain ⟨rule, text⟩ := entry
      intro x hx
      rcases List.mem_append.mp hx with hhere | hlater
      · cases rule <;> simp only [naming?, List.mem_singleton, List.not_mem_nil] at hhere
        all_goals
          rw [hhere]
          simp
      · exact ih x hlater

/-! ## The names are the names of the elements -/

theorem Tally.Counts.run {q : Bool} {trace : Trace RuleName} {t : Tally} {s s' : State q}
    (hcounts : t.Counts s) (h : runActions trace s = (s', none)) :
    (trace.foldl (fun t entry => t.read entry.1) t).Counts s' := by
  induction trace generalizing t s with
  | nil =>
      cases h
      exact hcounts
  | cons entry trace ih =>
      obtain ⟨s₁, happly, hrest⟩ := runActions_cons_inv h
      exact ih (hcounts.read happly) hrest

theorem Action.var_basic {text : Bytes} {s s' : BasicState true}
    (h : Action.var text s = .ok s') :
    s'.element = VarOrTerm.variable { name := text.drop 1 } := by
  simp only [Action.var, substr] at h
  split at h
  · cases h
  · rename_i hlength
    have hsize : 1 ≤ text.length := by omega
    rw [sizeSub_of_le hsize, List.take_of_length_le (by simp)] at h
    rw [← Except.ok.inj h]

theorem produced_skip {rule : RuleName} {text : Bytes} {trace : Trace RuleName}
    {s s' : State true} (h : apply rule text s = .ok s') (hnone : occurrence? rule text = none) :
    produced ((rule, text) :: trace) s = produced trace s' := by
  simp only [produced, h, hnone]

theorem produced_cons {rule : RuleName} {text : Bytes} {trace : Trace RuleName}
    {s s' : State true} {occurrence : Occurrence} (h : apply rule text s = .ok s')
    (hsome : occurrence? rule text = some occurrence) :
    produced ((rule, text) :: trace) s = (occurrence, s'.element) :: produced trace s' := by
  simp only [produced, h, hsome]
  rfl

/-- By induction on the pairs of the trace; the tally knows the next label. -/
theorem Paired.produced_eq {trace : Trace RuleName} (h : Paired trace) {t : Tally}
    {s s' : State true} (hcounts : t.Counts s) (hrun : runActions trace s = (s', none)) :
    produced trace s =
      (names t trace).map fun x => (x.1, VarOrTerm.variable { name := x.2 }) := by
  induction h generalizing t s with
  | nil => rfl
  | @other rule text trace hrule _ ih =>
      obtain ⟨s₁, happly, hrest⟩ := runActions_cons_inv hrun
      have htail := ih (hcounts.read happly) hrest
      by_cases hvar : rule = .var
      · subst hvar
        have helement := Action.var_basic (State.lift_ok happly)
        rw [produced_cons happly rfl, names, List.map_append, htail, helement]
        rfl
      · have hnone : occurrence? rule text = none := by
          cases rule <;> first | rfl | contradiction
        have hnames : naming? t (rule, text) = [] := by
          cases rule <;> first | rfl | contradiction
        rw [produced_skip happly hnone, names, hnames, htail]
        rfl
  | @anon text trace htext _ ih =>
      obtain ⟨s₁, hanon, hnext⟩ := runActions_cons_inv hrun
      obtain ⟨s₂, hnode, hrest⟩ := runActions_cons_inv hnext
      have helement := (anon_label hanon hnode).2.2
      rw [hcounts.label] at helement
      have hother : text.head? ≠ some (char '_') := by
        rw [htext]
        decide
      have hoccurrence : occurrence? .blankNode text = some .anon := by
        simp only [occurrence?, if_neg hother]
      have htail := ih ((hcounts.read hanon).read hnode) hrest
      rw [produced_skip hanon rfl, produced_cons hnode hoccurrence, htail, helement]
      rfl
  | @label text trace htext _ ih =>
      obtain ⟨s₁, hlabel, hnext⟩ := runActions_cons_inv hrun
      obtain ⟨s₂, hnode, hrest⟩ := runActions_cons_inv hnext
      have helement := (written_label hlabel hnode).2
      have hoccurrence : occurrence? .blankNode text = some (.label (text.drop 2)) := by
        simp only [occurrence?, if_pos htext]
      have htail := ih ((hcounts.read hlabel).read hnode) hrest
      rw [produced_skip hlabel rfl, produced_cons hnode hoccurrence, htail, helement]
      rfl

/-- In a run from the start the names decide. -/
theorem Paired.noCapture_iff {initial : PrefixMap} {trace : Trace RuleName} {final : State true}
    (hpaired : Paired trace)
    (hactions : runActions trace (initialState true initial) = (final, none)) :
    NoCapture (produced trace (initialState true initial)) ↔ NamesApart trace := by
  have hcounts : ({} : Tally).Counts (initialState true initial) := ⟨rfl, rfl, rfl⟩
  rw [hpaired.produced_eq hcounts hactions]
  constructor
  · intro h
    let R := fun x y : Occurrence × Bytes => x.1.isBlank = true → y.1.isBlank = true →
      x.2 = y.2 → ∃ label, x.1 = .label label ∧ y.1 = .label label
    have hsame : (names {} trace).Pairwise R :=
      (List.pairwise_map.mp h.same).imp fun hxy hx hy heq =>
        hxy hx hy ((VarOrTerm.variable_beq_iff _ _).mpr heq)
    have hsymm : Std.Symm R := by
      refine ⟨fun x y hxy hy hx heq => ?_⟩
      obtain ⟨label, hx', hy'⟩ := hxy hx hy heq.symm
      exact ⟨label, hy', hx'⟩
    constructor
    · intro x hx y hy hblank hvar heq
      exact h.apart _ (List.mem_map_of_mem hx) _ (List.mem_map_of_mem hy) hblank hvar
        ((VarOrTerm.variable_beq_iff _ _).mpr heq)
    · intro x hx y hy hanon hblank hother heq
      have hdistinct : x ≠ y := fun hxy => hother (hxy ▸ hanon)
      have hblank' : x.1.isBlank = true := by
        rw [hanon]
        rfl
      obtain ⟨label, hlabel, -⟩ := hsame.forall hx hy hdistinct hblank' hblank heq
      rw [hanon] at hlabel
      cases hlabel
  · intro h
    constructor
    · intro x hx y hy hblank hvar heq
      obtain ⟨x', hx', rfl⟩ := List.mem_map.mp hx
      obtain ⟨y', hy', rfl⟩ := List.mem_map.mp hy
      exact h.apart x' hx' y' hy' hblank hvar ((VarOrTerm.variable_beq_iff _ _).mp heq)
    · refine List.pairwise_map.mpr ((names_pairwise {} trace).imp_of_mem ?_)
      intro x y hx hy hanon hblank hblank' heq
      have hname : x.2 = y.2 := (VarOrTerm.variable_beq_iff _ _).mp heq
      rcases names_written x hx with hx' | hx' | hx'
      · rw [hx'] at hblank
        exact absurd hblank Bool.false_ne_true
      · rcases names_written y hy with hy' | hy' | hy'
        · rw [hy'] at hblank'
          exact absurd hblank' Bool.false_ne_true
        · exact ⟨x.2, hx', hname ▸ hy'⟩
        · refine absurd hname.symm (h.fresh y hy x hx hy' hblank ?_)
          simp [hx']
      · by_cases hy' : y.1 = .anon
        · exact absurd hname (hanon hx' hy')
        · exact absurd hname (h.fresh x hx y hy hx' hblank' hy')

/-! ## Renaming labels -/

/-- The actions of a block with other labels. -/
def relabelEntry (ρ : Bytes → Bytes) : RuleName × Bytes → RuleName × Bytes
  | (.blankNodeLabel, text) => (.blankNodeLabel, bytes "_:" ++ ρ (text.drop 2))
  | entry => entry

def relabel (ρ : Bytes → Bytes) (actions : Trace RuleName) : Trace RuleName :=
  actions.map (relabelEntry ρ)

/-- The labels written in a block. -/
def writtenLabels (trace : Trace RuleName) : List Bytes :=
  (names {} trace).filterMap fun x => match x.1 with
    | .label label => some label
    | _ => none

/-- The element with another name if it is the variable of one of the labels. -/
def renameElement (written : List Bytes) (ρ : Bytes → Bytes) : Element true → Element true
  | VarOrTerm.variable v =>
      VarOrTerm.variable { v with name := if v.name ∈ written then ρ v.name else v.name }
  | VarOrTerm.term t => VarOrTerm.term t

/-- A block that is read like this one but for an injective renaming of the labels has
the same patterns but for that renaming; if no blank node is captured there either, it
does not identify elements. -/
def RenamesOnly (initial : PrefixMap) (trace : Trace RuleName) (final : State true) : Prop :=
  ∀ (ρ : Bytes → Bytes) (document : Bytes) (outcome : Outcome) (trace' : Trace RuleName),
    Set.InjOn ρ {label | label ∈ writtenLabels trace} →
    Run turtle (.ref (.grammar true)) document outcome trace' →
    essence trace' = relabel ρ (essence trace) →
    ∃ final', runActions trace' (initialState true initial) = (final', none) ∧
      final'.inserted =
        final.inserted.map (mapTriple (renameElement (writtenLabels trace) ρ)) ∧
      (NoCapture (produced trace' (initialState true initial)) →
        Set.InjOn (renameElement (writtenLabels trace) ρ)
          {e | ∃ x ∈ produced trace (initialState true initial), x.2 = e})

/-- No variable of the block is captured, and so its labels do not matter. -/
structure Uncaptured (initial : PrefixMap) (trace : Trace RuleName) (final : State true) :
    Prop where
  noCapture : NoCapture (produced trace (initialState true initial))
  renames : RenamesOnly initial trace final

/-! ### Renaming, term by term -/

def Piece.relabel (ρ : Bytes → Bytes) : Piece → Piece
  | .term (.blankNodeLabel text) => .term (.blankNodeLabel (bytes "_:" ++ ρ (text.drop 2)))
  | piece => piece

theorem Leaf.actions_relabel {ρ : Bytes → Bytes} {leaf : Leaf}
    (hleaf : ∀ text, leaf ≠ .blankNodeLabel text) :
    Turtle.relabel ρ leaf.actions = leaf.actions := by
  cases leaf with
  | blankNodeLabel text => exact absurd rfl (hleaf text)
  | anon _ | booleanLiteral _ | var _ => rfl
  | iri i => cases i <;> rfl
  | numericLiteral kind _ => cases kind <;> rfl
  | rdfLiteral text suffix =>
      cases suffix with
      | plain | langtag _ => rfl
      | typeTag i => cases i <;> rfl

theorem Piece.actions_relabel {ρ : Bytes → Bytes} {piece : Piece} (h : piece.WellFormed true) :
    Turtle.relabel ρ piece.actions = (piece.relabel ρ).actions := by
  cases piece with
  | action name text =>
      have hname : single true name = true := h
      cases name <;> first | rfl | exact absurd hname Bool.false_ne_true
  | term leaf =>
      by_cases hlabel : ∃ text, leaf = .blankNodeLabel text
      · obtain ⟨text, rfl⟩ := hlabel
        rfl
      · have hkeep : (Piece.term leaf).relabel ρ = .term leaf := by
          cases leaf <;> first | rfl | exact absurd ⟨_, rfl⟩ hlabel
        rw [hkeep]
        exact Leaf.actions_relabel fun text heq => hlabel ⟨text, heq⟩

theorem relabel_pieces {ρ : Bytes → Bytes} {pieces : List Piece}
    (h : ∀ piece ∈ pieces, piece.WellFormed true) :
    relabel ρ (pieces.flatMap Piece.actions) =
      (pieces.map (Piece.relabel ρ)).flatMap Piece.actions := by
  induction pieces with
  | nil => rfl
  | cons piece pieces ih =>
      have hhead := Piece.actions_relabel (ρ := ρ) (h piece List.mem_cons_self)
      have htail := ih fun other hother => h other (List.mem_cons_of_mem _ hother)
      rw [List.flatMap_cons, List.map_cons, List.flatMap_cons, ← hhead, ← htail]
      exact List.map_append

/-- A term that is neither a variable nor a blank node stands for a term. -/
theorem Leaf.element_term {leaf : Leaf} {prefixMap : PrefixMap} {base : Bytes} {label : Nat}
    {e : Element true} (h : leaf.element true prefixMap base label = .ok e)
    (hleaf : ∀ t, names t leaf.actions = []) : ∃ t, e = Element.ofTerm true t := by
  cases leaf with
  | iri i =>
      simp only [element] at h
      cases huri : i.uri prefixMap base with
      | error fault => simp [huri, Except.map] at h
      | ok uri =>
          rw [huri] at h
          exact ⟨_, (Except.ok.inj h).symm⟩
  | blankNodeLabel _ | anon _ | var _ => cases hleaf {}
  | booleanLiteral _ | numericLiteral _ _ => exact ⟨_, (Except.ok.inj h).symm⟩
  | rdfLiteral text suffix =>
      simp only [element] at h
      cases hbody : substr text 1 (sizeSub (sizeSub text.length 1) 1) with
      | error fault => simp [hbody] at h
      | ok body =>
          cases hliteral : suffix.literal prefixMap base body with
          | error fault => simp [hbody, hliteral, Except.map] at h
          | ok t =>
              simp only [hbody, hliteral, Except.map] at h
              exact ⟨_, (Except.ok.inj h).symm⟩

section Renaming

variable {written : List Bytes} {ρ : Bytes → Bytes} {s s₁ s' : State true} {t : Tally}

theorem renameElement_keep {name : Bytes} (h : name ∉ written) :
    renameElement written ρ (VarOrTerm.variable { name := name }) =
      VarOrTerm.variable { name := name } := by
  simp only [renameElement, if_neg h]
  rfl

theorem renameElement_label {name : Bytes} (h : name ∈ written) :
    renameElement written ρ (VarOrTerm.variable { name := name }) =
      VarOrTerm.variable { name := ρ name } := by
  simp only [renameElement, if_pos h]
  rfl

/-- One piece.  The names in it are to be renamed exactly if they are labels. -/
theorem Image.relabel_piece {piece : Piece} (h : Image (renameElement written ρ) s s')
    (hwell : piece.WellFormed true) (hcounts : t.Counts s)
    (hnames : ∀ x ∈ names t piece.actions, x.2 ∈ written ↔ x.1 = .label x.2)
    (hrun : runActions piece.actions s = (s₁, none)) :
    ∃ s₁', runActions (piece.relabel ρ).actions s' = (s₁', none) ∧
      Image (renameElement written ρ) s₁ s₁' := by
  cases piece with
  | action name text =>
      obtain ⟨s₂, happly, hend⟩ := runActions_cons_inv hrun
      cases hend
      obtain ⟨s₁', happly', himage⟩ := h.action (fun _ => rfl) (fun _ _ => rfl) hwell happly
      exact ⟨s₁', runActions_cons_ok happly', himage⟩
  | term leaf =>
      obtain ⟨hleaf, hallowed⟩ := hwell
      obtain ⟨e, he, -⟩ := Leaf.runActions_inv h.settled hallowed hrun
      have hkeep : (Piece.term leaf).relabel ρ = .term leaf → renameElement written ρ e = e →
          ∃ s₁', runActions ((Piece.term leaf).relabel ρ).actions s' = (s₁', none) ∧
            Image (renameElement written ρ) s₁ s₁' := by
        intro hsame hfixed
        rw [hsame]
        exact h.leaf leaf leaf hallowed hallowed hrun rfl he (by rw [hfixed, he])
      by_cases hterm : ∀ t, names t leaf.actions = []
      · refine hkeep ?_ ?_
        · cases leaf <;> first | rfl | cases hterm {}
        · obtain ⟨u, rfl⟩ := Leaf.element_term he hterm
          rfl
      · cases leaf with
        | iri i => exact absurd (fun t => by cases i <;> rfl) hterm
        | booleanLiteral text => exact absurd (fun _ => rfl) hterm
        | numericLiteral kind text => exact absurd (fun t => by cases kind <;> rfl) hterm
        | rdfLiteral text suffix =>
            refine absurd (fun t => ?_) hterm
            cases suffix with
            | plain | langtag _ => rfl
            | typeTag i => cases i <;> rfl
        | anon text =>
            obtain rfl := Except.ok.inj he
            have hname : blankNodeLabel (t.nodes + 1) ∉ written := fun hmem => by
              cases (hnames (.anon, blankNodeLabel (t.nodes + 1)) List.mem_cons_self).mp hmem
            refine hkeep rfl ?_
            rw [← hcounts.label] at hname
            exact renameElement_keep hname
        | var text =>
            obtain ⟨sigil, name, -, rfl⟩ := var_shape hleaf
            have hname : name ∉ written := fun hmem => by
              cases (hnames (.var name, name) List.mem_cons_self).mp hmem
            refine hkeep rfl ?_
            simp only [Leaf.element, var_name, Except.map] at he
            obtain rfl := Except.ok.inj he
            exact renameElement_keep hname
        | blankNodeLabel text =>
            obtain ⟨label, rfl⟩ := blankNodeLabel_shape hleaf
            have hname : label ∈ written :=
              (hnames (.label label, label) List.mem_cons_self).mpr rfl
            refine h.leaf (.blankNodeLabel (bytes "_:" ++ label))
              (.blankNodeLabel (bytes "_:" ++ ρ label)) hallowed (.inr rfl) hrun rfl he ?_
            simp only [Leaf.element, blankNodeLabel_element, Except.map] at he ⊢
            obtain rfl := Except.ok.inj he
            exact congrArg Except.ok (renameElement_label hname).symm

/-- A run of pieces, by induction on the pieces. -/
theorem Image.relabel_pieces {pieces : List Piece} (h : Image (renameElement written ρ) s s')
    (hwell : ∀ piece ∈ pieces, piece.WellFormed true) (hcounts : t.Counts s)
    (hnames : ∀ x ∈ names t (pieces.flatMap Piece.actions), x.2 ∈ written ↔ x.1 = .label x.2)
    (hrun : runActions (pieces.flatMap Piece.actions) s = (s₁, none)) :
    ∃ s₁', runActions ((pieces.map (Piece.relabel ρ)).flatMap Piece.actions) s' = (s₁', none) ∧
      Image (renameElement written ρ) s₁ s₁' := by
  induction pieces generalizing s s' t with
  | nil =>
      cases hrun
      exact ⟨s', rfl, h⟩
  | cons piece pieces ih =>
      rw [List.flatMap_cons] at hrun hnames
      rw [names_append] at hnames
      obtain ⟨s₂, hhead, htail⟩ := runActions_append_inv hrun
      obtain ⟨s₂', hhead', himage⟩ := h.relabel_piece (hwell piece List.mem_cons_self) hcounts
        (fun x hx => hnames x (List.mem_append_left _ hx)) hhead
      obtain ⟨s₁', htail', himage'⟩ := ih himage
        (fun other hother => hwell other (List.mem_cons_of_mem _ hother)) (hcounts.run hhead)
        (fun x hx => hnames x (List.mem_append_right _ hx)) htail
      refine ⟨s₁', ?_, himage'⟩
      rw [List.map_cons, List.flatMap_cons, runActions_append, hhead']
      exact htail'

end Renaming

/-! ### Renaming the names -/

def relabelName (ρ : Bytes → Bytes) : Occurrence × Bytes → Occurrence × Bytes
  | (.label label, name) => (.label (ρ label), ρ name)
  | x => x

theorem names_relabel (ρ : Bytes → Bytes) (t : Tally) (trace : Trace RuleName) :
    names t (relabel ρ trace) = (names t trace).map (relabelName ρ) := by
  induction trace generalizing t with
  | nil => rfl
  | cons entry trace ih =>
      obtain ⟨rule, text⟩ := entry
      have hread : t.read (relabelEntry ρ (rule, text)).1 = t.read rule := by cases rule <;> rfl
      have hname : naming? t (relabelEntry ρ (rule, text)) =
          (naming? t (rule, text)).map (relabelName ρ) := by
        cases rule <;> rfl
      have htail := ih (t.read rule)
      rw [relabel, List.map_cons, names, hname, hread, names, List.map_append]
      exact congrArg _ htail

theorem mem_writtenLabels {trace : Trace RuleName} {label : Bytes} :
    label ∈ writtenLabels trace ↔ (.label label, label) ∈ names {} trace := by
  unfold writtenLabels
  rw [List.mem_filterMap]
  constructor
  · rintro ⟨⟨occurrence, name⟩, hx, hlabel⟩
    cases occurrence with
    | var _ | anon => cases hlabel
    | label written =>
        obtain rfl : written = label := Option.some.inj hlabel
        rcases names_written _ hx with h | h | h
        · cases h
        · have hname : written = name := Occurrence.label.inj h
          rwa [← hname] at hx
        · cases h
  · intro h
    exact ⟨_, h, rfl⟩

/-- Apart from each other, the names are labels exactly if they are written as labels. -/
theorem NamesApart.mem_writtenLabels_iff {trace : Trace RuleName} (h : NamesApart trace) :
    ∀ x ∈ names {} trace, x.2 ∈ writtenLabels trace ↔ x.1 = .label x.2 := by
  intro x hx
  rw [mem_writtenLabels]
  constructor
  · intro hlabel
    rcases names_written x hx with hx' | hx' | hx'
    · exact absurd rfl (h.apart _ hlabel x hx rfl (by rw [hx']; rfl))
    · exact hx'
    · exact absurd rfl (h.fresh x hx (.label x.2, x.2) hlabel hx' rfl (by simp))
  · intro hx'
    rw [← hx']
    exact hx

/-- A renaming after which the names are still apart does not identify any of them. -/
theorem NamesApart.renameElement_inj {trace trace' : Trace RuleName} {ρ : Bytes → Bytes}
    (h : NamesApart trace) (h' : NamesApart trace')
    (hnames : names {} trace' = (names {} trace).map (relabelName ρ))
    (hinj : Set.InjOn ρ {label | label ∈ writtenLabels trace}) :
    ∀ x ∈ names {} trace, ∀ y ∈ names {} trace,
      renameElement (writtenLabels trace) ρ (VarOrTerm.variable { name := x.2 }) =
        renameElement (writtenLabels trace) ρ (VarOrTerm.variable { name := y.2 }) →
      x.2 = y.2 := by
  -- a renamed label is a label of the other block, any other name is still there
  have hlabel : ∀ x ∈ names {} trace, x.2 ∈ writtenLabels trace →
      (.label (ρ x.2), ρ x.2) ∈ names {} trace' := by
    intro x hx hmem
    rw [hnames]
    exact List.mem_map_of_mem (f := relabelName ρ) (mem_writtenLabels.mp hmem)
  have hother : ∀ y ∈ names {} trace, y.2 ∉ writtenLabels trace →
      y ∈ names {} trace' ∧ (y.1.isBlank = false ∨ y.1 = .anon) := by
    intro y hy hmem
    have hkind : y.1 ≠ .label y.2 := fun hy' => hmem ((h.mem_writtenLabels_iff y hy).mpr hy')
    rw [hnames]
    obtain ⟨occurrence, name⟩ := y
    rcases names_written _ hy with hy' | hy' | hy' <;> simp only at hy' <;> subst hy'
    · exact ⟨List.mem_map_of_mem (f := relabelName ρ) hy, .inl rfl⟩
    · exact absurd rfl hkind
    · exact ⟨List.mem_map_of_mem (f := relabelName ρ) hy, .inr rfl⟩
  have hclash : ∀ x ∈ names {} trace, ∀ y ∈ names {} trace, x.2 ∈ writtenLabels trace →
      y.2 ∉ writtenLabels trace → ρ x.2 ≠ y.2 := by
    intro x hx y hy hmem hnot heq
    obtain ⟨hy', hvar | hanon⟩ := hother y hy hnot
    · exact h'.apart _ (hlabel x hx hmem) y hy' rfl hvar heq
    · exact h'.fresh y hy' _ (hlabel x hx hmem) hanon rfl (by simp) heq.symm
  intro x hx y hy heq
  by_cases hx' : x.2 ∈ writtenLabels trace <;> by_cases hy' : y.2 ∈ writtenLabels trace
  · rw [renameElement_label hx', renameElement_label hy'] at heq
    exact hinj hx' hy' (congrArg Variable.name (VarOrTerm.variable.inj heq))
  · rw [renameElement_label hx', renameElement_keep hy'] at heq
    exact absurd (congrArg Variable.name (VarOrTerm.variable.inj heq))
      (hclash x hx y hy hx' hy')
  · rw [renameElement_keep hx', renameElement_label hy'] at heq
    exact absurd (congrArg Variable.name (VarOrTerm.variable.inj heq)).symm
      (hclash y hy x hx hy' hx')
  · rw [renameElement_keep hx', renameElement_keep hy'] at heq
    exact congrArg Variable.name (VarOrTerm.variable.inj heq)

/-! ## When no variable is captured -/

/-- A label is not empty. -/
theorem blankNodeLabel_nonempty {text : Bytes} (h : Matches turtle .blankNodeLabel text) :
    text.drop 2 ≠ [] := by
  obtain ⟨rest, _, hrun⟩ := h
  obtain ⟨_, hbody, -⟩ := hrun.ref_ok
  obtain ⟨_, _, _, hunderscore, hmore, -⟩ := hbody.seq_ok
  obtain ⟨_, _, _, hcolon, hname, -⟩ := hmore.seq_ok
  have hfirst := hunderscore.consumes consuming_closed rfl
  have hsecond := hcolon.consumes consuming_closed rfl
  have hthird := hname.consumes consuming_closed rfl
  intro hnil
  have hlength := congrArg List.length hnil
  rw [List.length_drop, List.length_nil] at hlength
  rw [List.length_append] at hfirst
  omega

theorem names_nonempty {t : Tally} {trace : Trace RuleName}
    (h : ∀ entry ∈ trace, Matches turtle entry.1 entry.2) :
    ∀ x ∈ names t trace, x.1 = .label x.2 → x.2 ≠ [] := by
  induction trace generalizing t with
  | nil => simp [names]
  | cons entry trace ih =>
      obtain ⟨rule, text⟩ := entry
      intro x hx hlabel
      rcases List.mem_append.mp hx with hhere | hlater
      · cases rule <;> simp only [naming?, List.mem_singleton, List.not_mem_nil] at hhere
        case blankNodeLabel =>
            rw [hhere]
            exact blankNodeLabel_nonempty (h _ List.mem_cons_self)
        all_goals
          rw [hhere] at hlabel
          cases hlabel
      · exact ih (fun other hother => h other (List.mem_cons_of_mem _ hother)) x hlater hlabel

/-- With names apart, another block with renamed labels is the image of this one. -/
theorem NamesApart.renamesOnly {initial : PrefixMap} {document : Bytes} {outcome : Outcome}
    {trace : Trace RuleName} {final : State true} (happart : NamesApart trace)
    (hrun : Run turtle (.ref (.grammar true)) document outcome trace)
    (hactions : runActions trace (initialState true initial) = (final, none)) :
    RenamesOnly initial trace final := by
  intro ρ document' outcome' trace' hinj hrun' hessence
  have hpaired : Paired trace := Run.paired hrun (by decide)
  have hpaired' : Paired trace' := Run.paired hrun' (by decide)
  have hcounts : ({} : Tally).Counts (initialState true initial) := ⟨rfl, rfl, rfl⟩
  obtain ⟨pieces, hcut⟩ := Run.pieces (q := true) hrun (by decide)
  have hnames : ∀ x ∈ names {} (pieces.flatMap Piece.actions),
      x.2 ∈ writtenLabels trace ↔ x.1 = .label x.2 := by
    rw [← hcut.essence, names_essence]
    exact happart.mem_writtenLabels_iff
  have hdefault : [] ∉ writtenLabels trace := fun hmem =>
    names_nonempty hrun.trace_matches _ (mem_writtenLabels.mp hmem) rfl rfl
  have hstart : Image (renameElement (writtenLabels trace) ρ) (initialState true initial)
      (initialState true initial) := by
    have hkeep : Element.default true =
        renameElement (writtenLabels trace) ρ (Element.default true) :=
      (renameElement_keep hdefault).symm
    exact ⟨hkeep, rfl, rfl, rfl, ⟨rfl, rfl⟩, ⟨rfl, rfl⟩, rfl, rfl, hkeep, rfl, rfl, rfl, rfl,
      hkeep, rfl⟩
  have hpieces := hactions
  rw [runActions_eq_essence, hcut.essence] at hpieces
  obtain ⟨final', hfinal', himage⟩ :=
    hstart.relabel_pieces hcut.wellFormed hcounts hnames hpieces
  rw [← relabel_pieces hcut.wellFormed, ← hcut.essence, ← hessence,
    ← runActions_eq_essence] at hfinal'
  refine ⟨final', hfinal', himage.inserted, ?_⟩
  intro hnoCapture
  have happart' := (hpaired'.noCapture_iff hfinal').mp hnoCapture
  have hnames' : names {} trace' = (names {} trace).map (relabelName ρ) := by
    rw [← names_essence, hessence, names_relabel, names_essence]
  rw [hpaired.produced_eq hcounts hactions]
  rintro _ ⟨_, hx, rfl⟩ _ ⟨_, hy, rfl⟩ heq
  obtain ⟨x, hx', rfl⟩ := List.mem_map.mp hx
  obtain ⟨y, hy', rfl⟩ := List.mem_map.mp hy
  have hsame := happart.renameElement_inj happart' hnames' hinj x hx' y hy' heq
  exact congrArg (fun name => VarOrTerm.variable { name := name }) hsame

/-- In an accepted triples block no variable is captured exactly if the names of its
variables and blank nodes are apart. -/
theorem uncaptured_iff {initial : PrefixMap} {document : Bytes} {outcome : Outcome}
    {trace : Trace RuleName} {final : State true}
    (hrun : Run turtle (.ref (.grammar true)) document outcome trace)
    (hactions : runActions trace (initialState true initial) = (final, none)) :
    Uncaptured initial trace final ↔ NamesApart trace := by
  have hpaired : Paired trace := Run.paired hrun (by decide)
  constructor
  · intro h
    exact (hpaired.noCapture_iff hactions).mp h.noCapture
  · intro happart
    exact ⟨(hpaired.noCapture_iff hactions).mpr happart, happart.renamesOnly hrun hactions⟩

/-- A block with a variable, a label and a `[]`. -/
def apartBlock : Bytes := bytes "?x <p> _:y , [] . _:y <q> $x ."

theorem apartBlock_uncaptured : ∃ outcome trace final,
    Run turtle (.ref (.grammar true)) apartBlock outcome trace ∧
    runActions trace (initialState true []) = (final, none) ∧ (names {} trace).length = 5 ∧
    Uncaptured [] trace final := by
  obtain ⟨outcome, trace, final, hrun, -, hactions, hcheck⟩ :=
    exec_run true apartBlock
      (fun trace => decide ((names {} trace).length = 5 ∧ NamesApart trace)) (by decide +kernel)
  obtain ⟨hcount, happart⟩ := of_decide_eq_true hcheck
  exact ⟨outcome, trace, final, hrun, hactions, hcount,
    (uncaptured_iff hrun hactions).mpr happart⟩

/-- A block in which a label is written like a variable. -/
def capturingBlock : Bytes := bytes "?x <p> _:x ."

/-- Subject and object of the block are the same variable. -/
theorem capturingBlock_captured : ¬ ∀ (initial : PrefixMap) (document : Bytes)
    (outcome : Outcome) (trace : Trace RuleName) (final : State true),
    Run turtle (.ref (.grammar true)) document outcome trace → outcome ≠ .error →
    runActions trace (initialState true initial) = (final, none) →
    Uncaptured initial trace final := by
  intro hclaim
  obtain ⟨outcome, trace, final, hrun, houtcome, hactions, hcheck⟩ :=
    exec_run true capturingBlock (fun trace => decide (¬ NamesApart trace)) (by decide +kernel)
  have hpaired : Paired trace := Run.paired hrun (by decide)
  have huncaptured := hclaim [] capturingBlock outcome trace final hrun houtcome hactions
  exact of_decide_eq_true hcheck ((hpaired.noCapture_iff hactions).mp huncaptured.noCapture)

end RdfParser.Turtle
