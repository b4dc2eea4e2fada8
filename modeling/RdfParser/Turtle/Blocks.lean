/-
  Turtle/Blocks.lean --- what a triples block of a SPARQL query stands for.

  A triples block is a series of statements, each with layout in front of it.  It has no
  directives: the prefixes are those the parser is given, and there is no base.  So every
  block that is accepted has a context-free reading, and means what the builder makes of
  its statements.
-/
import RdfParser.Turtle.Interpretation
import RdfParser.Turtle.TwoModes

set_option autoImplicit false

namespace RdfParser.Turtle

open RdfParser.Foundation RdfParser.Rdf RdfParser.Peg RdfParser.Peg.Rule

/-! ## Derivations -/

def StatementsDerive (q : Bool) : List StatementTree → Bytes → Bytes → Prop
  | [], input, rest => input = rest
  | statement :: statements, input, rest =>
      ∃ m₁ m₂, Gap input m₁ ∧ statement.Derives q m₁ m₂ ∧ StatementsDerive q statements m₂ rest

/-- The statements of a triples block. -/
def BlockDerives (statements : List StatementTree) (block : Bytes) : Prop :=
  statements ≠ [] ∧ ∃ last, StatementsDerive true statements block last ∧ Gap last []

section

variable {q : Bool} {input middle rest : Bytes} {statements : List StatementTree}

theorem StatementsDerive.legal (h : StatementsDerive q statements input rest) :
    ∀ statement ∈ statements, statement.Legal q := by
  induction statements generalizing input with
  | nil => exact fun _ hmem => by cases hmem
  | cons first statements ih =>
      obtain ⟨_, _, -, hfirst, hmore⟩ := h
      exact List.forall_mem_cons.mpr ⟨hfirst.legal, ih hmore⟩

theorem blockIteration_yields {statement : StatementTree} {m : Bytes} (hgap : Gap input m)
    (h : statement.Derives true m rest) :
    Yields blockIteration input (.ok rest) (statement.actions true) := by
  have hstatement := h.yields
  exact (hgap.yields (startsToken_of_yields (by decide) hstatement)).seq hstatement

theorem StatementsDerive.yields {actions : Trace RuleName}
    (h : StatementsDerive true statements input middle)
    (hmore : Yields (.star blockIteration) middle (.ok rest) actions) :
    Yields (.star blockIteration) input (.ok rest)
      (statements.flatMap (StatementTree.actions true) ++ actions) := by
  induction statements generalizing input with
  | nil =>
      obtain rfl : input = middle := h
      exact hmore
  | cons statement statements ih =>
      obtain ⟨_, _, hgap, hfirst, hstatements⟩ := h
      rw [List.flatMap_cons, List.append_assoc]
      exact (blockIteration_yields hgap hfirst).again (ih hstatements)

theorem blockIteration_derives {t : Trace RuleName}
    (h : Run turtle blockIteration input (.ok rest) t) :
    ∃ (m : Bytes) (statement : StatementTree), Gap input m ∧ statement.Derives true m rest := by
  obtain ⟨m, _, _, hlayout, hrun, -⟩ := h.seq_ok
  obtain ⟨statement, hstatement⟩ := statement_derives hrun
  exact ⟨m, statement, gap_of_run hlayout, hstatement⟩

theorem statements_derive {t : Trace RuleName}
    (h : Run turtle (.star blockIteration) input (.ok rest) t) :
    ∃ statements, StatementsDerive true statements input rest := by
  have hchain : Relation.ReflTransGen (fun start stop => ∃ (m : Bytes) (statement : StatementTree),
      Gap start m ∧ statement.Derives true m stop) input rest :=
    h.star_chain fun _ _ _ _ hrun => blockIteration_derives hrun
  clear h
  induction hchain using Relation.ReflTransGen.head_induction_on with
  | refl => exact ⟨[], rfl⟩
  | head hfirst _ ih =>
      obtain ⟨m, statement, hgap, hstatement⟩ := hfirst
      obtain ⟨statements, hstatements⟩ := ih
      exact ⟨statement :: statements, m, _, hgap, hstatement, hstatements⟩

end

section Block

variable {block last : Bytes} {statements : List StatementTree}

theorem BlockDerives.yields (h : BlockDerives statements block) :
    ∃ last, Yields (plus blockIteration) block (.ok last)
        (statements.flatMap (StatementTree.actions true)) ∧
      ∃ t, Run turtle (.ref .ignored) last (.ok []) t := by
  obtain ⟨hne, last, hderives, hgap⟩ := h
  obtain ⟨t, hend⟩ := hgap.ends
  obtain ⟨statement, statements, rfl⟩ := List.exists_cons_of_ne_nil hne
  obtain ⟨_, _, hfirst, hstatement, hstatements⟩ := hderives
  have hmore := hstatements.yields (blockIteration_ends hend).done
  rw [List.append_nil] at hmore
  exact ⟨last, (blockIteration_yields hfirst hstatement).seq hmore, t, hend⟩

theorem block_derives {t k : Trace RuleName}
    (h : Run turtle (plus blockIteration) block (.ok last) t)
    (hend : Run turtle (.ref .ignored) last (.ok []) k) :
    ∃ statements, BlockDerives statements block := by
  obtain ⟨_, _, _, hfirst, hmore, -⟩ := h.seq_ok
  obtain ⟨m, statement, hgap, hstatement⟩ := blockIteration_derives hfirst
  obtain ⟨statements, hstatements⟩ := statements_derive hmore
  exact ⟨statement :: statements, by simp, last, ⟨m, _, hgap, hstatement, hstatements⟩,
    gap_of_run hend⟩

/-- A triples block is accepted if it is read to its end and its actions run. -/
theorem blockAccepts_iff {prefixMap : PrefixMap} {final : State true} :
    Accepts prefixMap block final ↔
      ∃ last actions, Yields (plus blockIteration) block (.ok last) actions ∧
        (∃ t, Run turtle (.ref .ignored) last (.ok []) t) ∧
        runActions actions (initialState true prefixMap) = (final, none) := by
  have hclosing : ∀ {all t : Trace RuleName} {last : Bytes},
      Run turtle (.ref .ignored) last (.ok []) t →
      essence (all ++ t ++ closing .triplesBlock block (.ok []) ++
        closing (.grammar true) block (.ok [])) = essence all := by
    intro all t last hignored
    have hnone : essence t = [] :=
      essence_within (hignored.trace_names silent_closed (by decide))
    have hblock : essence (closing .triplesBlock block (.ok [])) = [] := rfl
    have hgrammar : essence (closing (.grammar true) block (.ok [])) = [] := rfl
    rw [essence_append, essence_append, essence_append, hnone, hblock, hgrammar, List.append_nil,
      List.append_nil, List.append_nil]
  constructor
  · rintro ⟨outcome, hne, trace, hrun, hact⟩
    cases hrun with
    | ref hbody =>
        have hmust : Run turtle (.seq (.must (.ref .triplesBlock)) (.must .eof)) block outcome _ :=
          hbody
        obtain ⟨inner, hblock, rfl⟩ := must_document_run hmust
        obtain rfl := documentOutcome_ok hne
        obtain ⟨_, hparts, rfl⟩ := hblock.ref_ok
        obtain ⟨last, all, t, hplus, hignored, rfl⟩ := hparts.seq_ok
        refine ⟨last, _, ⟨all, hplus, rfl⟩, ⟨t, hignored⟩, ?_⟩
        rw [← hclosing hignored, ← runActions_eq_essence]
        exact hact
  · rintro ⟨last, _, ⟨all, hplus, rfl⟩, ⟨t, hignored⟩, hact⟩
    have hblock : Run turtle (.ref .triplesBlock) block (.ok []) _ := .ref (.seqNext hplus hignored)
    have hgrammar : Run turtle (.ref (.grammar true)) block (.ok []) _ :=
      .ref (.seqNext (.must hblock) (.must .eofOk))
    refine ⟨.ok [], by simp, _, hgrammar, ?_⟩
    rw [List.append_nil, runActions_eq_essence, hclosing hignored]
    exact hact

end Block

/-! ## Meaning -/

section Meaning

variable {q : Bool} {c : Scope q} {s s₁ : State q} {trees : List StatementTree}
  {statements : List (Statement q)}

theorem statements_run (hlegal : ∀ tree ∈ trees, tree.Legal q) (h : c.Holds s)
    (hresolve : trees.mapM (StatementTree.resolve q c.prefixMap c.base) = .ok statements) :
    ∃ s₁, runActions (trees.flatMap (StatementTree.actions q)) s = (s₁, none) ∧
      Scope.Holds { c with book := bookAfter statements c.book } s₁ := by
  induction trees generalizing c s statements with
  | nil =>
      obtain rfl := Except.ok.inj hresolve
      exact ⟨s, rfl, h⟩
  | cons tree trees ih =>
      obtain ⟨htree, hmore⟩ := List.forall_mem_cons.mp hlegal
      rw [List.mapM_cons] at hresolve
      obtain ⟨st, hst, hresolve⟩ := ok_of_bind hresolve
      obtain ⟨rest, hrest, hpure⟩ := ok_of_bind hresolve
      obtain rfl := Except.ok.inj hpure
      obtain ⟨s₂, hrun, hs₂⟩ := StatementTree.run_ok htree h hst
      rw [List.flatMap_cons, runActions_append, hrun]
      exact ih (c := { c with book := st.after c.book }) hmore hs₂ hrest

theorem statements_read (hlegal : ∀ tree ∈ trees, tree.Legal q) (h : c.Holds s)
    (hrun : runActions (trees.flatMap (StatementTree.actions q)) s = (s₁, none)) :
    ∃ statements, trees.mapM (StatementTree.resolve q c.prefixMap c.base) = .ok statements := by
  induction trees generalizing c s with
  | nil => exact ⟨[], rfl⟩
  | cons tree trees ih =>
      obtain ⟨htree, hmore⟩ := List.forall_mem_cons.mp hlegal
      rw [List.flatMap_cons] at hrun
      obtain ⟨s₂, hfirst, hrest⟩ := runActions_append_inv hrun
      obtain ⟨st, hst, hs₂⟩ := StatementTree.run_inv htree h hfirst
      obtain ⟨statements, hstatements⟩ := ih hmore hs₂ hrest
      refine ⟨st :: statements, ?_⟩
      rw [List.mapM_cons, hst]
      simp only [bind, Except.bind]
      rw [hstatements]
      rfl

theorem scope_initial (q : Bool) (prefixMap : PrefixMap) :
    Scope.Holds ⟨prefixMap, [], (initialState q prefixMap).book⟩ (initialState q prefixMap) :=
  ⟨⟨⟨rfl, rfl⟩, rfl, rfl⟩, rfl, rfl, rfl⟩

end Meaning

/-- The parser for triples blocks accepts exactly the blocks that have a reading whose
spellings stand for terms or variables, and delivers what the builder makes of it. -/
theorem blocks_mean {prefixMap : PrefixMap} {block : Bytes} {patterns : List (Triple true)} :
    Delivers prefixMap block patterns ↔
      ∃ trees statements, BlockDerives trees block ∧
        trees.mapM (StatementTree.resolve true prefixMap []) = .ok statements ∧
        delivered prefixMap statements = patterns := by
  have hstart := scope_initial true prefixMap
  constructor
  · rintro ⟨final, haccepts, rfl⟩
    obtain ⟨last, actions, hplus, ⟨t, hend⟩, hrun⟩ := blockAccepts_iff.mp haccepts
    obtain ⟨_, hmatch, -⟩ := id hplus
    obtain ⟨trees, hderives⟩ := block_derives hmatch hend
    obtain ⟨_, hyields, -⟩ := hderives.yields
    rw [(hplus.unique hyields).2] at hrun
    obtain ⟨-, _, hstatements, -⟩ := id hderives
    obtain ⟨statements, hresolve⟩ := statements_read hstatements.legal hstart hrun
    obtain ⟨s₁, hrun₁, hs₁⟩ := statements_run hstatements.legal hstart hresolve
    rw [hrun] at hrun₁
    obtain rfl := (Prod.mk.inj hrun₁).1
    exact ⟨trees, statements, hderives, hresolve, congrArg PairBook.inserted hs₁.book.symm⟩
  · rintro ⟨trees, statements, hderives, hresolve, rfl⟩
    obtain ⟨last, hyields, hend⟩ := hderives.yields
    obtain ⟨-, _, hstatements, -⟩ := hderives
    obtain ⟨s₁, hrun, hs₁⟩ := statements_run hstatements.legal hstart hresolve
    exact ⟨s₁, blockAccepts_iff.mpr ⟨last, _, hyields, hend, hrun⟩,
      congrArg PairBook.inserted hs₁.book⟩

end RdfParser.Turtle
