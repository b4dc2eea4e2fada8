/-
  Turtle/Items.lean --- the context-free reading of a document.

  A document is a series of items, triples or directives, with any layout in front of each
  of them and behind the last one.  A statement is tried as triples first, so there is one
  directive that this reading leaves out: the one with `prefix` and the name in one word.
-/
import RdfParser.Turtle.Abandoned
import RdfParser.Turtle.Delimited
import RdfParser.Turtle.Recognition
import RdfParser.Turtle.Relayout

set_option autoImplicit false

namespace RdfParser.Turtle

open RdfParser.Foundation RdfParser.Rdf RdfParser.Peg RdfParser.Peg.Rule

/-! ## Derivations -/

/-- A directive with its tokens; behind the keyword `prefix` there is layout. -/
structure Directive.Derives (d : Directive) (layout : DirectiveLayout)
    (pre iri input rest : Bytes) : Prop where
  admits : d.Admits layout
  pnameNs : Matches turtle .pnameNs (pnameToken pre)
  iriref : Matches turtle .iriref (irirefToken iri)
  text : input = d.text layout pre iri ++ rest
  apart : d = .sparqlPrefix → layout.afterKeyword ≠ []

/-- Triples, or a directive. -/
inductive Item where
  | triples (statement : StatementTree)
  | directive (d : Directive) (layout : DirectiveLayout) (pre iri : Bytes)

def Item.Derives : Item → Bytes → Bytes → Prop
  | .triples statement, input, rest => ∃ m, Gap input m ∧ statement.Derives false m rest
  | .directive d layout pre iri, input, rest =>
      ∃ m, Gap input m ∧ d.Derives layout pre iri m rest

def ItemsDerive : List Item → Bytes → Bytes → Prop
  | [], input, rest => input = rest
  | item :: items, input, rest => ∃ m, item.Derives input m ∧ ItemsDerive items m rest

/-- The items of a document. -/
def DocumentDerives (items : List Item) (document : Bytes) : Prop :=
  items ≠ [] ∧ ∃ last, ItemsDerive items document last ∧ Gap last []

/-- The actions of an item. -/
def Item.actions : Item → Trace RuleName
  | .triples statement => statement.actions false ++ [(.statement, [])]
  | .directive d layout pre iri =>
      [(.iriref, irirefToken iri), (d.rule, d.text layout pre iri), (.statement, [])]

/-! ## What the items derive is matched -/

theorem pnameToken_starts {pre : Bytes} (h : Matches turtle .pnameNs (pnameToken pre))
    (more : Bytes) : StartsToken (pnameToken pre ++ more) := by
  have hascii : ∀ b ∈ nameStops, b.toNat < 128 := List.all_iff_forall_prop.mp (by decide)
  have havoids := h.avoids hascii inPrefix_closed rfl
  intro b hb
  have hmem : b ∈ pnameToken pre := by
    unfold pnameToken at hb ⊢
    cases pre with
    | nil => exact List.mem_of_mem_head? hb
    | cons c pre =>
        obtain rfl := Option.mem_some_iff.mp hb
        simp
  have hstops := havoids b hmem
  refine ⟨eq_false_of_ne_true fun hspace => hstops ?_, fun hhash => hstops (hhash ▸ by decide)⟩
  exact List.mem_append_right _ (mem_spaces.mpr hspace)

section Completeness

variable {d : Directive} {layout : DirectiveLayout} {pre iri input middle rest : Bytes}
  {actions left right : Trace RuleName}

theorem Yields.seqOf_cons {first : Rule RuleName} {rules : List (Rule RuleName)}
    (h₁ : Yields first input (.ok middle) left)
    (h₂ : Yields (seqOf rules) middle (.ok rest) right) :
    Yields (seqOf (first :: rules)) input (.ok rest) (left ++ right) := by
  obtain ⟨_, hfirst, rfl⟩ := h₁
  obtain ⟨_, hmore, rfl⟩ := h₂
  exact ⟨_, Run.seqOf_cons_iff.mpr ⟨_, _, _, hfirst, hmore, rfl⟩, essence_append _ _⟩

namespace Directive

theorem ending_yields (d : Directive) (hadmits : d.Admits layout) (rest : Bytes) :
    Yields (seqOf d.endingParts) (d.ending layout ++ rest) (.ok rest) [] := by
  unfold endingParts ending
  cases d.dotted with
  | false => exact ⟨[], .success, rfl⟩
  | true =>
      have hmark : Mark '.' (layout.afterIri ++ [char '.'] ++ rest) rest :=
        ⟨layout.afterIri, hadmits.afterIri, by simp⟩
      obtain ⟨hgap, hdot⟩ := hmark.yields (by decide)
      exact hgap.seq hdot

theorem iri_yields (d : Directive) (hadmits : d.Admits layout)
    (hiri : Matches turtle .iriref (irirefToken iri)) {gap : Bytes} (hgap : IsLayout gap)
    (rest : Bytes) :
    Yields (seqOf (.ref .ignored :: .ref .iriref :: d.endingParts))
      (gap ++ (irirefToken iri ++ (d.ending layout ++ rest))) (.ok rest)
      [(.iriref, irirefToken iri)] := by
  have hopen : StartsToken (irirefToken iri ++ (d.ending layout ++ rest)) :=
    startsToken_cons (by decide) (by decide)
  have hlayout := Gap.yields ⟨gap, hgap, rfl⟩ hopen
  have htoken := iriref_token hiri (d.ending layout ++ rest)
  exact hlayout.seqOf_cons (htoken.seqOf_cons (d.ending_yields hadmits rest))

theorem parts_yields (d : Directive) (h : d.Derives layout pre iri input rest) :
    Yields (seqOf d.parts) (layout.afterKeyword ++ (d.body layout pre iri ++ rest)) (.ok rest)
      [(.iriref, irirefToken iri)] := by
  unfold parts body
  cases d.declaresPrefix with
  | false => simpa using d.iri_yields h.admits h.iriref h.admits.afterKeyword rest
  | true =>
      have hiri := d.iri_yields h.admits h.iriref h.admits.afterName rest
      generalize hafter : layout.afterName ++ (irirefToken iri ++ (d.ending layout ++ rest)) = after
        at hiri
      obtain ⟨_, _, hrun⟩ := h.pnameNs
      obtain ⟨_, hrun⟩ := portable_pnameNs _ _ after _ hrun
      obtain ⟨text, htext, -, hessence⟩ := token_essence (by decide) hrun
      have hname : Yields (.ref .pnameNs) (pnameToken pre ++ after) (.ok after) [] :=
        ⟨_, hrun, hessence⟩
      have hlayout := Gap.yields ⟨layout.afterKeyword, h.admits.afterKeyword, rfl⟩
        (pnameToken_starts h.pnameNs after)
      have hall := hlayout.seqOf_cons (hname.seqOf_cons hiri)
      rw [← hafter] at hall
      simpa using hall

theorem Derives.yields (h : d.Derives layout pre iri input rest) :
    Yields (.ref d.rule) input (.ok rest)
      [(.iriref, irirefToken iri), (d.rule, d.text layout pre iri)] := by
  obtain ⟨_, hparts, hessence⟩ := d.parts_yields h
  have hbody := d.rule_iff.mpr ⟨_, _, _,
    Run.seqOf_byte_iff.mpr ⟨layout.keyword, h.admits.keyword, rfl, rfl⟩, hparts, rfl⟩
  have htext : layout.keyword ++ (layout.afterKeyword ++ (d.body layout pre iri ++ rest)) =
      d.text layout pre iri ++ rest := by
    simp [Directive.text]
  rw [htext, ← h.text] at hbody
  have hmatch : Yields (turtle d.rule) input (.ok rest) [(.iriref, irirefToken iri)] :=
    ⟨_, hbody, hessence⟩
  have hconsumed : consumed input rest = d.text layout pre iri := by rw [h.text, consumed_append]
  have hrule := hmatch.ref_ok
  rw [hconsumed] at hrule
  cases d <;> exact hrule

/-- The rules for directives that are tried before the one that matches fail. -/
theorem directive_yields (h : Yields (.ref d.rule) input (.ok rest) actions) :
    Yields (.ref .directive) input (.ok rest) actions := by
  refine .ref rfl ?_
  obtain ⟨_, hrun, -⟩ := id h
  cases d with
  | prefixID => exact h.choose
  | base =>
      obtain ⟨word, more, _, hword, rfl, -⟩ := keyword_begins hrun
      obtain rfl : word = bytes "@base" := by
        have hforall : List.Forall₂ (fun b c => (b == c) = true) word (bytes "@base") :=
          List.forall₂_map_right_iff.mp hword
        exact (List.forall₂_eq_eq_eq ▸ hforall.imp fun _ _ hb => beq_iff_eq.mp hb)
      have hat : Yields (.one (char '@')) (bytes "@base" ++ more) (.ok _) [] :=
        ⟨[], .byteOk (beq_self_eq_true _), rfl⟩
      have hprefixID : Yields (.ref .prefixID) (bytes "@base" ++ more) .fail [] :=
        .ref_fail (Yields.stop (hat.seq (Yields.stop (ch_fails (by decide) _))))
      exact hprefixID.skip h.choose
  | sparqlBase =>
      obtain ⟨b, more, rfl, hb⟩ := letter_begins (d := .sparqlBase) rfl hrun
      have hprefixID := letter_refused .prefixID hb (by simp) more
      have hat := letter_refused .base hb (by simp) more
      exact hprefixID.skip (hat.skip h.choose)
  | sparqlPrefix =>
      obtain ⟨b, more, rfl, hb⟩ := letter_begins (d := .sparqlPrefix) rfl hrun
      have hprefixID := letter_refused .prefixID hb (by simp) more
      have hat := letter_refused .base hb (by simp) more
      have hbase := letter_refused .sparqlBase hb (by simp) more
      exact hprefixID.skip (hat.skip (hbase.skip h))

/-- The layout keeps the keyword and the name apart. -/
theorem Derives.unglued (h : d.Derives layout pre iri input rest) :
    d = .sparqlPrefix → ¬ StartsToken (input.drop 6) := by
  rintro rfl
  have hsix : layout.keyword.length = 6 := h.admits.keyword.length_eq
  have hdrop : input.drop 6 =
      layout.afterKeyword ++ (sparqlPrefix.body layout pre iri ++ rest) := by
    rw [h.text, Directive.text, List.append_assoc, List.append_assoc, List.drop_left' hsix]
  rw [hdrop]
  intro hstarts
  obtain ⟨b, more, hcons⟩ := List.exists_cons_of_ne_nil (h.apart rfl)
  have hlayout := h.admits.afterKeyword
  rw [hcons] at hstarts hlayout
  obtain ⟨hspace, hhash⟩ := hstarts b rfl
  cases hlayout with
  | space hb _ => exact absurd (hb.symm.trans hspace) (by decide)
  | comment _ _ _ => exact hhash rfl

theorem Derives.starts (h : d.Derives layout pre iri input rest) : StartsToken input :=
  startsToken_of_yields (by cases d <;> decide) h.yields

end Directive

theorem Item.Derives.yields {item : Item} (h : item.Derives input rest) :
    Yields iteration input (.ok rest) item.actions := by
  cases item with
  | triples statement =>
      obtain ⟨m, hgap, hstatement⟩ := h
      have htriples := hstatement.yields
      have hstarts : StartsToken m := startsToken_of_yields (by decide) htriples
      have hbody : Yields (turtle .statement) m (.ok rest) (statement.actions false) :=
        htriples.choose
      exact (hgap.yields hstarts).seq hbody.ref_ok
  | directive d layout pre iri =>
      obtain ⟨m, hgap, hdirective⟩ := h
      have hrule := hdirective.yields
      obtain ⟨_, hrun, -⟩ := id hrule
      have htriples := (d.termless hrun hdirective.unglued).tripleExtended
      have hbody : Yields (turtle .statement) m (.ok rest)
          [(.iriref, irirefToken iri), (d.rule, d.text layout pre iri)] :=
        htriples.skip (Directive.directive_yields hrule)
      exact (hgap.yields hdirective.starts).seq hbody.ref_ok

theorem ItemsDerive.yields {items : List Item} (h : ItemsDerive items input middle)
    (hmore : Yields (.star iteration) middle (.ok rest) actions) :
    Yields (.star iteration) input (.ok rest) (items.flatMap Item.actions ++ actions) := by
  induction items generalizing input with
  | nil =>
      obtain rfl : input = middle := h
      exact hmore
  | cons item items ih =>
      obtain ⟨m, hitem, hitems⟩ := h
      rw [List.flatMap_cons, List.append_assoc]
      exact hitem.yields.again (ih hitems)

theorem Gap.ends {last : Bytes} (h : Gap last []) :
    ∃ t, Run turtle (.ref .ignored) last (.ok []) t := by
  obtain ⟨t, hrun, -⟩ := h.yields (by simp [StartsToken])
  exact ⟨t, hrun⟩

theorem DocumentDerives.yields {items : List Item} {document : Bytes}
    (h : DocumentDerives items document) :
    ∃ last, Yields (plus iteration) document (.ok last) (items.flatMap Item.actions) ∧
      ∃ t, Run turtle (.ref .ignored) last (.ok []) t := by
  obtain ⟨hne, last, hitems, hgap⟩ := h
  obtain ⟨t, hend⟩ := hgap.ends
  obtain ⟨item, items, rfl⟩ := List.exists_cons_of_ne_nil hne
  obtain ⟨m, hitem, hitems⟩ := hitems
  have hmore := hitems.yields (iteration_ends hend).done
  rw [List.append_nil] at hmore
  exact ⟨last, hitem.yields.seq hmore, t, hend⟩

end Completeness

/-! ## What is matched the items derive -/

section Soundness

variable {input rest document : Bytes} {t k : Trace RuleName}

/-- No statement of the document is such a directive. -/
def Unglued (document : Bytes) : Prop :=
  ∀ input rest t k, Statements document input t k → ¬ Glued input rest

theorem Directive.derives_of_run {d : Directive} (h : Run turtle (.ref d.rule) input (.ok rest) t)
    (hname : d = .sparqlPrefix → ¬ StartsToken (input.drop 6)) :
    ∃ layout pre iri, d.Derives layout pre iri input rest := by
  obtain ⟨layout, pre, iri, hadmits, hwrites⟩ := d.writes_of_matches h.matches_consumed
  refine ⟨layout, pre, iri, hadmits, hwrites.pnameNs, hwrites.iriref, ?_, ?_⟩
  · rw [← hwrites.text_eq, h.consumed_append_rest]
  · rintro rfl hnone
    refine hname rfl ?_
    have hsix : layout.keyword.length = 6 := hadmits.keyword.length_eq
    have hdrop : input.drop 6 = pnameToken pre ++
        (layout.afterName ++ (irirefToken iri ++ sparqlPrefix.ending layout) ++ rest) := by
      rw [← h.consumed_append_rest, hwrites.text_eq, Directive.text, List.append_assoc,
        List.drop_left' hsix, hnone]
      simp [Directive.body, Directive.declaresPrefix]
    rw [hdrop]
    exact pnameToken_starts hwrites.pnameNs _

theorem iteration_derives (h : Run turtle iteration input (.ok rest) t)
    (hglued : ¬ Glued input rest) : ∃ item : Item, item.Derives input rest := by
  obtain ⟨m, _, _, hlayout, hstatement, -⟩ := h.seq_ok
  have hgap := gap_of_run hlayout
  obtain ⟨_, hbody, -⟩ := hstatement.ref_ok
  rcases hbody.sor_ok with htriples | ⟨_, _, hfail, hdirective, -⟩
  · obtain ⟨statement, hstatement⟩ := statement_derives htriples
    exact ⟨.triples statement, m, hgap, hstatement⟩
  · obtain ⟨_, hkeeps⟩ := hdirective.keeps rfl
    obtain ⟨d, _, hrule⟩ := Directive.of_directive hkeeps
    have hname : d = .sparqlPrefix → ¬ StartsToken (m.drop 6) := by
      rintro rfl hstarts
      exact hglued ⟨m, _, _, _, hlayout, hfail, hrule, hstarts⟩
    obtain ⟨layout, pre, iri, hderives⟩ := Directive.derives_of_run hrule hname
    exact ⟨.directive d layout pre iri, m, hgap, hderives⟩

theorem ItemsDerive.snoc {items : List Item} {item : Item} {middle : Bytes}
    (h : ItemsDerive items input middle) (hitem : item.Derives middle rest) :
    ItemsDerive (items ++ [item]) input rest := by
  induction items generalizing input with
  | nil =>
      obtain rfl : input = middle := h
      exact ⟨rest, hitem, rfl⟩
  | cons first items ih =>
      obtain ⟨m, hfirst, hitems⟩ := h
      exact ⟨m, hfirst, ih hitems⟩

theorem Statements.items (h : Statements document rest t k) (hunglued : Unglued document) :
    ∃ items, ItemsDerive items document rest := by
  induction h with
  | nil => exact ⟨[], rfl⟩
  | snoc h hrun hkeeps ih =>
      obtain ⟨items, hitems⟩ := ih
      obtain ⟨item, hitem⟩ := iteration_derives hrun (hunglued _ _ _ _ h)
      exact ⟨items ++ [item], hitems.snoc hitem⟩

/-! ### Derived documents -/

/-- Where a statement of a derived document begins, one of its items does. -/
theorem Statements.behind {items : List Item} {last : Bytes} (h : Statements document rest t k)
    (hitems : ItemsDerive items document last) (hlast : Gap last []) :
    ∃ behind, ItemsDerive behind rest last := by
  induction h with
  | nil => exact ⟨items, hitems⟩
  | @snoc input rest _ _ _ _ h hrun hkeeps ih =>
      obtain ⟨behind, hbehind⟩ := ih
      cases behind with
      | nil =>
          obtain rfl : input = last := hbehind
          obtain ⟨_, hend⟩ := hlast.ends
          cases ((iteration_ends hend).unique ⟨_, hrun, rfl⟩).1
      | cons item behind =>
          obtain ⟨m, hitem, hbehind⟩ := hbehind
          obtain ⟨heq, -⟩ := hitem.yields.unique ⟨_, hrun, rfl⟩
          rw [Outcome.ok.inj heq] at hbehind
          exact ⟨behind, hbehind⟩

theorem Item.Derives.unglued {item : Item} (h : item.Derives input rest) :
    ¬ Glued input rest := by
  rintro ⟨middle, _, _, _, hlayout, hfail, hrule, hstarts⟩
  cases item with
  | triples statement =>
      obtain ⟨m, hgap, hstatement⟩ := h
      have htriples := hstatement.yields
      have hm : StartsToken m := startsToken_of_yields (by decide) htriples
      obtain ⟨heq, -⟩ := (hgap.yields hm).unique ⟨_, hlayout, rfl⟩
      obtain rfl := Outcome.ok.inj heq
      cases (htriples.unique ⟨_, hfail, rfl⟩).1
  | directive d layout pre iri =>
      obtain ⟨m, hgap, hdirective⟩ := h
      obtain ⟨heq, -⟩ := (hgap.yields hdirective.starts).unique ⟨_, hlayout, rfl⟩
      obtain rfl := Outcome.ok.inj heq
      by_cases hd : d = .sparqlPrefix
      · exact hdirective.unglued hd hstarts
      · obtain ⟨b, more, rfl, hb⟩ := Directive.letter_begins (d := .sparqlPrefix) rfl hrule
        cases (hdirective.yields.unique (Directive.letter_refused d hb hd more)).1

theorem DocumentDerives.unglued {items : List Item} (h : DocumentDerives items document) :
    Unglued document := by
  obtain ⟨-, last, hitems, hlast⟩ := h
  intro input rest t k hstatements hglued
  obtain ⟨behind, hbehind⟩ := hstatements.behind hitems hlast
  obtain ⟨_, hrun⟩ := hglued.continues
  cases behind with
  | nil =>
      obtain rfl : input = last := hbehind
      obtain ⟨_, hend⟩ := hlast.ends
      cases ((iteration_ends hend).unique ⟨_, hrun, rfl⟩).1
  | cons item behind =>
      obtain ⟨m, hitem, -⟩ := hbehind
      obtain ⟨heq, -⟩ := hitem.yields.unique ⟨_, hrun, rfl⟩
      rw [Outcome.ok.inj heq] at hitem
      exact hitem.unglued hglued

/-- What the grammar matches as a document the items derive. -/
theorem document_derives {last : Bytes} {actions : Trace RuleName} (hunglued : Unglued document)
    (hplus : Yields (plus iteration) document (.ok last) actions)
    (hend : Run turtle (.ref .ignored) last (.ok []) t) :
    ∃ items, DocumentDerives items document ∧ actions = items.flatMap Item.actions := by
  obtain ⟨_, hrun, -⟩ := id hplus
  obtain ⟨_, _, _, hfirst, hmore, -⟩ := hrun.seq_ok
  have hstar := Run.starNext hfirst hmore
  obtain ⟨_, hkept⟩ := hstar.keeps rfl
  obtain ⟨_, _, -, hstatements, -⟩ := Statements.nil.to_star hkept hstar
  obtain ⟨items, hitems⟩ := hstatements.items hunglued
  have hne : items ≠ [] := by
    rintro rfl
    obtain rfl : document = last := hitems
    cases ((iteration_ends hend).unique ⟨_, hfirst, rfl⟩).1
  have hdocument : DocumentDerives items document := ⟨hne, last, hitems, gap_of_run hend⟩
  obtain ⟨_, hyields, -⟩ := hdocument.yields
  exact ⟨items, hdocument, (hplus.unique hyields).2⟩

end Soundness

end RdfParser.Turtle
