/-
  Turtle/Agreement.lean --- the entry points of the parsers agree.

  Sources: the constructors in `BaseStringParser.hpp`, and `Dice/RDF/ParseTerm.hpp`.

  A parser can be given prefixes, and a document can declare them: it makes no difference
  which of the two happens.  A term can be parsed on its own, or as the object of a
  statement: both find the same term, or none.
-/
import RdfParser.Turtle.Interpretation
import RdfParser.Turtle.ParseTerm

set_option autoImplicit false

namespace RdfParser.Turtle

open RdfParser.Foundation RdfParser.Rdf RdfParser.Peg RdfParser.Peg.Rule

/-! ## Given prefixes -/

/-- `@prefix pre: <value> .` -/
def prefixDirective (pre value : Bytes) : Item :=
  .directive .prefixID ⟨bytes "@prefix", bytes " ", bytes " ", bytes " "⟩ pre value

/-- The directives that declare some prefixes. -/
def prologue (prefixMap : PrefixMap) : List Item :=
  prefixMap.map fun entry => prefixDirective entry.1 entry.2

section Prefixes

variable {input last document : Bytes} {items : List Item} {prefixMap : PrefixMap}

theorem IsLayout.gap {gap : Bytes} (hgap : IsLayout gap) {m : Bytes} (h : Gap input m) :
    Gap (gap ++ input) m := by
  obtain ⟨layout, hlayout, rfl⟩ := h
  exact ⟨gap ++ layout, hgap.append hlayout, (List.append_assoc ..).symm⟩

theorem Item.Derives.indent {item : Item} (h : item.Derives input last) {gap : Bytes}
    (hgap : IsLayout gap) : item.Derives (gap ++ input) last := by
  cases item with
  | triples statement =>
      obtain ⟨m, hlayout, hstatement⟩ := h
      exact ⟨m, hgap.gap hlayout, hstatement⟩
  | directive d layout pre iri =>
      obtain ⟨m, hlayout, hdirective⟩ := h
      exact ⟨m, hgap.gap hlayout, hdirective⟩

/-- Items in normal form may be put in front of any others. -/
theorem ItemsDerive.behind {front : List Item} (hfront : ∀ item ∈ front, item.Writable)
    (h : ItemsDerive items document last) (hne : items ≠ []) {gap : Bytes} (hgap : IsLayout gap) :
    ItemsDerive (front ++ items) (gap ++ (renderItems front ++ document)) last := by
  induction front generalizing gap with
  | nil =>
      obtain ⟨item, items, rfl⟩ := List.exists_cons_of_ne_nil hne
      obtain ⟨m, hitem, hmore⟩ := h
      exact ⟨m, hitem.indent hgap, hmore⟩
  | cons item front ih =>
      obtain ⟨hitem, hmore⟩ := List.forall_mem_cons.mp hfront
      have hnewline : IsLayout [char '\n'] := .space (by decide) .nil
      have hrest := ih hmore hnewline
      refine ⟨[char '\n'] ++ (renderItems front ++ document), ?_, hrest⟩
      have hderives :=
        item.derives_render hitem hgap ([char '\n'] ++ (renderItems front ++ document))
      simpa [renderItems] using hderives

theorem DocumentDerives.behind {front : List Item} (hfront : ∀ item ∈ front, item.Writable)
    (h : DocumentDerives items document) :
    DocumentDerives (front ++ items) (renderItems front ++ document) := by
  obtain ⟨hne, last, hitems, hlast⟩ := h
  exact ⟨by simp [hne], last, hitems.behind hfront hne .nil, hlast⟩

/-- A directive that can be written is the text of its tokens. -/
theorem writes_of_writable {d : Directive} {layout : DirectiveLayout} {pre iri : Bytes}
    (h : (Item.directive d layout pre iri).Writable) :
    d.Writes layout pre iri (d.text layout pre iri) := by
  obtain ⟨hadmits, hname, hiri, hapart⟩ := h
  have hderives : d.Derives layout pre iri (d.text layout pre iri ++ []) [] :=
    ⟨hadmits, hname, hiri, rfl, hapart⟩
  obtain ⟨_, hrun, -⟩ := hderives.yields
  exact ⟨⟨[], _, hrun⟩, hname, hiri, rfl⟩

/-- The directive declares its prefix. -/
theorem prefixDirective_read {pre value : Bytes} (h : (prefixDirective pre value).Writable) :
    Directive.prefixID.read ⟨bytes "@prefix", bytes " ", bytes " ", bytes " "⟩ pre value
      prefixMap [] = .ok (prefixMap.emplace pre value, []) := by
  have hreads := Directive.reads_of_spacedOut (q := false) h.1 (by decide) (writes_of_writable h)
  have harguments := (Directive.reads_prefix_iff rfl).mp hreads
  unfold Directive.read Directive.bind
  rw [iriref_uri, harguments]
  rfl

theorem resolveItems_prologue {entries : PrefixMap}
    (h : ∀ entry ∈ entries, (prefixDirective entry.1 entry.2).Writable) :
    resolveItems (prologue entries ++ items) prefixMap [] =
      resolveItems items (entries.foldl (fun map entry => map.emplace entry.1 entry.2) prefixMap)
        [] := by
  induction entries generalizing prefixMap with
  | nil => rfl
  | cons entry entries ih =>
      obtain ⟨hentry, hmore⟩ := List.forall_mem_cons.mp h
      have hread := @prefixDirective_read prefixMap entry.1 entry.2 hentry
      rw [prologue, List.map_cons, List.cons_append, prefixDirective, resolveItems, hread]
      exact ih hmore

/-- Declaring the entries of a map one after the other gives the map. -/
theorem foldl_emplace {front entries : PrefixMap}
    (h : ((front ++ entries).map Prod.fst).Nodup) :
    entries.foldl (fun map entry => map.emplace entry.1 entry.2) front = front ++ entries := by
  induction entries generalizing front with
  | nil => exact (List.append_nil front).symm
  | cons entry entries ih =>
      have hnew : front.find entry.1 = none := by
        unfold PrefixMap.find
        rw [Option.map_eq_none_iff, List.find?_eq_none]
        intro other hother heq
        rw [List.map_append, List.nodup_append] at h
        exact h.2.2 _ (List.mem_map_of_mem hother) _ (List.mem_map_of_mem List.mem_cons_self)
          (by simpa using heq)
      have hemplace : front.emplace entry.1 entry.2 = front ++ [entry] := by
        rw [PrefixMap.emplace, hnew]
      rw [List.foldl_cons, hemplace, ih (by simpa using h), List.append_assoc,
        List.singleton_append]

/-- Prefixes that are given to a parser and prefixes that a document declares in its first
lines are the same to it. -/
theorem given_prefixes (hkeys : (prefixMap.map Prod.fst).Nodup)
    (hwritable : ∀ entry ∈ prefixMap, (prefixDirective entry.1 entry.2).Writable)
    (h : DocumentDerives items document) (triples : List (Triple false)) :
    Delivers prefixMap document triples ↔
      Delivers [] (renderItems (prologue prefixMap) ++ document) triples := by
  have hfront : ∀ item ∈ prologue prefixMap, item.Writable := by
    intro item hitem
    obtain ⟨entry, hentry, rfl⟩ := List.mem_map.mp hitem
    exact hwritable entry hentry
  have hresolve : resolveItems (prologue prefixMap ++ items) [] [] =
      resolveItems items prefixMap [] := by
    have hmap := @foldl_emplace [] prefixMap hkeys
    rw [resolveItems_prologue hwritable, hmap, List.nil_append]
  rw [h.means, (h.behind hfront).means, hresolve]
  rfl

end Prefixes

/-- `p:s a [ <q> ( 1 [] ) ] .`, given the prefix `p`. -/
theorem sample_given : ∃ triples : List (Triple false),
    Delivers [(bytes "p", bytes "i#")] (renderItems [sampleTriples]) triples := by
  obtain ⟨-, _, hitems, -⟩ := sample_derives
  obtain ⟨hdirective, htriples⟩ := List.forall_mem_cons.mp hitems.writable
  obtain ⟨statements, hresolve, -⟩ := sample_resolves
  have hdelivers := sample_derives.means.mpr ⟨statements, hresolve, rfl⟩
  refine ⟨_, (given_prefixes (by decide) ?_ (renderItems_derives (by simp) htriples) _).mpr
    hdelivers⟩
  exact List.forall_mem_singleton.mpr hdirective

/-! ## Single terms -/

/-- `<s> <p> text .` -/
def objectDocument (text : Bytes) : Bytes := bytes "<s> <p> " ++ (text ++ bytes " .\n")

/-- The triple with this object. -/
def objectTriple (t : Term) : Triple false := ⟨uriRef (bytes "s"), uriRef (bytes "p"), t⟩

/-- The statement with this object. -/
def objectStatement (leaf : Leaf) : StatementTree :=
  .tripleSeq1 (.term (.iri (.iriref (bytes "<s>"))))
    (.last (.term (.iri (.iriref (bytes "<p>")))) (.term leaf) .nil)

theorem objectStatement_derives {leaf : Leaf} (hreadable : leaf.Readable false)
    (hplain : leaf.Unmistakable) :
    DocumentDerives [.triples (objectStatement leaf)] (objectDocument leaf.text) := by
  have hwritable : (objectStatement leaf).Writable :=
    ⟨⟨⟨[], _, exec_sound 40 rfl⟩, .inl rfl⟩, ⟨⟨[], _, exec_sound 40 rfl⟩, rfl⟩,
      ⟨hreadable, hplain⟩, trivial⟩
  have hrender : renderItems [.triples (objectStatement leaf)] = objectDocument leaf.text := by
    simp only [renderItems, Item.render, objectStatement, objectDocument, StatementTree.render,
      SubjectTree.render, ListTree.render, VerbTree.render, ObjectTree.render,
      ObjectsTree.renderFurther, Leaf.text, IriLeaf.text, List.append_assoc, List.append_nil,
      List.cons_append]
    rfl
  rw [← hrender]
  exact renderItems_derives (by simp) (List.forall_mem_singleton.mpr hwritable)

/-- The statement stands for something exactly if its object does, and then for one triple. -/
theorem objectStatement_means {leaf : Leaf} {t : Term} :
    leaf.element false [] [] 1 = .ok t ↔
      ∃ st, (objectStatement leaf).resolve false [] [] = .ok st ∧
        delivered [] [st] = [objectTriple t] := by
  by_cases hanon : ∃ text, leaf = .anon text
  · obtain ⟨text, rfl⟩ := hanon
    have hresolve : (objectStatement (.anon text)).resolve false [] [] =
        .ok (.tripleSeq1 (.term (uriRef (bytes "s")))
          (.last (uriRef (bytes "p")) .anon .nil)) := rfl
    constructor
    · intro h
      obtain rfl := Except.ok.inj h
      exact ⟨_, hresolve, rfl⟩
    · rintro ⟨st, hst, hdelivered⟩
      obtain rfl := Except.ok.inj (hresolve.symm.trans hst)
      exact congrArg Except.ok (congrArg AbstractTriple.object (List.cons.inj hdelivered).1)
  · have hanon : ∀ text, leaf ≠ .anon text := fun text heq => hanon ⟨text, heq⟩
    rw [Leaf.element_label hanon]
    have hresolve : (objectStatement leaf).resolve false [] [] =
        (leaf.element false [] [] 0).map fun t =>
          .tripleSeq1 (.term (uriRef (bytes "s"))) (.last (uriRef (bytes "p")) (.term t) .nil) := by
      have hobject : leaf.resolve false [] [] = (leaf.element false [] [] 0).map .term := by
        cases leaf with
        | anon text => exact absurd rfl (hanon text)
        | _ => rfl
      simp only [objectStatement, StatementTree.resolve, ListTree.resolve, ObjectTree.resolve,
        ObjectsTree.resolve, hobject]
      cases leaf.element false [] [] 0 <;> rfl
    rw [hresolve]
    cases leaf.element false [] [] 0 with
    | error fault => simp [Except.map]
    | ok t' =>
        constructor
        · intro h
          obtain rfl := Except.ok.inj h
          exact ⟨_, rfl, rfl⟩
        · rintro ⟨st, hst, hdelivered⟩
          obtain rfl := Except.ok.inj hst
          exact congrArg Except.ok (congrArg AbstractTriple.object (List.cons.inj hdelivered).1)

/-- A text that is a term from end to end is the same term to `parse_term` and as the object
of a statement, or stands for no term to either of them. -/
theorem parse_term_agrees {text : Bytes} {trace : Trace RuleName}
    (h : Run turtle (.ref .term) text (.ok []) trace) (t : Term) :
    ParsesTerm text (.ok t) ↔ Delivers [] (objectDocument text) [objectTriple t] := by
  obtain ⟨leaf, hvar, htext, hwell, hessence⟩ := term_leaf h
  rw [List.append_nil] at htext
  subst htext
  have hyields : Yields (.ref .term) leaf.text (.ok []) leaf.actions := ⟨trace, h, hessence⟩
  have hreadable : leaf.Readable false := ⟨hwell, .inl hvar⟩
  have hplain : leaf.Unmistakable :=
    Leaf.ReadAs.unmistakable ⟨hreadable, (List.append_nil _).symm, hyields⟩
  obtain ⟨hok, herror⟩ := parsesTerm_of_yields hvar hyields
  have hparses : ParsesTerm leaf.text (.ok t) ↔ leaf.element false [] [] 1 = .ok t := by
    refine ⟨fun hparses => ?_, hok t⟩
    cases helement : leaf.element false [] [] 1 with
    | ok t' => rw [Except.ok.inj (hparses.unique (hok t' helement))]
    | error fault => cases hparses.unique (herror fault helement)
  rw [hparses, objectStatement_means, (objectStatement_derives hreadable hplain).means]
  constructor
  · rintro ⟨st, hst, hdelivered⟩
    exact ⟨[st], by simp [resolveItems, hst, bind, Except.bind, pure, Except.pure], hdelivered⟩
  · rintro ⟨statements, hresolve, hdelivered⟩
    obtain ⟨st, hst, hmore⟩ := ok_of_bind hresolve
    obtain rfl := Except.ok.inj hmore
    exact ⟨st, hst, hdelivered⟩

/-- `"o"@en` -/
theorem taggedTerm_agrees : ∃ t, ParsesTerm (bytes "\"o\"@en") (.ok t) ∧
    Delivers [] (objectDocument (bytes "\"o\"@en")) [objectTriple t] := by
  have hrun : Run turtle (.ref .term) (bytes "\"o\"@en") (.ok []) _ := exec_sound 40 rfl
  obtain ⟨t, _, -, -, -, -, hparses⟩ :=
    parsesTerm_of_match hrun (prefixesDefined_nil.mpr (by decide))
  exact ⟨t, hparses, (parse_term_agrees hrun t).mp hparses⟩

end RdfParser.Turtle
