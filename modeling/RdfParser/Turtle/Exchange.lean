/-
  Turtle/Exchange.lean --- one layout in the place of another.

  A comment is meant to reach up to the end of its line, or of the document.  The rule
  stops at a form feed and insists on the end of a line.  Where a layout is exchanged for
  one that the rule does read, the statements in front of it keep their actions.
-/
import RdfParser.Turtle.Abandoned
import RdfParser.Turtle.Chunks

set_option autoImplicit false

namespace RdfParser.Turtle

open RdfParser.Foundation RdfParser.Rdf RdfParser.Peg RdfParser.Peg.Rule

/-! ## Layout as it is meant -/

/-- White space and comments; an unfinished comment is one that the document ends with. -/
inductive AnyLayout (last : Prop) : Bytes → Prop where
  | nil : AnyLayout last []
  | space {b : UInt8} {layout : Bytes} (hb : isSpace b = true) (h : AnyLayout last layout) :
      AnyLayout last (b :: layout)
  | comment {body layout : Bytes} {eol : UInt8} (hbody : ∀ b ∈ body, isEol b = false)
      (heol : isEol eol = true) (h : AnyLayout last layout) :
      AnyLayout last (char '#' :: (body ++ eol :: layout))
  | unfinished {body : Bytes} (hlast : last) (hbody : ∀ b ∈ body, isEol b = false) :
      AnyLayout last (char '#' :: body)

/-- A hash sign that begins no comment for the code. -/
def Wall (wall : Bytes) : Prop :=
  (∃ bad, wall = char '#' :: bad) ∧
    ∀ rest t, ¬ Run turtle (.ref .comment) wall (.ok rest) t

theorem comment_unmatched {body more : Bytes} (hbody : ∀ b ∈ body, isEol b = false)
    (h : (¬ ∀ b ∈ body, inComment b = true) ∨ more = []) : Wall (char '#' :: (body ++ more)) := by
  refine ⟨⟨_, rfl⟩, fun rest t hrun => ?_⟩
  obtain ⟨body', eol, htext, hbody', heol⟩ := comment_sound hrun
  have hshorter : ∀ x, body = body' ++ x → eol :: rest = x ++ more → x = [] := by
    intro x hx hmore
    cases x with
    | nil => rfl
    | cons c x =>
        obtain ⟨rfl, -⟩ := List.cons.inj hmore
        have hnone := hbody eol (by simp [hx])
        rw [heol] at hnone
        cases hnone
  rcases List.append_eq_append_iff.mp (List.cons.inj htext).2 with ⟨x, hx, hmore⟩ | ⟨x, hx, hmore⟩
  · rcases h with hbad | rfl
    · exact hbad fun b hb => hbody' b (by simp [hx, hb])
    · cases x <;> cases hmore
  · obtain rfl := hshorter x hx hmore
    rw [List.append_nil] at hx
    rcases h with hbad | rfl
    · exact hbad (hx ▸ hbody')
    · cases hmore

/-- The place where the code does not get on, if it does not ignore all of it. -/
theorem AnyLayout.wall {last : Prop} {run after : Bytes} (h : AnyLayout last run)
    (hafter : last → after = []) (hrun : ¬ IsLayout run) :
    ∃ good wall, run ++ after = good ++ wall ∧ IsLayout good ∧ Wall wall := by
  induction h with
  | nil => exact absurd .nil hrun
  | @space b layout hb _ ih =>
      obtain ⟨good, wall, htext, hgood, hwall⟩ := ih fun h => hrun (.space hb h)
      exact ⟨b :: good, wall, by rw [List.cons_append, htext]; rfl, .space hb hgood, hwall⟩
  | @comment body layout eol hbody heol _ ih =>
      by_cases hcomment : ∀ b ∈ body, inComment b = true
      · obtain ⟨good, wall, htext, hgood, hwall⟩ := ih fun h => hrun (.comment hcomment heol h)
        refine ⟨char '#' :: (body ++ eol :: good), wall, ?_, .comment hcomment heol hgood, hwall⟩
        simp [htext]
      · refine ⟨[], _, rfl, .nil, ?_⟩
        have hwall : Wall (char '#' :: (body ++ (eol :: (layout ++ after)))) :=
          comment_unmatched hbody (.inl hcomment)
        simpa using hwall
  | unfinished hlast hbody =>
      rw [hafter hlast]
      exact ⟨[], _, rfl, .nil, comment_unmatched hbody (.inr rfl)⟩

theorem Wall.idle {wall : Bytes} (h : Wall wall) :
    ∃ t, Run turtle (.ref .ignored) wall (.ok wall) t := by
  obtain ⟨⟨bad, rfl⟩, hcomment⟩ := h
  have hfails : Yields (.ref .comment) (char '#' :: bad) .fail [] := unmatched_fails rfl hcomment
  obtain ⟨_, hfail, -⟩ := hfails
  refine ⟨_, .ref (.starDone (.sorNext (.byteFail fun b hb => ?_) hfail))⟩
  obtain rfl := Option.mem_some_iff.mp hb
  decide

theorem IsLayout.head {layout : Bytes} (h : IsLayout layout) :
    ∀ b ∈ layout.head?, b ∈ char '#' :: spaces := by
  intro b hb
  by_cases hne : layout = []
  · rw [hne] at hb
    cases hb
  · obtain ⟨c, more, rfl, hc⟩ := layout_begins h hne
    obtain rfl := Option.mem_some_iff.mp hb
    exact hc

/-! ## Documents with different layout -/

/-- One layout in each document, and the same text behind it. -/
def exchange (layout : Bool → Bytes) (after : Bytes) (hlayout : ∀ side, IsLayout (layout side))
    (hne : ∀ side, layout side = [] → after = [])
    (hidle : ∃ t, Run turtle (.ref .ignored) after (.ok after) t) : Fork where
  tail side := layout side ++ after
  final := after
  Beyond input := input <:+ after
  begins side b hb := by
    cases hcases : layout side with
    | nil =>
        rw [hcases, hne side hcases] at hb
        cases hb
    | cons c more =>
        have hhead := (hlayout side).head
        rw [hcases] at hhead hb
        exact hhead b hb
  ignored side := ignored_layout (hlayout side) hidle
  beyond := List.suffix_refl _
  byte b rest h _ := (List.suffix_cons b rest).trans h
  piece name input rest t _ h hrun := by
    obtain ⟨text, rfl⟩ := hrun.suffix
    exact (List.suffix_append text rest).trans h

/-- Twice the same document, with a hash sign that the code does not pass. -/
def blocked (good wall : Bytes) (hgood : IsLayout good) (hwall : Wall wall) : Fork where
  tail _ := good ++ wall
  final := wall
  Beyond input := input = wall
  begins side b hb := by
    cases good with
    | nil =>
        obtain ⟨⟨bad, rfl⟩, -⟩ := hwall
        obtain rfl := Option.mem_some_iff.mp hb
        exact List.mem_cons_self
    | cons c good => exact hgood.head b hb
  ignored _ := ignored_layout hgood hwall.idle
  beyond := rfl
  byte b rest h hb := by
    obtain ⟨⟨bad, rfl⟩, -⟩ := hwall
    obtain ⟨rfl, -⟩ := List.cons.inj h
    exact absurd (by decide) hb
  piece name input rest t hname h hrun := by
    subst h
    have hfirst : firsts name ≠ [] → char '#' ∉ firsts name → rest = input := by
      intro hne hhash
      obtain ⟨⟨bad, rfl⟩, -⟩ := hwall
      obtain ⟨b, more, hinput, hb⟩ := firsts_begin hne hrun
      obtain ⟨rfl, -⟩ := List.cons.inj hinput
      exact absurd hb hhash
    cases name
    all_goals first
      | exact absurd hname Bool.false_ne_true
      | exact hfirst (by decide) (by decide)
      | (obtain ⟨_, hidle⟩ := hwall.idle
         exact Outcome.ok.inj (hrun.deterministic hidle).1)

/-! ## Following a document -/

section Opposite

variable {fork : Fork} {chunks : List Chunk} {input rest input' mid : Bytes} {outcome : Outcome}
  {rule : Rule RuleName} {t k : Trace RuleName}

/-- What is read in the first document is read in the second one. -/
theorem Opposite.follow (hopp : Opposite fork chunks input input') (hwoven : Woven fork chunks)
    (hrule : rule.tracks marks outsidePieces = true) (hrun : Run turtle rule input outcome t) :
    ∃ outcome' t', Run turtle rule input' outcome' t' ∧
      outcome.Related (Opposite fork chunks) outcome' ∧
      (essence t).map blur = (essence t').map blur := by
  obtain ⟨outcome', t', hrun', hrelated, hview, -⟩ := (simulation hwoven).mirrored hrule hrun hopp
  rw [filterMap_blurred, filterMap_blurred] at hview
  exact ⟨outcome', t', hrun', hrelated, hview⟩

/-- The rules inside of triples. -/
def inTriples : RuleName → Bool
  | .directive | .statement | .turtleDoc | .triplesBlock | .grammar _ => false
  | name => !declares name

theorem inTriples_closed (name : RuleName) (h : inTriples name = true) :
    ∀ other ∈ (turtle name).names, inTriples other = true := by
  cases name
  all_goals first
    | exact absurd h Bool.false_ne_true
    | decide
    | rename_i q
      cases q <;> decide

theorem blur_inTriples (hrule : rule.names.all inTriples = true)
    (hrun : Run turtle rule input outcome t) : (essence t).map blur = essence t := by
  refine (List.map_congr_left fun entry hentry => ?_).trans (List.map_id _)
  have hname := essence_names (S := inTriples)
    (hrun.trace_names inTriples_closed (List.all_eq_true.mp hrule)) entry hentry
  obtain ⟨name, text⟩ := entry
  cases name <;> first | rfl | exact absurd hname Bool.false_ne_true

/-- Inside of triples the actions are the same. -/
theorem Opposite.triples (hopp : Opposite fork chunks input input') (hwoven : Woven fork chunks)
    (hnames : rule.names.all inTriples = true) (hrule : rule.tracks marks outsidePieces = true)
    (hrun : Run turtle rule input outcome t) :
    ∃ outcome', outcome.Related (Opposite fork chunks) outcome' ∧
      Yields rule input' outcome' (essence t) := by
  obtain ⟨outcome', t', hrun', hrelated, hview⟩ := hopp.follow hwoven hrule hrun
  rw [blur_inTriples hnames hrun, blur_inTriples hnames hrun'] at hview
  exact ⟨outcome', hrelated, t', hrun', hview.symm⟩

theorem Opposite.ignored (hopp : Opposite fork chunks input input') (hwoven : Woven fork chunks)
    (hrun : Run turtle (.ref .ignored) input (.ok rest) t) :
    ∃ rest' t', Opposite fork chunks rest rest' ∧
      Run turtle (.ref .ignored) input' (.ok rest') t' := by
  obtain ⟨_, t', hrun', hrelated, -⟩ := hopp.follow hwoven rfl hrun
  cases hrelated with
  | ok hrest => exact ⟨_, t', hrest, hrun'⟩

/-! ### Positions -/

/-- In front of the fork the documents have a text in common. -/
theorem Opposite.position (hopp : Opposite fork chunks (mid ++ fork.tail false) input') :
    input' = mid ++ fork.tail true ∨
      fork.Beyond (mid ++ fork.tail false) ∧ input' = mid ++ fork.tail false := by
  obtain ⟨pos, hpos, hinput, rfl⟩ := hopp
  cases hpos with
  | inside _ =>
      obtain rfl := List.append_cancel_right hinput
      exact .inl rfl
  | beyond hbeyond => exact .inr ⟨hinput ▸ hbeyond, hinput.symm⟩

/-- Behind it they are the same. -/
theorem Opposite.shorter (hopp : Opposite fork chunks input input')
    (hlength : input.length < (fork.tail false).length) : input' = input := by
  obtain ⟨pos, hpos, rfl, rfl⟩ := hopp
  cases hpos with
  | inside _ =>
      simp only [Fork.weave, List.length_append] at hlength
      omega
  | beyond _ => rfl

/-- What is behind the fork is shorter, or the first document ends with the fork. -/
def Fork.Ahead (fork : Fork) : Prop :=
  ∀ input, fork.Beyond input → input.length < (fork.tail false).length ∨
    fork.tail false = [] ∧ input = [] ∧ IsLayout (fork.tail true)

theorem exchange_ahead (layout : Bool → Bytes) (after : Bytes)
    (hlayout : ∀ side, IsLayout (layout side)) (hne : ∀ side, layout side = [] → after = [])
    (hidle : ∃ t, Run turtle (.ref .ignored) after (.ok after) t) :
    (exchange layout after hlayout hne hidle).Ahead := by
  intro input hinput
  have hlength := List.IsSuffix.length_le hinput
  cases hcases : layout false with
  | nil =>
      obtain rfl := hne false hcases
      refine .inr ⟨?_, List.suffix_nil.mp hinput, ?_⟩
      · simp [exchange, hcases]
      · simpa [exchange] using hlayout true
  | cons b more =>
      refine .inl ?_
      simp only [exchange, hcases, List.length_append, List.length_cons]
      omega

/-! ### Directives -/

/-- A directive ends with a full stop or an angle bracket. -/
theorem Directive.last {d : Directive} {text : Bytes}
    (h : Run turtle (.ref d.rule) (text ++ rest) (.ok rest) t) :
    ∃ b ∈ text.getLast?, isSpace b = false := by
  obtain ⟨layout, pre, iri, -, hwrites⟩ := d.writes_of_matches ⟨rest, t, h⟩
  rw [hwrites.text_eq]
  cases d with
  | prefixID | base =>
      refine ⟨char '.', ?_, by decide⟩
      simp [Directive.text, Directive.body, Directive.ending, Directive.declaresPrefix,
        Directive.dotted]
  | sparqlPrefix | sparqlBase =>
      refine ⟨char '>', ?_, by decide⟩
      simp [Directive.text, Directive.body, Directive.ending, Directive.declaresPrefix,
        Directive.dotted, irirefToken]
      have hlast : ((char '<' :: iri) ++ [char '>']).getLast? = some (char '>') :=
        List.getLast?_concat
      exact hlast

theorem IsLayout.last {layout : Bytes} (h : IsLayout layout) :
    ∀ b ∈ layout.getLast?, isSpace b = true := by
  have heols : ∀ b, isEol b = true → isSpace b = true := by
    intro b hb
    simp only [isEol, List.contains_cons, List.contains_nil, Bool.or_false, Bool.or_eq_true,
      beq_iff_eq] at hb
    rcases hb with rfl | rfl <;> decide
  induction h with
  | nil => intro b hb; cases hb
  | @space b layout hb _ ih =>
      intro c hc
      cases layout with
      | nil =>
          obtain rfl := Option.mem_some_iff.mp hc
          exact hb
      | cons d layout => exact ih c hc
  | @comment body layout eol _ heol _ ih =>
      intro c hc
      rw [← List.cons_append, List.getLast?_append] at hc
      cases layout with
      | nil =>
          obtain rfl := Option.mem_some_iff.mp hc
          exact heols _ heol
      | cons d layout =>
          refine ih c ?_
          simpa using hc

/-- Its actions; the last one reads its text. -/
theorem directive_actions (h : Keeps turtle (.ref .directive) input rest k) :
    ∃ (d : Directive) (t : Trace RuleName) (inner : Trace RuleName),
      Run turtle (.ref d.rule) input (.ok rest) t ∧
      Yields (.ref .directive) input (.ok rest) (inner ++ [(d.rule, consumed input rest)]) ∧
      inner.map blur = inner := by
  have hyields := Directive.yields h
  obtain ⟨k, hbody, rfl⟩ := h.ref_inv
  rw [essence_append, essence_idle (show acts .directive = false from rfl), List.append_nil]
    at hyields
  have hof : ∀ d : Directive, Keeps turtle (.ref d.rule) input rest k →
      ∃ (d : Directive) (t : Trace RuleName) (inner : Trace RuleName),
        Run turtle (.ref d.rule) input (.ok rest) t ∧
        Yields (.ref .directive) input (.ok rest) (inner ++ [(d.rule, consumed input rest)]) ∧
        inner.map blur = inner := by
    intro d hk
    obtain ⟨t, hrun, -⟩ := hk.run
    obtain ⟨k, hparts, rfl⟩ := hk.ref_inv
    have hown : essence [(d.rule, consumed input rest)] = [(d.rule, consumed input rest)] := by
      cases d <;> rfl
    rw [essence_append, hown] at hyields
    refine ⟨d, t, essence k, hrun, hyields, ?_⟩
    obtain ⟨t', hrun', hsub⟩ := hparts.run
    refine (List.map_congr_left fun entry hentry => ?_).trans (List.map_id _)
    have hnames : ∀ name ∈ (turtle d.rule).names, inTriples name = true := by
      cases d <;> decide
    have hname := essence_names (S := inTriples)
      (fun other hother => hrun'.trace_names inTriples_closed hnames other (hsub.subset hother))
      entry hentry
    obtain ⟨name, text⟩ := entry
    cases name <;> first | rfl | exact absurd hname Bool.false_ne_true
  rcases hbody.sor_inv with hk | ⟨_, -, hbody⟩
  · exact hof .prefixID hk
  rcases hbody.sor_inv with hk | ⟨_, -, hbody⟩
  · exact hof .base hk
  rcases hbody.sor_inv with hk | ⟨_, -, hk⟩
  · exact hof .sparqlBase hk
  · exact hof .sparqlPrefix hk

/-- A directive in front of the fork has the same text in both documents. -/
theorem Opposite.directive_text {d : Directive} {text : Bytes} (hne : text ≠ [])
    (hahead : fork.Ahead)
    (hopp : Opposite fork chunks (text ++ (mid ++ fork.tail false)) input')
    (hrest : Opposite fork chunks (mid ++ fork.tail false) rest)
    (hrun : Run turtle (.ref d.rule) input' (.ok rest) t) : input' = text ++ rest := by
  rw [← List.append_assoc] at hopp
  rcases hopp.position with rfl | ⟨hbeyond, -⟩
  · rcases hrest.position with rfl | ⟨hbeyond, rfl⟩
    · exact List.append_assoc ..
    rcases hahead _ hbeyond with hlength | ⟨-, hnil, hlayout⟩
    · simp only [List.length_append] at hlength
      omega
    · -- it does not take the layout behind the first document
      obtain ⟨rfl, htail⟩ := List.append_eq_nil_iff.mp hnil
      rw [htail, List.append_nil, List.append_nil] at hrun ⊢
      cases hcases : fork.tail true with
      | nil => rfl
      | cons b more =>
          exfalso
          have hmatch : Run turtle (.ref d.rule) ((text ++ fork.tail true) ++ []) (.ok []) t := by
            rwa [List.append_nil]
          obtain ⟨c, hc, hspace⟩ := Directive.last hmatch
          rw [List.getLast?_append, hcases, List.getLast?_cons] at hc
          have hlast := hlayout.last c (by rw [hcases, List.getLast?_cons]; exact hc)
          rw [hspace] at hlast
          cases hlast
  · rcases hahead _ hbeyond with hlength | ⟨-, hnil, -⟩
    · simp only [List.length_append] at hlength
      omega
    · exact absurd (List.append_eq_nil_iff.mp (List.append_eq_nil_iff.mp hnil).1).1 hne

theorem blur_rule (d : Directive) (text : Bytes) : blur (d.rule, text) = (d.rule, []) := by
  cases d <;> rfl

/-- So it runs the same actions. -/
theorem Opposite.directive {text : Bytes} (hwoven : Woven fork chunks) (hahead : fork.Ahead)
    (hopp : Opposite fork chunks (text ++ (mid ++ fork.tail false)) input')
    (h : Keeps turtle (.ref .directive) (text ++ (mid ++ fork.tail false))
      (mid ++ fork.tail false) k) :
    ∃ rest' actions, Opposite fork chunks (mid ++ fork.tail false) rest' ∧
      Yields (.ref .directive) (text ++ (mid ++ fork.tail false)) (.ok (mid ++ fork.tail false))
        actions ∧
      Yields (.ref .directive) input' (.ok rest') actions := by
  obtain ⟨d, t, inner, hrun, hyields, hblur⟩ := directive_actions h
  obtain ⟨_, hmatch, hessence⟩ := hyields
  obtain ⟨_, _, hmatch', hrelated, hview⟩ := hopp.follow hwoven rfl hmatch
  cases hrelated with
  | @ok _ rest' hrest =>
      obtain ⟨_, hk'⟩ := hmatch'.keeps rfl
      obtain ⟨d', t', inner', hrun', hyields', hblur'⟩ := directive_actions hk'
      have hessence' := (Yields.unique ⟨_, hmatch', rfl⟩ hyields').2
      have hne : text ≠ [] := by
        rintro rfl
        have hshorter := hrun.consumes consuming_closed (by cases d <;> rfl)
        exact absurd hshorter (lt_irrefl _)
      have htext := Opposite.directive_text hne hahead hopp hrest hrun'
      rw [hessence, hessence', List.map_append, List.map_append, hblur, hblur', List.map_singleton,
        List.map_singleton, blur_rule, blur_rule] at hview
      obtain ⟨rfl, hrule⟩ := List.append_inj' hview rfl
      obtain rfl : d = d' := by
        have hsame : d.rule = d'.rule := congrArg Prod.fst (List.singleton_inj.mp hrule)
        cases d <;> cases d' <;> first | rfl | cases hsame
      refine ⟨rest', _, hrest, ⟨_, hmatch, hessence⟩, ?_⟩
      rw [htext, consumed_append] at hyields'
      rw [consumed_append, htext]
      exact hyields'

/-! ### Statements -/

/-- Layout and a statement; the action of the statement comes last. -/
theorem iteration_yields {middle : Bytes} {actions : Trace RuleName}
    (hlayout : ∃ t, Run turtle (.ref .ignored) input (.ok middle) t)
    (hstatement : Yields (turtle .statement) middle (.ok rest) actions) :
    Yields iteration input (.ok rest) (actions ++ [(.statement, [])]) := by
  obtain ⟨_, hlayout⟩ := hlayout
  exact (ignored_yields hlayout).seq hstatement.ref_ok

/-- A statement in front of the fork runs the same actions in both documents. -/
theorem Opposite.iteration (hwoven : Woven fork chunks) (hahead : fork.Ahead)
    (hopp : Opposite fork chunks input input')
    (h : Keeps turtle iteration input (mid ++ fork.tail false) k) :
    ∃ rest' actions, Opposite fork chunks (mid ++ fork.tail false) rest' ∧
      Yields iteration input (.ok (mid ++ fork.tail false)) actions ∧
      Yields iteration input' (.ok rest') actions := by
  obtain ⟨middle, _, _, hlayout, hstatement, rfl⟩ := h.seq_inv
  obtain ⟨_, hignored, -⟩ := hlayout.run
  obtain ⟨middle', _, hmiddle, hignored'⟩ := hopp.ignored hwoven hignored
  obtain ⟨_, hbody, -⟩ := hstatement.ref_inv
  rcases hbody.sor_inv with htriple | ⟨_, hfail, hdirective⟩
  · obtain ⟨_, hrun, -⟩ := htriple.run
    obtain ⟨_, hrelated, hyields'⟩ := hmiddle.triples hwoven (by decide) rfl hrun
    cases hrelated with
    | @ok _ rest' hrest =>
        have hyields : Yields (.ref (.tripleExtended false)) middle _ _ := ⟨_, hrun, rfl⟩
        exact ⟨rest', _, hrest, iteration_yields ⟨_, hignored⟩ hyields.choose,
          iteration_yields ⟨_, hignored'⟩ hyields'.choose⟩
  · obtain ⟨text, rfl⟩ := hdirective.suffix
    obtain ⟨_, hrelated, hfail'⟩ := hmiddle.triples hwoven (by decide) rfl hfail
    cases hrelated
    obtain ⟨rest', actions, hrest, hyields, hyields'⟩ :=
      Opposite.directive hwoven hahead hmiddle hdirective
    have hskip : Yields (.ref (.tripleExtended false)) _ .fail _ := ⟨_, hfail, rfl⟩
    exact ⟨rest', _, hrest, iteration_yields ⟨_, hignored⟩ (hskip.skip hyields),
      iteration_yields ⟨_, hignored'⟩ (hfail'.skip hyields')⟩

/-- Whatever statements the first document has from here on, up to its last layout, the
second one has from there on, with the same actions. -/
def Alike (input input' : Bytes) : Prop :=
  ∀ last actions, Yields (.star iteration) input (.ok last) actions →
    (∃ t, Run turtle (.ref .ignored) last (.ok []) t) →
    ∃ last', Yields (.star iteration) input' (.ok last') actions ∧
      ∃ t, Run turtle (.ref .ignored) last' (.ok []) t

theorem Alike.refl (input : Bytes) : Alike input input :=
  fun last _ hyields hlast => ⟨last, hyields, hlast⟩

/-- The repetition begins with what matches. -/
theorem star_first {body : Rule RuleName} {last : Bytes} {first actions : Trace RuleName}
    (hfirst : Yields body input (.ok rest) first)
    (h : Yields (.star body) input (.ok last) actions) :
    ∃ more, actions = first ++ more ∧ Yields (.star body) rest (.ok last) more := by
  obtain ⟨_, hrun, rfl⟩ := hfirst
  obtain ⟨_, hstar, rfl⟩ := h
  cases hstar with
  | starNext hbody hmore =>
      obtain ⟨heq, rfl⟩ := hrun.deterministic hbody
      obtain rfl := Outcome.ok.inj heq
      exact ⟨_, essence_append _ _, _, hmore, rfl⟩
  | starDone hfail => cases (hrun.deterministic hfail).1

theorem Alike.next {rest' : Bytes} {actions : Trace RuleName}
    (h : Yields iteration input (.ok rest) actions)
    (h' : Yields iteration input' (.ok rest') actions) (halike : Alike rest rest') :
    Alike input input' := by
  intro last all hyields hlast
  obtain ⟨more, rfl, hmore⟩ := star_first h hyields
  obtain ⟨last', hmore', hlast'⟩ := halike last more hmore hlast
  exact ⟨last', h'.again hmore', hlast'⟩

/-- From the place of the fork back to the beginning of the documents. -/
theorem Statements.alike {document document' : Bytes} (hwoven : Woven fork chunks)
    (hahead : fork.Ahead) (h : Statements document input t k)
    (hinput : input = mid ++ fork.tail false) (hopp : Opposite fork chunks document document') :
    ∃ input', Opposite fork chunks input input' ∧
      (Alike input input' → Alike document document') := by
  induction h generalizing mid with
  | nil => exact ⟨document', hopp, id⟩
  | @snoc before rest _ _ _ _ _ hrun hkeeps ih =>
      obtain ⟨text, hbefore⟩ := hrun.suffix
      have hsplit : before = (text ++ mid) ++ fork.tail false := by
        rw [hbefore, hinput, List.append_assoc]
      obtain ⟨before', hbefore', hback⟩ := ih hsplit
      subst hinput
      obtain ⟨rest', actions, hrest, hyields, hyields'⟩ :=
        Opposite.iteration hwoven hahead hbefore' hkeeps
      exact ⟨rest', hrest, fun halike => hback (halike.next hyields hyields')⟩

end Opposite

end RdfParser.Turtle
