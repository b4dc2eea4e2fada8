/-
  Turtle/Relayout.lean --- other layout between the tokens of a document.

  Source: `comment` and `ignored` of `Grammar.hpp`.  A layout of an accepted document may
  be exchanged for another one, or one may be appended, exactly if the code ignores all of
  it: if there is no form feed in a comment, and no unfinished comment at the end.
-/
import RdfParser.Turtle.Chunks
import RdfParser.Turtle.Exchange

set_option autoImplicit false

namespace RdfParser.Turtle

open RdfParser.Foundation RdfParser.Rdf RdfParser.Peg RdfParser.Peg.Rule

/-! ## Layout in a document -/

/-- A match inside of triples of the document. -/
def InTriples (document : Bytes) (name : RuleName) (start stop : Bytes) : Prop :=
  ∃ input middle rest t k t', Statements document input t k ∧
    Run turtle (.ref .ignored) input (.ok middle) t' ∧
    Occurs turtle name start stop (.ref (.tripleExtended false)) middle rest

/-- The document has `gap` as layout in front of `after`: between two tokens of triples, in
front of a statement, or nothing at its end. -/
inductive LayoutAt (document gap after : Bytes) : Prop where
  | within (hne : gap ≠ []) (h : InTriples document .ignored (gap ++ after) after)
  | between {rest : Bytes} {t k t₁ t₂ : Trace RuleName} (hne : gap ≠ [])
      (h : Statements document (gap ++ after) t k)
      (hlayout : Run turtle (.ref .ignored) (gap ++ after) (.ok after) t₁)
      (hstatement : Run turtle (.ref .statement) after (.ok rest) t₂)
  | appended (hgap : gap = []) (hafter : after = [])

/-- No empty string in front of `gap` is read as the beginning of a long one when `run`
takes its place. -/
def StringsStay (document gap after run : Bytes) : Prop :=
  ∀ text mid, InTriples document .turtleString (text ++ (mid ++ (gap ++ after)))
    (mid ++ (gap ++ after)) → ¬ Overruns text (mid ++ (run ++ after))

section Relayout

variable {fork : Fork} {document old input rest : Bytes} {t k : Trace RuleName}

/-! ## From a place in the document back to its beginning -/

theorem pieced_iteration (h : Keeps turtle iteration input rest k)
    (hstays : ∀ middle t, Run turtle (.ref .ignored) input (.ok middle) t →
      Stays fork old (.ref (.tripleExtended false)) middle rest)
    (hrest : Pieced fork old rest) : Pieced fork old input := by
  obtain ⟨middle, _, _, hlayout, hstatement, rfl⟩ := h.seq_inv
  obtain ⟨_, hignored, -⟩ := hlayout.run
  obtain ⟨gap, rfl, hgap⟩ := ignored_sound hignored
  refine Pieced.layout hgap ?_
  obtain ⟨_, hbody, -⟩ := hstatement.ref_inv
  rcases hbody.sor_inv with htriple | ⟨_, -, hdirective⟩
  · exact pieced_of_keeps middle.length le_rfl (by decide) htriple (hstays _ _ hignored) hrest
  · refine pieced_of_keeps middle.length le_rfl (by decide) hdirective ?_ hrest
    -- there is no string in a directive
    intro text mid hoccurs
    have hname := hoccurs.names (S := fun name => inDirective name = true) inDirective_closed
      (by decide)
    exact absurd hname (by decide)

theorem pieced_statements (h : Statements document input t k)
    (hstays : ∀ text mid, InTriples document .turtleString (text ++ (mid ++ old)) (mid ++ old) →
      ∀ side, fork.tail side ≠ old → ¬ Overruns text (mid ++ fork.tail side))
    (hinput : Pieced fork old input) : Pieced fork old document := by
  induction h with
  | nil => exact hinput
  | snoc h _ hkeeps ih =>
      refine ih (pieced_iteration hkeeps (fun middle _ hignored text mid hoccurs => ?_) hinput)
      exact hstays text mid ⟨_, middle, _, _, _, _, h, hignored, hoccurs⟩

/-- An accepted document ends with layout behind its last statement. -/
theorem Accepts.statements {prefixMap : PrefixMap} {final : State false}
    (h : Accepts prefixMap document final) :
    ∃ last t k t', Statements document last t k ∧ Run turtle (.ref .ignored) last (.ok []) t' := by
  obtain ⟨last, all, _, kept, _, t', hstar, hignored, hkept, -⟩ := h.derivation
  obtain ⟨_, _, -, hstatements, -⟩ := Statements.nil.to_star hkept hstar
  exact ⟨last, _, _, t', hstatements, hignored⟩

section Place

variable {prefixMap : PrefixMap} {final : State false} {gap after run : Bytes}

/-- What is in front of the layout is made of pieces. -/
theorem LayoutAt.pieced (hgap : LayoutAt document gap after)
    (haccepts : Accepts prefixMap document final)
    (hstrings : StringsStay document gap after run)
    (hfinal : (∀ b ∈ after.head?, b ≠ char ']') → ∀ c ∈ fork.final.head?, c ≠ char ']')
    (hside : ∀ side, fork.tail side ≠ gap ++ after → fork.tail side = run ++ after) :
    Pieced fork (gap ++ after) document := by
  have hstays : ∀ text mid,
      InTriples document .turtleString (text ++ (mid ++ (gap ++ after))) (mid ++ (gap ++ after)) →
      ∀ side, fork.tail side ≠ gap ++ after → ¬ Overruns text (mid ++ fork.tail side) := by
    intro text mid h side hne
    rw [hside side hne]
    exact hstrings text mid h
  cases hgap with
  | within hne h =>
      obtain ⟨input, middle, _, _, _, _, hstatements, hignored, hoccurs⟩ := h
      have hother : gap ++ after ≠ after := fun heq => hne (List.append_left_eq_self.mp heq)
      have hmiddle := pieced_of_occurs middle.length le_rfl (by decide) hoccurs hother hfinal
        fun text mid h => hstays text mid ⟨_, middle, _, _, _, _, hstatements, hignored, h⟩
      obtain ⟨layout, rfl, hlayout⟩ := ignored_sound hignored
      exact pieced_statements hstatements hstays (hmiddle.layout hlayout)
  | between hne h hlayout hstatement => exact pieced_statements h hstays (.refl fork _)
  | appended hgap hafter =>
      subst hgap hafter
      obtain ⟨last, _, _, _, hstatements, hignored⟩ := haccepts.statements
      obtain ⟨layout, rfl, hlayout⟩ := ignored_sound hignored
      exact pieced_statements hstatements hstays ((Pieced.refl fork _).layout hlayout)

/-- It is layout for the code, and what follows is none. -/
theorem LayoutAt.isLayout (hgap : LayoutAt document gap after) :
    IsLayout gap ∧ (gap = [] → after = []) ∧
      ∃ t, Run turtle (.ref .ignored) after (.ok after) t := by
  have hread : ∀ {t : Trace RuleName}, gap ≠ [] →
      Run turtle (.ref .ignored) (gap ++ after) (.ok after) t →
      IsLayout gap ∧ (gap = [] → after = []) ∧
        ∃ t, Run turtle (.ref .ignored) after (.ok after) t := by
    intro t hne hrun
    obtain ⟨layout, htext, hlayout⟩ := ignored_sound hrun
    obtain rfl := List.append_cancel_right htext
    exact ⟨hlayout, fun hnil => absurd hnil hne, ignored_again hrun⟩
  cases hgap with
  | within hne h =>
      obtain ⟨_, _, _, _, _, _, -, -, hoccurs⟩ := h
      obtain ⟨_, hk⟩ := hoccurs.inner
      obtain ⟨_, hrun, -⟩ := hk.run
      exact hread hne hrun
  | between hne _ hlayout _ => exact hread hne hlayout
  | appended hgap hafter =>
      subst hgap hafter
      exact ⟨.nil, fun _ => rfl, ignored_idle (by simp [StartsToken])⟩

/-! ## From a place in the document on -/

/-- No statement follows the last layout. -/
theorem iteration_ends {last : Bytes} (h : Run turtle (.ref .ignored) last (.ok []) t) :
    Yields iteration last .fail [] := by
  have hbyte : ∀ accepts : UInt8 → Bool, Yields (.byte accepts) [] .fail [] :=
    fun _ => ⟨[], .byteFail fun _ hb => (by cases hb), rfl⟩
  have hdirective : Yields (.ref .directive) [] .fail [] :=
    have hprefixID : Yields (.ref .prefixID) [] .fail [] := .ref_fail (hbyte _).stop.stop
    have hbase : Yields (.ref .base) [] .fail [] := .ref_fail (hbyte _).stop.stop
    have hsparqlBase : Yields (.ref .sparqlBase) [] .fail [] := .ref_fail (hbyte _).stop
    have hsparqlPrefix : Yields (.ref .sparqlPrefix) [] .fail [] := .ref_fail (hbyte _).stop
    .ref_fail (hprefixID.skip (hbase.skip (hsparqlBase.skip hsparqlPrefix)))
  have hstatement : Yields (.ref .statement) [] .fail [] :=
    .ref_fail (termless_nil.tripleExtended.skip hdirective)
  exact (ignored_yields h).seq hstatement

/-- Behind the place of the layout the documents are the same. -/
theorem LayoutAt.alike {chunks : List Chunk} {document' : Bytes}
    (hgap : LayoutAt document gap after)
    (haccepts : Accepts prefixMap document final) (hwoven : Woven fork chunks)
    (hahead : fork.Ahead) (htail : fork.tail false = gap ++ after) (hfinal : fork.final = after)
    (hopp : Opposite fork chunks document document') : Alike document document' := by
  have hbehind : ∀ {rest rest' : Bytes}, gap ≠ [] → rest.length ≤ after.length →
      Opposite fork chunks rest rest' → rest' = rest := by
    intro rest rest' hne hle hrest
    refine hrest.shorter ?_
    rw [htail, List.length_append]
    have hpos := List.length_pos_of_ne_nil hne
    omega
  cases hgap with
  | within hne h =>
      obtain ⟨input, middle, rest, _, _, _, hstatements, hignored, hoccurs⟩ := h
      obtain ⟨⟨before, rfl⟩, more, rfl⟩ := hoccurs.within
      obtain ⟨layout, rfl, -⟩ := ignored_sound hignored
      have hinput : layout ++ (before ++ (gap ++ (more ++ rest))) =
          (layout ++ before) ++ fork.tail false := by
        rw [htail, List.append_assoc]
      obtain ⟨input', hinput', hback⟩ := hstatements.alike hwoven hahead hinput hopp
      obtain ⟨middle', _, hmiddle, hignored'⟩ := hinput'.ignored hwoven hignored
      obtain ⟨_, hk⟩ := hoccurs.keeps
      obtain ⟨_, hrun, -⟩ := hk.run
      obtain ⟨_, hrelated, hyields'⟩ := hmiddle.triples hwoven (by decide) rfl hrun
      cases hrelated with
      | ok hrest =>
          obtain rfl := hbehind hne (by simp) hrest
          have hyields : Yields (.ref (.tripleExtended false)) _ _ _ := ⟨_, hrun, rfl⟩
          exact hback (.next (iteration_yields ⟨_, hignored⟩ hyields.choose)
            (iteration_yields ⟨_, hignored'⟩ hyields'.choose) (.refl _))
  | between hne hstatements hlayout hstatement =>
      have hinput : gap ++ after = [] ++ fork.tail false := htail.symm
      obtain ⟨input', hinput', hback⟩ := hstatements.alike hwoven hahead hinput hopp
      obtain ⟨after', _, hafter, hlayout'⟩ := hinput'.ignored hwoven hlayout
      obtain rfl := hbehind hne le_rfl hafter
      obtain ⟨_, hbody, -⟩ := hstatement.ref_ok
      have hyields : Yields (turtle .statement) _ _ _ := ⟨_, hbody, rfl⟩
      exact hback (.next (iteration_yields ⟨_, hlayout⟩ hyields)
        (iteration_yields ⟨_, hlayout'⟩ hyields) (.refl _))
  | appended hnil hafter =>
      subst hnil hafter
      obtain ⟨last, _, _, _, hstatements, hignored⟩ := haccepts.statements
      have hlast : last = last ++ fork.tail false := by rw [htail]; simp
      obtain ⟨last', hlast', hback⟩ := hstatements.alike hwoven hahead hlast hopp
      have hend : ∃ t, Run turtle (.ref .ignored) last' (.ok []) t := by
        rw [hlast] at hlast'
        rcases hlast'.position with rfl | ⟨-, rfl⟩
        · obtain ⟨layout, htext, hlayout⟩ := ignored_sound hignored
          obtain rfl : last = layout := htext.trans (List.append_nil _)
          rw [← hfinal]
          exact ignored_layout hlayout (fork.ignored true)
        · rw [← hlast]
          exact ⟨_, hignored⟩
      obtain ⟨_, hend⟩ := hend
      refine hback fun stop actions hyields hstop => ⟨last', ?_, _, hend⟩
      obtain ⟨hstop, rfl⟩ := (iteration_ends hignored).done.unique hyields
      exact (iteration_ends hend).done

/-! ## Accepted documents -/

theorem accepts_iff : Accepts prefixMap document final ↔
    ∃ last actions, Yields (plus iteration) document (.ok last) actions ∧
      (∃ t, Run turtle (.ref .ignored) last (.ok []) t) ∧
      runActions (actions ++ [(.turtleDoc, [])]) (initialState false prefixMap) =
        (final, none) := by
  have hclosing : ∀ {all t : Trace RuleName} {last : Bytes},
      Run turtle (.ref .ignored) last (.ok []) t →
      essence (all ++ t ++ closing .turtleDoc document (.ok []) ++
        closing (.grammar false) document (.ok [])) = essence all ++ [(.turtleDoc, [])] := by
    intro all t last hignored
    have hnone : essence t = [] :=
      essence_within (hignored.trace_names silent_closed (by decide))
    have hdoc : essence (closing .turtleDoc document (.ok [])) = [(.turtleDoc, [])] := rfl
    have hgrammar : essence (closing (.grammar false) document (.ok [])) = [] := rfl
    rw [essence_append, essence_append, essence_append, hnone, hdoc, hgrammar, List.append_nil,
      List.append_nil]
  constructor
  · intro haccepts
    obtain ⟨last, all, t', hplus, hignored, hact⟩ := haccepts.parts
    refine ⟨last, _, ⟨all, hplus, rfl⟩, ⟨t', hignored⟩, ?_⟩
    rw [← hclosing hignored, ← runActions_eq_essence]
    exact hact
  · rintro ⟨last, _, ⟨all, hplus, rfl⟩, ⟨t, hignored⟩, hact⟩
    have hdoc : Run turtle (.ref .turtleDoc) document (.ok []) _ := .ref (.seqNext hplus hignored)
    have hmust : Run turtle (.seq (.must (.ref .turtleDoc)) (.must .eof)) document (.ok []) _ :=
      .seqNext (.must hdoc) (.must .eofOk)
    refine ⟨.ok [], by simp, _, .ref (.sorStop hmust (by simp)), ?_⟩
    rw [List.append_nil, runActions_eq_essence, hclosing hignored]
    exact hact

/-- A document whose statements have the same actions is accepted with the same result. -/
theorem Alike.accepts {document' : Bytes} (halike : Alike document document')
    (haccepts : Accepts prefixMap document final) : Accepts prefixMap document' final := by
  obtain ⟨last, _, ⟨all, hplus, rfl⟩, hlast, hact⟩ := accepts_iff.mp haccepts
  obtain ⟨middle, t₁, t₂, hfirst, hmore, rfl⟩ := hplus.seq_ok
  obtain ⟨last', ⟨all', hstar, hessence⟩, t, hlast'⟩ :=
    halike last _ ⟨_, .starNext hfirst hmore, rfl⟩ hlast
  refine accepts_iff.mpr ⟨last', _, ?_, ⟨t, hlast'⟩, hact⟩
  cases hstar with
  | starNext hfirst' hmore' => exact ⟨_, .seqNext hfirst' hmore', hessence⟩
  | starDone hfail =>
      -- without a statement there would be no action
      exfalso
      obtain ⟨hnone, hactions⟩ := (iteration_ends hlast').unique ⟨_, hfail, rfl⟩
      rw [← hactions] at hessence
      obtain ⟨_, _, _, hlayout, hstatement, rfl⟩ := hfirst.seq_ok
      obtain ⟨_, _, rfl⟩ := hstatement.ref_ok
      simp [essence, essential, acts] at hessence

/-- The parser does not get past a hash sign that begins no comment. -/
theorem blocked_rejects {chunks : List Chunk} {good wall : Bytes} (hgood : IsLayout good)
    (hwall : Wall wall) (hwoven : Woven (blocked good wall hgood hwall) chunks) :
    ¬ Accepts prefixMap (textOf chunks ++ (good ++ wall)) final := by
  intro haccepts
  obtain ⟨_, _, _, hplus, hignored, -⟩ := haccepts.parts
  have hdoc : Run turtle (.ref .turtleDoc) (textOf chunks ++ (good ++ wall)) (.ok []) _ :=
    .ref (.seqNext hplus hignored)
  have hopp : Opposite (blocked good wall hgood hwall) chunks (textOf chunks ++ (good ++ wall))
      (textOf chunks ++ (good ++ wall)) :=
    ⟨_, .inside (List.suffix_refl chunks), rfl, rfl⟩
  obtain ⟨_, _, -, hrelated, -⟩ := hopp.follow hwoven rfl hdoc
  have hwallne : wall ≠ [] := by
    obtain ⟨⟨bad, rfl⟩, -⟩ := hwall
    simp
  cases hrelated with
  | ok hrest =>
      obtain ⟨pos, hpos, hnil, -⟩ := hrest
      cases hpos with
      | inside _ =>
          have htail := (List.append_eq_nil_iff.mp hnil.symm).2
          exact hwallne (List.append_eq_nil_iff.mp htail).2
      | beyond hbeyond => exact hwallne (hbeyond.symm.trans hnil.symm)

/-- Layout is exchanged, or appended, with the same triples exactly if the code ignores all
of the new one. -/
theorem relayout_iff {before : Bytes} (haccepts : Accepts prefixMap document final)
    (hdocument : document = before ++ (gap ++ after)) (hgap : LayoutAt document gap after)
    (hrun : AnyLayout (after = []) run) (hne : run ≠ [])
    (hstrings : StringsStay document gap after run) :
    (∃ final', Accepts prefixMap (before ++ (run ++ after)) final' ∧
      final'.inserted = final.inserted) ↔ IsLayout run := by
  have hbefore : ∀ {chunks : List Chunk}, document = textOf chunks ++ (gap ++ after) →
      before = textOf chunks := fun htext =>
    List.append_cancel_right (hdocument.symm.trans htext)
  constructor
  · rintro ⟨final', haccepts', -⟩
    by_contra hlayout
    obtain ⟨good, wall, htext, hgood, hwall⟩ := hrun.wall id hlayout
    have hhash : ∀ c ∈ (blocked good wall hgood hwall).final.head?, c ≠ char ']' := by
      obtain ⟨⟨bad, rfl⟩, -⟩ := hwall
      intro c hc
      obtain rfl := Option.mem_some_iff.mp hc
      decide
    obtain ⟨chunks, hwoven, hchunks⟩ := hgap.pieced haccepts hstrings (fun _ => hhash)
      fun _ _ => htext.symm
    rw [hbefore hchunks, htext] at haccepts'
    exact blocked_rejects hgood hwall hwoven haccepts'
  · intro hlayout
    obtain ⟨hisLayout, hnil, hidle⟩ := hgap.isLayout
    let layout (side : Bool) : Bytes := if side then run else gap
    have hlayouts : ∀ side, IsLayout (layout side) := by
      intro side
      cases side
      · exact hisLayout
      · exact hlayout
    have hempty : ∀ side, layout side = [] → after = [] := by
      intro side
      cases side
      · exact hnil
      · exact fun h => absurd h hne
    let fork := exchange layout after hlayouts hempty hidle
    have hpieced : Pieced fork (gap ++ after) document := by
      refine hgap.pieced haccepts hstrings id fun side hside => ?_
      cases side
      · exact absurd rfl hside
      · rfl
    obtain ⟨chunks, hwoven, hchunks⟩ := hpieced
    have hopp : Opposite fork chunks document (before ++ (run ++ after)) := by
      refine ⟨_, .inside (List.suffix_refl chunks), hchunks, ?_⟩
      rw [hbefore hchunks]
      rfl
    have halike := hgap.alike haccepts hwoven
      (exchange_ahead layout after hlayouts hempty hidle) rfl rfl hopp
    exact ⟨final, halike.accepts haccepts, rfl⟩

/-- Without quotation marks there is no string to overrun. -/
theorem stringsStay_of_unquoted (hdouble : char '"' ∉ document) (hsingle : char '\'' ∉ document) :
    StringsStay document gap after run := by
  rintro text mid ⟨input, middle, rest, _, _, _, hstatements, hignored, hoccurs⟩
  exfalso
  obtain ⟨_, hk⟩ := hoccurs.inner
  obtain ⟨_, hrun, -⟩ := hk.run
  obtain ⟨b, more, hb, htext⟩ := turtleString_begins hrun
  obtain ⟨⟨before, hbefore⟩, -⟩ := hoccurs.within
  obtain ⟨layout, hlayout⟩ := hignored.suffix
  have hmem : b ∈ document := by
    refine hstatements.suffix.subset ?_
    rw [hlayout, hbefore, htext]
    simp
  have hquote : b = char '"' ∨ b = char '\'' := by simpa using hb
  rcases hquote with rfl | rfl
  · exact hdouble hmem
  · exact hsingle hmem

end Place

end Relayout

/-! ## Two documents -/

theorem plainTriple_accepted : ∃ final : State false, Accepts [] plainTriple final := by
  have hcomputed : (parseWithin (q := false) 60 [] plainTriple).map
      (fun p => (p.outcome, p.fault)) = some (.ok [], none) := by
    decide +kernel
  simp only [Option.map_eq_some_iff, Prod.mk.injEq] at hcomputed
  obtain ⟨⟨_, final, _⟩, hparse, rfl, rfl⟩ := hcomputed
  exact ⟨final, .ok [], by simp, parseWithin_sound hparse⟩

/-- The space in front of its full stop. -/
theorem plainTriple_layout : LayoutAt plainTriple (bytes " ") (bytes ".") := by
  have hmatched : (exec turtle 60 (.ref (.triple false)) plainTriple).map Prod.fst =
      some (.ok (bytes " .")) := by
    decide +kernel
  simp only [Option.map_eq_some_iff, Prod.exists, exists_and_right, exists_eq_right] at hmatched
  obtain ⟨_, hexec⟩ := hmatched
  obtain ⟨_, htriple⟩ := (exec_sound 60 hexec).keeps rfl
  have hstart : StartsToken plainTriple :=
    startsToken_cons (b := char '<') (by decide) (by decide)
  have hstop : StartsToken (bytes ".") := startsToken_cons (b := char '.') (by decide) (by decide)
  have hspace : IsLayout (bytes " ") := .space (b := char ' ') (by decide) .nil
  obtain ⟨_, hignored⟩ := ignored_idle hstart
  obtain ⟨_, hlayout⟩ := ignored_complete hspace hstop
  obtain ⟨_, hlayout⟩ := hlayout.keeps rfl
  obtain ⟨_, hclose⟩ := (ch_matches '.' []).keeps rfl
  refine .within (by decide) ⟨plainTriple, plainTriple, [], [], [], _, .nil, hignored, ?_⟩
  exact .ref (.seqSecond htriple (.seqFirst (.here hlayout) hclose))

theorem plainTriple_stays (gap after run : Bytes) : StringsStay plainTriple gap after run :=
  stringsStay_of_unquoted (by decide) (by decide)

/-- A comment in front of the full stop. -/
theorem commentedTriple_accepted : ∃ final final' : State false, Accepts [] plainTriple final ∧
    Accepts [] (bytes "<s> <p> <o>#\n.") final' ∧ final'.inserted = final.inserted := by
  obtain ⟨final, haccepts⟩ := plainTriple_accepted
  have hcomment : IsLayout (bytes "#\n") := .comment (List.forall_mem_nil _) (by decide) .nil
  have hany : AnyLayout (bytes "." = []) (bytes "#\n") :=
    .comment (List.forall_mem_nil _) (by decide) .nil
  have hdocument : plainTriple = bytes "<s> <p> <o>" ++ (bytes " " ++ bytes ".") := by decide
  obtain ⟨final', haccepts', hsame⟩ := (relayout_iff haccepts hdocument plainTriple_layout hany
    (by decide) (plainTriple_stays _ _ _)).mpr hcomment
  exact ⟨final, final', haccepts, haccepts', hsame⟩

/-- A comment behind the full stop, with nothing behind it. -/
theorem unfinishedComment_rejected : ¬ ∀ (document before gap after run : Bytes)
    (final : State false), Accepts [] document final → document = before ++ (gap ++ after) →
    LayoutAt document gap after → AnyLayout (after = []) run → run ≠ [] →
    ∃ final' : State false, Accepts [] (before ++ (run ++ after)) final' ∧
      final'.inserted = final.inserted := by
  intro h
  obtain ⟨final, haccepts⟩ := plainTriple_accepted
  have hany : AnyLayout (([] : Bytes) = []) (bytes "#") := .unfinished rfl (List.forall_mem_nil _)
  obtain ⟨final', haccepts', -⟩ := h plainTriple plainTriple [] [] (bytes "#") final haccepts
    (by simp) (.appended rfl rfl) hany (by decide)
  have hrejected : (parseWithin (q := false) 60 [] (plainTriple ++ (bytes "#" ++ []))).map
      Parse.outcome = some .error := by
    decide +kernel
  rw [Option.map_eq_some_iff] at hrejected
  obtain ⟨p, hparse, houtcome⟩ := hrejected
  obtain ⟨outcome, hne, hparses⟩ := haccepts'
  have hsame := hparses.unique (parseWithin_sound hparse)
  exact hne ((congrArg Parse.outcome hsame).trans houtcome)

end RdfParser.Turtle
