/-
  Turtle/Abandoned.lean --- what an abandoned statement leaves behind.

  Actions run as soon as their rules match, and nothing takes them back when the rules
  around them fail.  Of the attempts that precede a match only one does harm: a directive
  with `prefix` and a name in one word is read as the beginning of triples first.
-/
import RdfParser.Turtle.Keywords
import RdfParser.Turtle.Balance

set_option autoImplicit false

namespace RdfParser.Turtle

open RdfParser.Foundation RdfParser.Rdf RdfParser.Peg RdfParser.Peg.Rule

/-! ## The derivation of a document -/

/-- Statements from the front of the document on: what is left of it, the actions that
have run, and those of the matches that belong to the derivation. -/
inductive Statements (document : Bytes) : Bytes → Trace RuleName → Trace RuleName → Prop where
  | nil : Statements document document [] []
  | snoc {input rest : Bytes} {t k t' k' : Trace RuleName} (h : Statements document input t k)
      (hrun : Run turtle iteration input (.ok rest) t')
      (hkeeps : Keeps turtle iteration input rest k') :
      Statements document rest (t ++ t') (k ++ k')

/-- A further statement follows. -/
def Continues (input : Bytes) : Prop := ∃ rest t, Run turtle iteration input (.ok rest) t

/-- What the next statement finds is the same: no entry of a stack, no subject, no prefix
and no triple more. -/
structure Untraced (s s' : State false) : Prop where
  inserted : s.inserted = s'.inserted
  verbStack : s.verbStack = s'.verbStack
  listStack : s.bnplCollectionListStack = s'.bnplCollectionListStack
  pairStack : s.verbObjectPairListStack = s'.verbObjectPairListStack
  subject : s.subject = s'.subject
  prefixMap : s.prefixMap = s'.prefixMap

/-- Abandoned alternatives leave no trace: the delivered triples are those that the actions
of the derivation insert, and every statement but the first begins where the derivation of
those before it ends. -/
structure NoTrace (prefixMap : PrefixMap) (document : Bytes) (final : State false) : Prop where
  delivered : ∃ rest k, Keeps turtle (.ref (.grammar false)) document rest k ∧
    final.inserted = (runActions k (initialState false prefixMap)).1.inserted
  later : ∀ rest t k, Statements document rest t k → Continues rest →
    Untraced (runActions t (initialState false prefixMap)).1
      (runActions k (initialState false prefixMap)).1

/-- The next statement is a directive with `prefix` and the name in one word. -/
def Glued (input rest : Bytes) : Prop :=
  ∃ middle t₁ t₂ t₃, Run turtle (.ref .ignored) input (.ok middle) t₁ ∧
    Run turtle (.ref (.tripleExtended false)) middle .fail t₂ ∧
    Run turtle (.ref .sparqlPrefix) middle (.ok rest) t₃ ∧ StartsToken (middle.drop 6)

/-- No such directive is followed by a further statement. -/
def Separated (document : Bytes) : Prop :=
  ∀ input rest t k, Statements document input t k → Glued input rest → ¬ Continues rest

/-! ## One statement -/

section Iteration

variable {input rest : Bytes} {k : Trace RuleName}

/-- The rules of directives. -/
def inDirective : RuleName → Bool
  | .directive | .prefixID | .sparqlPrefix | .base | .sparqlBase | .iriref => true
  | name => silent name

theorem inDirective_closed (name : RuleName) (h : inDirective name = true) :
    ∀ other ∈ (turtle name).names, inDirective other = true := by
  cases name <;> first | decide | exact absurd h Bool.false_ne_true

/-- These rules and that of a statement. -/
def declaring (name : RuleName) : Bool := inDirective name || name == .statement

/-- A directive in the place of the next statement. -/
structure DirectiveAt (d : Directive) (input middle rest : Bytes) (k : Trace RuleName) : Prop where
  layout : ∃ t, Run turtle (.ref .ignored) input (.ok middle) t
  triples : ∃ t, Run turtle (.ref (.tripleExtended false)) middle .fail t
  rule : ∃ t, Run turtle (.ref d.rule) middle (.ok rest) t
  actions : k.Within declaring
  yields : ∀ abandoned, Yields (.ref (.tripleExtended false)) middle .fail abandoned →
    Yields iteration input (.ok rest) (abandoned ++ essence k)

theorem directiveAt {d : Directive} {middle : Bytes} {k₁ k₂ t t' : Trace RuleName}
    (hlayout : Keeps turtle (.ref .ignored) input middle k₁)
    (hfail : Run turtle (.ref (.tripleExtended false)) middle .fail t)
    (hdirective : Keeps turtle (.ref .directive) middle rest k₂)
    (hrule : Run turtle (.ref d.rule) middle (.ok rest) t') :
    DirectiveAt d input middle rest
      (k₁ ++ (k₂ ++ [(.statement, consumed middle rest)])) := by
  obtain ⟨hnone, hyields⟩ := layout_yields hlayout
  obtain ⟨t₁, hignored, hsub₁⟩ := hlayout.run
  obtain ⟨t₂, hrun, hsub₂⟩ := hdirective.run
  refine ⟨⟨_, hignored⟩, ⟨_, hfail⟩, ⟨_, hrule⟩, ?_, ?_⟩
  · have hstart : ∀ name ∈ (Rule.ref RuleName.ignored).names, inDirective name = true := by
      decide
    have hstart' : ∀ name ∈ (Rule.ref RuleName.directive).names, inDirective name = true := by
      decide
    intro entry hentry
    rcases List.mem_append.mp hentry with hentry | hentry
    · have hname := hignored.trace_names inDirective_closed hstart entry (hsub₁.subset hentry)
      exact Bool.or_eq_true_iff.mpr (.inl hname)
    rcases List.mem_append.mp hentry with hentry | hentry
    · have hname := hrun.trace_names inDirective_closed hstart' entry (hsub₂.subset hentry)
      exact Bool.or_eq_true_iff.mpr (.inl hname)
    · obtain rfl := List.mem_singleton.mp hentry
      rfl
  · intro abandoned habandoned
    have hsame : essence (k₁ ++ (k₂ ++ [(.statement, consumed middle rest)])) =
        essence k₂ ++ [(.statement, [])] := by
      rw [essence_append, hnone, essence_append]
      rfl
    have hmatch : Yields (turtle .statement) middle (.ok rest) (abandoned ++ essence k₂) :=
      habandoned.skip (Directive.yields hdirective)
    rw [hsame, ← List.append_assoc]
    exact hyields.seq hmatch.ref_ok

/-- Triples run the actions of the derivation; a directive also those of the attempt to
read it as triples. -/
theorem iteration_cases (h : Keeps turtle iteration input rest k) :
    Yields iteration input (.ok rest) (essence k) ∨
      ∃ d middle, DirectiveAt d input middle rest k := by
  obtain ⟨middle, k₁, k₂, hlayout, hstatement, rfl⟩ := h.seq_inv
  obtain ⟨k₂, hbody, rfl⟩ := hstatement.ref_inv
  rcases hbody.sor_inv with htriple | ⟨t, hfail, hdirective⟩
  · obtain ⟨hnone, hyields⟩ := layout_yields hlayout
    obtain ⟨t, hrun, -⟩ := htriple.run
    obtain ⟨k, hk, hessence⟩ := tripleExtended_kept hrun
    obtain ⟨-, rfl⟩ := hk.unique htriple
    have hmatch : Yields (turtle .statement) middle (.ok rest) (essence k) :=
      .choose ⟨t, hrun, hessence⟩
    rw [essence_append, hnone, essence_append]
    exact .inl (hyields.seq hmatch.ref_ok)
  · obtain ⟨d, t', hrule⟩ := Directive.of_directive hdirective
    exact .inr ⟨d, middle, directiveAt hlayout hfail hdirective hrule⟩

/-- The directive in one word is a statement. -/
theorem Glued.directiveAt (hglued : Glued input rest) (h : Keeps turtle iteration input rest k) :
    ∃ middle, DirectiveAt .sparqlPrefix input middle rest k ∧ StartsToken (middle.drop 6) := by
  obtain ⟨middle, _, _, _, hignored, hfail, hrule, hstarts⟩ := hglued
  obtain ⟨middle', k₁, k₂, hlayout, hstatement, rfl⟩ := h.seq_inv
  obtain rfl := hlayout.rest_eq hignored
  obtain ⟨k₂, hbody, rfl⟩ := hstatement.ref_inv
  rcases hbody.sor_inv with htriple | ⟨_, -, hdirective⟩
  · obtain ⟨_, hmatch, -⟩ := htriple.run
    cases (hmatch.deterministic hfail).1
  · exact ⟨middle', Turtle.directiveAt hlayout hfail hdirective hrule, hstarts⟩

/-- A statement that is no such directive runs the actions of the derivation. -/
theorem iteration_kept (h : Keeps turtle iteration input rest k) (hglued : ¬ Glued input rest) :
    Yields iteration input (.ok rest) (essence k) := by
  rcases iteration_cases h with hyields | ⟨d, middle, hat⟩
  · exact hyields
  · obtain ⟨_, hlayout⟩ := hat.layout
    obtain ⟨_, htriples⟩ := hat.triples
    obtain ⟨_, hrule⟩ := hat.rule
    refine hat.yields [] (d.termless hrule ?_).tripleExtended
    rintro rfl hstarts
    exact hglued ⟨middle, _, _, _, hlayout, htriples, hrule, hstarts⟩

end Iteration

/-! ## The attempt to read a directive as triples -/

section Attempt

variable {input rest after : Bytes} {t : Trace RuleName}

/-- The subject and the verb have run their actions. -/
structure Begins (input rest : Bytes) (begun : Trace RuleName) : Prop where
  subject : ∃ m₁ m₂ left right, Yields (.ref (.subject false)) input (.ok m₁) left ∧
    Yields (.ref .ignored) m₁ (.ok m₂) [] ∧
    Yields (.ref (.verb false)) m₂ (.ok rest) right ∧ begun = left ++ right
  unbracketed : Unbracketed input

/-- A name, the subject, an IRI and the verb. -/
def begun (name iri : Bytes) : Trace RuleName :=
  [(.prefixedName, name), (.subject false, []), (.iriref, iri), (.verb false, [])]

theorem glued_begins (h : Run turtle (.ref .sparqlPrefix) input (.ok rest) t)
    (hstarts : StartsToken (input.drop 6)) : ∃ name iri, Begins input rest (begun name iri) := by
  obtain ⟨m₁, m₂, name, iri, _, hsubject, -, hlayout, -, hverb⟩ := glued_reads h hstarts
  obtain ⟨hbracket, -, -⟩ := Directive.first_refused (d := .sparqlPrefix) h
  exact ⟨name, iri, ⟨m₁, m₂, _, _, hsubject, hlayout, hverb, rfl⟩, hbracket⟩

/-- No object follows. -/
theorem Begins.stop {actions left : Trace RuleName} (h : Begins input rest actions)
    (hlayout : Yields (.ref .ignored) rest (.ok after) [])
    (hobject : Yields (.ref (.object false)) after .fail left) :
    Yields (.ref (.tripleExtended false)) input .fail (actions ++ left) := by
  obtain ⟨⟨m₁, m₂, first, second, hsubject, hgap, hverb, rfl⟩, hbracket⟩ := h
  have hlist : Yields (.ref (.objectList false)) after .fail left := .ref_fail hobject.stop
  have hinner : Yields (.ref (.predicateObjectListInner false)) m₂ .fail
      (second ++ ([] ++ left)) := .ref_fail (hverb.seq (hlayout.seq hlist))
  have hverbs : Yields (.ref (.predicateObjectList false)) m₂ .fail (second ++ ([] ++ left)) :=
    .ref_fail hinner.stop
  have hseq1 : Yields (.ref (.tripleSeq1 false)) input .fail
      (first ++ ([] ++ (second ++ ([] ++ left)))) := .ref_fail (hsubject.seq (hgap.seq hverbs))
  have hseq2 : Yields (.ref (.tripleSeq2 false)) input .fail [] :=
    .ref_fail (blankNodePropertyList_refused hbracket).stop
  have htriple : Yields (.ref (.triple false)) input .fail _ := .ref_fail (hseq1.skip hseq2)
  have hfail : Yields (.ref (.tripleExtended false)) input .fail _ := .ref_fail htriple.stop
  simpa using hfail

/-- What runs when an object follows. -/
def finished : Trace RuleName :=
  [(.predicateObjectListInner false, []), (.tripleSeq1 false, []), (.triple false, [])]

/-- After layout a character is refused. -/
theorem separator_refused {c : Char} {more : Rule RuleName}
    (h : ∀ rest t, Run turtle (.ref .ignored) input (.ok rest) t →
      ∀ b ∈ rest.head?, b ≠ char c) :
    Yields (.star (.seq (.ref .ignored) (.seq (ch c) more))) input (.ok input) [] := by
  obtain ⟨rest, t, hignored⟩ := ignored_matches input
  obtain ⟨k, hk⟩ := hignored.keeps rfl
  exact ((layout_yields hk).2.seq (ch_refused (h rest t hignored)).stop).done

/-- An object follows, and no more: triples are inserted, but the full stop is missing. -/
theorem Begins.finish {actions object : Trace RuleName} {last : Bytes}
    (h : Begins input rest actions) (hlayout : Yields (.ref .ignored) rest (.ok after) [])
    (hobject : Yields (.ref (.object false)) after (.ok last) object) (hlast : Unlisted last)
    (hfail : Run turtle (.ref (.tripleExtended false)) input .fail t) :
    Yields (.ref (.tripleExtended false)) input .fail (actions ++ object ++ finished) := by
  obtain ⟨⟨m₁, m₂, first, second, hsubject, hgap, hverb, rfl⟩, hbracket⟩ := h
  have hcomma : Yields (.star (seqOf [.ref .ignored, ch ',', .ref .ignored,
      .ref (.object false)])) last (.ok last) [] :=
    separator_refused fun rest t hrun b hb => (hlast rest t hrun b hb).1
  have hsemicolon : Yields (.star (seqOf [.ref .ignored, ch ';',
      opt (.seq (.ref .ignored) (.ref (.predicateObjectListInner false)))])) last (.ok last) [] :=
    separator_refused fun rest t hrun b hb => (hlast rest t hrun b hb).2
  have hlist : Yields (.ref (.objectList false)) after (.ok last) (object ++ []) :=
    .ref rfl (hobject.seq hcomma)
  have hinner : Yields (turtle (.predicateObjectListInner false)) m₂ (.ok last)
      (second ++ ([] ++ (object ++ []))) := hverb.seq (hlayout.seq hlist)
  have hverbs : Yields (.ref (.predicateObjectList false)) m₂ (.ok last) _ :=
    .ref rfl (hinner.ref_ok.seq hsemicolon)
  have hseq1 : Yields (turtle (.tripleSeq1 false)) input (.ok last) _ :=
    hsubject.seq (hgap.seq hverbs)
  have htriple : Yields (turtle (.triple false)) input (.ok last) _ := hseq1.ref_ok.choose
  obtain ⟨stop, _, hignored⟩ := ignored_matches last
  obtain ⟨k, hk⟩ := hignored.keeps rfl
  have hstop : Yields (.seq (.ref .ignored) (ch '.')) last .fail [] := by
    refine (layout_yields hk).2.seq (ch_refused fun b hb => ?_)
    rintro rfl
    cases stop with
    | nil => cases hb
    | cons c more =>
        -- with a full stop the triples would have matched
        obtain rfl := Option.mem_some_iff.mp hb
        obtain ⟨_, htriple, -⟩ := htriple.ref_ok
        have hmatch : Run turtle (.ref (.tripleExtended false)) input (.ok more) _ :=
          .ref (.seqNext htriple (.seqNext hignored (.byteOk (beq_self_eq_true _))))
        cases (hmatch.deterministic hfail).1
  have hall : Yields (.ref (.tripleExtended false)) input .fail _ :=
    .ref_fail (htriple.ref_ok.seq hstop)
  obtain ⟨trace, hrun, hessence⟩ := hall
  refine ⟨trace, hrun, hessence.trans ?_⟩
  simp [finished, essential, acts, readsText]

end Attempt

/-! ## What the attempt leaves -/

section Frames

variable {q : Bool} {trace : Trace RuleName}

/-- What no action of these names changes, a trace of them does not change. -/
theorem runActions_frame {β : Type} {S : RuleName → Bool} (f : State q → β)
    (hstep : ∀ name text s s', S name = true → apply name text s = .ok s' → f s' = f s)
    (htrace : trace.Within S) (s : State q) : f (runActions trace s).1 = f s := by
  induction trace generalizing s with
  | nil => rfl
  | cons entry trace ih =>
      obtain ⟨name, text⟩ := entry
      cases happly : apply name text s with
      | error fault => rw [runActions_cons_error happly]
      | ok s' =>
          rw [runActions_cons_ok happly,
            ih (fun other hother => htrace other (List.mem_cons_of_mem _ hother))]
          exact hstep name text s s' (htrace _ List.mem_cons_self) happly

/-- The same for what follows another trace. -/
theorem runActions_append_frame {β : Type} {S : RuleName → Bool} (f : State q → β)
    (hstep : ∀ name text s s', S name = true → apply name text s = .ok s' → f s' = f s)
    (htrace : trace.Within S) (before : Trace RuleName) (s : State q) :
    f (runActions (before ++ trace) s).1 = f (runActions before s).1 := by
  rw [runActions_append]
  split
  · rename_i s' hbefore
    rw [hbefore]
    exact runActions_frame f hstep htrace s'
  · rename_i s' fault hbefore
    rw [hbefore]

/-- The rules whose actions insert triples. -/
def inserting : RuleName → Bool
  | .tripleSeq1 _ | .tripleSeq2 _ | .collection _ | .blankNodePropertyList _ => true
  | _ => false

theorem apply_inserted {name : RuleName} {text : Bytes} {s s' : State q}
    (hname : (!inserting name) = true) (h : apply name text s = .ok s') :
    s'.inserted = s.inserted := by
  have hsignal : ∀ {s s' : State q}, s'.signals = s.signals → s'.inserted = s.inserted :=
    fun hsame => by rw [State.inserted, hsame, State.inserted]
  have happended : ∀ {s : State q} {signal : Signal (Triple q)}, signal.triple? = none →
      (s.signals ++ [signal]).filterMap Signal.triple? = s.signals.filterMap Signal.triple? := by
    intro s signal hnone
    simp [hnone]
  unfold apply at h
  split at h
  all_goals first
    | exact absurd hname Bool.false_ne_true
    | exact hsignal (State.lift_signals h)
    | rw [Except.ok.injEq] at h
      subst h
    | skip
  case h_26 => exact hsignal (State.processVerb_signals _)
  case h_32 =>
      unfold State.processPredicateObjectListInner at h
      split at h <;> cases h
      rfl
  all_goals first
    | rfl
    | exact happended rfl

/-- In a directive no verb is pushed. -/
theorem apply_verbStack {name : RuleName} {text : Bytes} {s s' : State q}
    (hname : declaring name = true) (h : apply name text s = .ok s') :
    s'.verbStack = s.verbStack := by
  cases name <;> first
    | exact absurd hname Bool.false_ne_true
    | rw [State.lift_frame h]
    | (cases h
       rfl)

theorem declaring_inserts {name : RuleName} (h : declaring name = true) :
    (!inserting name) = true := by
  cases name <;> first | rfl | exact absurd h Bool.false_ne_true

/-- A directive inserts nothing and pushes nothing. -/
theorem directive_frame (htrace : trace.Within declaring) (before : Trace RuleName)
    (s : State q) :
    (runActions (before ++ trace) s).1.inserted = (runActions before s).1.inserted ∧
      (runActions (before ++ trace) s).1.verbStack = (runActions before s).1.verbStack :=
  ⟨runActions_append_frame State.inserted
      (fun _ _ _ _ hname => apply_inserted (declaring_inserts hname)) htrace before s,
    runActions_append_frame State.verbStack (fun _ _ _ _ => apply_verbStack) htrace before s⟩

theorem essence_names {S : RuleName → Bool} (h : trace.Within S) : (essence trace).Within S := by
  intro entry hentry
  obtain ⟨original, horiginal, hname⟩ := mem_of_mem_essence hentry
  exact hname ▸ h original horiginal

/-- Triples are never taken back. -/
theorem apply_keeps_inserted {name : RuleName} {text : Bytes} {s s' : State q}
    (h : apply name text s = .ok s') : s.inserted <+: s'.inserted := by
  by_cases hname : name = .turtleDoc
  · subst hname
    exact (apply_inserted rfl h).symm ▸ List.prefix_rfl
  · obtain ⟨calls, hcalls, -⟩ := apply_extends h hname
    rw [State.inserted, State.inserted, hcalls, List.filterMap_append]
    exact List.prefix_append _ _

theorem runActions_keeps_inserted {s s' : State q} (h : runActions trace s = (s', none)) :
    s.inserted <+: s'.inserted := by
  induction trace generalizing s with
  | nil =>
      cases h
      exact List.prefix_rfl
  | cons entry trace ih =>
      obtain ⟨s₁, happly, hrest⟩ := runActions_cons_inv h
      exact (apply_keeps_inserted happly).trans (ih hrest)

end Frames

section Leftovers

variable {input rest after : Bytes} {t k : Trace RuleName} {s s' : State false}

/-- The last action of an object is its own. -/
theorem object_last {actions : Trace RuleName}
    (h : Yields (.ref (.object false)) input (.ok rest) actions) :
    ∃ before, actions = before ++ [(.object false, [])] := by
  obtain ⟨_, hrun, rfl⟩ := h
  obtain ⟨t, -, rfl⟩ := hrun.ref_ok
  exact ⟨essence t, essence_append _ _⟩

/-- With its object the verb gives a pair, and the pair a triple. -/
theorem finished_inserts {before : Trace RuleName}
    (h : runActions (before ++ [(.object false, [])] ++ finished) s = (s', none)) :
    s.inserted.length < s'.inserted.length := by
  obtain ⟨s₃, hobjects, hfinished⟩ := runActions_append_inv h
  obtain ⟨s₁, hbefore, hobject⟩ := runActions_append_inv hobjects
  obtain ⟨s₂, hpush, hnil⟩ := runActions_cons_inv hobject
  cases hnil
  obtain rfl := Except.ok.inj hpush
  have hfirst := (runActions_keeps_inserted hbefore).length_le
  obtain ⟨s₄, hinner, hfinished⟩ := runActions_cons_inv hfinished
  obtain ⟨s₅, hseq, hfinished⟩ := runActions_cons_inv hfinished
  obtain ⟨s₆, hclear, hnil⟩ := runActions_cons_inv hfinished
  cases hnil
  have hsame : s₄.inserted = s₁.pushCurrentTermIntoBnplCollectionList.inserted :=
    apply_inserted rfl hinner
  have hpairs : s₄.verbObjectPairList ≠ [] := by
    have hinner' : s₁.pushCurrentTermIntoBnplCollectionList.processPredicateObjectListInner =
        .ok s₄ := hinner
    unfold State.processPredicateObjectListInner at hinner'
    split at hinner' <;> cases hinner'
    simp [State.pushCurrentTermIntoBnplCollectionList]
  obtain rfl : s₄.processTripleSeq = s₅ := Except.ok.inj hseq
  obtain rfl : s₄.processTripleSeq.clearTripleParameters = s' := Except.ok.inj hclear
  have hcount : s₄.processTripleSeq.clearTripleParameters.inserted.length =
      s₄.inserted.length + s₄.verbObjectPairList.length := by
    unfold State.processTripleSeq
    rw [State.foldl_insertTriple]
    have hinserted : (s₄.signals ++ (s₄.verbObjectPairList.map (tripleOf s₄.subject)).map
        Signal.insertTriple).filterMap Signal.triple? =
        s₄.inserted ++ s₄.verbObjectPairList.map (tripleOf s₄.subject) := by
      rw [List.filterMap_append, Signal.filterMap_insertTriple]
      rfl
    have hlength := congrArg List.length hinserted
    rw [List.length_append, List.length_map] at hlength
    exact hlength
  have hpos := List.length_pos_iff.mpr hpairs
  have hmiddle : s₄.inserted.length = s₁.inserted.length := congrArg List.length hsame
  omega

/-- Without an object the verb stays on its stack. -/
theorem begun_pushes {name iri : Bytes} {left : Trace RuleName}
    (hobject : Yields (.ref (.object false)) after .fail left)
    (h : runActions (begun name iri ++ left) s = (s', none)) :
    s.verbStack.length < s'.verbStack.length := by
  obtain ⟨s₄, hbegun, hleft⟩ := runActions_append_inv h
  obtain ⟨trace, hrun, rfl⟩ := hobject
  rw [← runActions_eq_essence] at hleft
  have hsafe := run_stacks hrun s₄
  rw [hleft] at hsafe
  have hleft := (hsafe.grown rfl).verbStack
  obtain ⟨s₁, hname, hbegun⟩ := runActions_cons_inv hbegun
  obtain ⟨s₂, hsubject, hbegun⟩ := runActions_cons_inv hbegun
  obtain ⟨s₃, hiri, hverb⟩ := runActions_cons_inv hbegun
  have hname := (apply_grows hname rfl).verbStack
  have hsubject := (apply_grows hsubject rfl).verbStack
  have hiri := (apply_grows hiri rfl).verbStack
  have hverb := (apply_grows (runActions_single_inv hverb) rfl).verbStack
  simp only [pushesVerb, Bool.toNat_true, Bool.toNat_false] at hname hsubject hiri hverb
  simp only [verbGain] at hleft
  omega

/-- If a statement follows, the attempt to read the directive as triples leaves a triple or
a verb behind. -/
theorem Glued.leaves (hglued : Glued input rest) (hcontinues : Continues rest)
    (hrun : Run turtle iteration input (.ok rest) t) (h : runActions t s = (s', none)) :
    s.inserted.length < s'.inserted.length ∨ s.verbStack.length < s'.verbStack.length := by
  obtain ⟨k, hk⟩ := hrun.keeps rfl
  obtain ⟨middle, hat, hstarts⟩ := hglued.directiveAt hk
  obtain ⟨_, hrule⟩ := hat.rule
  obtain ⟨_, hfail⟩ := hat.triples
  obtain ⟨name, iri, hbegins⟩ := glued_begins hrule hstarts
  -- the layout behind the directive, and the statement behind the layout
  obtain ⟨_, _, hnext⟩ := hcontinues
  obtain ⟨_, hnext⟩ := hnext.keeps rfl
  obtain ⟨after, _, _, hlayout, hstatement, -⟩ := hnext.seq_inv
  have hgap := (layout_yields hlayout).2
  have hsplit : ∀ abandoned, Yields (.ref (.tripleExtended false)) middle .fail abandoned →
      ∃ s₁, runActions abandoned s = (s₁, none) ∧ s'.inserted = s₁.inserted ∧
        s'.verbStack = s₁.verbStack := by
    intro abandoned habandoned
    obtain ⟨_, hrun', hessence⟩ := hat.yields abandoned habandoned
    obtain ⟨-, rfl⟩ := hrun.deterministic hrun'
    rw [runActions_eq_essence, hessence] at h
    obtain ⟨s₁, hfirst, -⟩ := runActions_append_inv h
    have hsame := directive_frame (essence_names hat.actions) abandoned s
    rw [h, hfirst] at hsame
    exact ⟨s₁, hfirst, hsame⟩
  obtain ⟨outcome, t', hobject⟩ := matching_ends (.object false) after
  cases outcome with
  | error => exact absurd rfl (matching_never_errors (by simp) hobject)
  | fail =>
      have hnone : Yields (.ref (.object false)) after .fail (essence t') := ⟨t', hobject, rfl⟩
      obtain ⟨s₁, hfirst, -, hverbs⟩ := hsplit _ (hbegins.stop hgap hnone)
      rw [hverbs]
      exact .inr (begun_pushes hnone hfirst)
  | ok last =>
      have hsome : Yields (.ref (.object false)) after (.ok last) (essence t') :=
        ⟨t', hobject, rfl⟩
      have hlast := statement_unlisted hstatement hsome
      obtain ⟨before, hbefore⟩ := object_last hsome
      obtain ⟨s₁, hfirst, htriples, -⟩ := hsplit _ (hbegins.finish hgap hsome hlast hfail)
      rw [hbefore, ← List.append_assoc] at hfirst
      rw [htriples]
      exact .inl (finished_inserts hfirst)

end Leftovers

/-! ## Documents -/

section Documents

variable {document input rest last : Bytes} {t k : Trace RuleName}

/-- The statements read so far begin the repetition. -/
theorem Statements.of_star (h : Statements document rest t k) {all : Trace RuleName}
    (hstar : Run turtle (.star iteration) document (.ok last) all) :
    ∃ more, all = t ++ more ∧ Run turtle (.star iteration) rest (.ok last) more := by
  induction h with
  | nil => exact ⟨all, rfl, hstar⟩
  | snoc _ hrun _ ih =>
      obtain ⟨more, rfl, hmore⟩ := ih
      cases hmore with
      | starNext hfirst hnext =>
          obtain ⟨heq, rfl⟩ := hrun.deterministic hfirst
          obtain rfl := Outcome.ok.inj heq
          exact ⟨_, (List.append_assoc ..).symm, hnext⟩
      | starDone hfail => cases (hrun.deterministic hfail).1

/-- The statements up to the place where the repetition stops. -/
theorem Statements.to_star (h : Statements document input t k) {all kept : Trace RuleName}
    (hkeeps : Keeps turtle (.star iteration) input last kept)
    (hstar : Run turtle (.star iteration) input (.ok last) all) :
    ∃ t' stop, all = t' ++ stop ∧ Statements document last (t ++ t') (k ++ kept) ∧
      Run turtle iteration last .fail stop := by
  generalize hrule : Rule.star iteration = rule at hkeeps
  induction hkeeps generalizing t k all with
  | token htoken _ =>
      subst hrule
      cases htoken
  | starNext hfirst _ _ ih =>
      cases hrule
      cases hstar with
      | starDone hfail =>
          obtain ⟨_, hrun, -⟩ := hfirst.run
          cases (hrun.deterministic hfail).1
      | starNext hrun hmore =>
          obtain rfl := hfirst.rest_eq hrun
          obtain ⟨t', stop, rfl, hstatements, hstop⟩ := ih (.snoc h hrun hfirst) hmore rfl
          refine ⟨_ ++ t', stop, (List.append_assoc ..).symm, ?_, hstop⟩
          rwa [List.append_assoc, List.append_assoc] at hstatements
  | starDone hfail =>
      cases hrule
      cases hstar with
      | starNext hrun _ => cases (hrun.deterministic hfail).1
      | starDone hstop =>
          refine ⟨[], _, rfl, ?_, hstop⟩
          rwa [List.append_nil, List.append_nil]
  | _ => cases hrule

/-- The layout and the names at the end of a document insert nothing. -/
theorem ending_quiet {rest' : Bytes} {t : Trace RuleName} {closed : Trace RuleName}
    (h : Run turtle (.ref .ignored) rest (.ok rest') t) (hsub : closed.Sublist t)
    (text text' : Bytes) :
    Trace.Within (fun name => !inserting name)
      (closed ++ [(.turtleDoc, text)] ++ [(.grammar false, text')]) := by
  have hlayout : closed.Within fun name => !inserting name := by
    intro entry hentry
    have hsilent : silent entry.1 = true :=
      h.trace_names silent_closed (by decide) entry (hsub.subset hentry)
    cases hname : entry.1 <;> first | rfl | simp [hname, silent] at hsilent
  exact (hlayout.append (by simp [Trace.Within, inserting])).append
    (by simp [Trace.Within, inserting])

/-- The derivation of an accepted document, with the actions that come after the last
statement. -/
theorem Accepts.derivation {prefixMap : PrefixMap} {final : State false}
    (h : Accepts prefixMap document final) :
    ∃ last all tail kept tail' t, Run turtle (.star iteration) document (.ok last) all ∧
      Run turtle (.ref .ignored) last (.ok []) t ∧
      Keeps turtle (.star iteration) document last kept ∧
      Keeps turtle (.ref (.grammar false)) document [] (kept ++ tail') ∧
      runActions (all ++ tail) (initialState false prefixMap) = (final, none) ∧
      tail.Within (fun name => !inserting name) ∧ tail'.Within fun name => !inserting name := by
  obtain ⟨last, _, t₂, hplus, hignored, hact⟩ := h.parts
  obtain ⟨_, a, b, hfirst, hmore, rfl⟩ := hplus.seq_ok
  have hstar := Run.starNext hfirst hmore
  obtain ⟨kept, hkept⟩ := hstar.keeps rfl
  obtain ⟨closed, hclosed⟩ := hignored.keeps rfl
  obtain ⟨t', hignored', hsub⟩ := hclosed.run
  obtain ⟨-, rfl⟩ := hignored.deterministic hignored'
  have hkeptPlus : Keeps turtle (plus iteration) document last kept := by
    cases hkept with
    | token hrule _ => cases hrule
    | starNext h₁ h₂ => exact .seq h₁ h₂
    | starDone hfail => cases (hfirst.deterministic hfail).1
  have hkeptDoc : Keeps turtle (.ref .turtleDoc) document [] _ := .ref (.seq hkeptPlus hclosed)
  have hkeptGrammar : Keeps turtle (.ref (.grammar false)) document [] _ :=
    .ref (.sorFirst (.seq (.must hkeptDoc) (.must (.token rfl .eofOk))))
  rw [List.append_nil, List.append_assoc, List.append_assoc] at hkeptGrammar
  have hactions : runActions ((a ++ b) ++ (t₂ ++ [(.turtleDoc, consumed document [])] ++
      [(.grammar false, consumed document [])])) (initialState false prefixMap) =
      (final, none) := by
    rw [← hact]
    simp only [List.append_assoc, closing]
  refine ⟨last, a ++ b, _, kept, _, t₂, hstar, hignored, hkept, hkeptGrammar, hactions,
    ending_quiet hignored (List.Sublist.refl _) _ _, ?_⟩
  rw [← List.append_assoc]
  exact ending_quiet hignored hsub _ _

/-- Where every statement is followed by another one, all actions that have run are those
of the derivation. -/
theorem Statements.kept (hseparated : Separated document) (h : Statements document rest t k)
    (hcontinues : Continues rest) : essence t = essence k := by
  induction h with
  | nil => rfl
  | @snoc input rest t k t' k' h hrun hkeeps ih =>
      have hglued : ¬ Glued input rest :=
        fun hglued => hseparated _ _ _ _ h hglued hcontinues
      obtain ⟨_, hrun', hessence⟩ := iteration_kept hkeeps hglued
      obtain ⟨-, rfl⟩ := hrun.deterministic hrun'
      rw [essence_append, essence_append, ih ⟨_, _, hrun⟩, hessence]

/-- A trace inserts nothing if its essence does not. -/
theorem quiet_of_essence (h : (essence t).Within fun name => !inserting name) :
    t.Within fun name => !inserting name := by
  intro entry hentry
  by_contra hinserts
  rw [Bool.not_eq_true, Bool.not_eq_false'] at hinserts
  have hacts : acts entry.1 = true := by
    cases hname : entry.1 <;> first | rfl | simp [hname, inserting] at hinserts
  have hmem : (entry.1, if readsText entry.1 then entry.2 else []) ∈ essence t :=
    List.mem_filterMap.mpr ⟨entry, hentry, if_pos hacts⟩
  have hquiet := h _ hmem
  simp [hinserts] at hquiet

theorem apply_quiet (name : RuleName) (text : Bytes) (s s' : State false)
    (hname : (!inserting name) = true) (h : apply name text s = .ok s') :
    s'.inserted = s.inserted :=
  apply_inserted hname h

/-- At the end of the document the attempt at triples inserts nothing. -/
theorem Statements.inserted (hseparated : Separated document)
    (h : Statements document last t k) {layout : Trace RuleName}
    (hend : Run turtle (.ref .ignored) last (.ok []) layout) (s : State false) :
    (runActions t s).1.inserted = (runActions k s).1.inserted := by
  cases h with
  | nil => rfl
  | @snoc input _ t k t' k' h hrun hkeeps =>
      have hsame : runActions t s = runActions k s :=
        runActions_congr (h.kept hseparated ⟨_, _, hrun⟩) s
      by_cases hglued : Glued input last
      · obtain ⟨middle, hat, hstarts⟩ := hglued.directiveAt hkeeps
        obtain ⟨_, hrule⟩ := hat.rule
        obtain ⟨name, iri, hbegins⟩ := glued_begins hrule hstarts
        obtain ⟨closed, hclosed⟩ := hend.keeps rfl
        have hfail := hbegins.stop (layout_yields hclosed).2 termless_nil.object
        obtain ⟨_, hrun', hessence⟩ := hat.yields _ hfail
        obtain ⟨-, rfl⟩ := hrun.deterministic hrun'
        have hdirective : k'.Within fun name => !inserting name :=
          fun entry hentry => declaring_inserts (hat.actions entry hentry)
        have hquiet : t'.Within fun name => !inserting name := by
          refine quiet_of_essence ?_
          rw [hessence, List.append_nil]
          exact Trace.Within.append (by simp [Trace.Within, begun, inserting])
            (essence_names hdirective)
        rw [runActions_append_frame State.inserted apply_quiet hquiet,
          runActions_append_frame State.inserted apply_quiet hdirective, hsame]
      · obtain ⟨_, hrun', hessence⟩ := iteration_kept hkeeps hglued
        obtain ⟨-, rfl⟩ := hrun.deterministic hrun'
        have hboth : essence (t ++ t') = essence (k ++ k') := by
          rw [essence_append, essence_append, h.kept hseparated ⟨_, _, hrun⟩, hessence]
        rw [runActions_congr hboth s]

/-- If no such directive is followed by a statement, nothing is left behind. -/
theorem noTrace_of_separated {prefixMap : PrefixMap} {final : State false}
    (h : Accepts prefixMap document final) (hseparated : Separated document) :
    NoTrace prefixMap document final := by
  constructor
  · obtain ⟨last, all, tail, kept, tail', layout, hstar, hend, hkept, hgrammar, hact, htail,
      htail'⟩ := h.derivation
    obtain ⟨t, stop, rfl, hstatements, hstop⟩ := Statements.nil.to_star hkept hstar
    rw [List.nil_append, List.nil_append] at hstatements
    -- the last repetition finds the end of the document
    have hquiet : stop.Within fun name => !inserting name := by
      obtain ⟨closed, hclosed⟩ := hend.keeps rfl
      have hdirective : Yields (.ref .directive) [] .fail [] := by
        have hrule : ∀ d : Directive, Yields (.ref d.rule) [] .fail [] := by
          intro d
          have hnone : ∀ accepts : UInt8 → Bool, Yields (.byte accepts) [] .fail [] :=
            fun accepts => ⟨[], .byteFail (by simp), rfl⟩
          cases d with
          | prefixID | base => exact .ref_fail (Yields.stop (Yields.stop (hnone _)))
          | sparqlPrefix | sparqlBase => exact .ref_fail (Yields.stop (hnone _))
        exact .ref_fail ((hrule .prefixID).skip ((hrule .base).skip
          ((hrule .sparqlBase).skip (hrule .sparqlPrefix))))
      have hstatement : Yields (.ref .statement) [] .fail [] :=
        .ref_fail (termless_nil.tripleExtended.skip hdirective)
      obtain ⟨_, hstop', hnone⟩ := (layout_yields hclosed).2.seq hstatement
      obtain ⟨-, rfl⟩ := hstop.deterministic hstop'
      refine quiet_of_essence ?_
      rw [hnone]
      simp [Trace.Within]
    refine ⟨[], _, hgrammar, ?_⟩
    have hfinal : final = (runActions (t ++ stop ++ tail) (initialState false prefixMap)).1 := by
      rw [hact]
    rw [hfinal, runActions_append_frame State.inserted apply_quiet htail,
      runActions_append_frame State.inserted apply_quiet hquiet,
      runActions_append_frame State.inserted apply_quiet htail']
    exact hstatements.inserted hseparated hend _
  · intro rest t k hstatements hcontinues
    rw [runActions_congr (hstatements.kept hseparated hcontinues)]
    exact ⟨rfl, rfl, rfl, rfl, rfl, rfl⟩

/-- The directive in one word matches as a statement. -/
theorem Glued.continues (h : Glued input rest) :
    ∃ t, Run turtle iteration input (.ok rest) t := by
  obtain ⟨middle, _, _, _, hlayout, hfail, hrule, -⟩ := h
  obtain ⟨b, more, rfl, hb⟩ := Directive.letter_begins (d := .sparqlPrefix) rfl hrule
  obtain ⟨_, hprefixID, -⟩ := Directive.letter_refused .prefixID hb (by simp) more
  obtain ⟨_, hat, -⟩ := Directive.letter_refused .base hb (by simp) more
  obtain ⟨_, hbase, -⟩ := Directive.letter_refused .sparqlBase hb (by simp) more
  have hdirective : Run turtle (.ref .directive) (b :: more) (.ok rest) _ :=
    .ref (.sorNext hprefixID (.sorNext hat (.sorNext hbase hrule)))
  exact ⟨_, .seqNext hlayout (.ref (.sorNext hfail hdirective))⟩

/-- If nothing is left behind, no such directive is followed by a statement. -/
theorem separated_of_noTrace {prefixMap : PrefixMap} {final : State false}
    (h : Accepts prefixMap document final) (hnone : NoTrace prefixMap document final) :
    Separated document := by
  intro input rest t k hstatements hglued hcontinues
  obtain ⟨t', hrun⟩ := hglued.continues
  obtain ⟨k', hkeeps⟩ := hrun.keeps rfl
  have hbefore := hnone.later _ _ _ hstatements ⟨_, _, hrun⟩
  have hafter := hnone.later _ _ _ (hstatements.snoc hrun hkeeps) hcontinues
  -- the actions of the derivation change neither the triples nor the verbs
  obtain ⟨_, hat, -⟩ := hglued.directiveAt hkeeps
  obtain ⟨htriples, hverbs⟩ :=
    directive_frame hat.actions k (initialState false prefixMap)
  have hinserted := hafter.inserted.trans (htriples.trans hbefore.inserted.symm)
  have hstack := hafter.verbStack.trans (hverbs.trans hbefore.verbStack.symm)
  -- those that have run do
  obtain ⟨last, all, tail, _, _, _, hstar, -, -, -, hact, -, -⟩ := h.derivation
  obtain ⟨more, rfl, -⟩ := (hstatements.snoc hrun hkeeps).of_star hstar
  rw [List.append_assoc] at hact
  obtain ⟨s', hact', -⟩ := runActions_append_inv hact
  obtain ⟨s, hfirst, hsecond⟩ := runActions_append_inv hact'
  rw [hact', hfirst] at hinserted hstack
  rcases hglued.leaves hcontinues hrun hsecond with hmore | hmore
  · exact absurd (congrArg List.length hinserted) (Nat.ne_of_gt hmore)
  · exact absurd (congrArg List.length hstack) (Nat.ne_of_gt hmore)

end Documents

/-! ## Abandoned alternatives -/

/-- In an accepted document abandoned alternatives leave no trace exactly if no directive
with `prefix` and the name in one word is followed by a further statement. -/
theorem noTrace_iff_separated {prefixMap : PrefixMap} {document : Bytes} {final : State false}
    (h : Accepts prefixMap document final) :
    NoTrace prefixMap document final ↔ Separated document :=
  ⟨separated_of_noTrace h, noTrace_of_separated h⟩

/-- The bytes of a statement are bytes of the document. -/
theorem Statements.suffix {document rest : Bytes} {t k : Trace RuleName}
    (h : Statements document rest t k) : rest <:+ document := by
  induction h with
  | nil => exact List.suffix_rfl
  | snoc _ hrun _ ih =>
      obtain ⟨text, hinput⟩ := hrun.suffix
      exact List.IsSuffix.trans ⟨text, hinput.symm⟩ ih

/-- The keyword ends with its letter. -/
theorem Glued.letter {input rest : Bytes} (h : Glued input rest) :
    ∃ b ∈ input, b = char 'X' ∨ b = char 'x' := by
  obtain ⟨middle, _, _, _, hlayout, -, hrule, -⟩ := h
  obtain ⟨gap, rfl, -⟩ := ignored_sound hlayout
  obtain ⟨word, more, _, hword, rfl, -⟩ := Directive.keyword_begins (d := .sparqlPrefix) hrule
  have hlast : (bytes "Xx").contains ∈ Directive.sparqlPrefix.keywordClasses := by
    simp [Directive.keywordClasses]
  obtain ⟨b, hb, hclass⟩ := Directive.word_any hword hlast
  have hletter : b = char 'X' ∨ b = char 'x' := by simpa [bytes, char] using hclass
  exact ⟨b, List.mem_append_right _ (List.mem_append_left _ hb), hletter⟩

/-- After the first statement nothing comes back that it has read. -/
theorem Statements.after_first {document first rest : Bytes} {t k t₁ : Trace RuleName}
    (h : Statements document rest t k) (hfirst : Run turtle iteration document (.ok first) t₁) :
    rest = document ∨ rest <:+ first := by
  induction h with
  | nil => exact .inl rfl
  | snoc _ hrun _ ih =>
      rcases ih with rfl | hsuffix
      · obtain ⟨hsame, -⟩ := hrun.deterministic hfirst
        cases hsame
        exact .inr List.suffix_rfl
      · obtain ⟨text, hinput⟩ := hrun.suffix
        exact .inr (List.IsSuffix.trans ⟨text, hinput.symm⟩ hsuffix)

/-- `<s> <p> <o> .` -/
def plainTriple : Bytes := bytes "<s> <p> <o> ."

/-- A blank after the keyword, and a further statement. -/
def spacedPrefix : Bytes := bytes "PREFIX p: <http://x/>\n<s> <p> <o> ."

theorem spacedPrefix_untraced : ∃ final, Accepts [] spacedPrefix final ∧
    NoTrace [] spacedPrefix final := by
  have hcomputed : (exec turtle 60 (.ref (.grammar false)) spacedPrefix).map (fun result =>
      (result.1, (runActions result.2 (initialState false [])).2)) = some (.ok [], none) := by
    decide +kernel
  simp only [Option.map_eq_some_iff, Prod.exists, Prod.mk.injEq] at hcomputed
  obtain ⟨_, trace, hexec, rfl, hnone⟩ := hcomputed
  have haccepts : Accepts [] spacedPrefix (runActions trace (initialState false [])).1 :=
    ⟨.ok [], by simp, trace, exec_sound 60 hexec, Prod.ext rfl hnone⟩
  obtain ⟨_, hlayout⟩ : ∃ t, Run turtle (.ref .ignored) spacedPrefix (.ok spacedPrefix) t :=
    ⟨_, exec_sound 10 rfl⟩
  obtain ⟨_, hfirst⟩ : ∃ t, Run turtle iteration spacedPrefix
      (.ok (bytes "\n<s> <p> <o> .")) t := ⟨_, exec_sound 60 rfl⟩
  refine ⟨_, haccepts, (noTrace_iff_separated haccepts).mpr ?_⟩
  intro input rest t k hstatements hglued
  exfalso
  rcases hstatements.after_first hfirst with rfl | hsuffix
  · -- the directive: its keyword is followed by a blank
    obtain ⟨middle, _, _, _, hignored, -, -, hstarts⟩ := hglued
    obtain ⟨hsame, -⟩ := hignored.deterministic hlayout
    cases hsame
    cases (hstarts (char ' ') rfl).1
  · -- what follows it: the letter does not occur any more
    obtain ⟨b, hb, hletter⟩ := hglued.letter
    have habsent : ∀ b ∈ bytes "\n<s> <p> <o> .", ¬ (b = char 'X' ∨ b = char 'x') := by
      decide +kernel
    exact habsent b (hsuffix.subset hb) hletter

/-- The keyword and the name are one word, which the first directive has declared. -/
def gluedPrefix : Bytes :=
  bytes "@prefix prefix: <http://x/> .\nprefix: #\n<http://y/> <s> <p> <o> ."

theorem gluedPrefix_traced : ∃ final, Accepts [] gluedPrefix final ∧
    ¬ NoTrace [] gluedPrefix final := by
  have hcomputed : (exec turtle 60 (.ref (.grammar false)) gluedPrefix).map (fun result =>
      (result.1, (runActions result.2 (initialState false [])).2)) = some (.ok [], none) := by
    decide +kernel
  have hfirst : (exec turtle 60 iteration gluedPrefix).map Prod.fst =
      some (.ok (bytes "\nprefix: #\n<http://y/> <s> <p> <o> .")) := by
    decide +kernel
  have hlayout : (exec turtle 60 (.ref .ignored)
      (bytes "\nprefix: #\n<http://y/> <s> <p> <o> .")).map Prod.fst =
      some (.ok (bytes "prefix: #\n<http://y/> <s> <p> <o> .")) := by
    decide +kernel
  have hfail : (exec turtle 60 (.ref (.tripleExtended false))
      (bytes "prefix: #\n<http://y/> <s> <p> <o> .")).map Prod.fst = some .fail := by
    decide +kernel
  have hrule : (exec turtle 60 (.ref .sparqlPrefix)
      (bytes "prefix: #\n<http://y/> <s> <p> <o> .")).map Prod.fst =
      some (.ok (bytes " <s> <p> <o> .")) := by
    decide +kernel
  have hnext : (exec turtle 60 iteration (bytes " <s> <p> <o> .")).map Prod.fst =
      some (.ok []) := by
    decide +kernel
  simp only [Option.map_eq_some_iff, Prod.exists, Prod.mk.injEq, exists_and_right,
    exists_eq_right] at hcomputed hfirst hlayout hfail hrule hnext
  obtain ⟨_, trace, hexec, rfl, hnone⟩ := hcomputed
  obtain ⟨_, hfirst⟩ := hfirst
  obtain ⟨_, hlayout⟩ := hlayout
  obtain ⟨_, hfail⟩ := hfail
  obtain ⟨_, hrule⟩ := hrule
  obtain ⟨_, hnext⟩ := hnext
  have haccepts : Accepts [] gluedPrefix (runActions trace (initialState false [])).1 :=
    ⟨.ok [], by simp, trace, exec_sound 60 hexec, Prod.ext rfl hnone⟩
  refine ⟨_, haccepts, fun htraced => ?_⟩
  have hrun := exec_sound 60 hfirst
  obtain ⟨k, hk⟩ := hrun.keeps rfl
  have hstarts : StartsToken ((bytes "prefix: #\n<http://y/> <s> <p> <o> .").drop 6) := by
    unfold StartsToken
    decide +kernel
  exact separated_of_noTrace haccepts htraced _ _ _ _ (Statements.nil.snoc hrun hk)
    ⟨_, _, _, _, exec_sound 60 hlayout, exec_sound 60 hfail, exec_sound 60 hrule, hstarts⟩
    ⟨_, _, exec_sound 60 hnext⟩

end RdfParser.Turtle
