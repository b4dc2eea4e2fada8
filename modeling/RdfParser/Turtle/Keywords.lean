/-
  Turtle/Keywords.lean --- directives, read as triples.

  A statement is tried as triples before it is tried as a directive.  The attempt ends
  without an action, because no keyword is a name: a name has a colon.  The exception is
  `prefix` without layout behind it.  Then the keyword and the name behind it are one
  name, which is a subject, and the IRI behind that name is a verb.
-/
import Mathlib.Data.Bool.AllAny
import Mathlib.Data.List.Forall2
import RdfParser.Turtle.Directives
import RdfParser.Turtle.Replay

set_option autoImplicit false

namespace RdfParser.Turtle

open RdfParser.Foundation RdfParser.Peg RdfParser.Peg.Rule

section Refusals

variable {q : Bool} {input rest : Bytes}

/-! ## Attempts without an action -/

/-- A rule that does not match fails. -/
theorem unmatched_fails {name : RuleName} (hretracts : retracting name = true)
    (h : ∀ rest t, ¬ Run turtle (.ref name) input (.ok rest) t) :
    Yields (.ref name) input .fail [] := by
  obtain ⟨outcome, t, hrun⟩ := matching_ends name input
  cases outcome with
  | ok rest => exact absurd hrun (h rest t)
  | error =>
      refine absurd rfl (matching_never_errors ?_ hrun)
      rintro q rfl
      exact Bool.false_ne_true hretracts
  | fail =>
      have hquiet : quietFailure false (.ref name) = true := by
        simp [quietFailure, Rule.retracts, hretracts]
      exact ⟨t, hrun, fail_essence hquiet hrun⟩

/-- Nothing but layout matches at the end of the input. -/
theorem unmatched_nil {name : RuleName} (hname : consuming name = true) (rest : Bytes)
    (t : Trace RuleName) : ¬ Run turtle (.ref name) [] (.ok rest) t := by
  intro h
  have hshorter := h.consumes consuming_closed hname
  simp at hshorter

theorem ch_refused {c : Char} (h : ∀ b ∈ input.head?, b ≠ char c) :
    Yields (ch c) input .fail [] :=
  ⟨[], .byteFail fun b hb => beq_false_of_ne (h b hb), rfl⟩

/-- No bracket opens here. -/
def Unbracketed (input : Bytes) : Prop := ∀ b ∈ input.head?, b ≠ char '(' ∧ b ≠ char '['

theorem unbracketed_cons {b : UInt8} {more : Bytes} (hround : b ≠ char '(')
    (hsquare : b ≠ char '[') : Unbracketed (b :: more) := by
  intro c hc
  obtain rfl := Option.mem_some_iff.mp hc
  exact ⟨hround, hsquare⟩

theorem collection_refused (h : Unbracketed input) :
    Yields (.ref (.collection q)) input .fail [] := by
  have hbegin : Yields (.ref .collectionBegin) input .fail [] :=
    .ref_fail (ch_refused fun b hb => (h b hb).1)
  exact .ref_fail hbegin.stop

theorem blankNodePropertyList_refused (h : Unbracketed input) :
    Yields (.ref (.blankNodePropertyList q)) input .fail [] := by
  have hbegin : Yields (.ref .blankNodePropertyListBegin) input .fail [] :=
    .ref_fail (ch_refused fun b hb => (h b hb).2)
  exact .ref_fail hbegin.stop

/-- No term begins here, and no bracket opens. -/
structure Termless (input : Bytes) : Prop where
  unbracketed : Unbracketed input
  literal : Yields (.ref .literal) input .fail []
  blankNode : Yields (.ref .blankNode) input .fail []
  iri : Yields (.ref .iri) input .fail []

theorem termless_nil : Termless [] where
  unbracketed := by simp [Unbracketed]
  literal := unmatched_fails rfl (unmatched_nil rfl)
  blankNode := unmatched_fails rfl (unmatched_nil rfl)
  iri := unmatched_fails rfl (unmatched_nil rfl)

theorem Termless.object (h : Termless input) : Yields (.ref (.object false)) input .fail [] := by
  have hterm : Yields (.ref .term) input .fail [] :=
    .ref_fail (h.literal.skip (h.blankNode.skip h.iri))
  exact .ref_fail (hterm.skip ((collection_refused h.unbracketed).skip
    (blankNodePropertyList_refused h.unbracketed)))

theorem Termless.tripleExtended (h : Termless input) :
    Yields (.ref (.tripleExtended false)) input .fail [] := by
  have hsubject : Yields (.ref (.subject false)) input .fail [] :=
    .ref_fail (h.iri.skip (h.blankNode.skip (collection_refused h.unbracketed)))
  have hseq1 : Yields (.ref (.tripleSeq1 false)) input .fail [] := .ref_fail hsubject.stop
  have hseq2 : Yields (.ref (.tripleSeq2 false)) input .fail [] :=
    .ref_fail (blankNodePropertyList_refused h.unbracketed).stop
  have htriple : Yields (.ref (.triple false)) input .fail [] := .ref_fail (hseq1.skip hseq2)
  exact .ref_fail htriple.stop

/-! ## Where names end -/

/-- Bytes that are not part of a prefix. -/
def nameStops : Bytes := [char '#', char '<', char ',', char ';'] ++ spaces

/-- The rules for prefixes and their parts. -/
def inPrefix : RuleName → Bool
  | .pnameNs | .pnPrefix | .pnChars | .pnCharsU | .pnCharsBase => true
  | _ => false

theorem inPrefix_closed (name : RuleName) (h : inPrefix name = true) :
    (turtle name).avoids nameStops inPrefix = true := by
  cases name <;> first | decide | exact absurd h Bool.false_ne_true

theorem pnameNs_avoids {t : Trace RuleName} (h : Run turtle (.ref .pnameNs) input (.ok rest) t) :
    ∃ pre, input = pnameToken pre ++ rest ∧ ∀ b ∈ pnameToken pre, b ∉ nameStops := by
  have hascii : ∀ b ∈ nameStops, b.toNat < 128 := List.all_iff_forall_prop.mp (by decide)
  obtain ⟨pre, hinput⟩ := pnameNs_sound h
  obtain ⟨text, htext, havoids⟩ := h.avoids hascii inPrefix_closed rfl
  obtain rfl : text = pnameToken pre := List.append_cancel_right (htext.symm.trans hinput)
  exact ⟨pre, hinput, havoids⟩

/-- A word without a colon that is followed by such a byte does not begin a name. -/
theorem pnameNs_stops {word more : Bytes} {b : UInt8} (hcolon : char ':' ∉ word)
    (hb : b ∈ nameStops) {t : Trace RuleName} :
    ¬ Run turtle (.ref .pnameNs) (word ++ b :: more) (.ok rest) t := by
  intro h
  obtain ⟨pre, hinput, havoids⟩ := pnameNs_avoids h
  rcases List.append_eq_append_iff.mp hinput with ⟨before, hpre, hmore⟩ | ⟨after, hword, -⟩
  · cases before with
    | nil =>
        rw [List.append_nil] at hpre
        exact hcolon (hpre ▸ by simp [pnameToken])
    | cons c before =>
        obtain rfl : b = c := (List.cons.inj hmore).1
        exact havoids b (by simp [hpre]) hb
  · exact hcolon (hword ▸ by simp [pnameToken])

/-- A prefixed name begins with its prefix. -/
theorem prefixedName_ns {t : Trace RuleName}
    (h : Run turtle (.ref .prefixedName) input (.ok rest) t) :
    ∃ middle t, Run turtle (.ref .pnameNs) input (.ok middle) t := by
  obtain ⟨_, hbody, -⟩ := h.ref_ok
  rcases hbody.sor_ok with hln | ⟨_, _, -, hns, -⟩
  · obtain ⟨_, hseq, -⟩ := hln.ref_ok
    obtain ⟨middle, _, _, hns, -, -⟩ := hseq.seq_ok
    exact ⟨middle, _, hns⟩
  · exact ⟨rest, _, hns⟩

theorem iri_stops {word more : Bytes} {b : UInt8} (hangle : ∀ c ∈ word.head?, c ≠ char '<')
    (hne : word ≠ []) (hcolon : char ':' ∉ word) (hb : b ∈ nameStops) {t : Trace RuleName} :
    ¬ Run turtle (.ref .iri) (word ++ b :: more) (.ok rest) t := by
  intro h
  obtain ⟨_, hbody, -⟩ := h.ref_ok
  rcases hbody.sor_ok with hiriref | ⟨_, _, -, hname, -⟩
  · obtain ⟨iri, hinput⟩ := iriref_sound hiriref
    obtain ⟨c, word, rfl⟩ := List.exists_cons_of_ne_nil hne
    have hc : c = char '<' := (List.cons.inj hinput).1
    exact hangle c rfl hc
  · obtain ⟨_, _, hns⟩ := prefixedName_ns hname
    exact pnameNs_stops hcolon hb hns

end Refusals

/-! ## Directives -/

namespace Directive

variable {d : Directive} {input rest : Bytes} {k : Trace RuleName}

theorem settles (d : Directive) :
    (turtle d.rule).settles (quietFailure false) inTerm = true := by
  cases d <;> decide

/-- A directive runs the actions of its parts. -/
theorem rule_yields (h : Keeps turtle (.ref d.rule) input rest k) :
    Yields (.ref d.rule) input (.ok rest) (essence k) := by
  obtain ⟨k, hbody, rfl⟩ := h.ref_inv
  rw [essence_append]
  have hmatch := settled_yields d.settles hbody
  cases d <;> exact hmatch.ref_ok

/-- A directive begins with its keyword. -/
theorem keyword_begins {t : Trace RuleName} (h : Run turtle (.ref d.rule) input (.ok rest) t) :
    ∃ word more t, List.Forall₂ (fun b accepts => accepts b = true) word d.keywordClasses ∧
      input = word ++ more ∧ Run turtle (seqOf d.parts) more (.ok rest) t := by
  obtain ⟨_, hbody, -⟩ := h.ref_ok
  obtain ⟨middle, _, t, hword, hparts, -⟩ := d.rule_iff.mp hbody
  obtain ⟨word, hclasses, hinput, -⟩ := Run.seqOf_byte_iff.mp hword
  exact ⟨word, middle, t, hclasses, hinput, hparts⟩

/-- What the classes have in common, all bytes of the word have. -/
theorem word_all {P : UInt8 → Prop} {word : Bytes} {classes : List (UInt8 → Bool)}
    (hword : List.Forall₂ (fun b accepts => accepts b = true) word classes)
    (h : ∀ accepts ∈ classes, ∀ b, accepts b = true → P b) : ∀ b ∈ word, P b := by
  induction hword with
  | nil => simp
  | @cons c accepts word classes hc _ ih =>
      intro b hb
      rcases List.mem_cons.mp hb with rfl | hb
      · exact h accepts List.mem_cons_self b hc
      · exact ih (fun other hother => h other (List.mem_cons_of_mem _ hother)) b hb

/-- Every class accepts a byte of the word. -/
theorem word_any {word : Bytes} {classes : List (UInt8 → Bool)} {accepts : UInt8 → Bool}
    (hword : List.Forall₂ (fun b accepts => accepts b = true) word classes)
    (h : accepts ∈ classes) : ∃ b ∈ word, accepts b = true := by
  induction hword with
  | nil => cases h
  | @cons c other word classes hc _ ih =>
      rcases List.mem_cons.mp h with rfl | h
      · exact ⟨c, List.mem_cons_self, hc⟩
      · obtain ⟨b, hb, haccepts⟩ := ih h
        exact ⟨b, List.mem_cons_of_mem _ hb, haccepts⟩

theorem not_mem_word {word : Bytes} {classes : List (UInt8 → Bool)} {b : UInt8}
    (hword : List.Forall₂ (fun b accepts => accepts b = true) word classes)
    (hb : (classes.all fun accepts => !accepts b) = true) : b ∉ word := by
  intro hmem
  refine word_all (P := fun c => c ≠ b) hword ?_ b hmem rfl
  rintro accepts haccepts c hc rfl
  have hrefuse := List.all_eq_true.mp hb accepts haccepts
  simp [hc] at hrefuse

/-- A directive whose keyword begins otherwise fails. -/
theorem keyword_refused (d : Directive) {b : UInt8}
    (hb : (d.keywordClasses.head?.all fun accepts => !accepts b) = true) (more : Bytes) :
    Yields (.ref d.rule) (b :: more) .fail [] := by
  have hfirst : ∀ accepts ∈ d.keywordClasses.head?,
      Yields (.byte accepts) (b :: more) .fail [] := by
    intro accepts haccepts
    refine ⟨[], .byteFail fun c hc => ?_, rfl⟩
    obtain rfl := Option.mem_some_iff.mp hc
    rw [Option.mem_def.mp haccepts] at hb
    simpa using hb
  cases d with
  | prefixID | base => exact .ref_fail (Yields.stop (Yields.stop (hfirst _ rfl)))
  | sparqlPrefix | sparqlBase => exact .ref_fail (Yields.stop (hfirst _ rfl))

/-- The letters with which the keyword of a SPARQL directive begins. -/
def Letter (d : Directive) (b : UInt8) : Prop :=
  d = .sparqlBase ∧ (b = char 'B' ∨ b = char 'b') ∨
    d = .sparqlPrefix ∧ (b = char 'P' ∨ b = char 'p')

theorem letter_begins {t : Trace RuleName} (hdotted : d.dotted = false)
    (h : Run turtle (.ref d.rule) input (.ok rest) t) :
    ∃ b more, input = b :: more ∧ d.Letter b := by
  obtain ⟨word, more, _, hword, rfl, -⟩ := keyword_begins h
  cases d with
  | prefixID | base => cases hdotted
  | sparqlBase =>
      cases hword with
      | cons hb _ => exact ⟨_, _, rfl, .inl ⟨rfl, by simpa [bytes, char] using hb⟩⟩
  | sparqlPrefix =>
      cases hword with
      | cons hb _ => exact ⟨_, _, rfl, .inr ⟨rfl, by simpa [bytes, char] using hb⟩⟩

/-- No other directive begins with such a letter. -/
theorem letter_refused (other : Directive) {b : UInt8} (hb : d.Letter b) (hne : other ≠ d)
    (more : Bytes) : Yields (.ref other.rule) (b :: more) .fail [] := by
  refine keyword_refused other ?_ more
  rcases hb with ⟨rfl, rfl | rfl⟩ | ⟨rfl, rfl | rfl⟩
  all_goals cases other <;> first | rfl | exact absurd rfl hne

/-- A directive is one of the four. -/
theorem of_directive (h : Keeps turtle (.ref .directive) input rest k) :
    ∃ (d : Directive) (t : Trace RuleName), Run turtle (.ref d.rule) input (.ok rest) t := by
  obtain ⟨_, hbody, -⟩ := h.ref_inv
  have hof : ∀ (d : Directive) {k : Trace RuleName}, Keeps turtle (.ref d.rule) input rest k →
      ∃ (d : Directive) (t : Trace RuleName), Run turtle (.ref d.rule) input (.ok rest) t := by
    intro d k hk
    obtain ⟨t, hrun, -⟩ := hk.run
    exact ⟨d, t, hrun⟩
  rcases hbody.sor_inv with hk | ⟨_, -, hbody⟩
  · exact hof .prefixID hk
  rcases hbody.sor_inv with hk | ⟨_, -, hbody⟩
  · exact hof .base hk
  rcases hbody.sor_inv with hk | ⟨_, -, hk⟩
  · exact hof .sparqlBase hk
  · exact hof .sparqlPrefix hk

/-- What is tried before the directive that matches runs no action. -/
theorem yields (h : Keeps turtle (.ref .directive) input rest k) :
    Yields (.ref .directive) input (.ok rest) (essence k) := by
  obtain ⟨k, hbody, rfl⟩ := h.ref_inv
  have hidle := essence_idle (show acts .directive = false from rfl) (consumed input rest)
  rw [essence_append, hidle, List.append_nil]
  refine .ref rfl ?_
  rcases hbody.sor_inv with hk | ⟨_, -, hbody⟩
  · exact (rule_yields (d := .prefixID) hk).choose
  rcases hbody.sor_inv with hk | ⟨_, -, hbody⟩
  · -- the two keywords with an at sign differ in the second character
    have hprefixID : ∀ more, Yields (.ref .prefixID) (char '@' :: char 'b' :: more) .fail [] := by
      intro more
      have hat : Yields (.one (char '@')) (char '@' :: char 'b' :: more) (.ok _) [] :=
        ⟨[], .byteOk (beq_self_eq_true _), rfl⟩
      exact .ref_fail (Yields.stop (hat.seq (Yields.stop (ch_fails (by decide) more))))
    obtain ⟨_, hparts, -⟩ := hk.ref_inv
    obtain ⟨middle, _, _, hword, -, -⟩ := hparts.seqOf_cons_inv
    obtain ⟨_, hrun, -⟩ := hword.run
    obtain ⟨hinput, -⟩ := Run.string_iff.mp hrun
    have hbase : bytes "@base" = char '@' :: char 'b' :: bytes "ase" := by decide
    have hsplit : input = char '@' :: char 'b' :: (bytes "ase" ++ middle) := by
      rw [hinput, hbase]
      rfl
    rw [hsplit] at hk ⊢
    exact (hprefixID _).skip (rule_yields (d := .base) hk).choose
  rcases hbody.sor_inv with hk | ⟨_, -, hk⟩
  · obtain ⟨_, hrun, -⟩ := hk.run
    obtain ⟨b, more, rfl, hb⟩ := letter_begins (d := .sparqlBase) rfl hrun
    have hprefixID := letter_refused .prefixID hb (by simp) more
    have hat := letter_refused .base hb (by simp) more
    exact hprefixID.skip (hat.skip (rule_yields (d := .sparqlBase) hk).choose)
  · obtain ⟨_, hrun, -⟩ := hk.run
    obtain ⟨b, more, rfl, hb⟩ := letter_begins (d := .sparqlPrefix) rfl hrun
    have hprefixID := letter_refused .prefixID hb (by simp) more
    have hat := letter_refused .base hb (by simp) more
    have hbase := letter_refused .sparqlBase hb (by simp) more
    exact hprefixID.skip (hat.skip (hbase.skip (rule_yields (d := .sparqlPrefix) hk)))

/-! ### Read as triples -/

/-- Layout and the beginning of an IRI. -/
theorem layout_stops {gap : Bytes} (h : IsLayout gap) (more : Bytes) :
    ∃ b tail, gap ++ char '<' :: more = b :: tail ∧ b ∈ nameStops := by
  cases h with
  | nil => exact ⟨_, _, rfl, by decide⟩
  | space hb _ => exact ⟨_, _, rfl, List.mem_append_right _ (mem_spaces.mpr hb)⟩
  | comment _ _ _ => exact ⟨_, _, rfl, by decide⟩

theorem unstarted_stops (h : ¬ StartsToken input) :
    ∃ b tail, input = b :: tail ∧ b ∈ nameStops := by
  cases input with
  | nil => exact absurd (by simp [StartsToken]) h
  | cons b tail =>
      refine ⟨b, tail, rfl, ?_⟩
      by_cases hspace : isSpace b = true
      · exact List.mem_append_right _ (mem_spaces.mpr hspace)
      · by_cases hhash : b = char '#'
        · rw [hhash]
          decide
        · exact absurd (startsToken_cons (eq_false_of_ne_true hspace) hhash) h

/-- The text of a directive begins neither with a bracket nor with a literal or a node. -/
theorem first_refused {t : Trace RuleName} (h : Run turtle (.ref d.rule) input (.ok rest) t) :
    Unbracketed input ∧ Yields (.ref .literal) input .fail [] ∧
      Yields (.ref .blankNode) input .fail [] := by
  have hfirst : ∀ {b : UInt8} {more : Bytes}, b = char '@' ∨ b = char 'B' ∨ b = char 'b' ∨
      b = char 'P' ∨ b = char 'p' → Unbracketed (b :: more) ∧
        Yields (.ref .literal) (b :: more) .fail [] ∧
        Yields (.ref .blankNode) (b :: more) .fail [] := by
    intro b more hb
    refine ⟨unbracketed_cons ?_ ?_, refused_fails ?_ .literal ?_ rfl more,
      refused_fails ?_ .blankNode ?_ rfl more⟩
    all_goals rcases hb with rfl | rfl | rfl | rfl | rfl <;> decide
  cases hdotted : d.dotted with
  | false =>
      obtain ⟨b, more, rfl, hb⟩ := letter_begins hdotted h
      refine hfirst (.inr ?_)
      rcases hb with ⟨-, hb | hb⟩ | ⟨-, hb | hb⟩ <;> simp [hb]
  | true =>
      obtain ⟨word, more, _, hword, rfl, -⟩ := keyword_begins h
      cases d with
      | prefixID | base =>
          cases hword with
          | cons hb _ => exact hfirst (.inl ((beq_iff_eq.mp hb).trans (by decide)))
      | sparqlPrefix | sparqlBase => cases hdotted

/-- A keyword that is not directly followed by a name is not the beginning of one. -/
theorem termless {t : Trace RuleName} (h : Run turtle (.ref d.rule) input (.ok rest) t)
    (hname : d = .sparqlPrefix → ¬ StartsToken (input.drop 6)) : Termless input := by
  obtain ⟨hbracket, hliteral, hblank⟩ := first_refused h
  refine ⟨hbracket, hliteral, hblank, unmatched_fails rfl ?_⟩
  obtain ⟨word, more, _, hword, rfl, hparts⟩ := keyword_begins h
  have hangle : char '<' ∉ word := not_mem_word hword (by cases d <;> decide)
  have hcolon : char ':' ∉ word := not_mem_word hword (by cases d <;> decide)
  have hhead : ∀ b ∈ word.head?, b ≠ char '<' := by
    intro b hb heq
    exact hangle (heq ▸ List.mem_of_mem_head? hb)
  have hne : word ≠ [] := by
    rintro rfl
    cases d <;> cases hword
  have hstops : d.dotted = false → ∃ b tail, more = b :: tail ∧ b ∈ nameStops := by
    intro hdotted
    cases d with
    | prefixID | base => cases hdotted
    | sparqlBase =>
        obtain ⟨gap, iri, _, hgap, -, -, rfl⟩ := sparqlBase.iri_sound hparts
        have hsplit : irirefToken iri ++ ([] ++ rest) = char '<' :: (iri ++ char '>' :: rest) := by
          simp [irirefToken]
        have hlayout := layout_stops hgap (iri ++ char '>' :: rest)
        rw [← hsplit] at hlayout
        exact hlayout
    | sparqlPrefix =>
        refine unstarted_stops ?_
        have hdrop : (word ++ more).drop 6 = more := List.drop_left' hword.length_eq
        rw [← hdrop]
        exact hname rfl
  intro rest' t' hiri
  cases hdotted : d.dotted with
  | false =>
      obtain ⟨b, tail, rfl, hb⟩ := hstops hdotted
      exact iri_stops hhead hne hcolon hb hiri
  | true =>
      cases d with
      | prefixID | base =>
          cases hword with
          | cons hb _ =>
              obtain rfl := (beq_iff_eq.mp hb).trans (show _ = char '@' by decide)
              exact Run.not_matches (n := 8) (by decide) (by decide) hiri
      | sparqlPrefix | sparqlBase => cases hdotted

end Directive

/-! ## The keyword as the beginning of a name -/

section Glued

variable {input middle rest : Bytes} {t : Trace RuleName}

/-- What `PN_PREFIX` repeats. -/
abbrev prefixTail : Rule RuleName := .star (.seq (.star (ch '.')) (.ref .pnChars))

theorem no_dots {b : UInt8} (hb : b ≠ char '.') (more : Bytes) :
    ∃ t, Run turtle (.star (ch '.')) (b :: more) (.ok (b :: more)) t := by
  obtain ⟨t, hrun, -⟩ := (ch_fails hb more).done
  exact ⟨t, hrun⟩

/-- A letter in front of what `PN_PREFIX` repeats. -/
theorem prefixTail_base {b : UInt8} {more : Bytes}
    (hbase : Run turtle (.ref .pnCharsBase) (b :: more) (.ok middle) t)
    (htail : ∃ t, Run turtle prefixTail middle (.ok rest) t) :
    ∃ t, Run turtle prefixTail (b :: more) (.ok rest) t := by
  have hdot : b ≠ char '.' := by
    rintro rfl
    exact Run.not_matches (n := 8) (by decide) (by decide) hbase
  obtain ⟨_, hdots⟩ := no_dots hdot more
  obtain ⟨_, htail⟩ := htail
  have hcharsU : Run turtle (.ref .pnCharsU) (b :: more) (.ok middle) _ :=
    .ref (.sorStop hbase (by simp))
  have hchars : Run turtle (.ref .pnChars) (b :: more) (.ok middle) _ :=
    .ref (.sorStop hcharsU (by simp))
  exact ⟨_, .starNext (.seqNext hdots hchars) htail⟩

/-- Whatever prefix follows, it can follow the beginning of another one. -/
theorem prefixTail_pnameNs (h : Run turtle (.ref .pnameNs) input (.ok rest) t) :
    ∃ t, Run turtle prefixTail input (.ok (char ':' :: rest)) t := by
  obtain ⟨_, hbody, -⟩ := h.ref_ok
  obtain ⟨last, _, _, hprefix, hcolon, -⟩ := hbody.seq_ok
  obtain ⟨b, hb, rfl, -⟩ := hcolon.byte_ok
  obtain rfl := beq_iff_eq.mp hb
  rcases hprefix.sor_ok with hprefix | ⟨_, _, -, hempty, -⟩
  · obtain ⟨_, hparts, -⟩ := hprefix.ref_ok
    obtain ⟨_, _, _, hbase, htail, -⟩ := hparts.seq_ok
    cases input with
    | nil => exact absurd hbase (unmatched_nil rfl _ _)
    | cons b more => exact prefixTail_base hbase ⟨_, htail⟩
  · obtain ⟨rfl, -⟩ := hempty.success_ok
    have hchars : Yields (.ref .pnChars) (char ':' :: rest) .fail [] :=
      refused_fails (by decide) .pnChars (by decide) rfl rest
    obtain ⟨_, hdots⟩ := no_dots (b := char ':') (by decide) rest
    obtain ⟨_, hchars, -⟩ := hchars
    exact ⟨_, .starDone (.seqNext hdots hchars)⟩

theorem letter_base {b : UInt8} (hb : isAlpha b = true) (more : Bytes) :
    ∃ t, Run turtle (.ref .pnCharsBase) (b :: more) (.ok more) t := by
  rcases Bool.or_eq_true_iff.mp hb with hlower | hupper
  · exact ⟨_, .ref (.sorStop (.byteOk hlower) (by simp))⟩
  · by_cases hlower : isLower b = true
    · exact ⟨_, .ref (.sorStop (.byteOk hlower) (by simp))⟩
    · refine ⟨_, .ref (.sorNext (.byteFail ?_) (.sorStop (.byteOk hupper) (by simp)))⟩
      intro c hc
      obtain rfl := Option.mem_some_iff.mp hc
      exact eq_false_of_ne_true hlower

/-- A word of letters in front of a prefix gives a prefix. -/
theorem word_pnameNs {word : Bytes} (hne : word ≠ []) (hword : ∀ b ∈ word, isAlpha b = true)
    (h : Run turtle (.ref .pnameNs) input (.ok rest) t) :
    ∃ t, Run turtle (.ref .pnameNs) (word ++ input) (.ok rest) t := by
  obtain ⟨b, word, rfl⟩ := List.exists_cons_of_ne_nil hne
  have htail : ∃ t, Run turtle prefixTail (word ++ input) (.ok (char ':' :: rest)) t := by
    have hletters : ∀ c ∈ word, isAlpha c = true :=
      fun c hc => hword c (List.mem_cons_of_mem b hc)
    clear hword hne
    induction word with
    | nil => exact prefixTail_pnameNs h
    | cons c word ih =>
        obtain ⟨_, hbase⟩ := letter_base (hletters c List.mem_cons_self) (word ++ input)
        exact prefixTail_base hbase (ih fun d hd => hletters d (List.mem_cons_of_mem c hd))
  obtain ⟨_, htail⟩ := htail
  obtain ⟨_, hbase⟩ := letter_base (hword b List.mem_cons_self) (word ++ input)
  have hprefix : Run turtle (.ref .pnPrefix) (b :: word ++ input) (.ok (char ':' :: rest)) _ :=
    .ref (.seqNext hbase htail)
  exact ⟨_, .ref (.seqNext (.sorStop hprefix (by simp)) (.byteOk (beq_self_eq_true _)))⟩

/-- `prefix` directly followed by a name. -/
theorem sparqlPrefix_glued (h : Run turtle (.ref .sparqlPrefix) input (.ok rest) t)
    (hstarts : StartsToken (input.drop 6)) :
    ∃ m₁ m₂ t₁ t₂ t₃, Run turtle (.ref .pnameNs) input (.ok m₁) t₁ ∧
      Run turtle (.ref .ignored) m₁ (.ok m₂) t₂ ∧ Run turtle (.ref .iriref) m₂ (.ok rest) t₃ := by
  obtain ⟨word, more, _, hword, rfl, hparts⟩ := Directive.keyword_begins (d := .sparqlPrefix) h
  have hdrop : (word ++ more).drop 6 = more := List.drop_left' hword.length_eq
  rw [hdrop] at hstarts
  obtain ⟨_, _, _, hignored, hmore, -⟩ := Run.seqOf_cons_iff.mp hparts
  obtain ⟨_, hnone⟩ := ignored_complete .nil hstarts
  obtain rfl := Outcome.ok.inj (hnone.deterministic hignored).1
  obtain ⟨m₁, _, _, hname, hmore', -⟩ := Run.seqOf_cons_iff.mp hmore
  obtain ⟨m₂, _, _, hgap, hmore'', -⟩ := Run.seqOf_cons_iff.mp hmore'
  obtain ⟨_, _, _, hiri, hnil, -⟩ := Run.seqOf_cons_iff.mp hmore''
  obtain ⟨rfl, -⟩ := Run.seqOf_nil_iff.mp hnil
  have hletters : ∀ b ∈ word, isAlpha b = true := by
    refine Directive.word_all hword fun accepts haccepts b hb => ?_
    have hall : ∀ text ∈ [bytes "Pp", bytes "Rr", bytes "Ee", bytes "Ff", bytes "Ii", bytes "Xx"],
        ∀ b ∈ text, isAlpha b = true := by
      decide +kernel
    obtain ⟨text, htext, rfl⟩ := List.mem_map.mp haccepts
    exact hall text htext b (List.contains_iff_mem.mp hb)
  have hne : word ≠ [] := by
    rintro rfl
    cases hword
  obtain ⟨_, hname'⟩ := word_pnameNs hne hletters hname
  exact ⟨m₁, m₂, _, _, _, hname', hgap, hiri⟩

/-- The actions of a name and of an IRI. -/
theorem prefixedName_yields (h : Run turtle (.ref .prefixedName) input (.ok rest) t) :
    ∃ name, Yields (.ref .prefixedName) input (.ok rest) [(.prefixedName, name)] := by
  obtain ⟨k, hk⟩ := h.keeps rfl
  have hyields : Yields (.ref .prefixedName) input (.ok rest) (essence k) := settled_yields rfl hk
  obtain ⟨k, hbody, rfl⟩ := hk.ref_inv
  obtain ⟨_, hrun, hsub⟩ := hbody.run
  have hsilent : essence k = [] := by
    refine essence_within fun entry hentry => ?_
    exact hrun.trace_names silent_closed (by decide) entry (hsub.subset hentry)
  rw [essence_append, hsilent] at hyields
  exact ⟨_, hyields⟩

theorem iriref_yields (h : Run turtle (.ref .iriref) input (.ok rest) t) :
    ∃ iri, Yields (.ref .iriref) input (.ok rest) [(.iriref, iri)] := by
  obtain ⟨t, hbody, rfl⟩ := h.ref_ok
  have hsilent : essence t = [] :=
    essence_within (hbody.trace_names silent_closed (by decide))
  exact ⟨_, _, h, by rw [essence_append, hsilent]; rfl⟩

/-- The keyword and the name are a subject, and an object as well; the IRI is a verb. -/
theorem glued_reads (h : Run turtle (.ref .sparqlPrefix) input (.ok rest) t)
    (hstarts : StartsToken (input.drop 6)) :
    ∃ m₁ m₂ name iri more,
      Yields (.ref (.subject false)) input (.ok m₁) [(.prefixedName, name), (.subject false, [])] ∧
      Yields (.ref (.object false)) input (.ok m₁) [(.prefixedName, name), (.object false, [])] ∧
      Yields (.ref .ignored) m₁ (.ok m₂) [] ∧ m₂ = char '<' :: more ∧
      Yields (.ref (.verb false)) m₂ (.ok rest) [(.iriref, iri), (.verb false, [])] := by
  obtain ⟨m₁, m₂, _, _, _, hns, hgap, hiriref⟩ := sparqlPrefix_glued h hstarts
  obtain ⟨iri, hiri⟩ := iriref_yields hiriref
  obtain ⟨text, rfl⟩ := iriref_sound hiriref
  -- no local name follows the colon
  have hlocal : Yields (.ref .pnLocal) m₁ .fail [] := by
    obtain ⟨gap, rfl, hlayout⟩ := ignored_sound hgap
    obtain ⟨b, tail, hsplit, hb⟩ := Directive.layout_stops hlayout (text ++ char '>' :: rest)
    have hinput : gap ++ (irirefToken text ++ rest) = b :: tail := by
      rw [← hsplit]
      simp [irirefToken]
    have hrefused : ∀ b ∈ nameStops, b.toNat < 128 ∧
        refusesWithin turtle b 8 .pnLocal = true := by
      decide +kernel
    rw [hinput]
    exact refused_fails (hrefused b hb).1 .pnLocal (hrefused b hb).2 rfl tail
  have hname : ∃ t, Run turtle (.ref .prefixedName) input (.ok m₁) t := by
    obtain ⟨_, hlocal, -⟩ := hlocal
    exact ⟨_, .ref (.sorNext (.ref (.seqNext hns hlocal)) hns)⟩
  obtain ⟨_, hname⟩ := hname
  obtain ⟨name, hname⟩ := prefixedName_yields hname
  obtain ⟨b, more, rfl, hb⟩ := Directive.letter_begins (d := .sparqlPrefix) rfl h
  have hletter : b = char 'P' ∨ b = char 'p' := by
    rcases hb with ⟨hne, -⟩ | ⟨-, hb⟩
    · cases hne
    · exact hb
  have hnoiriref : Yields (.ref .iriref) (b :: more) .fail [] := by
    rcases hletter with rfl | rfl <;> exact refused_fails (by decide) .iriref (by decide) rfl more
  have hterm : Yields (.ref .iri) (b :: more) (.ok m₁) [(.prefixedName, name)] :=
    .ref rfl (hnoiriref.skip hname)
  obtain ⟨-, hliteral, hblank⟩ := Directive.first_refused (d := .sparqlPrefix) h
  have hsubject : Yields (turtle (.subject false)) (b :: more) (.ok m₁) [(.prefixedName, name)] :=
    hterm.choose
  have hobject : Yields (turtle (.object false)) (b :: more) (.ok m₁) [(.prefixedName, name)] :=
    (Yields.ref rfl (hliteral.skip (hblank.skip hterm)) : Yields (.ref .term) _ _ _).choose
  have hpredicate : Yields (.ref .predicate) (irirefToken text ++ rest) (.ok rest)
      [(.iriref, iri)] := .ref rfl hiri.choose
  have hverb : Yields (turtle (.verb false)) (irirefToken text ++ rest) (.ok rest)
      [(.iriref, iri)] := hpredicate.choose
  obtain ⟨k, hk⟩ := hgap.keeps rfl
  exact ⟨m₁, _, name, iri, _, hsubject.ref_ok, hobject.ref_ok, (layout_yields hk).2, rfl,
    hverb.ref_ok⟩

end Glued

/-! ## What follows an object that is the beginning of a statement -/

/-- After layout comes no character that continues a list of objects or verbs. -/
def Unlisted (input : Bytes) : Prop :=
  ∀ rest t, Run turtle (.ref .ignored) input (.ok rest) t →
    ∀ b ∈ rest.head?, b ≠ char ',' ∧ b ≠ char ';'

section Unlisted

variable {input middle rest after : Bytes} {t t' : Trace RuleName} {k : Trace RuleName}

theorem unlisted_of_ignored (h : Run turtle (.ref .ignored) input (.ok rest) t)
    (hrest : ∀ b ∈ rest.head?, b ≠ char ',' ∧ b ≠ char ';') : Unlisted input := by
  intro rest' t' h'
  obtain rfl := Outcome.ok.inj (h.deterministic h').1
  exact hrest

/-- A byte of a prefix is neither layout nor one of the two characters. -/
theorem unlisted_of_name {b : UInt8} (hb : b ∉ nameStops) (more : Bytes) :
    Unlisted (b :: more) := by
  have hspace : isSpace b = false := by
    refine eq_false_of_ne_true fun hspace => hb ?_
    exact List.mem_append_right _ (mem_spaces.mpr hspace)
  have hne : ∀ c ∈ nameStops, b ≠ c := fun c hc heq => hb (heq ▸ hc)
  have hstarts : StartsToken (b :: more) := startsToken_cons hspace (hne _ (by decide))
  obtain ⟨_, hignored⟩ := ignored_complete .nil hstarts
  refine unlisted_of_ignored hignored fun c hc => ?_
  obtain rfl := Option.mem_some_iff.mp hc
  exact ⟨hne _ (by decide), hne _ (by decide)⟩

theorem unlisted_of_verb (hignored : Run turtle (.ref .ignored) input (.ok middle) t)
    (hverb : Run turtle (.ref (.verb false)) middle (.ok rest) t') : Unlisted input := by
  refine unlisted_of_ignored hignored fun b hb => ?_
  cases middle with
  | nil => cases hb
  | cons c more =>
      obtain rfl := Option.mem_some_iff.mp hb
      constructor
      all_goals
        rintro rfl
        exact Run.not_matches (n := 8) (by decide) (by decide) hverb

theorem unlisted_of_list (hignored : Run turtle (.ref .ignored) input (.ok middle) t)
    (hlist : Run turtle (.ref (.predicateObjectList false)) middle (.ok rest) t') :
    Unlisted input := by
  obtain ⟨_, hbody, -⟩ := hlist.ref_ok
  obtain ⟨_, _, _, hinner, -, -⟩ := hbody.seq_ok
  obtain ⟨_, hparts, -⟩ := hinner.ref_ok
  obtain ⟨_, _, _, hverb, -, -⟩ := hparts.seq_ok
  exact unlisted_of_verb hignored hverb

/-! ### Literals and names -/

/-- The rules for numbers and Boolean literals. -/
def inWord : RuleName → Bool
  | .numericLiteral | .double | .decimal | .integer | .exponent | .booleanLiteral => true
  | _ => false

theorem inWord_closed (name : RuleName) (h : inWord name = true) :
    (turtle name).avoids [char ':'] inWord = true := by
  cases name <;> first | decide | exact absurd h Bool.false_ne_true

/-- A literal without quotes ends inside the prefix of a name that begins like it. -/
theorem word_unlisted {name : RuleName} (hname : inWord name = true)
    (hword : Run turtle (.ref name) input (.ok rest) t)
    (hns : Run turtle (.ref .pnameNs) input (.ok after) t') : Unlisted rest := by
  have hascii : ∀ b ∈ [char ':'], b.toNat < 128 := List.forall_mem_singleton.mpr (by decide)
  obtain ⟨text, rfl, havoids⟩ := hword.avoids hascii inWord_closed hname
  have hcolon : char ':' ∉ text := fun hmem => havoids _ hmem (by simp)
  obtain ⟨pre, hinput, hstops⟩ := pnameNs_avoids hns
  rcases List.append_eq_append_iff.mp hinput with ⟨more, hpre, hrest⟩ | ⟨more, htext, -⟩
  · cases more with
    | nil =>
        rw [List.append_nil] at hpre
        exact absurd (hpre ▸ by simp [pnameToken]) hcolon
    | cons b more =>
        rw [hrest]
        exact unlisted_of_name (hstops b (by simp [hpre])) (more ++ after)
  · exact absurd (htext ▸ by simp [pnameToken]) hcolon

theorem ch_begins {c : Char} {rule : Rule RuleName}
    (h : Run turtle (.seq (ch c) rule) input (.ok rest) t) : ∃ more, input = char c :: more := by
  obtain ⟨_, _, _, hmark, -, -⟩ := h.seq_ok
  obtain ⟨b, hb, rfl, -⟩ := hmark.byte_ok
  exact ⟨_, congrArg (· :: _) (beq_iff_eq.mp hb)⟩

/-- A blank node begins with its underscore or its bracket. -/
theorem blankNode_begins (h : Run turtle (.ref .blankNode) input (.ok rest) t) :
    ∃ b more, (b = char '_' ∨ b = char '[') ∧ input = b :: more := by
  obtain ⟨_, hbody, -⟩ := h.ref_ok
  rcases hbody.sor_ok with hlabel | ⟨_, _, -, hanon, -⟩
  · obtain ⟨_, hparts, -⟩ := hlabel.ref_ok
    obtain ⟨more, rfl⟩ := ch_begins hparts
    exact ⟨_, more, .inl rfl, rfl⟩
  · obtain ⟨_, hparts, -⟩ := hanon.ref_ok
    obtain ⟨more, rfl⟩ := ch_begins hparts
    exact ⟨_, more, .inr rfl, rfl⟩

/-- A string begins with a quotation mark. -/
theorem turtleString_begins (h : Run turtle (.ref .turtleString) input (.ok rest) t) :
    ∃ b more, (b = char '"' ∨ b = char '\'') ∧ input = b :: more := by
  obtain ⟨_, hbody, -⟩ := h.ref_ok
  rcases hbody.sor_ok with hlong | ⟨_, _, -, hbody, -⟩
  · obtain ⟨_, hparts, -⟩ := hlong.ref_ok
    obtain ⟨more, rfl⟩ := ch_begins hparts
    exact ⟨_, more, .inl rfl, rfl⟩
  rcases hbody.sor_ok with hlong | ⟨_, _, -, hbody, -⟩
  · obtain ⟨_, hparts, -⟩ := hlong.ref_ok
    obtain ⟨more, rfl⟩ := ch_begins hparts
    exact ⟨_, more, .inr rfl, rfl⟩
  rcases hbody.sor_ok with hshort | ⟨_, _, -, hshort, -⟩
  · obtain ⟨_, hparts, -⟩ := hshort.ref_ok
    obtain ⟨more, rfl⟩ := ch_begins hparts
    exact ⟨_, more, .inr rfl, rfl⟩
  · obtain ⟨_, hparts, -⟩ := hshort.ref_ok
    obtain ⟨more, rfl⟩ := ch_begins hparts
    exact ⟨_, more, .inl rfl, rfl⟩

/-- A literal where an IRI could be read as well. -/
theorem literal_unlisted (hliteral : Run turtle (.ref .literal) input (.ok rest) t)
    (hiri : Run turtle (.ref .iri) input (.ok after) t') : Unlisted rest := by
  obtain ⟨_, hbody, -⟩ := hiri.ref_ok
  rcases hbody.sor_ok with hiriref | ⟨_, _, -, hname, -⟩
  · obtain ⟨iri, rfl⟩ := iriref_sound hiriref
    exact absurd hliteral (Run.not_matches (b := char '<') (n := 8) (by decide) (by decide))
  · obtain ⟨_, _, hns⟩ := prefixedName_ns hname
    obtain ⟨_, hbody, -⟩ := hliteral.ref_ok
    rcases hbody.sor_ok with hstring | ⟨_, _, -, hbody, -⟩
    · obtain ⟨_, hparts, -⟩ := hstring.ref_ok
      obtain ⟨_, _, _, hstring, -, -⟩ := hparts.seq_ok
      obtain ⟨b, more, hb, rfl⟩ := turtleString_begins hstring
      refine absurd hns (Run.not_matches (n := 8) ?_ ?_)
      all_goals rcases hb with rfl | rfl <;> decide
    rcases hbody.sor_ok with hnumber | ⟨_, _, -, hboolean, -⟩
    · exact word_unlisted rfl hnumber hns
    · exact word_unlisted rfl hboolean hns

/-! ### Statements -/

theorem object_of_term {actions : Trace RuleName}
    (h : Yields (.ref .term) input (.ok rest) actions) :
    ∃ actions, Yields (.ref (.object false)) input (.ok rest) actions := by
  have hbody : Yields (turtle (.object false)) input (.ok rest) actions := h.choose
  exact ⟨_, hbody.ref_ok⟩

/-- Where a subject can be read, an object can. -/
theorem subject_object (h : Run turtle (.ref (.subject false)) input (.ok after) t) :
    ∃ rest actions, Yields (.ref (.object false)) input (.ok rest) actions ∧
      (Unlisted after → Unlisted rest) := by
  obtain ⟨_, hbody, -⟩ := h.ref_ok
  rcases hbody.sor_ok with hiri | ⟨_, _, hnoiri, hbody, -⟩
  · obtain ⟨outcome, _, hliteral⟩ := matching_ends .literal input
    cases outcome with
    | error => exact absurd rfl (matching_never_errors (by simp) hliteral)
    | ok rest =>
        have hterm : Yields (.ref .term) input (.ok rest) _ := .ref rfl (.choose ⟨_, hliteral, rfl⟩)
        obtain ⟨_, hobject⟩ := object_of_term hterm
        exact ⟨rest, _, hobject, fun _ => literal_unlisted hliteral hiri⟩
    | fail =>
        have hblank : Yields (.ref .blankNode) input .fail [] := by
          refine unmatched_fails rfl fun rest t hblank => ?_
          obtain ⟨b, more, hb, rfl⟩ := blankNode_begins hblank
          refine absurd hiri (Run.not_matches (n := 8) ?_ ?_)
          all_goals rcases hb with rfl | rfl <;> decide
        have hterm : Yields (.ref .term) input (.ok after) _ :=
          .ref rfl (.skip ⟨_, hliteral, rfl⟩ (hblank.skip ⟨_, hiri, rfl⟩))
        obtain ⟨_, hobject⟩ := object_of_term hterm
        exact ⟨after, _, hobject, id⟩
  rcases hbody.sor_ok with hblank | ⟨_, _, hnoblank, hcollection, -⟩
  · obtain ⟨b, more, hb, rfl⟩ := blankNode_begins hblank
    have hliteral : Yields (.ref .literal) (b :: more) .fail [] := by
      rcases hb with rfl | rfl <;> exact refused_fails (by decide) .literal (by decide) rfl more
    have hterm : Yields (.ref .term) (b :: more) (.ok after) _ :=
      .ref rfl (hliteral.skip (.choose ⟨_, hblank, rfl⟩))
    obtain ⟨_, hobject⟩ := object_of_term hterm
    exact ⟨after, _, hobject, id⟩
  · obtain ⟨k, hk⟩ := hcollection.keeps rfl
    obtain ⟨-, more, rfl⟩ := collection_yields (objectsReplay (.inl rfl) input.length) le_rfl hk
    have hliteral : Yields (.ref .literal) (char '(' :: more) .fail [] :=
      refused_fails (by decide) .literal (by decide) rfl more
    have hterm : Yields (.ref .term) (char '(' :: more) .fail _ :=
      .ref rfl (hliteral.skip (.skip ⟨_, hnoblank, rfl⟩ ⟨_, hnoiri, rfl⟩))
    have hbody : Yields (turtle (.object false)) (char '(' :: more) (.ok after) _ :=
      hterm.skip (.choose ⟨_, hcollection, rfl⟩)
    exact ⟨after, _, hbody.ref_ok, id⟩

theorem blankNodePropertyList_object
    (h : Keeps turtle (.ref (.blankNodePropertyList false)) input rest k) :
    ∃ actions, Yields (.ref (.object false)) input (.ok rest) actions := by
  have hanon := anon_refused h
  obtain ⟨-, more, rfl⟩ := blankNodePropertyList_yields (.inl rfl)
    (objectsReplay (.inl rfl) input.length) le_rfl h
  have hsquare : ∀ name, refusesWithin turtle (char '[') 8 name = true →
      retracting name = true → Yields (.ref name) (char '[' :: more) .fail [] :=
    fun name hrefuses hretracts => refused_fails (by decide) name hrefuses hretracts more
  have hlabel := hsquare .blankNodeLabel (by decide) rfl
  have hblank : Yields (.ref .blankNode) (char '[' :: more) .fail [] :=
    .ref_fail (hlabel.skip hanon)
  have hterm : Yields (.ref .term) (char '[' :: more) .fail [] :=
    .ref_fail ((hsquare .literal (by decide) rfl).skip
      (hblank.skip (hsquare .iri (by decide) rfl)))
  have hcollection : Yields (.ref (.collection false)) (char '[' :: more) .fail [] :=
    .ref_fail (hsquare .collectionBegin (by decide) rfl).stop
  obtain ⟨_, hrun, -⟩ := h.run
  have hbody : Yields (turtle (.object false)) (char '[' :: more) (.ok rest) _ :=
    hterm.skip (hcollection.skip ⟨_, hrun, rfl⟩)
  exact ⟨_, hbody.ref_ok⟩

/-- Triples begin with what can be read as an object, too; it is not followed by more. -/
theorem tripleExtended_object
    (h : Keeps turtle (.ref (.tripleExtended false)) input rest k) :
    ∃ rest actions, Yields (.ref (.object false)) input (.ok rest) actions ∧ Unlisted rest := by
  obtain ⟨_, hbody, -⟩ := h.ref_inv
  obtain ⟨m₁, _, _, htriple, hend, -⟩ := hbody.seqOf_cons_inv
  obtain ⟨_, hbody, -⟩ := htriple.ref_inv
  rcases hbody.sor_inv with hseq1 | ⟨_, -, hseq2⟩
  · obtain ⟨_, hparts, -⟩ := hseq1.ref_inv
    obtain ⟨_, _, _, hsubject, hparts, -⟩ := hparts.seqOf_cons_inv
    obtain ⟨_, _, _, hlayout, hlist, -⟩ := hparts.seqOf_cons_inv
    obtain ⟨_, hsubject, -⟩ := hsubject.run
    obtain ⟨_, hlayout, -⟩ := hlayout.run
    obtain ⟨_, hlist, -⟩ := Keeps.run hlist
    obtain ⟨rest, _, hobject, hunlisted⟩ := subject_object hsubject
    exact ⟨rest, _, hobject, hunlisted (unlisted_of_list hlayout hlist)⟩
  · obtain ⟨_, hparts, -⟩ := hseq2.ref_inv
    obtain ⟨m₂, _, _, hbnpl, hparts, -⟩ := hparts.seqOf_cons_inv
    obtain ⟨m₃, _, _, hlayout, hmore, -⟩ := hparts.seqOf_cons_inv
    obtain ⟨_, hobject⟩ := blankNodePropertyList_object hbnpl
    obtain ⟨_, hlayout, -⟩ := hlayout.run
    refine ⟨m₂, _, hobject, ?_⟩
    rcases Keeps.sor_inv hmore with hlist | ⟨_, -, hempty⟩
    · obtain ⟨_, hlist, -⟩ := hlist.run
      exact unlisted_of_list hlayout hlist
    · -- the layout has been read, so the full stop comes next
      obtain ⟨rfl, -⟩ := hempty.success_inv
      obtain ⟨m₄, _, _, hagain, hstop, -⟩ := hend.seqOf_cons_inv
      obtain ⟨-, rfl, -⟩ := ch_yields hstop
      obtain ⟨_, hagain, -⟩ := hagain.run
      obtain ⟨_, hstar, -⟩ := hlayout.ref_ok
      obtain ⟨_, hstar', -⟩ := hagain.ref_ok
      obtain rfl := hstar.star_again hstar'
      refine unlisted_of_ignored hlayout fun b hb => ?_
      obtain rfl := Option.mem_some_iff.mp hb
      decide

/-- An object that is read where a statement begins is not followed by more. -/
theorem statement_unlisted (h : Keeps turtle (.ref .statement) input after k)
    {actions : Trace RuleName} (hobject : Yields (.ref (.object false)) input (.ok rest) actions) :
    Unlisted rest := by
  obtain ⟨_, hbody, -⟩ := h.ref_inv
  rcases hbody.sor_inv with htriple | ⟨_, -, hdirective⟩
  · obtain ⟨rest', _, hobject', hunlisted⟩ := tripleExtended_object htriple
    obtain rfl := Outcome.ok.inj (hobject.unique hobject').1
    exact hunlisted
  · obtain ⟨d, _, hrun⟩ := Directive.of_directive hdirective
    have hglued : d = .sparqlPrefix ∧ StartsToken (input.drop 6) := by
      by_contra hnot
      have htermless := d.termless hrun fun hd hstarts => hnot ⟨hd, hstarts⟩
      cases (hobject.unique htermless.object).1
    obtain ⟨rfl, hstarts⟩ := hglued
    obtain ⟨m₁, m₂, _, _, more, -, hobject', hlayout, rfl, -⟩ := glued_reads hrun hstarts
    obtain rfl := Outcome.ok.inj (hobject.unique hobject').1
    obtain ⟨_, hlayout, -⟩ := hlayout
    refine unlisted_of_ignored hlayout fun b hb => ?_
    obtain rfl := Option.mem_some_iff.mp hb
    decide

end Unlisted

end RdfParser.Turtle
