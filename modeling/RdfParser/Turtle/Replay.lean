/-
  Turtle/Replay.lean --- a statement runs the actions of its parts.

  The rules of triples try alternatives and repetitions that can run actions and then
  fail.  In a match that is followed by what has to follow it none of them does: the
  closing character that ends the match also refuses every attempt before it.  So the
  actions of such a match are those of the matches it is made of, and the same text has
  the same actions in both instantiations of the grammar.
-/
import RdfParser.Peg.Kept
import RdfParser.Turtle.Layout
import RdfParser.Turtle.Totality

set_option autoImplicit false

namespace RdfParser.Turtle

open RdfParser.Foundation RdfParser.Rdf RdfParser.Peg RdfParser.Peg.Rule

/-! ## The two instantiations -/

/-- The rule of the grammar `q` that corresponds to a rule of triples. -/
def RuleName.inMode (q : Bool) : RuleName → RuleName
  | .collection _ => .collection q
  | .blankNodePropertyList _ => .blankNodePropertyList q
  | .object _ => .object q
  | .objectList _ => .objectList q
  | .verb _ => .verb q
  | .predicateObjectListInner _ => .predicateObjectListInner q
  | .predicateObjectList _ => .predicateObjectList q
  | .subject _ => .subject q
  | .tripleSeq1 _ => .tripleSeq1 q
  | .tripleSeq2 _ => .tripleSeq2 q
  | .triple _ => .triple q
  | .tripleExtended _ => .tripleExtended q
  | name => name

/-- The corresponding actions. -/
def inMode (q : Bool) (actions : Trace RuleName) : Trace RuleName :=
  actions.map fun entry => (entry.1.inMode q, entry.2)

@[simp] theorem inMode_nil (q : Bool) : inMode q [] = [] := rfl

@[simp] theorem inMode_append (q : Bool) (left right : Trace RuleName) :
    inMode q (left ++ right) = inMode q left ++ inMode q right :=
  List.map_append

/-! ## Terms -/

/-- The rules of terms, and the other rules in which every attempt is quiet. -/
def inTerm : RuleName → Bool
  | .anon | .integer | .decimal | .double | .langtag | .blankNodeLabel | .iriref => true
  | .numericLiteral | .turtleString | .blankNode | .prefixedName | .iri => true
  | .rdfLiteralTypeTag | .rdfLiteral | .booleanLiteral | .literal | .term => true
  | .var | .varOrTerm | .predicate | .verbA => true
  | .collectionBegin | .blankNodePropertyListBegin => true
  | name => silent name

theorem inTerm_closed (name : RuleName) (h : inTerm name = true) :
    ∀ other ∈ (turtle name).names, inTerm other = true := by
  cases name <;> first | decide | exact absurd h Bool.false_ne_true

theorem inTerm_settles (name : RuleName) (h : inTerm name = true) :
    (turtle name).settles (quietFailure false) inTerm = true := by
  cases name <;> first | decide | exact absurd h Bool.false_ne_true

theorem inTerm_inMode {name : RuleName} (h : inTerm name = true) (q : Bool) :
    name.inMode q = name := by
  cases name <;> first | rfl | exact absurd h Bool.false_ne_true

/-- The essence of a trace is that of its loud entries. -/
theorem essence_outside (trace : Trace RuleName) :
    essence (trace.outside silent) = essence trace := by
  induction trace with
  | nil => rfl
  | cons entry trace ih =>
      unfold Trace.outside at ih ⊢
      cases hsilent : silent entry.1 with
      | true =>
          have hnone : essential entry = none := by
            simp [essential, acts_of_silent hsilent]
          rw [List.filter_cons_of_neg (by simp [hsilent]), ih]
          unfold essence
          rw [List.filterMap_cons_none hnone]
      | false =>
          rw [List.filter_cons_of_pos (by simp [hsilent])]
          unfold essence at ih ⊢
          rw [List.filterMap_cons, List.filterMap_cons, ih]

/-- The entries of an essence are entries of the trace. -/
theorem mem_of_mem_essence {trace : Trace RuleName} {entry : RuleName × Bytes}
    (h : entry ∈ essence trace) : ∃ original ∈ trace, entry.1 = original.1 := by
  obtain ⟨original, horiginal, hessential⟩ := List.mem_filterMap.mp h
  refine ⟨original, horiginal, ?_⟩
  unfold essential at hessential
  split at hessential <;> cases hessential
  rfl

/-- A kept match in which every attempt is quiet. -/
theorem settled_yields {rule : Rule RuleName}
    (hrule : rule.settles (quietFailure false) inTerm = true) {input rest : Bytes}
    {k : Trace RuleName} (h : Keeps turtle rule input rest k) :
    Yields rule input (.ok rest) (essence k) := by
  obtain ⟨t, hrun, -⟩ := h.run
  have hquiet : ∀ rule input t, quietFailure false rule = true → Run turtle rule input .fail t →
      t.Within silent := by
    intro rule input t hrule h
    exact h.retracts silent_closed retracting_closed rfl (by simp) hrule
  obtain ⟨k', hkeeps, hsame⟩ := hrun.keeps_outside hquiet inTerm_settles hrule rfl
  obtain ⟨-, rfl⟩ := h.unique hkeeps
  exact ⟨t, hrun, by rw [← essence_outside t, hsame, essence_outside]⟩

/-- The actions of terms are the same in both modes. -/
theorem settled_inMode {rule : Rule RuleName} (hrule : ∀ name ∈ rule.names, inTerm name = true)
    {input rest : Bytes} {k : Trace RuleName} (h : Keeps turtle rule input rest k) (q : Bool) :
    inMode q (essence k) = essence k := by
  obtain ⟨t, hrun, hsub⟩ := h.run
  have hnames := hrun.trace_names inTerm_closed hrule
  refine (List.map_congr_left ?_).trans (List.map_id _)
  intro entry hentry
  obtain ⟨original, horiginal, hname⟩ := mem_of_mem_essence hentry
  have hterm : inTerm entry.1 = true := hname ▸ hnames original (hsub.subset horiginal)
  exact Prod.ext (inTerm_inMode hterm q) rfl

theorem essence_idle {name : RuleName} (hname : acts name = false) (text : Bytes) :
    essence [(name, text)] = [] := by
  simp [essence, essential, hname]

theorem essence_silent {name : RuleName} (hname : silent name = true) {input rest : Bytes}
    {k : Trace RuleName} (h : Keeps turtle (.ref name) input rest k) : essence k = [] := by
  obtain ⟨t, hrun, hsub⟩ := h.run
  have hnames : ∀ other ∈ (Rule.ref name).names, silent other = true := by
    simpa [Rule.names] using hname
  refine essence_within fun entry hentry => ?_
  exact hrun.trace_names silent_closed hnames entry (hsub.subset hentry)

/-! ## Small steps -/

section Steps

variable {first second : Rule RuleName} {input rest : Bytes} {k : Trace RuleName}

theorem Yields.stop {actions : Trace RuleName} (h : Yields first input .fail actions) :
    Yields (.seq first second) input .fail actions := by
  obtain ⟨t, hrun, hessence⟩ := h
  exact ⟨t, .seqStop hrun (by simp), hessence⟩

theorem Yields.again {middle : Bytes} {left right : Trace RuleName}
    (h₁ : Yields first input (.ok middle) left)
    (h₂ : Yields (.star first) middle (.ok rest) right) :
    Yields (.star first) input (.ok rest) (left ++ right) := by
  obtain ⟨_, hrun₁, rfl⟩ := h₁
  obtain ⟨_, hrun₂, rfl⟩ := h₂
  exact ⟨_, .starNext hrun₁ hrun₂, essence_append _ _⟩

theorem Yields.done (h : Yields first input .fail []) :
    Yields (.star first) input (.ok input) [] := by
  obtain ⟨t, hrun, hessence⟩ := h
  exact ⟨t, .starDone hrun, hessence⟩

/-- Layout, and what it leaves. -/
theorem layout_yields (h : Keeps turtle (.ref .ignored) input rest k) :
    essence k = [] ∧ Yields (.ref .ignored) input (.ok rest) [] := by
  obtain ⟨t, hrun, -⟩ := h.run
  have hnone := essence_silent rfl h
  refine ⟨hnone, ?_⟩
  have hyields : Yields (.ref .ignored) input (.ok rest) (essence k) := settled_yields rfl h
  rwa [hnone] at hyields

/-- A character. -/
theorem ch_yields {c : Char} (h : Keeps turtle (ch c) input rest k) :
    k = [] ∧ input = char c :: rest ∧ Yields (ch c) input (.ok rest) [] := by
  obtain ⟨b, hb, rfl, rfl⟩ := h.byte_inv
  obtain rfl := beq_iff_eq.mp hb
  exact ⟨rfl, rfl, [], .byteOk hb, rfl⟩

theorem ch_fails {b : UInt8} {c : Char} (hne : b ≠ char c) (more : Bytes) :
    Yields (ch c) (b :: more) .fail [] := by
  refine ⟨[], .byteFail ?_, rfl⟩
  intro other hother
  obtain rfl := Option.mem_some_iff.mp hother
  exact beq_false_of_ne hne

end Steps

/-! ## What follows -/

/-- After layout comes one of these characters. -/
def Follows (chars : List Char) (input : Bytes) : Prop :=
  ∃ c ∈ chars, ∃ more t, Run turtle (.ref .ignored) input (.ok (char c :: more)) t

theorem Follows.mono {chars chars' : List Char} {input : Bytes} (h : Follows chars input)
    (hsub : chars ⊆ chars') : Follows chars' input := by
  obtain ⟨c, hc, hmore⟩ := h
  exact ⟨c, hsub hc, hmore⟩

/-- Layout and then something that these characters refuse. -/
theorem Follows.stops {chars : List Char} {input : Bytes} {rule : Rule RuleName}
    (h : Follows chars input)
    (hrule : ∀ c ∈ chars, ∀ more, Yields rule (char c :: more) .fail []) :
    Yields (.seq (.ref .ignored) rule) input .fail [] := by
  obtain ⟨c, hc, more, t, hrun⟩ := h
  obtain ⟨k, hk⟩ := hrun.keeps rfl
  exact (layout_yields hk).2.seq (hrule c hc more)

/-- Layout and a character. -/
theorem follows_of_keeps {c : Char} {chars : List Char} (hc : c ∈ chars) {input middle rest : Bytes}
    {k₁ k₂ : Trace RuleName} (h₁ : Keeps turtle (.ref .ignored) input middle k₁)
    (h₂ : Keeps turtle (ch c) middle rest k₂) : Follows chars input := by
  obtain ⟨t, hrun, -⟩ := h₁.run
  obtain ⟨-, rfl, -⟩ := ch_yields h₂
  exact ⟨c, hc, rest, t, hrun⟩

/-! ## Terms and verbs

In a query there is one more alternative, a variable, and nothing else begins like one. -/

section Modes

variable {q q' : Bool} {input rest : Bytes} {k : Trace RuleName}

/-- The terms of a mode. -/
abbrev leafRule (q : Bool) : RuleName := if q then .varOrTerm else .term

/-- What another rule matches is not a variable. -/
theorem var_fails {name : RuleName} (hquestion : refusesWithin turtle (char '?') 8 name = true)
    (hdollar : refusesWithin turtle (char '$') 8 name = true) {t : Trace RuleName}
    (h : Run turtle (.ref name) input (.ok rest) t) : Yields (.ref .var) input .fail [] := by
  obtain ⟨outcome, t', hvar⟩ := matching_ends .var input
  cases outcome with
  | fail => exact ⟨t', hvar, fail_essence rfl hvar⟩
  | error => exact absurd rfl (matching_never_errors (by simp) hvar)
  | ok after =>
      exfalso
      obtain ⟨_, hbody, -⟩ := hvar.ref_ok
      rcases hbody.sor_ok with hvar1 | ⟨_, _, -, hvar2, -⟩
      · obtain ⟨_, hvar1, -⟩ := hvar1.ref_ok
        obtain ⟨_, _, _, hmark, -, -⟩ := hvar1.seq_ok
        obtain ⟨b, hb, rfl, -⟩ := hmark.byte_ok
        obtain rfl := beq_iff_eq.mp hb
        exact Run.not_matches (by decide) hquestion h
      · obtain ⟨_, hvar2, -⟩ := hvar2.ref_ok
        obtain ⟨_, _, _, hmark, -, -⟩ := hvar2.seq_ok
        obtain ⟨b, hb, rfl, -⟩ := hmark.byte_ok
        obtain rfl := beq_iff_eq.mp hb
        exact Run.not_matches (by decide) hdollar h

theorem leaf_yields (hmode : q = q' ∨ q = false)
    (h : Keeps turtle (.ref (leafRule q)) input rest k) :
    Yields (.ref (leafRule q')) input (.ok rest) (inMode q' (essence k)) := by
  have hterm : inTerm (leafRule q) = true := by cases q <;> rfl
  rw [settled_inMode (by simpa [Rule.names] using hterm) h]
  have hsettles : (Rule.ref (leafRule q)).settles (quietFailure false) inTerm = true := hterm
  have hsame := settled_yields hsettles h
  rcases hmode with rfl | rfl
  · exact hsame
  · cases q' with
    | false => exact hsame
    | true =>
        obtain ⟨t, hrun, -⟩ := h.run
        exact .ref rfl ((var_fails (by decide) (by decide) hrun).skip hsame)

theorem leaf_fails (hmode : q = q' ∨ q = false) {b : UInt8} (hquestion : b ≠ char '?')
    (hdollar : b ≠ char '$') {more : Bytes} {t : Trace RuleName}
    (h : Run turtle (.ref (leafRule q)) (b :: more) .fail t) :
    Yields (.ref (leafRule q')) (b :: more) .fail [] := by
  have hquiet : quietFailure false (.ref (leafRule q)) = true := by cases q <;> rfl
  have hsame : Yields (.ref (leafRule q)) (b :: more) .fail [] := ⟨t, h, fail_essence hquiet h⟩
  rcases hmode with rfl | rfl
  · exact hsame
  · cases q' with
    | false => exact hsame
    | true =>
        have hvar1 : Yields (.ref .var1) (b :: more) .fail [] :=
          .ref rfl (ch_fails hquestion more).stop
        have hvar2 : Yields (.ref .var2) (b :: more) .fail [] :=
          .ref rfl (ch_fails hdollar more).stop
        have hvar : Yields (.ref .var) (b :: more) .fail [] := .ref_fail (hvar1.skip hvar2)
        exact .ref rfl (hvar.skip hsame)

theorem verb_yields (hmode : q = q' ∨ q = false)
    (h : Keeps turtle (.ref (.verb q)) input rest k) :
    Yields (.ref (.verb q')) input (.ok rest) (inMode q' (essence k)) := by
  obtain ⟨k, hbody, rfl⟩ := h.ref_inv
  rw [essence_append, inMode_append]
  suffices hmatch : Yields (turtle (.verb q')) input (.ok rest) (inMode q' (essence k)) from
    hmatch.ref_ok
  have hnames : ∀ name ∈ (turtle (.verb q)).names, inTerm name = true := by cases q <;> decide
  rw [settled_inMode hnames hbody]
  have hsame : Yields (turtle (.verb q)) input (.ok rest) (essence k) :=
    settled_yields (by cases q <;> decide) hbody
  rcases hmode with rfl | rfl
  · exact hsame
  · cases q' with
    | false => exact hsame
    | true =>
        rcases hbody.sor_inv with hpredicate | ⟨t, hfail, hverbA⟩
        · obtain ⟨_, hrun, -⟩ := hpredicate.run
          have hvar := var_fails (by decide) (by decide) hrun
          exact (hvar.skip (settled_yields (by decide) hpredicate)).choose
        · obtain ⟨_, hrun, -⟩ := hverbA.run
          have hvar := var_fails (by decide) (by decide) hrun
          have hnone : Yields (.ref .predicate) input .fail [] :=
            ⟨t, hfail, fail_essence rfl hfail⟩
          exact (hvar.skip hnone).skip (settled_yields (by decide) hverbA)

/-! ## Repetitions

`P` is kept from the front to the back, `Q` comes from the end: every repetition begins
with something that `Q` admits. -/

theorem star_begins {body : Rule RuleName} {Q : Bytes → Prop}
    (hbegins : ∀ input middle k, Keeps turtle body input middle k → Q input) (hrest : Q rest)
    (h : Keeps turtle (.star body) input rest k) : Q input := by
  cases h with
  | token hrule _ => cases hrule
  | starNext h₁ _ => exact hbegins _ _ _ h₁
  | starDone _ => exact hrest

theorem star_yields {body body' : Rule RuleName} {P Q : Bytes → Prop}
    (hshorter : ∀ input middle k, P input → Keeps turtle body input middle k → P middle)
    (hbegins : ∀ input middle k, Keeps turtle body input middle k → Q input)
    (hbody : ∀ input middle k, P input → Q middle → Keeps turtle body input middle k →
      Yields body' input (.ok middle) (inMode q' (essence k)))
    (hinput : P input) (hrest : Q rest) (hstop : Yields body' rest .fail [])
    (h : Keeps turtle (.star body) input rest k) :
    Yields (.star body') input (.ok rest) (inMode q' (essence k)) := by
  generalize hrule : Rule.star body = rule at h
  induction h with
  | token htoken _ =>
      subst hrule
      cases htoken
  | @starNext body₀ input middle rest k₁ k₂ h₁ h₂ _ ih =>
      cases hrule
      rw [essence_append, inMode_append]
      have hmiddle := star_begins hbegins hrest h₂
      exact (hbody _ _ _ hinput hmiddle h₁).again
        (ih (hshorter _ _ _ hinput h₁) hrest hstop rfl)
  | starDone _ =>
      cases hrule
      exact hstop.done
  | _ => cases hrule

/-! ## Objects, given those in shorter inputs -/

/-- Every object in an input shorter than this can be replayed. -/
def ObjectsReplay (q q' : Bool) (bound : Nat) : Prop :=
  ∀ input rest k, input.length < bound → Keeps turtle (.ref (.object q)) input rest k →
    Yields (.ref (.object q')) input (.ok rest) (inMode q' (essence k))

/-- The characters behind an object list. -/
abbrev afterObjects : List Char := [';', ']', '.']

theorem mem_afterObjects {c : Char} (hc : c ∈ afterObjects) : c = ';' ∨ c = ']' ∨ c = '.' := by
  simpa using hc

/-- The characters behind a predicate-object list. -/
abbrev afterList : List Char := [']', '.']

variable {bound : Nat}

theorem objectList_yields (hobjects : ObjectsReplay q q' bound) (hinput : input.length < bound)
    (hrest : Follows afterObjects rest) (h : Keeps turtle (.ref (.objectList q)) input rest k) :
    Yields (.ref (.objectList q')) input (.ok rest) (inMode q' (essence k)) := by
  obtain ⟨k, hbody, rfl⟩ := h.ref_inv
  obtain ⟨middle, k₁, k₂, hfirst, hmore, rfl⟩ := hbody.seq_inv
  have hstop : Yields (seqOf [.ref .ignored, ch ',', .ref .ignored, .ref (.object q')])
      rest .fail [] := by
    refine hrest.stops fun c hc more => (ch_fails ?_ more).stop
    rcases mem_afterObjects hc with rfl | rfl | rfl <;> decide
  have hstar : Yields
      (.star (seqOf [.ref .ignored, ch ',', .ref .ignored, .ref (.object q')]))
      middle (.ok rest) (inMode q' (essence k₂)) := by
    refine star_yields (P := fun input => input.length < bound) (Q := fun _ => True)
      (fun input middle k hshort hk => hk.length_le.trans_lt hshort) (fun _ _ _ _ => trivial)
      ?_ (hfirst.length_le.trans_lt hinput) trivial hstop hmore
    intro input middle k hshort _ hk
    obtain ⟨m₁, k₁, more₁, hlayout, hk₁, rfl⟩ := hk.seqOf_cons_inv
    obtain ⟨m₂, k₂, more₂, hcomma, hk₂, rfl⟩ := hk₁.seqOf_cons_inv
    obtain ⟨m₃, k₃, k₄, hlayout', hobject, rfl⟩ := hk₂.seqOf_cons_inv
    obtain ⟨hnone, hyields⟩ := layout_yields hlayout
    obtain ⟨rfl, -, hyieldsComma⟩ := ch_yields hcomma
    obtain ⟨hnone', hyields'⟩ := layout_yields hlayout'
    have hle := hlayout.length_le.trans_lt hshort
    have hle' := hlayout'.length_le.trans_lt (hcomma.length_le.trans_lt hle)
    have hobject := hobjects _ _ _ hle' hobject
    have hsame : essence (k₁ ++ ([] ++ (k₃ ++ k₄))) = essence k₄ := by simp [hnone, hnone']
    rw [hsame]
    exact hyields.seq (hyieldsComma.seq (hyields'.seq hobject))
  have hmatch : Yields (turtle (.objectList q')) input (.ok rest)
      (inMode q' (essence k₁) ++ inMode q' (essence k₂)) :=
    (hobjects _ _ _ hinput hfirst).seq hstar
  have hidle := essence_idle (show acts (.objectList q) = false from rfl) (consumed input rest)
  rw [essence_append, hidle, List.append_nil, essence_append, inMode_append]
  exact .ref rfl hmatch

/-- No verb begins like what follows an object list. -/
theorem inner_refused (q : Bool) {c : Char} (hc : c ∈ afterObjects) (more : Bytes) :
    Yields (.ref (.predicateObjectListInner q)) (char c :: more) .fail [] := by
  have hascii : (char c).toNat < 128 := by
    rcases mem_afterObjects hc with rfl | rfl | rfl <;> decide
  have hrefuses : refusesWithin turtle (char c) 8 (.verb q) = true := by
    rcases mem_afterObjects hc with rfl | rfl | rfl <;> cases q <;> decide
  exact .ref_fail (refused_fails hascii (.verb q) hrefuses rfl more).stop

theorem inner_yields (hmode : q = q' ∨ q = false) (hobjects : ObjectsReplay q q' bound)
    (hinput : input.length < bound) (hrest : Follows afterObjects rest)
    (h : Keeps turtle (.ref (.predicateObjectListInner q)) input rest k) :
    Yields (.ref (.predicateObjectListInner q')) input (.ok rest) (inMode q' (essence k)) := by
  obtain ⟨k, hbody, rfl⟩ := h.ref_inv
  obtain ⟨m₁, k₁, more, hverb, hmore, rfl⟩ := hbody.seqOf_cons_inv
  obtain ⟨m₂, k₂, k₃, hlayout, hlist, rfl⟩ := hmore.seqOf_cons_inv
  obtain ⟨hnone, hyields⟩ := layout_yields hlayout
  have hshort := hlayout.length_le.trans_lt (hverb.length_le.trans_lt hinput)
  have hlist := objectList_yields hobjects hshort hrest hlist
  have hsame : essence (k₁ ++ (k₂ ++ k₃)) = essence k₁ ++ essence k₃ := by simp [hnone]
  rw [essence_append, hsame, inMode_append, inMode_append]
  have hmatch : Yields (turtle (.predicateObjectListInner q')) input (.ok rest)
      (inMode q' (essence k₁) ++ inMode q' (essence k₃)) :=
    (verb_yields hmode hverb).seq (hyields.seq hlist)
  exact hmatch.ref_ok

theorem predicateObjectList_yields (hmode : q = q' ∨ q = false)
    (hobjects : ObjectsReplay q q' bound) (hinput : input.length < bound)
    (hrest : Follows afterList rest)
    (h : Keeps turtle (.ref (.predicateObjectList q)) input rest k) :
    Yields (.ref (.predicateObjectList q')) input (.ok rest) (inMode q' (essence k)) := by
  obtain ⟨k, hbody, rfl⟩ := h.ref_inv
  obtain ⟨middle, k₁, k₂, hfirst, hmore, rfl⟩ := hbody.seq_inv
  have hrest' : Follows afterObjects rest := hrest.mono (by decide)
  have hbegins : ∀ input middle k, Keeps turtle (seqOf [.ref .ignored, ch ';',
      opt (.seq (.ref .ignored) (.ref (.predicateObjectListInner q)))]) input middle k →
      Follows afterObjects input := by
    intro input middle k hk
    obtain ⟨m₁, k₁, more₁, hlayout, hk₁, rfl⟩ := hk.seqOf_cons_inv
    obtain ⟨m₂, k₂, more₂, hsemicolon, hk₂, rfl⟩ := hk₁.seqOf_cons_inv
    exact follows_of_keeps (by decide) hlayout hsemicolon
  have hstop : Yields (seqOf [.ref .ignored, ch ';',
      opt (.seq (.ref .ignored) (.ref (.predicateObjectListInner q')))]) rest .fail [] := by
    refine hrest.stops fun c hc more => (ch_fails ?_ more).stop
    have hcases : c = ']' ∨ c = '.' := by simpa using hc
    rcases hcases with rfl | rfl <;> decide
  have hstar : Yields (.star (seqOf [.ref .ignored, ch ';',
      opt (.seq (.ref .ignored) (.ref (.predicateObjectListInner q')))])) middle (.ok rest)
      (inMode q' (essence k₂)) := by
    refine star_yields (P := fun input => input.length < bound) (Q := Follows afterObjects)
      (fun input middle k hshort hk => hk.length_le.trans_lt hshort) hbegins
      ?_ (hfirst.length_le.trans_lt hinput) hrest' hstop hmore
    intro input middle k hshort hmiddle hk
    obtain ⟨m₁, k₁, more₁, hlayout, hk₁, rfl⟩ := hk.seqOf_cons_inv
    obtain ⟨m₂, k₂, k₃, hsemicolon, hk₂, rfl⟩ := hk₁.seqOf_cons_inv
    obtain ⟨hnone, hyields⟩ := layout_yields hlayout
    obtain ⟨rfl, -, hyieldsSemicolon⟩ := ch_yields hsemicolon
    have hshort' :=
      hsemicolon.length_le.trans_lt (hlayout.length_le.trans_lt hshort)
    have hsame : essence (k₁ ++ ([] ++ k₃)) = essence k₃ := by simp [hnone]
    rw [hsame]
    refine hyields.seq (hyieldsSemicolon.seq ?_)
    rcases Keeps.sor_inv hk₂ with hnext | ⟨t, hfail, hempty⟩
    · obtain ⟨m₃, k₃, k₄, hlayout', hinner, rfl⟩ := hnext.seq_inv
      obtain ⟨hnone', hyields'⟩ := layout_yields hlayout'
      have hinner := inner_yields hmode hobjects (hlayout'.length_le.trans_lt hshort') hmiddle
        hinner
      have hsame : essence (k₃ ++ k₄) = essence k₄ := by simp [hnone']
      rw [hsame]
      exact (hyields'.seq hinner).choose
    · -- nothing between two semicolons, or behind the last one
      obtain ⟨rfl, rfl⟩ := hempty.success_inv
      have hquiet := hmiddle.stops fun c hc more => inner_refused q' hc more
      exact hquiet.skip ⟨[], .success, rfl⟩
  have hmatch : Yields (turtle (.predicateObjectList q')) input (.ok rest)
      (inMode q' (essence k₁) ++ inMode q' (essence k₂)) :=
    (inner_yields hmode hobjects hinput (star_begins hbegins hrest' hmore) hfirst).seq hstar
  have hidle := essence_idle (show acts (.predicateObjectList q) = false from rfl)
    (consumed input rest)
  rw [essence_append, hidle, List.append_nil, essence_append, inMode_append]
  exact .ref rfl hmatch

/-- A bracket behind its opening character. -/
theorem blankNodePropertyList_yields (hmode : q = q' ∨ q = false)
    (hobjects : ObjectsReplay q q' bound) (hinput : input.length ≤ bound)
    (h : Keeps turtle (.ref (.blankNodePropertyList q)) input rest k) :
    Yields (.ref (.blankNodePropertyList q')) input (.ok rest) (inMode q' (essence k)) ∧
      ∃ more, input = char '[' :: more := by
  obtain ⟨k, hbody, rfl⟩ := h.ref_inv
  obtain ⟨m₁, k₁, more₁, hbegin, hk₁, rfl⟩ := hbody.seqOf_cons_inv
  obtain ⟨m₂, k₂, more₂, hlayout, hk₂, rfl⟩ := hk₁.seqOf_cons_inv
  obtain ⟨m₃, k₃, more₃, hlist, hk₃, rfl⟩ := hk₂.seqOf_cons_inv
  obtain ⟨m₄, k₄, k₅, hlayout', hclose, rfl⟩ := hk₃.seqOf_cons_inv
  obtain ⟨hnone, hyields⟩ := layout_yields hlayout
  obtain ⟨hnone', hyields'⟩ := layout_yields hlayout'
  obtain ⟨rfl, -, hyieldsClose⟩ := ch_yields hclose
  have hbegin' : Yields (.ref .blankNodePropertyListBegin) input (.ok m₁) (essence k₁) :=
    settled_yields rfl hbegin
  have hfixed : inMode q' (essence k₁) = essence k₁ :=
    settled_inMode (by decide) hbegin q'
  obtain ⟨_, hbracket, -⟩ := hbegin.ref_inv
  obtain ⟨-, rfl, -⟩ := ch_yields hbracket
  have hshort : m₂.length < bound :=
    hlayout.length_le.trans_lt (Nat.lt_of_succ_le (by simpa using hinput))
  have hlist := predicateObjectList_yields hmode hobjects hshort
    (follows_of_keeps (by decide) hlayout' hclose) hlist
  refine ⟨?_, m₁, rfl⟩
  have hsame : essence (k₁ ++ (k₂ ++ (k₃ ++ (k₄ ++ [])))) = essence k₁ ++ essence k₃ := by
    simp [hnone, hnone']
  rw [essence_append, hsame, inMode_append, inMode_append, hfixed]
  have hmatch : Yields (turtle (.blankNodePropertyList q')) (char '[' :: m₁) (.ok rest)
      (essence k₁ ++ (inMode q' (essence k₃) ++ [])) :=
    hbegin'.seq (hyields.seq (hlist.seq (hyields'.seq hyieldsClose)))
  rw [List.append_nil] at hmatch
  exact hmatch.ref_ok

/-- No object begins with a closing parenthesis. -/
theorem object_refused (q : Bool) (more : Bytes) :
    Yields (.ref (.object q)) (char ')' :: more) .fail [] := by
  have hleaf := refused_fails (b := char ')') (by decide) (leafRule q) (by cases q <;> decide)
    (by cases q <;> rfl) more
  have hcollection : Yields (.ref (.collection q)) (char ')' :: more) .fail [] :=
    .ref_fail (refused_fails (b := char ')') (by decide) .collectionBegin (by decide) rfl more).stop
  have hlist : Yields (.ref (.blankNodePropertyList q)) (char ')' :: more) .fail [] :=
    .ref_fail (refused_fails (b := char ')') (by decide) .blankNodePropertyListBegin (by decide)
      rfl more).stop
  exact .ref_fail (hleaf.skip (hcollection.skip hlist))

theorem collection_yields (hobjects : ObjectsReplay q q' bound) (hinput : input.length ≤ bound)
    (h : Keeps turtle (.ref (.collection q)) input rest k) :
    Yields (.ref (.collection q')) input (.ok rest) (inMode q' (essence k)) ∧
      ∃ more, input = char '(' :: more := by
  obtain ⟨k, hbody, rfl⟩ := h.ref_inv
  obtain ⟨m₁, k₁, more₁, hbegin, hk₁, rfl⟩ := hbody.seqOf_cons_inv
  obtain ⟨m₂, k₂, more₂, hmembers, hk₂, rfl⟩ := hk₁.seqOf_cons_inv
  obtain ⟨m₃, k₃, k₄, hlayout, hclose, rfl⟩ := hk₂.seqOf_cons_inv
  obtain ⟨hnone, hyields⟩ := layout_yields hlayout
  have hfollows : Follows [')'] m₂ := follows_of_keeps (by decide) hlayout hclose
  obtain ⟨rfl, -, hyieldsClose⟩ := ch_yields hclose
  have hbegin' : Yields (.ref .collectionBegin) input (.ok m₁) (essence k₁) :=
    settled_yields rfl hbegin
  have hfixed : inMode q' (essence k₁) = essence k₁ :=
    settled_inMode (by decide) hbegin q'
  obtain ⟨_, hbracket, -⟩ := hbegin.ref_inv
  obtain ⟨-, rfl, -⟩ := ch_yields hbracket
  have hshort : m₁.length < bound := Nat.lt_of_succ_le (by simpa using hinput)
  have hstop : Yields (.seq (.ref .ignored) (.ref (.object q'))) m₂ .fail [] := by
    refine hfollows.stops fun c hc more => ?_
    obtain rfl := List.mem_singleton.mp hc
    exact object_refused q' more
  have hstar : Yields (.star (.seq (.ref .ignored) (.ref (.object q')))) m₁ (.ok m₂)
      (inMode q' (essence k₂)) := by
    refine star_yields (P := fun input => input.length < bound) (Q := fun _ => True)
      (fun input middle k hshort hk => hk.length_le.trans_lt hshort) (fun _ _ _ _ => trivial)
      ?_ hshort trivial hstop hmembers
    intro input middle k hshort _ hk
    obtain ⟨m₁, k₁, k₂, hlayout, hobject, rfl⟩ := hk.seq_inv
    obtain ⟨hnone, hyields⟩ := layout_yields hlayout
    have hobject := hobjects _ _ _ (hlayout.length_le.trans_lt hshort) hobject
    have hsame : essence (k₁ ++ k₂) = essence k₂ := by simp [hnone]
    rw [hsame]
    exact hyields.seq hobject
  refine ⟨?_, m₁, rfl⟩
  have hsame : essence (k₁ ++ (k₂ ++ (k₃ ++ []))) = essence k₁ ++ essence k₂ := by
    simp [hnone]
  rw [essence_append, hsame, inMode_append, inMode_append, hfixed]
  have hmatch : Yields (turtle (.collection q')) (char '(' :: m₁) (.ok rest)
      (essence k₁ ++ (inMode q' (essence k₂) ++ [])) :=
    hbegin'.seq (hstar.seq (hyields.seq hyieldsClose))
  rw [List.append_nil] at hmatch
  exact hmatch.ref_ok

/-- By induction on the length of the input: what stands in brackets is shorter. -/
theorem objectsReplay (hmode : q = q' ∨ q = false) (bound : Nat) : ObjectsReplay q q' bound := by
  induction bound with
  | zero => exact fun input _ _ hshort => absurd hshort (Nat.not_lt_zero _)
  | succ bound ih =>
      intro input rest k hshort h
      obtain ⟨k, hbody, rfl⟩ := h.ref_inv
      have hinput : input.length ≤ bound := Nat.le_of_lt_succ hshort
      rw [essence_append, inMode_append]
      suffices hmatch : Yields (turtle (.object q')) input (.ok rest) (inMode q' (essence k)) from
        hmatch.ref_ok
      rcases hbody.sor_inv with hleaf | ⟨t, hnoleaf, hbody⟩
      · exact (leaf_yields hmode hleaf).choose
      · rcases hbody.sor_inv with hcollection | ⟨_, -, hlist⟩
        · obtain ⟨hyields, more, rfl⟩ := collection_yields ih hinput hcollection
          exact (leaf_fails hmode (by decide) (by decide) hnoleaf).skip hyields.choose
        · obtain ⟨hyields, more, rfl⟩ := blankNodePropertyList_yields hmode ih hinput hlist
          have hcollection : Yields (.ref (.collection q')) (char '[' :: more) .fail [] :=
            .ref_fail (refused_fails (b := char '[') (by decide) .collectionBegin (by decide) rfl
              more).stop
          exact (leaf_fails hmode (by decide) (by decide) hnoleaf).skip (hcollection.skip hyields)

/-! ## Statements -/

/-- The parts of a property list. -/
theorem propertyList_inv (h : Keeps turtle (.ref (.blankNodePropertyList q)) input rest k) :
    ∃ m₁ m₂ m₃ k₁ k₂ k₃, input = char '[' :: m₁ ∧
      Keeps turtle (.ref .blankNodePropertyListBegin) input m₁ k₁ ∧
      Keeps turtle (.ref .ignored) m₁ m₂ k₂ ∧
      Keeps turtle (.ref (.predicateObjectList q)) m₂ m₃ k₃ ∧
      ∃ k₄ k₅, Keeps turtle (.ref .ignored) m₃ (char ']' :: rest) k₄ ∧
        Keeps turtle (ch ']') (char ']' :: rest) rest k₅ := by
  obtain ⟨_, hlist, -⟩ := h.ref_inv
  obtain ⟨m₁, _, _, hbegin, hlist, -⟩ := hlist.seqOf_cons_inv
  obtain ⟨m₂, _, _, hlayout, hlist, -⟩ := hlist.seqOf_cons_inv
  obtain ⟨m₃, _, _, hverbs, hlist, -⟩ := hlist.seqOf_cons_inv
  obtain ⟨m₄, _, _, hlayout', hclose, -⟩ := hlist.seqOf_cons_inv
  obtain ⟨_, hopen, -⟩ := hbegin.ref_inv
  obtain ⟨-, hinput, -⟩ := ch_yields hopen
  have hclose : Keeps turtle (ch ']') m₄ rest _ := hclose
  obtain ⟨-, rfl, -⟩ := ch_yields hclose
  exact ⟨m₁, m₂, m₃, _, _, _, hinput, hbegin, hlayout, hverbs, _, _, hlayout', hclose⟩

/-- A list of verbs does not begin with a bracket. -/
theorem verbs_begin {t : Trace RuleName}
    (h : Run turtle (.ref (.predicateObjectList q)) input (.ok rest) t) :
    ∀ b ∈ input.head?, b ≠ char ']' := by
  rintro b hb rfl
  cases input with
  | nil => cases hb
  | cons c input =>
      obtain rfl := Option.mem_some_iff.mp hb
      exact Run.not_matches (n := 10) (by decide) (by cases q <;> decide) h

/-- A property list is not `[]`: its first verb does not begin with the closing bracket. -/
theorem anon_refused (h : Keeps turtle (.ref (.blankNodePropertyList q)) input rest k) :
    Yields (.ref .anon) input .fail [] := by
  obtain ⟨outcome, t, hanon⟩ := matching_ends .anon input
  cases outcome with
  | fail => exact ⟨t, hanon, fail_essence rfl hanon⟩
  | error => exact absurd rfl (matching_never_errors (by simp) hanon)
  | ok after =>
      obtain ⟨m₁, m₂, m₃, _, _, _, rfl, -, hlayout, hverbs, -⟩ := propertyList_inv h
      obtain ⟨blanks, rfl, hblanks⟩ := anon_iff.mp ⟨t, hanon⟩
      obtain ⟨_, hignored, -⟩ := hlayout.run
      obtain ⟨_, hrun, -⟩ := hverbs.run
      obtain rfl := bracket_ends hblanks hignored
      exact absurd rfl (verbs_begin hrun (char ']') rfl)

/-- No subject begins like a property list. -/
theorem subject_refused (h : Keeps turtle (.ref (.blankNodePropertyList q)) input rest k) :
    Yields (.ref (.subject q')) input .fail [] := by
  have hanon := anon_refused h
  obtain ⟨-, more, rfl⟩ := blankNodePropertyList_yields (.inl rfl)
    (objectsReplay (.inl rfl) input.length) le_rfl h
  have hlabel := refused_fails (b := char '[') (by decide) .blankNodeLabel (by decide) rfl more
  have hiri := refused_fails (b := char '[') (by decide) .iri (by decide) rfl more
  have hblank : Yields (.ref .blankNode) (char '[' :: more) .fail [] :=
    .ref_fail (hlabel.skip hanon)
  cases q' with
  | false =>
      have hcollection : Yields (.ref (.collection false)) (char '[' :: more) .fail [] :=
        .ref_fail (refused_fails (b := char '[') (by decide) .collectionBegin (by decide) rfl
          more).stop
      exact .ref_fail (hiri.skip (hblank.skip hcollection))
  | true =>
      have hvar := refused_fails (b := char '[') (by decide) .var (by decide) rfl more
      have hliteral := refused_fails (b := char '[') (by decide) .literal (by decide) rfl more
      have hterm : Yields (.ref .term) (char '[' :: more) .fail [] :=
        .ref_fail (hliteral.skip (hblank.skip hiri))
      exact .ref_fail (hvar.skip hterm)

/-- The subject at the beginning of the input can be replayed. -/
def SubjectReplays (q q' : Bool) (input : Bytes) : Prop :=
  ∀ rest k, Keeps turtle (.ref (.subject q)) input rest k →
    Yields (.ref (.subject q')) input (.ok rest) (inMode q' (essence k))

/-- In its own mode every subject can. -/
theorem subjectReplays (q : Bool) (input : Bytes) : SubjectReplays q q input := by
  intro rest k h
  obtain ⟨k, hbody, rfl⟩ := h.ref_inv
  rw [essence_append, inMode_append]
  suffices hmatch : Yields (turtle (.subject q)) input (.ok rest) (inMode q (essence k)) from
    hmatch.ref_ok
  cases q with
  | true =>
      rw [settled_inMode (by decide) hbody]
      exact settled_yields (by decide) hbody
  | false =>
      rcases hbody.sor_inv with hiri | ⟨t₁, hiri, hbody⟩
      · rw [settled_inMode (by decide) hiri]
        exact (settled_yields (by decide) hiri).choose
      · have hnoiri : Yields (.ref .iri) input .fail [] := ⟨t₁, hiri, fail_essence rfl hiri⟩
        rcases hbody.sor_inv with hblank | ⟨t₂, hblank, hcollection⟩
        · rw [settled_inMode (by decide) hblank]
          exact hnoiri.skip (settled_yields (by decide) hblank).choose
        · have hnoblank : Yields (.ref .blankNode) input .fail [] :=
            ⟨t₂, hblank, fail_essence rfl hblank⟩
          obtain ⟨hyields, -⟩ := collection_yields
            (objectsReplay (.inl rfl) input.length) le_rfl hcollection
          exact hnoiri.skip (hnoblank.skip hyields)

theorem tripleSeq1_yields (hmode : q = q' ∨ q = false) (hsubject : SubjectReplays q q' input)
    (hrest : Follows ['.'] rest) (h : Keeps turtle (.ref (.tripleSeq1 q)) input rest k) :
    Yields (.ref (.tripleSeq1 q')) input (.ok rest) (inMode q' (essence k)) := by
  obtain ⟨k, hbody, rfl⟩ := h.ref_inv
  obtain ⟨m₁, k₁, more₁, hsubj, hk₁, rfl⟩ := hbody.seqOf_cons_inv
  obtain ⟨m₂, k₂, k₃, hlayout, hlist, rfl⟩ := hk₁.seqOf_cons_inv
  obtain ⟨hnone, hyields⟩ := layout_yields hlayout
  have hlist := predicateObjectList_yields hmode (objectsReplay hmode _) (Nat.lt_succ_self _)
    (hrest.mono (by decide)) hlist
  have hsame : essence (k₁ ++ (k₂ ++ k₃)) = essence k₁ ++ essence k₃ := by simp [hnone]
  rw [essence_append, hsame, inMode_append, inMode_append]
  have hmatch : Yields (turtle (.tripleSeq1 q')) input (.ok rest)
      (inMode q' (essence k₁) ++ inMode q' (essence k₃)) :=
    (hsubject _ _ hsubj).seq (hyields.seq hlist)
  exact hmatch.ref_ok

theorem tripleSeq2_yields (hmode : q = q' ∨ q = false) (hrest : Follows ['.'] rest)
    (h : Keeps turtle (.ref (.tripleSeq2 q)) input rest k) :
    Yields (.ref (.tripleSeq2 q')) input (.ok rest) (inMode q' (essence k)) ∧
      Yields (.ref (.tripleSeq1 q')) input .fail [] := by
  obtain ⟨k, hbody, rfl⟩ := h.ref_inv
  obtain ⟨m₁, k₁, more₁, hsubj, hk₁, rfl⟩ := hbody.seqOf_cons_inv
  obtain ⟨m₂, k₂, k₃, hlayout, hlist, rfl⟩ := hk₁.seqOf_cons_inv
  obtain ⟨hnone, hyields⟩ := layout_yields hlayout
  obtain ⟨hfirst, -⟩ := blankNodePropertyList_yields hmode (objectsReplay hmode _) le_rfl hsubj
  refine ⟨?_, .ref_fail (subject_refused hsubj).stop⟩
  have hrest' : Yields (opt (.ref (.predicateObjectList q'))) m₂ (.ok rest)
      (inMode q' (essence k₃)) := by
    rcases Keeps.sor_inv hlist with hlist | ⟨t, hfail, hempty⟩
    · exact (predicateObjectList_yields hmode (objectsReplay hmode _) (Nat.lt_succ_self _)
        (hrest.mono (by decide)) hlist).choose
    · obtain ⟨rfl, rfl⟩ := hempty.success_inv
      -- the layout has been read, so the full stop comes next
      obtain ⟨c, hc, more, _, hagain⟩ := hrest
      obtain rfl := List.mem_singleton.mp hc
      obtain ⟨_, hignored, -⟩ := hlayout.run
      obtain ⟨_, hstar, -⟩ := hignored.ref_ok
      obtain ⟨_, hstar', -⟩ := hagain.ref_ok
      obtain rfl := hstar.star_again hstar'
      have hinner := inner_refused q' (c := '.') (by decide) more
      have hnone : Yields (.ref (.predicateObjectList q')) (char '.' :: more) .fail [] :=
        .ref_fail hinner.stop
      exact hnone.skip ⟨[], .success, rfl⟩
  have hsame : essence (k₁ ++ (k₂ ++ k₃)) = essence k₁ ++ essence k₃ := by simp [hnone]
  rw [essence_append, hsame, inMode_append, inMode_append]
  have hmatch : Yields (turtle (.tripleSeq2 q')) input (.ok rest)
      (inMode q' (essence k₁) ++ inMode q' (essence k₃)) :=
    hfirst.seq (hyields.seq hrest')
  exact hmatch.ref_ok

theorem triple_yields (hmode : q = q' ∨ q = false) (hsubject : SubjectReplays q q' input)
    (hrest : Follows ['.'] rest) (h : Keeps turtle (.ref (.triple q)) input rest k) :
    Yields (.ref (.triple q')) input (.ok rest) (inMode q' (essence k)) := by
  obtain ⟨k, hbody, rfl⟩ := h.ref_inv
  rw [essence_append, inMode_append]
  suffices hmatch : Yields (turtle (.triple q')) input (.ok rest) (inMode q' (essence k)) from
    hmatch.ref_ok
  rcases hbody.sor_inv with hseq1 | ⟨_, -, hseq2⟩
  · exact (tripleSeq1_yields hmode hsubject hrest hseq1).choose
  · obtain ⟨hyields, hnone⟩ := tripleSeq2_yields hmode hrest hseq2
    exact hnone.skip hyields

/-- A statement up to its full stop. -/
theorem tripleExtended_yields (hmode : q = q' ∨ q = false) (hsubject : SubjectReplays q q' input)
    (h : Keeps turtle (.ref (.tripleExtended q)) input rest k) :
    Yields (.ref (.tripleExtended q')) input (.ok rest) (inMode q' (essence k)) := by
  obtain ⟨k, hbody, rfl⟩ := h.ref_inv
  obtain ⟨m₁, k₁, more₁, htriple, hk₁, rfl⟩ := hbody.seqOf_cons_inv
  obtain ⟨m₂, k₂, k₃, hlayout, hstop, rfl⟩ := hk₁.seqOf_cons_inv
  have hfollows : Follows ['.'] m₁ := follows_of_keeps (by decide) hlayout hstop
  obtain ⟨hnone, hyields⟩ := layout_yields hlayout
  obtain ⟨rfl, -, hyieldsStop⟩ := ch_yields hstop
  have hidle := essence_idle (show acts (.tripleExtended q) = false from rfl)
    (consumed input rest)
  have hsame : essence (k₁ ++ (k₂ ++ []) ++ [(.tripleExtended q, consumed input rest)]) =
      essence k₁ := by simp [hnone, hidle]
  rw [hsame]
  have hmatch : Yields (turtle (.tripleExtended q')) input (.ok rest)
      (inMode q' (essence k₁) ++ []) :=
    (triple_yields hmode hsubject hfollows htriple).seq (hyields.seq hyieldsStop)
  rw [List.append_nil] at hmatch
  exact .ref rfl hmatch

/-! ## Every match of a statement -/

/-- The rules of triples in one mode, and those of terms. -/
def ofMode (q : Bool) : RuleName → Bool
  | .collection p | .blankNodePropertyList p | .object p | .objectList p => p == q
  | .verb p | .predicateObjectListInner p | .predicateObjectList p | .subject p => p == q
  | .tripleSeq1 p | .tripleSeq2 p | .triple p | .tripleExtended p => p == q
  | name => inTerm name

theorem ofMode_closed (q : Bool) (name : RuleName) (h : ofMode q name = true) :
    ∀ other ∈ (turtle name).names, ofMode q other = true := by
  cases name
  case collection p | blankNodePropertyList p | object p | objectList p | verb p
      | predicateObjectListInner p | predicateObjectList p | subject p | tripleSeq1 p
      | tripleSeq2 p | triple p | tripleExtended p =>
    obtain rfl : p = q := beq_iff_eq.mp h
    cases p <;> decide
  all_goals first
    | exact absurd h Bool.false_ne_true
    | cases q <;> decide

theorem ofMode_inMode {name : RuleName} (h : ofMode q name = true) : name.inMode q = name := by
  cases name <;> first
    | rfl
    | exact absurd h Bool.false_ne_true
    | exact congrArg _ (beq_iff_eq.mp h).symm

/-- A match that can be replayed in its own mode runs the actions of the matches it is
made of. -/
theorem kept_of_yields {name : RuleName} (hname : ofMode q name = true)
    (hyields : ∀ k, Keeps turtle (.ref name) input rest k →
      Yields (.ref name) input (.ok rest) (inMode q (essence k)))
    {t : Trace RuleName} (h : Run turtle (.ref name) input (.ok rest) t) :
    ∃ k, Keeps turtle (.ref name) input rest k ∧ essence t = essence k := by
  obtain ⟨k, hk⟩ := h.keeps rfl
  refine ⟨k, hk, ?_⟩
  obtain ⟨t', hrun', hessence⟩ := hyields k hk
  obtain ⟨-, rfl⟩ := h.deterministic hrun'
  obtain ⟨_, hrun, hsub⟩ := hk.run
  have hstart : ∀ other ∈ (Rule.ref name).names, ofMode q other = true := by
    simpa [Rule.names] using hname
  have hnames := hrun.trace_names (ofMode_closed q) hstart
  rw [hessence]
  refine (List.map_congr_left ?_).trans (List.map_id _)
  intro entry hentry
  obtain ⟨original, horiginal, hname⟩ := mem_of_mem_essence hentry
  have hmode : ofMode q entry.1 = true := hname ▸ hnames original (hsub.subset horiginal)
  exact Prod.ext (ofMode_inMode hmode) rfl

/-- A statement runs the actions of the matches it is made of. -/
theorem tripleExtended_kept {t : Trace RuleName}
    (h : Run turtle (.ref (.tripleExtended q)) input (.ok rest) t) :
    ∃ k, Keeps turtle (.ref (.tripleExtended q)) input rest k ∧ essence t = essence k :=
  kept_of_yields (by simp [ofMode])
    (fun _ hk => tripleExtended_yields (.inl rfl) (subjectReplays q input) hk) h

/-- So does a collection. -/
theorem collection_kept {t : Trace RuleName}
    (h : Run turtle (.ref (.collection q)) input (.ok rest) t) :
    ∃ k, Keeps turtle (.ref (.collection q)) input rest k ∧ essence t = essence k :=
  kept_of_yields (by simp [ofMode])
    (fun _ hk => (collection_yields (objectsReplay (.inl rfl) input.length) le_rfl hk).1) h

end Modes

end RdfParser.Turtle
