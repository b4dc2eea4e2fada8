/-
  Turtle/NamePositions.lean --- a prefixed name as a subject, a verb, an object and a
  member of a collection.

  `term` tries the literals before the IRIs, and nothing has to follow a Boolean literal.
  So an object whose prefix begins with `true` or `false` ends inside of the prefix.
-/
import RdfParser.Turtle.Keywords
import RdfParser.Turtle.PrefixedNames

set_option autoImplicit false

namespace RdfParser.Turtle

open RdfParser.Foundation RdfParser.Rdf RdfParser.Peg RdfParser.Peg.Rule

variable {q : Bool}

/-! ## Positions -/

/-- Where a name can stand. -/
inductive Position where
  | subject | predicate | object | member
  deriving DecidableEq, Repr

/-- The rule whose action records what stands there. -/
def Position.name (q : Bool) : Position → RuleName
  | .subject => .subject q
  | .predicate => .verb q
  | .object | .member => .object q

/-- The expression that reads what stands there; that of a member is what `collection`
repeats. -/
def Position.rule (q : Bool) : Position → Rule RuleName
  | .member => .seq (.ref .ignored) (.ref (.object q))
  | position => .ref (position.name q)

/-- The element is recorded for the triples to come. -/
def Position.Records (position : Position) (s s' : State q) (e : Element q) : Prop :=
  match position with
  | .subject => s'.subject = e
  | .predicate => s'.verbStack = e :: s.verbStack
  | .object | .member => s'.bnplCollectionList = s.bnplCollectionList ++ [e]

/-- The grammar reads the text up to `rest`, and its actions record the element. -/
def Reads (position : Position) (s : State q) (input rest : Bytes) (e : Element q) : Prop :=
  ∃ trace s', Run turtle (position.rule q) input (.ok rest) trace ∧
    runActions trace s = (s', none) ∧ position.Records s s' e

/-- In every position the name is read as the same IRI. -/
def SameMeaning (q : Bool) (prefixMap : PrefixMap) (name rest : Bytes) : Prop :=
  ∃ uri, ∀ s : State q, s.prefixMap = prefixMap →
    let e := Element.ofTerm q (uriRef uri)
    Reads .subject s (name ++ rest) rest e ∧ Reads .predicate s (name ++ rest) rest e ∧
      Reads .object s (name ++ rest) rest e ∧
      ∀ gap, IsLayout gap → Reads .member s (gap ++ (name ++ rest)) rest e

/-! ## Numbers begin unlike names -/

/-- The first byte of a number. -/
def numberStarts : List Char := ['+', '-', '.', '0', '1', '2', '3', '4', '5', '6', '7', '8', '9']

/-- The text begins like a number. -/
def BeginsNumber (text : Bytes) : Prop := ∃ c ∈ numberStarts, ∃ more, text = char c :: more

theorem BeginsNumber.append {left : Bytes} (h : BeginsNumber left) (right : Bytes) :
    BeginsNumber (left ++ right) := by
  obtain ⟨c, hc, more, rfl⟩ := h
  exact ⟨c, hc, more ++ right, rfl⟩

theorem beginsNumber_of_isDigit {b : UInt8} (hb : isDigit b = true) : BeginsNumber [b] := by
  have hrange : 48 ≤ b.toNat ∧ b.toNat ≤ 57 := by
    simp only [isDigit, inRange, Bool.and_eq_true, decide_eq_true_eq,
      UInt8.le_iff_toNat_le] at hb
    exact hb
  obtain ⟨n, hn⟩ : ∃ n, n = b.toNat := ⟨_, rfl⟩
  obtain rfl : b = UInt8.ofNat n := by rw [hn, UInt8.ofNat_toNat]
  have hcases : n = 48 ∨ n = 49 ∨ n = 50 ∨ n = 51 ∨ n = 52 ∨ n = 53 ∨ n = 54 ∨ n = 55 ∨ n = 56 ∨
      n = 57 := by omega
  clear hn hb hrange
  rcases hcases with rfl | rfl | rfl | rfl | rfl | rfl | rfl | rfl | rfl | rfl
  exacts [⟨'0', by decide, [], rfl⟩, ⟨'1', by decide, [], rfl⟩, ⟨'2', by decide, [], rfl⟩,
    ⟨'3', by decide, [], rfl⟩, ⟨'4', by decide, [], rfl⟩, ⟨'5', by decide, [], rfl⟩,
    ⟨'6', by decide, [], rfl⟩, ⟨'7', by decide, [], rfl⟩, ⟨'8', by decide, [], rfl⟩,
    ⟨'9', by decide, [], rfl⟩]

theorem spans_digits : Spans turtle (plus digit) BeginsNumber :=
  .seq (fun _ _ h _ => h.append _) (.byte fun _ => beginsNumber_of_isDigit) (.any _)

theorem spans_mark {c : Char} (hc : c ∈ numberStarts) : Spans turtle (ch c) BeginsNumber := by
  refine .byte fun b hb => ?_
  rw [beq_iff_eq.mp hb]
  exact ⟨c, hc, [], rfl⟩

/-- A text that begins like a number if it is not empty. -/
theorem beginsNumber_append {left right : Bytes} (hleft : left = [] ∨ BeginsNumber left)
    (hright : BeginsNumber right) : BeginsNumber (left ++ right) := by
  rcases hleft with rfl | hleft
  · exact hright
  · exact hleft.append right

theorem spans_sign : Spans turtle sign fun text => text = [] ∨ BeginsNumber text := by
  refine .sor (.sor ?_ ?_) (.success (.inl rfl))
  · exact (spans_mark (c := '+') (by decide)).mono fun _ => .inr
  · exact (spans_mark (c := '-') (by decide)).mono fun _ => .inr

theorem spans_number : Spans turtle (.ref .numericLiteral) BeginsNumber := by
  have happend : ∀ left right, BeginsNumber left → True → BeginsNumber (left ++ right) :=
    fun _ right h _ => h.append right
  have hmaybe : ∀ left right, left = [] ∨ BeginsNumber left → BeginsNumber right →
      BeginsNumber (left ++ right) := fun _ _ => beginsNumber_append
  have hdot := spans_mark (c := '.') (by decide)
  refine .ref (.sor (.ref (.seq hmaybe spans_sign ?_)) (.sor (.ref ?_) (.ref ?_)))
  · -- `DOUBLE`
    refine .sor (.seq happend spans_digits (.any _)) (.sor ?_ ?_)
    · exact .seq happend hdot (.any _)
    · exact .seq happend spans_digits (.any _)
  · -- `DECIMAL`
    refine .seq hmaybe spans_sign (.seq hmaybe ?_ (.seq happend hdot (.any _)))
    refine .star (.inl rfl) ?_ (.byte fun b hb => .inr (beginsNumber_of_isDigit hb))
    rintro left right (rfl | hleft) hright
    · exact hright
    · exact .inr (hleft.append right)
  · -- `INTEGER`
    exact .seq hmaybe spans_sign spans_digits

/-! ## Literals in front of a name -/

variable {name rest after : Bytes} {t t' : Trace RuleName}

theorem number_not_name (h : Run turtle (.ref .numericLiteral) name (.ok after) t) :
    ¬ Run turtle (.ref .prefixedName) name (.ok rest) t' := by
  obtain ⟨_, rfl, c, hc, more, rfl⟩ := spans_number _ _ _ h
  simp only [numberStarts, List.mem_cons, List.not_mem_nil, or_false] at hc
  refine Run.not_matches (n := 8) ?_ ?_
  all_goals
    rcases hc with rfl | rfl | rfl | rfl | rfl | rfl | rfl | rfl | rfl | rfl | rfl | rfl | rfl <;>
      decide

/-- A literal that is matched where a name is matched is a Boolean one. -/
theorem literal_of_name (hname : Run turtle (.ref .prefixedName) name (.ok rest) t)
    (h : Run turtle (.ref .literal) name (.ok after) t') :
    name = bytes "true" ++ after ∨ name = bytes "false" ++ after := by
  obtain ⟨_, hbody, -⟩ := h.ref_ok
  rcases hbody.sor_ok with hstring | ⟨_, _, -, hbody, -⟩
  · obtain ⟨_, hparts, -⟩ := hstring.ref_ok
    obtain ⟨_, _, _, hstring, -, -⟩ := hparts.seq_ok
    obtain ⟨b, more, hb, rfl⟩ := turtleString_begins hstring
    refine absurd hname (Run.not_matches (n := 8) ?_ ?_)
    all_goals rcases hb with rfl | rfl <;> decide
  rcases hbody.sor_ok with hnumber | ⟨_, _, -, hboolean, -⟩
  · exact absurd hname (number_not_name hnumber)
  · obtain ⟨_, hwords, -⟩ := hboolean.ref_ok
    rcases hwords.sor_ok with htrue | ⟨_, _, -, hfalse, -⟩
    · exact .inl (Run.string_iff.mp htrue).1
    · exact .inr (Run.string_iff.mp hfalse).1

/-! ## A name in every position -/

/-- A Boolean literal begins here. -/
def BeginsBoolean (text : Bytes) : Prop := bytes "true" <+: text ∨ bytes "false" <+: text

instance (text : Bytes) : Decidable (BeginsBoolean text) := inferInstanceAs (Decidable (_ ∨ _))

/-- The action of a name whose prefix is bound. -/
theorem apply_name {s : State q} {name iri : Bytes} (hname : Solid name)
    (hbound : s.prefixMap.find (beforeColon name) = some iri) :
    ∃ basic : BasicState q, basic.element = Element.ofTerm q (uriRef (iri ++ afterColon name)) ∧
      apply .prefixedName name s = .ok { s with toBasicState := basic } := by
  have hword : extractWord name = (name, []) := extractWord_word hname
  refine ⟨{ s.setTerm (uriRef (iri ++ afterColon name)) with iriIsIriref := false }, rfl, ?_⟩
  unfold apply State.lift Action.prefixedName BasicState.getPrefixValue
  simp only [hword, hbound]
  rfl

/-- `PrefixedName` matches the name in front of this rest. -/
def ReadsName (name rest : Bytes) : Prop :=
  ∃ t, Run turtle (.ref .prefixedName) (name ++ rest) (.ok rest) t

namespace ReadsName

theorem prefixedName_yields (h : ReadsName name rest) :
    Yields (.ref .prefixedName) (name ++ rest) (.ok rest) [(.prefixedName, name)] := by
  obtain ⟨t, hname⟩ := h
  obtain ⟨text, hinput, -, hactions⟩ := token_essence (by decide) hname
  obtain rfl : name = text := List.append_cancel_right hinput
  exact ⟨t, hname, hactions⟩

theorem iriref_fails (h : ReadsName name rest) : Yields (.ref .iriref) (name ++ rest) .fail [] := by
  obtain ⟨_, hname⟩ := h
  refine unmatched_fails rfl fun after t' hiriref => ?_
  obtain ⟨iri, hinput⟩ := iriref_sound hiriref
  rw [hinput] at hname
  exact absurd hname (Run.not_matches (b := char '<') (n := 8) (by decide) (by decide))

theorem blankNode_fails (h : ReadsName name rest) :
    Yields (.ref .blankNode) (name ++ rest) .fail [] := by
  obtain ⟨_, hname⟩ := h
  refine unmatched_fails rfl fun after t' hblank => ?_
  obtain ⟨b, more, hb, hinput⟩ := blankNode_begins hblank
  rw [hinput] at hname
  refine absurd hname (Run.not_matches (n := 8) ?_ ?_)
  all_goals rcases hb with rfl | rfl <;> decide

theorem iri_yields (h : ReadsName name rest) :
    Yields (.ref .iri) (name ++ rest) (.ok rest) [(.prefixedName, name)] :=
  .ref rfl (h.iriref_fails.skip h.prefixedName_yields)

/-- A name is not a variable. -/
theorem var_fails (h : ReadsName name rest) : Yields (.ref .var) (name ++ rest) .fail [] := by
  obtain ⟨_, hname⟩ := h
  exact Turtle.var_fails (by decide) (by decide) hname

theorem verb_yields (h : ReadsName name rest) : Yields (.ref (.verb q)) (name ++ rest) (.ok rest)
    [(.prefixedName, name), (.verb q, [])] := by
  have hpredicate : Yields (.ref .predicate) (name ++ rest) (.ok rest) [(.prefixedName, name)] :=
    .ref rfl (h.iriref_fails.skip h.prefixedName_yields)
  have hbody : Yields (turtle (.verb q)) (name ++ rest) (.ok rest) [(.prefixedName, name)] := by
    cases q with
    | false => exact hpredicate.choose
    | true => exact (h.var_fails.skip hpredicate).choose
  exact hbody.ref_ok

/-- Inside of the name there is no literal, or it is a Boolean one. -/
theorem literal_fails (h : ReadsName name rest) (hcolon : char ':' ∈ name)
    (hboolean : ¬ BeginsBoolean name) :
    Yields (.ref .literal) (name ++ rest) .fail [] := by
  obtain ⟨_, hname⟩ := h
  refine unmatched_fails rfl fun after t' hliteral => hboolean ?_
  have hbegins : ∀ word : Bytes, char ':' ∉ word → name ++ rest = word ++ after →
      word <+: name := by
    intro word hword hsplit
    rcases List.append_eq_append_iff.mp hsplit with ⟨more, rfl, -⟩ | ⟨more, rfl, -⟩
    · exact absurd (List.mem_append_left more hcolon) hword
    · exact List.prefix_append word more
  rcases literal_of_name hname hliteral with hsplit | hsplit
  · exact .inl (hbegins _ (by decide) hsplit)
  · exact .inr (hbegins _ (by decide) hsplit)

theorem term_yields (h : ReadsName name rest) (hcolon : char ':' ∈ name)
    (hboolean : ¬ BeginsBoolean name) :
    Yields (.ref .term) (name ++ rest) (.ok rest) [(.prefixedName, name)] :=
  .ref rfl ((h.literal_fails hcolon hboolean).skip
    (h.blankNode_fails.skip h.iri_yields))

theorem object_yields (h : ReadsName name rest) (hcolon : char ':' ∈ name)
    (hboolean : ¬ BeginsBoolean name) :
    Yields (.ref (.object q)) (name ++ rest) (.ok rest)
      [(.prefixedName, name), (.object q, [])] := by
  have hterm := h.term_yields hcolon hboolean
  have hbody : Yields (turtle (.object q)) (name ++ rest) (.ok rest) [(.prefixedName, name)] := by
    cases q with
    | false => exact hterm.choose
    | true =>
        have hleaf : Yields (.ref .varOrTerm) (name ++ rest) (.ok rest) [(.prefixedName, name)] :=
          .ref rfl (h.var_fails.skip hterm)
        exact hleaf.choose
  exact hbody.ref_ok

theorem subject_yields (h : ReadsName name rest) (hcolon : char ':' ∈ name)
    (hboolean : ¬ BeginsBoolean name) :
    Yields (.ref (.subject q)) (name ++ rest) (.ok rest)
      [(.prefixedName, name), (.subject q, [])] := by
  have hbody : Yields (turtle (.subject q)) (name ++ rest) (.ok rest) [(.prefixedName, name)] := by
    cases q with
    | false => exact h.iri_yields.choose
    | true =>
        exact h.var_fails.skip (h.term_yields hcolon hboolean)
  exact hbody.ref_ok

end ReadsName

/-! ## What is recorded -/

theorem processVerb_verbStack (s : State q) :
    s.processVerb.verbStack = s.element :: s.verbStack := by
  unfold State.processVerb
  simp only
  split <;> rfl

/-- The action of a position, once the element is there. -/
theorem Position.records (position : Position) {basic : BasicState q} {e : Element q}
    (he : basic.element = e) (s : State q) :
    ∃ s', apply (position.name q) [] { s with toBasicState := basic } = .ok s' ∧
      position.Records s s' e := by
  subst he
  cases position with
  | subject => exact ⟨_, rfl, rfl⟩
  | predicate => exact ⟨_, rfl, processVerb_verbStack _⟩
  | object => exact ⟨_, rfl, rfl⟩
  | member => exact ⟨_, rfl, rfl⟩

/-- A name and the action of its position. -/
theorem reads_of_yields {position : Position} {input rest name iri : Bytes} {s : State q}
    (h : Yields (position.rule q) input (.ok rest)
      [(.prefixedName, name), (position.name q, [])]) (hname : Solid name)
    (hbound : s.prefixMap.find (beforeColon name) = some iri) :
    Reads position s input rest (Element.ofTerm q (uriRef (iri ++ afterColon name))) := by
  obtain ⟨trace, hrun, hessence⟩ := h
  obtain ⟨basic, helement, happly⟩ := apply_name hname hbound
  obtain ⟨s', hown, hrecords⟩ := position.records helement s
  refine ⟨trace, s', hrun, ?_, hrecords⟩
  rw [runActions_eq_essence, hessence, runActions_cons_ok happly, runActions_cons_ok hown]
  rfl

/-- A name that does not begin like a Boolean literal. -/
theorem ReadsName.sameMeaning {prefixMap : PrefixMap} {iri : Bytes} (h : ReadsName name rest)
    (hbound : prefixMap.find (beforeColon name) = some iri)
    (hboolean : ¬ BeginsBoolean name) : SameMeaning q prefixMap name rest := by
  obtain ⟨t, hname⟩ := h
  have hmatches : Matches turtle .prefixedName name := ⟨rest, t, hname⟩
  have hsolid := solid_of_matches hmatches rfl
  have hcolon := colon_mem_of_matches hmatches
  have h : ReadsName name rest := ⟨t, hname⟩
  refine ⟨iri ++ afterColon name, fun s hs => ?_⟩
  subst hs
  refine ⟨reads_of_yields (h.subject_yields hcolon hboolean) hsolid hbound,
    reads_of_yields h.verb_yields hsolid hbound,
    reads_of_yields (h.object_yields hcolon hboolean) hsolid hbound, ?_⟩
  intro gap hgap
  have hstarts : StartsToken (name ++ rest) := by
    by_contra hstops
    obtain ⟨b, tail, hsplit, hb⟩ := Directive.unstarted_stops hstops
    have hrefused : ∀ b ∈ nameStops, b.toNat < 128 ∧
        refusesWithin turtle b 8 .prefixedName = true := by
      decide +kernel
    rw [hsplit] at hname
    exact Run.not_matches (hrefused b hb).1 (hrefused b hb).2 hname
  obtain ⟨_, hignored⟩ := ignored_complete hgap hstarts
  obtain ⟨k, hk⟩ := hignored.keeps rfl
  have hmember : Yields (Position.member.rule q) (gap ++ (name ++ rest)) (.ok rest)
      [(.prefixedName, name), (Position.member.name q, [])] :=
    (layout_yields hk).2.seq (h.object_yields hcolon hboolean)
  exact reads_of_yields hmember hsolid hbound

/-! ## A Boolean literal in its place -/

theorem booleanLiteral_matches {text : Bytes} (h : BeginsBoolean text) :
    ∃ b more word after t, (b = char 't' ∨ b = char 'f') ∧ char ':' ∉ word ∧ text = b :: more ∧
      text = word ++ after ∧ Run turtle (.ref .booleanLiteral) text (.ok after) t := by
  rcases h with ⟨after, rfl⟩ | ⟨after, rfl⟩
  · have hword : Run turtle (string (bytes "true")) (bytes "true" ++ after) (.ok after) [] :=
      Run.string_iff.mpr ⟨rfl, rfl⟩
    exact ⟨char 't', _, bytes "true", after, _, .inl rfl, by decide, rfl, rfl,
      .ref (.sorStop hword (by simp))⟩
  · have hword : Run turtle (string (bytes "false")) (bytes "false" ++ after) (.ok after) [] :=
      Run.string_iff.mpr ⟨rfl, rfl⟩
    have hother : Run turtle (string (bytes "true")) (bytes "false" ++ after) .fail [] := by
      refine .seqStop (.byteFail ?_) (by simp)
      intro b hb
      obtain rfl := Option.mem_some_iff.mp hb
      rfl
    exact ⟨char 'f', _, bytes "false", after, _, .inr rfl, by decide, rfl, rfl,
      .ref (.sorNext hother hword)⟩

/-- Where a Boolean literal begins, the term is that literal. -/
theorem boolean_term {text : Bytes} (h : BeginsBoolean text) :
    ∃ word after, char ':' ∉ word ∧ text = word ++ after ∧
      Yields (.ref .term) text (.ok after) [(.booleanLiteral, word)] ∧
      Yields (.ref .var) text .fail [] := by
  obtain ⟨b, more, word, after, t, hb, hcolon, rfl, hsplit, hrun⟩ := booleanLiteral_matches h
  have hrefused : ∀ name : RuleName, retracting name = true →
      refusesWithin turtle (char 't') 8 name = true →
      refusesWithin turtle (char 'f') 8 name = true → Yields (.ref name) (b :: more) .fail [] := by
    intro name hretracts ht hf
    rcases hb with rfl | rfl
    · exact refused_fails (by decide) name ht hretracts more
    · exact refused_fails (by decide) name hf hretracts more
  obtain ⟨word', hsplit', -, hactions⟩ := token_essence (by decide) hrun
  obtain rfl : word = word' := List.append_cancel_right (hsplit.symm.trans hsplit')
  have hliteral : Yields (.ref .literal) (b :: more) (.ok after) [(.booleanLiteral, word)] :=
    .ref rfl ((hrefused .rdfLiteral rfl (by decide) (by decide)).skip
      ((hrefused .numericLiteral rfl (by decide) (by decide)).skip ⟨t, hrun, hactions⟩))
  exact ⟨word, after, hcolon, hsplit, .ref rfl hliteral.choose,
    hrefused .var rfl (by decide) (by decide)⟩

/-- So is the object. -/
theorem boolean_object {text : Bytes} (h : BeginsBoolean text) :
    ∃ word after actions, char ':' ∉ word ∧ text = word ++ after ∧
      Yields (.ref (.object q)) text (.ok after) actions := by
  obtain ⟨word, after, hcolon, hsplit, hterm, hvar⟩ := boolean_term h
  have hbody : ∃ actions, Yields (turtle (.object q)) text (.ok after) actions := by
    cases q with
    | false => exact ⟨_, hterm.choose⟩
    | true =>
        have hleaf : Yields (.ref .varOrTerm) text (.ok after) _ := .ref rfl (hvar.skip hterm)
        exact ⟨_, hleaf.choose⟩
  obtain ⟨actions, hbody⟩ := hbody
  exact ⟨word, after, _, hcolon, hsplit, hbody.ref_ok⟩

/-- Such a name is no object. -/
theorem not_object (name : Bytes) {rest : Bytes} (hcolon : char ':' ∈ name)
    (hboolean : BeginsBoolean name) (s : State q) (e : Element q) :
    ¬ Reads .object s (name ++ rest) rest e := by
  rintro ⟨trace, s', hrun, -, -⟩
  have hbegins : BeginsBoolean (name ++ rest) :=
    hboolean.imp (·.trans (List.prefix_append name rest)) (·.trans (List.prefix_append name rest))
  obtain ⟨word, after, actions, hword, hsplit, t, hobject, -⟩ := boolean_object (q := q) hbegins
  obtain ⟨hsame, -⟩ := hrun.deterministic hobject
  obtain rfl := Outcome.ok.inj hsame
  rw [List.append_cancel_right hsplit] at hcolon
  exact hword hcolon

/-- A name does not begin like an `IRIREF` or a variable. -/
theorem name_begins {name : Bytes} (h : Matches turtle .prefixedName name) {c : Char}
    (hc : c = '<' ∨ c = '?' ∨ c = '$') (rest more : Bytes) : name ++ rest ≠ char c :: more := by
  intro hsplit
  cases name with
  | nil => exact absurd (colon_mem_of_matches h) (by simp)
  | cons b name =>
      obtain ⟨rfl, -⟩ := List.cons.inj hsplit
      obtain ⟨_, _, hrun⟩ := h
      refine Run.not_matches (n := 8) ?_ ?_ hrun
      all_goals rcases hc with rfl | rfl | rfl <;> decide

/-- A verb that is a prefixed name is matched by `PrefixedName`. -/
theorem readsName_of_verb {name rest : Bytes} {t : Trace RuleName}
    (hname : Matches turtle .prefixedName name)
    (h : Run turtle (.ref (.verb q)) (name ++ rest) (.ok rest) t) : ReadsName name rest := by
  have hpredicate : ∀ t, Run turtle (.ref .predicate) (name ++ rest) (.ok rest) t →
      ReadsName name rest := by
    intro t hrun
    obtain ⟨_, hbody, -⟩ := hrun.ref_ok
    rcases hbody.sor_ok with hiriref | ⟨_, _, -, hread, -⟩
    · obtain ⟨iri, hsplit⟩ := iriref_sound hiriref
      exact absurd hsplit (name_begins hname (.inl rfl) rest _)
    · exact ⟨_, hread⟩
  have hvar : ∀ t, ¬ Run turtle (.ref .var) (name ++ rest) (.ok rest) t := by
    intro t hrun
    obtain ⟨_, hbody, -⟩ := hrun.ref_ok
    rcases hbody.sor_ok with hvar | ⟨_, _, -, hvar, -⟩
    · obtain ⟨_, hmark, -⟩ := hvar.ref_ok
      obtain ⟨more, hsplit⟩ := ch_begins hmark
      exact name_begins hname (.inr (.inl rfl)) rest more hsplit
    · obtain ⟨_, hmark, -⟩ := hvar.ref_ok
      obtain ⟨more, hsplit⟩ := ch_begins hmark
      exact name_begins hname (.inr (.inr rfl)) rest more hsplit
  obtain ⟨_, hbody, -⟩ := h.ref_ok
  rcases hbody.sor_ok with hfirst | ⟨_, _, -, hverbA, -⟩
  · cases q with
    | false => exact hpredicate _ hfirst
    | true =>
        rcases hfirst.sor_ok with hrun | ⟨_, _, -, hrun, -⟩
        · exact absurd hrun (hvar _)
        · exact hpredicate _ hrun
  · obtain ⟨_, hletter, -⟩ := hverbA.ref_ok
    obtain ⟨b, hb, hsplit, -⟩ := hletter.byte_ok
    have hcolon := colon_mem_of_matches hname
    rw [List.append_cancel_right (hsplit.trans (List.singleton_append).symm), beq_iff_eq.mp hb]
      at hcolon
    exact absurd hcolon (by decide)

theorem beforeColon_append {p : Bytes} (hp : char ':' ∉ p) (l : Bytes) :
    beforeColon (p ++ char ':' :: l) = p := by
  have hall : ∀ b ∈ p, (b != char ':') = true := by
    intro b hb
    have hne : b ≠ char ':' := by
      rintro rfl
      exact hp hb
    simpa using hne
  unfold beforeColon
  rw [List.takeWhile_append_of_pos hall, List.takeWhile_cons_of_neg (by simp), List.append_nil]

theorem beginsBoolean_append {p : Bytes} (l : Bytes) :
    BeginsBoolean (p ++ char ':' :: l) ↔ BeginsBoolean p := by
  have hword : ∀ word : Bytes, char ':' ∉ word → (word <+: p ++ char ':' :: l ↔ word <+: p) := by
    intro word hword
    constructor
    · rintro ⟨after, hsplit⟩
      rcases List.append_eq_append_iff.mp hsplit with ⟨more, rfl, -⟩ | ⟨more, rfl, hmore⟩
      · exact List.prefix_append word more
      · cases more with
        | nil => exact ⟨[], by simp⟩
        | cons b more =>
            obtain ⟨rfl, -⟩ := List.cons.inj hmore
            exact absurd (by simp) hword
    · exact fun h => h.trans (List.prefix_append p _)
  unfold BeginsBoolean
  rw [hword _ (by decide), hword _ (by decide)]

/-- A prefixed name that is accepted as a predicate means the same in every position
exactly if its prefix does not begin with `true` or `false`. -/
theorem sameMeaning_iff {prefixMap : PrefixMap} {p l iri rest : Bytes} (hp : char ':' ∉ p)
    (hbound : prefixMap.find p = some iri)
    (hname : Matches turtle .prefixedName (p ++ char ':' :: l))
    (hpredicate : ∃ t, Run turtle (.ref (.verb q)) (p ++ char ':' :: l ++ rest) (.ok rest) t) :
    SameMeaning q prefixMap (p ++ char ':' :: l) rest ↔ ¬ BeginsBoolean p := by
  obtain ⟨_, hverb⟩ := hpredicate
  rw [← beginsBoolean_append l]
  constructor
  · intro ⟨uri, hsame⟩ hboolean
    have hobject := (hsame (initialState q prefixMap) rfl).2.2.1
    exact not_object _ (colon_mem_of_matches hname) hboolean _ _ hobject
  · intro hboolean
    have hbefore : prefixMap.find (beforeColon (p ++ char ':' :: l)) = some iri := by
      rw [beforeColon_append hp]
      exact hbound
    exact (readsName_of_verb hname hverb).sameMeaning hbefore hboolean

theorem plainName_sameMeaning : SameMeaning false boundPrefix plainName (bytes " .") := by
  have hmatches : Matches turtle .prefixedName plainName := ⟨[], _, exec_sound 30 rfl⟩
  have hverb : ∃ t, Run turtle (.ref (.verb false)) (plainName ++ bytes " .")
      (.ok (bytes " .")) t := ⟨_, exec_sound 30 rfl⟩
  exact (sameMeaning_iff (p := bytes "p") (l := bytes "a.b:%41") (by decide) rfl hmatches
    hverb).mpr (by decide)

/-- `true:x` -/
def booleanName : Bytes := bytes "true" ++ char ':' :: bytes "x"

/-- `true:x` is a subject and a predicate, but as an object the Boolean literal is read. -/
theorem booleanName_not_sameMeaning : ¬ ∀ (prefixMap : PrefixMap) (p l iri layout after : Bytes),
    char ':' ∉ p → prefixMap.find p = some iri →
    Matches turtle .prefixedName (p ++ char ':' :: l) → IsLayout layout → layout ≠ [] →
    (∃ t, Run turtle (.ref (.subject false)) (p ++ char ':' :: l ++ (layout ++ after))
      (.ok (layout ++ after)) t) →
    (∃ t, Run turtle (.ref (.verb false)) (p ++ char ':' :: l ++ (layout ++ after))
      (.ok (layout ++ after)) t) →
    SameMeaning false prefixMap (p ++ char ':' :: l) (layout ++ after) := by
  intro hclaim
  have hmatches : Matches turtle .prefixedName booleanName := ⟨[], _, exec_sound 30 rfl⟩
  obtain ⟨uri, hsame⟩ := hclaim [(bytes "true", bytes "i")] (bytes "true") (bytes "x") (bytes "i")
    (bytes " ") (bytes ".") (by decide) rfl hmatches (.space (by decide) .nil) (by decide)
    ⟨_, exec_sound 30 rfl⟩ ⟨_, exec_sound 30 rfl⟩
  have hobject := (hsame (initialState false _) rfl).2.2.1
  exact not_object booleanName (by decide) (by decide) _ _ hobject

end RdfParser.Turtle
