/-
  Turtle/Quoting.lean --- the four ways to quote a string.

  `action<turtleString>` cuts off one character at each end, which is the delimiter of
  the short forms.  The long forms have three.
-/
import RdfParser.Turtle.Keywords
import RdfParser.Turtle.Printing

set_option autoImplicit false

namespace RdfParser.Turtle

open RdfParser.Foundation RdfParser.Rdf RdfParser.Peg RdfParser.Peg.Rule

variable {q : Bool}

/-! ## Forms -/

/-- The alternatives of `turtleString`. -/
inductive QuoteForm where
  | longQuote | longSingleQuote | singleQuote | quote
  deriving DecidableEq, Repr

namespace QuoteForm

def rule : QuoteForm → RuleName
  | .longQuote => .stringLiteralLongQuote
  | .longSingleQuote => .stringLiteralLongSingleQuote
  | .singleQuote => .stringLiteralSingleQuote
  | .quote => .stringLiteralQuote

/-- The quotation mark. -/
def mark : QuoteForm → Char
  | .longQuote | .quote => '"'
  | .longSingleQuote | .singleQuote => '\''

def isLong : QuoteForm → Bool
  | .longQuote | .longSingleQuote => true
  | .singleQuote | .quote => false

/-- What stands at each end of the token. -/
def delimiter (form : QuoteForm) : Bytes :=
  List.replicate (if form.isLong then 3 else 1) (char form.mark)

/-- The token of a body. -/
def token (form : QuoteForm) (body : Bytes) : Bytes := form.delimiter ++ (body ++ form.delimiter)

end QuoteForm

/-- The string that is read here is this body in this form. -/
structure WrittenAs (form : QuoteForm) (body input rest : Bytes) : Prop where
  token : input = form.token body ++ rest
  form : ∃ trace, Run turtle (.ref form.rule) input (.ok rest) trace
  string : ∃ trace, Run turtle (.ref .turtleString) input (.ok rest) trace

theorem longString_token {form : QuoteForm} (hlong : form.isLong = true) {input rest : Bytes}
    {trace : Trace RuleName} (h : Run turtle (.ref form.rule) input (.ok rest) trace) :
    ∃ body, input = form.token body ++ rest := by
  have hdelimited : ∀ c : Char, ∀ trace, Run turtle (seqOf [ch c, ch c, ch c, longStringBody c,
      ch c, ch c, ch c]) input (.ok rest) trace →
      ∃ body, input = [char c, char c, char c] ++ (body ++ [char c, char c, char c]) ++ rest := by
    intro c trace hrun
    have hparts : Run turtle (seqOf ([ch c, ch c, ch c] ++ ([longStringBody c] ++
        [ch c, ch c, ch c]))) input (.ok rest) trace := hrun
    obtain ⟨after, _, _, hopen, hmore, -⟩ := Run.seqOf_append_iff.mp hparts
    obtain ⟨middle, _, _, hbody, hclose, -⟩ := Run.seqOf_append_iff.mp hmore
    obtain ⟨body, rfl⟩ := hbody.suffix
    have hword : ∀ {input rest : Bytes} {trace : Trace RuleName},
        Run turtle (seqOf [ch c, ch c, ch c]) input (.ok rest) trace →
        input = [char c, char c, char c] ++ rest := fun hrun => (Run.string_iff.mp hrun).1
    refine ⟨body, ?_⟩
    rw [hword hopen, hword hclose]
    simp
  obtain ⟨_, hbody, -⟩ := h.ref_ok
  cases form with
  | longQuote => exact hdelimited '"' _ hbody
  | longSingleQuote => exact hdelimited '\'' _ hbody
  | singleQuote | quote => cases hlong

theorem shortString_token {form : QuoteForm} (hshort : form.isLong = false) {input rest : Bytes}
    {trace : Trace RuleName} (h : Run turtle (.ref form.rule) input (.ok rest) trace) :
    ∃ body, input = form.token body ++ rest := by
  have hdelimited : ∀ c : Char, ∀ trace, Run turtle (seqOf [ch c, shortStringBody c, ch c])
      input (.ok rest) trace → ∃ body, input = [char c] ++ (body ++ [char c]) ++ rest := by
    intro c trace hrun
    obtain ⟨body, rfl⟩ := Run.delimited [shortStringBody c] hrun
    exact ⟨body, by simp⟩
  obtain ⟨_, hbody, -⟩ := h.ref_ok
  cases form with
  | longQuote | longSingleQuote => cases hshort
  | singleQuote => exact hdelimited '\'' _ hbody
  | quote => exact hdelimited '"' _ hbody

/-- Every string is written in one of the forms. -/
theorem turtleString_written {input rest : Bytes} {trace : Trace RuleName}
    (h : Run turtle (.ref .turtleString) input (.ok rest) trace) :
    ∃ form body, WrittenAs form body input rest := by
  have hform : ∃ (form : QuoteForm) (t : Trace RuleName),
      Run turtle (.ref form.rule) input (.ok rest) t := by
    obtain ⟨_, hbody, -⟩ := h.ref_ok
    rcases hbody.sor_ok with hrun | ⟨_, _, -, hmore, -⟩
    · exact ⟨.longQuote, _, hrun⟩
    rcases hmore.sor_ok with hrun | ⟨_, _, -, hmore, -⟩
    · exact ⟨.longSingleQuote, _, hrun⟩
    rcases hmore.sor_ok with hrun | ⟨_, _, -, hrun, -⟩
    · exact ⟨.singleQuote, _, hrun⟩
    · exact ⟨.quote, _, hrun⟩
  obtain ⟨form, t, hrun⟩ := hform
  cases hlong : form.isLong with
  | true =>
      obtain ⟨body, hinput⟩ := longString_token hlong hrun
      exact ⟨form, body, hinput, ⟨t, hrun⟩, ⟨trace, h⟩⟩
  | false =>
      obtain ⟨body, hinput⟩ := shortString_token hlong hrun
      exact ⟨form, body, hinput, ⟨t, hrun⟩, ⟨trace, h⟩⟩

/-! ## Values -/

/-- What `action<turtleString>` keeps of a token. -/
def QuoteForm.kept (form : QuoteForm) (body : Bytes) : Bytes :=
  form.delimiter.tail ++ (body ++ form.delimiter.tail)

theorem QuoteForm.token_eq (form : QuoteForm) (body : Bytes) :
    form.token body = char form.mark :: (form.kept body ++ [char form.mark]) := by
  cases form <;> simp [token, kept, delimiter, isLong, List.replicate]

theorem QuoteForm.kept_eq_iff (form : QuoteForm) (body : Bytes) :
    form.kept body = body ↔ form.isLong = false := by
  constructor
  · intro hsame
    have hlength := congrArg List.length hsame
    cases form <;> simp [kept, delimiter, isLong] at hlength ⊢ <;> omega
  · intro hshort
    cases form <;> simp [isLong] at hshort <;> simp [kept, delimiter, isLong]

/-- The literal of a string and its suffix has the string as its value. -/
theorem Suffix.literal_value {suffix : Suffix} {prefixMap : PrefixMap} {base body : Bytes}
    {term : Term} (h : suffix.literal prefixMap base body = .ok term) :
    termValue term = body := by
  obtain ⟨lang, type, rfl⟩ := Suffix.literal_eq h
  exact Turtle.literal_value body lang type

theorem QuoteForm.token_body (form : QuoteForm) (body : Bytes) :
    substr (form.token body) 1 (sizeSub (sizeSub (form.token body).length 1) 1) =
      .ok (form.kept body) := by
  rw [token_eq, turtleString_body]

section Values

variable {form : QuoteForm} {body input after rest : Bytes} {trace : Trace RuleName}
  {s s' : State q}

/-- The actions of a literal that is written in a form. -/
theorem WrittenAs.actions (hwritten : WrittenAs form body input after)
    (h : Run turtle (.ref .rdfLiteral) input (.ok rest) trace) :
    ∃ suffix : Suffix, after = suffix.text ++ rest ∧
      essence trace = (Leaf.rdfLiteral (form.token body) suffix).actions := by
  obtain ⟨text, suffix, _, hinput, hstring, -, hessence⟩ := rdfLiteral_parts h
  obtain ⟨hinput', -, _, hstring'⟩ := hwritten
  obtain rfl := Outcome.ok.inj (hstring.deterministic hstring').1
  obtain rfl : form.token body = text := List.append_cancel_right (hinput'.symm.trans hinput)
  exact ⟨suffix, rfl, hessence⟩

/-- The value of an accepted literal is what its action keeps. -/
theorem WrittenAs.value (hwritten : WrittenAs form body input after)
    (h : Run turtle (.ref .rdfLiteral) input (.ok rest) trace) (hs : s.Settled)
    (hrun : runActions trace s = (s', none)) :
    ∃ term, s'.element = Element.ofTerm q term ∧ termValue term = form.kept body := by
  obtain ⟨suffix, -, hessence⟩ := hwritten.actions h
  rw [runActions_eq_essence, hessence] at hrun
  obtain ⟨e, helement, hreads⟩ := Leaf.runActions_inv hs (.inl rfl) hrun
  simp only [Leaf.element, QuoteForm.token_body] at helement
  cases hliteral : suffix.literal s.prefixMap s.base (form.kept body) with
  | error fault => simp [hliteral, Except.map] at helement
  | ok term =>
      simp only [hliteral, Except.map, Except.ok.injEq] at helement
      exact ⟨term, hreads.element.trans helement.symm, Suffix.literal_value hliteral⟩

end Values

/-! ## Plain strings -/

/-- No backslashes, quotation marks and line breaks. -/
def Plain (body : Bytes) : Prop :=
  ∀ b ∈ body, b ∉ [char '"', char '\'', char '\\', char '\r', char '\n']

instance (body : Bytes) : Decidable (Plain body) := inferInstanceAs (Decidable (∀ b ∈ body, _))

/-- No quotation mark comes next. -/
def Unquoted (input : Bytes) : Prop := ∀ b ∈ input.head?, b ≠ char '"' ∧ b ≠ char '\''

instance (input : Bytes) : Decidable (Unquoted input) :=
  inferInstanceAs (Decidable (∀ b ∈ input.head?, _))

theorem echar_refused {b : UInt8} (hb : b ≠ char '\\') (more : Bytes) :
    Yields (sorOf (.ref .echar) [.ref .uchar]) (b :: more) .fail [] := by
  have hechar : Yields (.ref .echar) (b :: more) .fail [] := .ref_fail (ch_fails hb more).stop
  have huchar : Yields (.ref .uchar) (b :: more) .fail [] :=
    .ref_fail ((ch_fails hb more).stop.skip (ch_fails hb more).stop)
  exact hechar.skip huchar

theorem shortStringBody_complete {c : Char} (hc : c = '"' ∨ c = '\'') {body : Bytes}
    (hbody : Plain body) (more : Bytes) :
    ∃ trace, Run turtle (shortStringBody c) (body ++ char c :: more) (.ok (char c :: more))
      trace := by
  refine Run.star_complete ?_ ?_ hbody
  · intro b more hb
    refine ⟨_, .sorStop (.byteOk ?_) (by simp)⟩
    rcases hc with rfl | rfl <;> simp at hb ⊢ <;> simp [hb]
  · have hslash : char c ≠ char '\\' := by rcases hc with rfl | rfl <;> decide
    obtain ⟨_, hescape, -⟩ := echar_refused hslash more
    refine ⟨_, .sorNext (.byteFail ?_) hescape⟩
    intro b hb
    obtain rfl := Option.mem_some_iff.mp hb
    rcases hc with rfl | rfl <;> decide

theorem longStringBody_complete {c : Char} (hc : c = '"' ∨ c = '\'') {body : Bytes}
    (hbody : Plain body) (more : Bytes) :
    ∃ trace, Run turtle (longStringBody c) (body ++ ([char c, char c, char c] ++ more))
      (.ok ([char c, char c, char c] ++ more)) trace := by
  refine Run.star_complete ?_ ?_ hbody
  · intro b more hb
    have hquote : b ≠ char c := by
      rcases hc with rfl | rfl <;> simp at hb ⊢ <;> simp [hb]
    obtain ⟨_, hnone, -⟩ := (ch_fails hquote more).stop.skip (ch_fails hquote more)
    refine ⟨_, .seqNext (.sorNext hnone .success) (.sorStop (.byteOk ?_) (by simp))⟩
    rcases hc with rfl | rfl <;> simp at hb ⊢ <;> simp [hb]
  · -- two quotation marks may belong to the body, the third may not follow them
    have hslash : char c ≠ char '\\' := by rcases hc with rfl | rfl <;> decide
    obtain ⟨_, hescape, -⟩ := echar_refused hslash more
    have hmark : ∀ more, Run turtle (ch c) (char c :: more) (.ok more) [] :=
      fun more => .byteOk (beq_self_eq_true _)
    refine ⟨_, .seqNext (.sorStop (.sorStop (.seqNext (hmark _) (hmark _)) (by simp)) (by simp))
      (.sorNext (.byteFail ?_) hescape)⟩
    intro b hb
    obtain rfl := Option.mem_some_iff.mp hb
    rcases hc with rfl | rfl <;> decide

/-- The rule of a form reads its tokens. -/
theorem QuoteForm.rule_complete (form : QuoteForm) {body : Bytes} (hbody : Plain body)
    (more : Bytes) :
    ∃ trace, Run turtle (.ref form.rule) (form.token body ++ more) (.ok more) trace := by
  have hmark : ∀ (c : Char) more, Run turtle (ch c) (char c :: more) (.ok more) [] :=
    fun c more => .byteOk (beq_self_eq_true _)
  have hlong : ∀ c, c = '"' ∨ c = '\'' → ∃ trace, Run turtle (seqOf [ch c, ch c, ch c,
      longStringBody c, ch c, ch c, ch c])
      ([char c, char c, char c] ++ (body ++ [char c, char c, char c]) ++ more) (.ok more)
      trace := by
    intro c hc
    obtain ⟨_, hinner⟩ := longStringBody_complete hc hbody more
    simp only [List.append_assoc]
    exact ⟨_, .seqNext (hmark c _) (.seqNext (hmark c _) (.seqNext (hmark c _)
      (.seqNext hinner (.seqNext (hmark c _) (.seqNext (hmark c _) (hmark c _))))))⟩
  have hshort : ∀ c, c = '"' ∨ c = '\'' → ∃ trace, Run turtle (seqOf [ch c,
      shortStringBody c, ch c]) ([char c] ++ (body ++ [char c]) ++ more) (.ok more) trace := by
    intro c hc
    obtain ⟨_, hinner⟩ := shortStringBody_complete hc hbody more
    simp only [List.append_assoc]
    exact ⟨_, .seqNext (hmark c _) (.seqNext hinner (hmark c _))⟩
  cases form with
  | longQuote =>
      obtain ⟨_, hrun⟩ := hlong '"' (.inl rfl)
      exact ⟨_, .ref hrun⟩
  | longSingleQuote =>
      obtain ⟨_, hrun⟩ := hlong '\'' (.inr rfl)
      exact ⟨_, .ref hrun⟩
  | singleQuote =>
      obtain ⟨_, hrun⟩ := hshort '\'' (.inr rfl)
      exact ⟨_, .ref hrun⟩
  | quote =>
      obtain ⟨_, hrun⟩ := hshort '"' (.inl rfl)
      exact ⟨_, .ref hrun⟩

/-- Three quotation marks are not to be found here. -/
theorem long_refused {c : Char} (hc : c = '"' ∨ c = '\'') {body more : Bytes}
    (hbody : Plain body) (hmore : Unquoted more) (rule : Rule RuleName) :
    Yields (.seq (ch c) (.seq (ch c) (.seq (ch c) rule)))
      ([char c] ++ (body ++ [char c]) ++ more) .fail [] := by
  have hmark : ∀ more, Yields (ch c) (char c :: more) (.ok more) [] :=
    fun more => ⟨[], .byteOk (beq_self_eq_true _), rfl⟩
  simp only [List.append_assoc]
  refine (hmark _).seq ?_
  cases body with
  | nil =>
      refine (hmark _).seq (Yields.stop (ch_refused ?_))
      intro b hb
      rcases hc with rfl | rfl
      · exact (hmore b hb).1
      · exact (hmore b hb).2
  | cons b body =>
      have hb := hbody b List.mem_cons_self
      have hne : b ≠ char c := by rcases hc with rfl | rfl <;> simp at hb ⊢ <;> simp [hb]
      exact (ch_fails hne _).stop

/-- A plain string is read in the form it is written in. -/
theorem written_complete (form : QuoteForm) {body more : Bytes} (hbody : Plain body)
    (hmore : Unquoted more) : WrittenAs form body (form.token body ++ more) more := by
  obtain ⟨trace, hrule⟩ := form.rule_complete hbody more
  refine ⟨rfl, ⟨trace, hrule⟩, ?_⟩
  have hsingle : ∀ name : RuleName, retracting name = true →
      refusesWithin turtle (char '\'') 8 name = true → ∀ more,
      Yields (.ref name) (char '\'' :: more) .fail [] :=
    fun name hretracts hrefuses more => refused_fails (by decide) name hrefuses hretracts more
  have hdouble : ∀ name : RuleName, retracting name = true →
      refusesWithin turtle (char '"') 8 name = true → ∀ more,
      Yields (.ref name) (char '"' :: more) .fail [] :=
    fun name hretracts hrefuses more => refused_fails (by decide) name hrefuses hretracts more
  have hyields : Yields (.ref form.rule) (form.token body ++ more) (.ok more) _ :=
    ⟨trace, hrule, rfl⟩
  have hstring : ∃ actions, Yields (turtle .turtleString) (form.token body ++ more) (.ok more)
      actions := by
    cases form with
    | longQuote => exact ⟨_, hyields.choose⟩
    | longSingleQuote =>
        exact ⟨_, (hsingle .stringLiteralLongQuote rfl (by decide) _).skip hyields.choose⟩
    | singleQuote =>
        have hlong : Yields (.ref .stringLiteralLongSingleQuote)
            (QuoteForm.token .singleQuote body ++ more) .fail [] :=
          .ref_fail (long_refused (.inr rfl) hbody hmore _)
        exact ⟨_, (hsingle .stringLiteralLongQuote rfl (by decide) _).skip
          (hlong.skip hyields.choose)⟩
    | quote =>
        have hlong : Yields (.ref .stringLiteralLongQuote)
            (QuoteForm.token .quote body ++ more) .fail [] :=
          .ref_fail (long_refused (.inl rfl) hbody hmore _)
        exact ⟨_, hlong.skip ((hdouble .stringLiteralLongSingleQuote rfl (by decide) _).skip
          ((hdouble .stringLiteralSingleQuote rfl (by decide) _).skip hyields))⟩
  obtain ⟨_, t, hrun, -⟩ := hstring
  exact ⟨_, .ref hrun⟩

/-! ## Agreement -/

/-- The actions of the literal that is read here leave this term. -/
def ReadsLiteral (s : State q) (input rest : Bytes) (term : Term) : Prop :=
  ∃ trace s', Run turtle (.ref .rdfLiteral) input (.ok rest) trace ∧
    runActions trace s = (s', none) ∧ s'.element = Element.ofTerm q term

/-- Written in any of these forms, the body is read as equal terms with the body as their
value. -/
def FormsAgree (forms : QuoteForm → Prop) (s : State q) (body : Bytes) (suffix : Suffix)
    (rest : Bytes) : Prop :=
  ∃ term, ∀ form, forms form → ∃ term',
    ReadsLiteral s (form.token body ++ (suffix.text ++ rest)) rest term' ∧
      (term' == term) = true ∧ termValue term' = body

/-- The expression for what may follow a string. -/
abbrev suffixRule : Rule RuleName := opt (sorOf (.ref .langtag) [.ref .rdfLiteralTypeTag])

section Agreement

variable {s : State q} {suffix : Suffix} {body rest : Bytes}

/-- A literal is read as what its string and its suffix stand for. -/
theorem readsLiteral_of_suffix (hs : s.Settled) (form : QuoteForm) (hbody : Plain body)
    (hsuffix : Yields suffixRule (suffix.text ++ rest) (.ok rest) suffix.actions)
    (hunquoted : Unquoted (suffix.text ++ rest)) {term : Term}
    (hterm : suffix.literal s.prefixMap s.base (form.kept body) = .ok term) :
    ReadsLiteral s (form.token body ++ (suffix.text ++ rest)) rest term := by
  obtain ⟨-, -, _, hstring⟩ := written_complete form hbody hunquoted
  obtain ⟨text, hinput, -, hessence⟩ := token_essence (by decide) hstring
  obtain rfl : form.token body = text := List.append_cancel_right hinput
  have hliteral : Yields (turtle .rdfLiteral) (form.token body ++ (suffix.text ++ rest))
      (.ok rest) ((.turtleString, form.token body) :: suffix.actions) :=
    Yields.seq ⟨_, hstring, hessence⟩ hsuffix
  obtain ⟨trace, hrun, hessence'⟩ := hliteral.ref_ok
  have helement : (Leaf.rdfLiteral (form.token body) suffix).element q s.prefixMap s.base
      s.latestBNLabel = .ok (Element.ofTerm q term) := by
    simp only [Leaf.element, QuoteForm.token_body, hterm]
    rfl
  obtain ⟨s', hs', hreads⟩ := Leaf.runActions_ok hs (.inl rfl) helement
  refine ⟨trace, s', hrun, ?_, hreads.element⟩
  rw [runActions_eq_essence, hessence']
  exact hs'

/-- The forms agree exactly if they are short. -/
theorem formsAgree_iff (hs : s.Settled) (hbody : Plain body)
    (hsuffix : Yields suffixRule (suffix.text ++ rest) (.ok rest) suffix.actions)
    (hunquoted : Unquoted (suffix.text ++ rest))
    (hresolves : ∃ term, suffix.literal s.prefixMap s.base body = .ok term)
    (forms : QuoteForm → Prop) :
    FormsAgree forms s body suffix rest ↔ ∀ form, forms form → form.isLong = false := by
  constructor
  · intro ⟨term, hagree⟩ form hform
    obtain ⟨term', ⟨trace, s', hrun, hactions, helement⟩, -, hvalue⟩ := hagree form hform
    obtain ⟨term'', helement', hvalue'⟩ :=
      (written_complete form hbody hunquoted).value hrun hs hactions
    obtain rfl := Element.ofTerm_injective q (helement.symm.trans helement')
    exact (form.kept_eq_iff body).mp (hvalue'.symm.trans hvalue)
  · intro hshort
    obtain ⟨term, hterm⟩ := hresolves
    refine ⟨term, fun form hform => ⟨term, ?_, (Term.beq_iff term term).mpr rfl,
      Suffix.literal_value hterm⟩⟩
    have hkept := (form.kept_eq_iff body).mpr (hshort form hform)
    exact readsLiteral_of_suffix hs form hbody hsuffix hunquoted (by rw [hkept]; exact hterm)

end Agreement

/-- The value of a literal is free of its delimiters exactly if they are short, and forms
agree on plain strings exactly if they are short. -/
theorem quoting_forms {active : List (RuleName × Bytes)} {s : State q}
    (hreached : Reached active s) (houtside : ¬ Inside turtle .rdfLiteral active) :
    (∀ input rest trace s', Run turtle (.ref .rdfLiteral) input (.ok rest) trace →
      runActions trace s = (s', none) →
      (∃ form body after, WrittenAs form body input after) ∧
        ∀ form body after, WrittenAs form body input after →
          ∃ term, s'.element = Element.ofTerm q term ∧
            (termValue term = body ↔ form.isLong = false)) ∧
    ∀ (body : Bytes) (suffix : Suffix) (rest : Bytes), Plain body →
      Yields suffixRule (suffix.text ++ rest) (.ok rest) suffix.actions →
      Unquoted (suffix.text ++ rest) →
      (∃ term, suffix.literal s.prefixMap s.base body = .ok term) →
      ∀ forms : QuoteForm → Prop,
        FormsAgree forms s body suffix rest ↔ ∀ form, forms form → form.isLong = false := by
  have hs := hreached.settled houtside
  refine ⟨?_, ?_⟩
  · intro input rest trace s' hrun hactions
    refine ⟨?_, fun form body after hwritten => ?_⟩
    · obtain ⟨_, _, _, -, hstring, -⟩ := rdfLiteral_parts hrun
      obtain ⟨form, body, hwritten⟩ := turtleString_written hstring
      exact ⟨form, body, _, hwritten⟩
    · obtain ⟨term, helement, hvalue⟩ := hwritten.value hrun hs hactions
      exact ⟨term, helement, by rw [hvalue, form.kept_eq_iff]⟩
  · intro body suffix rest hbody hsuffix hunquoted hresolves forms
    exact formsAgree_iff hs hbody hsuffix hunquoted hresolves forms

theorem initialState_reached (prefixMap : PrefixMap) : Reached [] (initialState q prefixMap) :=
  ⟨_, prefixMap, [], [], .inl rfl, .start, rfl⟩

/-- `x` in the two short forms. -/
theorem shortForms_agree : FormsAgree (fun form => form.isLong = false) (initialState false [])
    (bytes "x") .plain (bytes " .") := by
  have houtside : ¬ Inside turtle .rdfLiteral [] := by simp [Inside]
  refine ((quoting_forms (initialState_reached []) houtside).2 (bytes "x") .plain (bytes " .")
    (by decide +kernel) ?_ (by decide +kernel) ⟨_, rfl⟩ _).mpr fun form hform => hform
  exact ⟨_, exec_sound 30 rfl, rfl⟩

/-- `x` in all four forms. -/
theorem allForms_disagree : ¬ ∀ (active : List (RuleName × Bytes)) (s : State false),
    Reached active s → ¬ Inside turtle .rdfLiteral active →
    ∀ (body : Bytes) (suffix : Suffix) (rest : Bytes), Plain body →
      Yields suffixRule (suffix.text ++ rest) (.ok rest) suffix.actions →
      Unquoted (suffix.text ++ rest) →
      (∃ term, suffix.literal s.prefixMap s.base body = .ok term) →
      FormsAgree (fun _ => True) s body suffix rest := by
  intro hclaim
  have houtside : ¬ Inside turtle .rdfLiteral [] := by simp [Inside]
  have hplain : Plain (bytes "x") := by decide +kernel
  have hunquoted : Unquoted (Suffix.plain.text ++ bytes " .") := by decide +kernel
  have hsuffix : Yields suffixRule (Suffix.plain.text ++ bytes " .") (.ok (bytes " .")) [] :=
    ⟨_, exec_sound 30 rfl, rfl⟩
  have hagree := hclaim [] (initialState false []) (initialState_reached []) houtside (bytes "x")
    .plain (bytes " .") hplain hsuffix hunquoted ⟨_, rfl⟩
  have hshort := (formsAgree_iff ⟨rfl, rfl⟩ hplain hsuffix hunquoted ⟨_, rfl⟩ _).mp hagree
  exact Bool.noConfusion (hshort .longQuote trivial)

end RdfParser.Turtle
