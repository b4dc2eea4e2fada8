/-
  Turtle/Directives.lean --- what the directive actions make of the layout.

  The grammar allows any layout between the tokens of a directive.  The actions split
  the matched text once more, with a `std::stringstream`: they find the tokens only
  where white space, and nothing else, separates them.
-/
import RdfParser.Turtle.Layout
import RdfParser.Turtle.Tokens
import RdfParser.Turtle.Frame

set_option autoImplicit false

namespace RdfParser.Turtle

open RdfParser.Foundation RdfParser.Rdf RdfParser.Peg RdfParser.Peg.Rule

/-! ## The text of a directive -/

/-- The four rules for directives. -/
inductive Directive where
  | prefixID | sparqlPrefix | base | sparqlBase
  deriving DecidableEq, Repr

/-- The prefixes and IRIs the layouts are tried with. -/
def IsSample (text : Bytes) : Prop := text = [] ∨ text = bytes "a"

/-- What stands between the tokens of a directive, and how its keyword is spelled. -/
structure DirectiveLayout where
  keyword : Bytes
  afterKeyword : Bytes
  afterName : Bytes
  afterIri : Bytes

namespace Directive

/-- The rule of a directive. -/
def rule : Directive → RuleName
  | .prefixID => .prefixID
  | .sparqlPrefix => .sparqlPrefix
  | .base => .base
  | .sparqlBase => .sparqlBase

/-- The directive binds a prefix. -/
def declaresPrefix : Directive → Bool
  | .prefixID | .sparqlPrefix => true
  | .base | .sparqlBase => false

/-- The directive ends in a dot. -/
def dotted : Directive → Bool
  | .prefixID | .base => true
  | .sparqlPrefix | .sparqlBase => false

/-- The byte classes of the keyword. -/
def keywordClasses : Directive → List (UInt8 → Bool)
  | .prefixID => (bytes "@prefix").map fun b => (· == b)
  | .base => (bytes "@base").map fun b => (· == b)
  | .sparqlPrefix => [bytes "Pp", bytes "Rr", bytes "Ee", bytes "Ff", bytes "Ii", bytes "Xx"].map
      List.contains
  | .sparqlBase => [bytes "Bb", bytes "Aa", bytes "Ss", bytes "Ee"].map List.contains

/-- What follows the IRI. -/
def ending (d : Directive) (layout : DirectiveLayout) : Bytes :=
  if d.dotted then layout.afterIri ++ [char '.'] else []

/-- What follows the keyword and its layout. -/
def body (d : Directive) (layout : DirectiveLayout) (pre iri : Bytes) : Bytes :=
  if d.declaresPrefix then
    pnameToken pre ++ (layout.afterName ++ (irirefToken iri ++ d.ending layout))
  else irirefToken iri ++ d.ending layout

/-- The text of a directive. -/
def text (d : Directive) (layout : DirectiveLayout) (pre iri : Bytes) : Bytes :=
  layout.keyword ++ (layout.afterKeyword ++ d.body layout pre iri)

/-- The layout is one that the grammar allows. -/
structure Admits (d : Directive) (layout : DirectiveLayout) : Prop where
  keyword : List.Forall₂ (fun b accepts => accepts b = true) layout.keyword d.keywordClasses
  afterKeyword : IsLayout layout.afterKeyword
  afterName : IsLayout layout.afterName
  afterIri : IsLayout layout.afterIri

/-- The text is a directive with this layout and these tokens. -/
structure Writes (d : Directive) (layout : DirectiveLayout) (pre iri text : Bytes) : Prop where
  matched : Matches turtle d.rule text
  pnameNs : Matches turtle .pnameNs (pnameToken pre)
  iriref : Matches turtle .iriref (irirefToken iri)
  text_eq : text = d.text layout pre iri

/-! ## The rules of the grammar -/

/-- What a rule requires after the IRI. -/
def endingParts (d : Directive) : List (Rule RuleName) :=
  if d.dotted then [.ref .ignored, ch '.'] else []

/-- What a rule requires after its keyword. -/
def parts (d : Directive) : List (Rule RuleName) :=
  if d.declaresPrefix then
    .ref .ignored :: .ref .pnameNs :: .ref .ignored :: .ref .iriref :: d.endingParts
  else .ref .ignored :: .ref .iriref :: d.endingParts

theorem rule_iff (d : Directive) {input rest : Bytes} {trace : Trace RuleName} :
    Run turtle (turtle d.rule) input (.ok rest) trace ↔
      ∃ middle t₁ t₂, Run turtle (seqOf (d.keywordClasses.map .byte)) input (.ok middle) t₁ ∧
        Run turtle (seqOf d.parts) middle (.ok rest) t₂ ∧ trace = t₁ ++ t₂ := by
  cases d
  case prefixID | base => exact Run.seqOf_cons_iff
  case sparqlPrefix =>
      exact @Run.seqOf_append_iff _ turtle (sparqlPrefix.keywordClasses.map .byte)
        sparqlPrefix.parts input rest trace
  case sparqlBase =>
      exact @Run.seqOf_append_iff _ turtle (sparqlBase.keywordClasses.map .byte)
        sparqlBase.parts input rest trace

/-! ### Taking a directive apart -/

theorem ending_sound (d : Directive) {input rest : Bytes} {trace : Trace RuleName}
    (h : Run turtle (seqOf d.endingParts) input (.ok rest) trace) :
    ∃ gap, IsLayout gap ∧ input = (if d.dotted then gap ++ [char '.'] else []) ++ rest := by
  unfold endingParts at h
  cases hdotted : d.dotted with
  | false =>
      rw [hdotted] at h
      exact ⟨[], .nil, (Run.seqOf_nil_iff.mp h).1⟩
  | true =>
      rw [hdotted] at h
      obtain ⟨_, _, _, hignored, hdot, -⟩ := h.seq_ok
      obtain ⟨gap, rfl, hgap⟩ := ignored_sound hignored
      obtain ⟨b, hb, rfl, -⟩ := Run.byte_ok hdot
      refine ⟨gap, hgap, ?_⟩
      rw [beq_iff_eq.mp hb]
      simp

theorem iri_sound (d : Directive) {input rest : Bytes} {trace : Trace RuleName}
    (h : Run turtle (seqOf (.ref .ignored :: .ref .iriref :: d.endingParts)) input (.ok rest)
      trace) :
    ∃ gap iri last, IsLayout gap ∧ Matches turtle .iriref (irirefToken iri) ∧ IsLayout last ∧
      input = gap ++ (irirefToken iri ++
        ((if d.dotted then last ++ [char '.'] else []) ++ rest)) := by
  obtain ⟨_, _, _, hignored, hmore, -⟩ := Run.seqOf_cons_iff.mp h
  obtain ⟨gap, rfl, hgap⟩ := ignored_sound hignored
  obtain ⟨_, _, _, hiri, hending, -⟩ := Run.seqOf_cons_iff.mp hmore
  obtain ⟨iri, rfl⟩ := iriref_sound hiri
  obtain ⟨last, hlast, rfl⟩ := d.ending_sound hending
  exact ⟨gap, iri, last, hgap, ⟨_, _, hiri⟩, hlast, rfl⟩

/-! ### Putting a directive together -/

theorem pnameNs_complete {pre : Bytes} (hpre : IsSample pre) (rest : Bytes) :
    ∃ trace, Run turtle (.ref .pnameNs) (pnameToken pre ++ rest) (.ok rest) trace := by
  rcases hpre with rfl | rfl
  · exact ⟨_, exec_sound 20 rfl⟩
  · exact ⟨_, exec_sound 20 rfl⟩

theorem iriref_complete {iri : Bytes} (hiri : IsSample iri) (rest : Bytes) :
    ∃ trace, Run turtle (.ref .iriref) (irirefToken iri ++ rest) (.ok rest) trace := by
  rcases hiri with rfl | rfl
  · exact ⟨_, exec_sound 20 rfl⟩
  · exact ⟨_, exec_sound 20 rfl⟩

theorem ending_complete (d : Directive) {layout : DirectiveLayout} (h : d.Admits layout)
    (rest : Bytes) :
    ∃ trace, Run turtle (seqOf d.endingParts) (d.ending layout ++ rest) (.ok rest) trace := by
  unfold endingParts ending
  cases d.dotted with
  | false => exact ⟨[], .success⟩
  | true =>
      have hdot : StartsToken (char '.' :: rest) := startsToken_cons (by decide) (by decide)
      obtain ⟨trace, hrun⟩ := ignored_complete h.afterIri hdot
      refine ⟨trace ++ [], .seqNext ?_ (.byteOk (beq_self_eq_true (char '.')))⟩
      simpa using hrun

theorem iri_complete (d : Directive) {layout : DirectiveLayout} (h : d.Admits layout)
    {gap iri : Bytes} (hgap : IsLayout gap) (hiri : IsSample iri) (rest : Bytes) :
    ∃ trace, Run turtle (seqOf (.ref .ignored :: .ref .iriref :: d.endingParts))
      (gap ++ (irirefToken iri ++ (d.ending layout ++ rest))) (.ok rest) trace := by
  have hopen : StartsToken (irirefToken iri ++ (d.ending layout ++ rest)) :=
    startsToken_cons (by decide) (by decide)
  obtain ⟨t₁, hignored⟩ := ignored_complete hgap hopen
  obtain ⟨t₂, hrun⟩ := iriref_complete hiri (d.ending layout ++ rest)
  obtain ⟨t₃, hending⟩ := d.ending_complete h rest
  exact ⟨_, Run.seqOf_cons_iff.mpr ⟨_, _, _, hignored,
    Run.seqOf_cons_iff.mpr ⟨_, _, _, hrun, hending, rfl⟩, rfl⟩⟩

/-- Every text a directive rule matches is a directive with some layout. -/
theorem writes_of_matches (d : Directive) {text : Bytes} (h : Matches turtle d.rule text) :
    ∃ layout pre iri, d.Admits layout ∧ d.Writes layout pre iri text := by
  have hmatched := h
  obtain ⟨rest, trace, hrun⟩ := h
  obtain ⟨_, hbody, -⟩ := hrun.ref_ok
  obtain ⟨_, _, _, hword, hparts, -⟩ := d.rule_iff.mp hbody
  obtain ⟨keyword, hkeyword, htext, -⟩ := Run.seqOf_byte_iff.mp hword
  unfold parts at hparts
  cases hdeclares : d.declaresPrefix with
  | false =>
      rw [hdeclares] at hparts
      obtain ⟨gap, iri, last, hgap, hiri, hlast, rfl⟩ := d.iri_sound hparts
      obtain ⟨_, hname⟩ := pnameNs_complete (.inl rfl) []
      refine ⟨⟨keyword, gap, [], last⟩, [], iri, ⟨hkeyword, hgap, .nil, hlast⟩, hmatched,
        ⟨_, _, hname⟩, hiri, List.append_cancel_right (htext.trans ?_)⟩
      simp [Directive.text, body, ending, hdeclares]
  | true =>
      rw [hdeclares] at hparts
      obtain ⟨_, _, _, hignored, hmore, -⟩ := Run.seqOf_cons_iff.mp hparts
      obtain ⟨gap, rfl, hgap⟩ := ignored_sound hignored
      obtain ⟨_, _, _, hname, hmore', -⟩ := Run.seqOf_cons_iff.mp hmore
      obtain ⟨pre, rfl⟩ := pnameNs_sound hname
      obtain ⟨gap', iri, last, hgap', hiri, hlast, rfl⟩ := d.iri_sound hmore'
      refine ⟨⟨keyword, gap, gap', last⟩, pre, iri, ⟨hkeyword, hgap, hgap', hlast⟩, hmatched,
        ⟨_, _, hname⟩, hiri, List.append_cancel_right (htext.trans ?_)⟩
      simp [Directive.text, body, ending, hdeclares]

/-- Every layout the grammar allows occurs, with each of the sample tokens. -/
theorem writes_sample (d : Directive) {layout : DirectiveLayout} (h : d.Admits layout)
    {pre iri : Bytes} (hpre : IsSample pre) (hiri : IsSample iri) :
    d.Writes layout pre iri (d.text layout pre iri) := by
  have hparts : ∃ trace, Run turtle (seqOf d.parts)
      (layout.afterKeyword ++ (d.body layout pre iri ++ [])) (.ok []) trace := by
    unfold parts body
    cases d.declaresPrefix with
    | false => simpa using d.iri_complete h h.afterKeyword hiri []
    | true =>
        obtain ⟨t₁, hrun⟩ := d.iri_complete h h.afterName hiri []
        obtain ⟨t₂, hname⟩ := pnameNs_complete hpre
          (layout.afterName ++ (irirefToken iri ++ (d.ending layout ++ [])))
        have hstart : StartsToken (pnameToken pre ++
            (layout.afterName ++ (irirefToken iri ++ (d.ending layout ++ [])))) := by
          rcases hpre with rfl | rfl
          · exact startsToken_cons (by decide) (by decide)
          · exact startsToken_cons (by decide) (by decide)
        obtain ⟨t₃, hignored⟩ := ignored_complete h.afterKeyword hstart
        refine ⟨t₃ ++ (t₂ ++ t₁), Run.seqOf_cons_iff.mpr ⟨_, t₃, _, ?_,
          Run.seqOf_cons_iff.mpr ⟨_, _, _, hname, hrun, rfl⟩, rfl⟩⟩
        simpa using hignored
  obtain ⟨trace, hparts⟩ := hparts
  have hbody := d.rule_iff.mpr ⟨_, _, _,
    Run.seqOf_byte_iff.mpr ⟨layout.keyword, h.keyword, rfl, rfl⟩, hparts, rfl⟩
  have hmatched := Run.ref hbody
  have htext : layout.keyword ++ (layout.afterKeyword ++ (d.body layout pre iri ++ [])) =
      d.text layout pre iri ++ [] := by
    simp [Directive.text]
  rw [htext] at hmatched
  obtain ⟨_, hname⟩ := pnameNs_complete hpre []
  obtain ⟨_, hrun⟩ := iriref_complete hiri []
  exact ⟨⟨[], _, hmatched⟩, ⟨_, _, hname⟩, ⟨_, _, hrun⟩, rfl⟩

end Directive

/-! ## The words of the text -/

/-- The layout has white space, and nothing but white space from there on. -/
def Spaced (gap : Bytes) : Prop :=
  (gap.dropWhile fun b => !isSpace b) ≠ [] ∧ Blank (gap.dropWhile fun b => !isSpace b)

instance (gap : Bytes) : Decidable (Spaced gap) := inferInstanceAs (Decidable (_ ∧ _))

section Words

variable {keyword : Bytes} (hne : keyword ≠ []) (hkeyword : Solid keyword)
include hne hkeyword

/-- The stream after the keyword has been read. -/
theorem after_keyword (stream : Bytes) :
    (extractWord (keyword ++ stream)).2 = stream.dropWhile fun b => !isSpace b := by
  rw [extractWord_append stream hne hkeyword]

/-- The second word of a text with a spaced gap begins with the token. -/
theorem second_word {gap token : Bytes} (hgap : Spaced gap) (htne : token ≠ [])
    (htoken : Solid token) (rest : Bytes) :
    extractWord (extractWord (keyword ++ (gap ++ (token ++ rest)))).2 =
      (token ++ rest.takeWhile fun b => !isSpace b, rest.dropWhile fun b => !isSpace b) := by
  obtain ⟨hspace, hblank⟩ := hgap
  rw [after_keyword hne hkeyword, List.dropWhile_append, if_neg (by simpa using hspace),
    extractWord_blank hblank, extractWord_append rest htne htoken]

/-- With any other gap the second word does not depend on the token, or more than the
token is read. -/
theorem second_word_cases (gap rest : Bytes) :
    Spaced gap ∨
      (∃ word, ∀ token, Solid token →
        (extractWord (extractWord (keyword ++ (gap ++ (token ++ rest)))).2).1 = word) ∨
      ∃ glued, glued ≠ [] ∧ ∀ token, Solid token →
        (extractWord (extractWord (keyword ++ (gap ++ (token ++ rest)))).2).1 =
          glued ++ (token ++ rest.takeWhile fun b => !isSpace b) := by
  by_cases hspace : (gap.dropWhile fun b => !isSpace b) = []
  · -- the token continues the first word
    refine .inr (.inl ⟨(extractWord (rest.dropWhile fun b => !isSpace b)).1, ?_⟩)
    intro token htoken
    have htoken' : ∀ b ∈ token, (!isSpace b) = true := by
      intro b hb
      rw [htoken b hb]
      rfl
    rw [after_keyword hne hkeyword, List.dropWhile_append, if_pos (by simpa using hspace),
      List.dropWhile_append_of_pos htoken']
  · have hstream : ∀ token, (extractWord (keyword ++ (gap ++ (token ++ rest)))).2 =
        (gap.dropWhile fun b => !isSpace b) ++ (token ++ rest) := by
      intro token
      rw [after_keyword hne hkeyword, List.dropWhile_append, if_neg (by simpa using hspace)]
    rcases extractWord_gap (gap.dropWhile fun b => !isSpace b) with
      hblank | ⟨word, hword⟩ | ⟨glued, hglued, hword⟩
    · exact .inl ⟨hspace, hblank⟩
    · exact .inr (.inl ⟨word, fun token _ => by rw [hstream, hword]⟩)
    · exact .inr (.inr ⟨glued, hglued, fun token htoken => by rw [hstream, hword _ _ htoken]⟩)

end Words

/-! ## What the actions read -/

namespace Directive

variable {q : Bool}

/-- The state after a directive that binds `pre` to `iri`, or sets the base to `iri`. -/
def effect (d : Directive) (pre iri : Bytes) (s : State q) : State q :=
  { s with toBasicState :=
      if d.declaresPrefix then s.toBasicState.addPrefix pre iri else s.toBasicState.setBase iri }

/-- The action does not throw, and reads these tokens. -/
def Reads (q : Bool) (d : Directive) (text pre iri : Bytes) : Prop :=
  ∀ s : State q, apply d.rule text s = .ok (d.effect pre iri s)

theorem reads_prefix_iff {d : Directive} (hd : d.declaresPrefix = true) {text pre iri : Bytes} :
    d.Reads q text pre iri ↔ prefixArguments text = .ok (pre, iri) := by
  have happly : ∀ s : State q, apply d.rule text s =
      (prefixArguments text).map fun arguments =>
        { s with toBasicState := s.toBasicState.addPrefix arguments.1 arguments.2 } := by
    intro s
    cases d <;> simp only [declaresPrefix, reduceCtorEq] at hd
    all_goals
      simp only [apply, rule, State.lift, Action.prefixID, Action.sparqlPrefix]
      cases prefixArguments text <;> rfl
  constructor
  · intro hreads
    have hinitial := hreads (initialState q [])
    rw [happly] at hinitial
    cases harguments : prefixArguments text with
    | error fault => simp [harguments, Except.map] at hinitial
    | ok arguments =>
        -- the entry of an empty prefix map is the pair that was added
        rw [harguments] at hinitial
        have hmap := congrArg (fun s => s.prefixMap) (Except.ok.inj hinitial)
        simp only [effect, hd, if_true] at hmap
        have hentry : [(arguments.1, arguments.2)] = [(pre, iri)] := hmap
        rw [List.cons.injEq] at hentry
        rw [← hentry.1]
  · intro harguments s
    rw [happly, harguments]
    simp only [effect, hd, if_true]
    rfl

theorem reads_base_iff {d : Directive} (hd : d.declaresPrefix = false) {text pre iri : Bytes} :
    d.Reads q text pre iri ↔ baseArgument text = .ok iri := by
  have happly : ∀ s : State q, apply d.rule text s =
      (baseArgument text).map fun value =>
        { s with toBasicState := s.toBasicState.setBase value } := by
    intro s
    cases d <;> simp only [declaresPrefix, reduceCtorEq] at hd
    all_goals
      simp only [apply, rule, State.lift, Action.base, Action.sparqlBase]
      cases baseArgument text <;> rfl
  constructor
  · intro hreads
    have hinitial := hreads (initialState q [])
    rw [happly] at hinitial
    cases hargument : baseArgument text with
    | error fault => simp [hargument, Except.map] at hinitial
    | ok value =>
        rw [hargument] at hinitial
        have hbase := congrArg (fun s => s.base) (Except.ok.inj hinitial)
        simp only [effect, hd, Bool.false_eq_true, if_false] at hbase
        have hvalue : value = iri := hbase
        rw [hvalue]
  · intro hargument s
    rw [happly, hargument]
    simp only [effect, hd, Bool.false_eq_true, if_false]
    rfl

end Directive

/-- The two words of a prefix directive. -/
theorem prefixArguments_iff {text pre iri : Bytes} :
    prefixArguments text = .ok (pre, iri) ↔
      let name := extractWord (extractWord text).2
      let value := (extractWord name.2).1
      name.1 ≠ [] ∧ name.1.dropLast = pre ∧ value.tail ≠ [] ∧ value.tail.dropLast = iri := by
  rw [prefixArguments_eq]
  simp only
  constructor
  · intro h
    split at h
    · cases h
    · rename_i hne
      rw [not_or] at hne
      rw [Except.ok.injEq, Prod.mk.injEq] at h
      exact ⟨hne.1, h.1, hne.2, h.2⟩
  · rintro ⟨hname, rfl, hvalue, rfl⟩
    rw [if_neg (not_or.mpr ⟨hname, hvalue⟩)]

theorem baseArgument_iff {text iri : Bytes} :
    baseArgument text = .ok iri ↔
      let value := (extractWord (extractWord text).2).1
      value.tail ≠ [] ∧ value.tail.dropLast = iri := by
  rw [baseArgument_eq]
  simp only
  constructor
  · intro h
    split at h
    · cases h
    · rename_i hne
      rw [Except.ok.injEq] at h
      exact ⟨hne, h⟩
  · rintro ⟨hvalue, rfl⟩
    rw [if_neg hvalue]

/-! ## Words that contain a token -/

/-- Cutting the ends off a word leaves the IRI only if the word is the token. -/
theorem iri_exact {iri before after : Bytes}
    (h : (before ++ (irirefToken iri ++ after)).tail.dropLast = iri) :
    before = [] ∧ after = [] := by
  have hlength := congrArg List.length h
  simp only [List.length_dropLast, List.length_tail, List.length_append, irirefToken,
    List.length_cons, List.length_nil] at hlength
  constructor
  · exact List.eq_nil_of_length_eq_zero (by omega)
  · exact List.eq_nil_of_length_eq_zero (by omega)

/-- Cutting the end off a word leaves the prefix only if the word is the token. -/
theorem name_exact {pre before after : Bytes}
    (h : (before ++ (pnameToken pre ++ after)).dropLast = pre) : before = [] ∧ after = [] := by
  have hlength := congrArg List.length h
  simp only [List.length_dropLast, List.length_append, pnameToken, List.length_cons,
    List.length_nil] at hlength
  constructor
  · exact List.eq_nil_of_length_eq_zero (by omega)
  · exact List.eq_nil_of_length_eq_zero (by omega)

theorem irirefToken_word (iri : Bytes) :
    (irirefToken iri).tail ≠ [] ∧ (irirefToken iri).tail.dropLast = iri := by
  simp [irirefToken]

theorem pnameToken_word (pre : Bytes) :
    pnameToken pre ≠ [] ∧ (pnameToken pre).dropLast = pre := by
  simp [pnameToken]

/-- Cutting a word gives the text of a token only if the word is the token. -/
structure Cuts (cut token : Bytes → Bytes) : Prop where
  ne : ∀ text, token text ≠ []
  solid : ∀ text, IsSample text → Solid (token text)
  exactly : ∀ text before after, cut (before ++ (token text ++ after)) = text →
    before = [] ∧ after = []

theorem cutsIri : Cuts (fun word => word.tail.dropLast) irirefToken where
  ne := by simp [irirefToken]
  solid := by rintro iri (rfl | rfl) <;> decide
  exactly := fun _ _ _ => iri_exact

theorem cutsName : Cuts List.dropLast pnameToken where
  ne := by simp [pnameToken]
  solid := by rintro pre (rfl | rfl) <;> decide
  exactly := fun _ _ _ => name_exact

namespace Cuts

/-- One word cannot be cut to two texts. -/
theorem not_constant (cut : Bytes → Bytes) (word : Bytes) :
    ¬ ∀ text, IsSample text → cut word = text := by
  intro hword
  have hnil := hword [] (.inl rfl)
  rw [hword (bytes "a") (.inr rfl)] at hnil
  exact absurd hnil (by decide)

variable {cut token : Bytes → Bytes} {keyword gap rest : Bytes}

/-- If the sample tokens are read after a gap, the gap is white space and the token ends
at a boundary. -/
theorem word_blank (h : Cuts cut token) (hwords : ∀ text, IsSample text →
    cut (extractWord (gap ++ (token text ++ rest))).1 = text) : Blank gap ∧ AtBoundary rest := by
  have hsolid := h.solid [] (.inl rfl)
  have hnil := hwords [] (.inl rfl)
  rcases extractWord_gap gap with hblank | ⟨word, hword⟩ | ⟨glued, hglued, hword⟩
  · rw [extractWord_blank hblank, extractWord_append rest (h.ne []) hsolid,
      ← List.nil_append (token [] ++ _)] at hnil
    exact ⟨hblank, takeWhile_eq_nil_iff.mp (h.exactly _ _ _ hnil).2⟩
  · refine absurd (fun text htext => ?_) (not_constant cut word)
    rw [← hword (token text ++ rest)]
    exact hwords text htext
  · rw [hword _ _ hsolid] at hnil
    exact absurd (h.exactly _ _ _ hnil).1 hglued

/-- If the sample tokens are read as second words, the gap is spaced and the token ends
at a boundary. -/
theorem second_word_spaced (h : Cuts cut token) (hne : keyword ≠ []) (hkeyword : Solid keyword)
    (hwords : ∀ text, IsSample text →
      cut (extractWord (extractWord (keyword ++ (gap ++ (token text ++ rest)))).2).1 = text) :
    Spaced gap ∧ AtBoundary rest := by
  have hsolid := h.solid [] (.inl rfl)
  have hnil := hwords [] (.inl rfl)
  rcases second_word_cases hne hkeyword gap rest with hgap | ⟨word, hword⟩ | ⟨glued, hglued, hword⟩
  · rw [second_word hne hkeyword hgap (h.ne []) hsolid,
      ← List.nil_append (token [] ++ _)] at hnil
    exact ⟨hgap, takeWhile_eq_nil_iff.mp (h.exactly _ _ _ hnil).2⟩
  · refine absurd (fun text htext => ?_) (not_constant cut word)
    rw [← hword (token text) (h.solid text htext)]
    exact hwords text htext
  · rw [hword _ hsolid] at hnil
    exact absurd (h.exactly _ _ _ hnil).1 hglued

end Cuts

namespace Directive

variable {q : Bool}

/-- A word over classes without white space. -/
theorem solid_of_classes {word : Bytes} {classes : List (UInt8 → Bool)}
    (hword : List.Forall₂ (fun b accepts => accepts b = true) word classes)
    (hclasses : ∀ accepts ∈ classes, (spaces.all fun b => !accepts b) = true) : Solid word := by
  induction hword with
  | nil => simp [Solid]
  | @cons b accepts word classes hb _ ih =>
      intro c hc
      rcases List.mem_cons.mp hc with rfl | hc
      · refine eq_false_of_ne_true fun hspace => ?_
        have hrefuse := List.all_eq_true.mp (hclasses accepts List.mem_cons_self) c
          (mem_spaces.mpr hspace)
        rw [hb] at hrefuse
        exact absurd hrefuse (by simp)
      · exact ih (fun other hother => hclasses other (List.mem_cons_of_mem _ hother)) c hc

/-- White space separates the tokens: from the keyword, possibly after a comment without
white space; between name and IRI nothing else; and before the dot. -/
def SpacedOut (d : Directive) (layout : DirectiveLayout) : Prop :=
  Spaced layout.afterKeyword ∧
    (d.declaresPrefix = true → layout.afterName ≠ [] ∧ Blank layout.afterName) ∧
    AtBoundary (d.ending layout)

instance (d : Directive) (layout : DirectiveLayout) : Decidable (d.SpacedOut layout) :=
  inferInstanceAs (Decidable (_ ∧ _))

/-- A keyword is a word. -/
theorem Admits.keyword_solid {d : Directive} {layout : DirectiveLayout} (h : d.Admits layout) :
    layout.keyword ≠ [] ∧ Solid layout.keyword := by
  have hclasses : (d.keywordClasses.all fun accepts => spaces.all fun b => !accepts b) = true := by
    cases d <;> decide
  have hkeyword := h.keyword
  constructor
  · intro hnil
    rw [hnil] at hkeyword
    cases d <;> cases hkeyword
  · exact solid_of_classes hkeyword (List.all_eq_true.mp hclasses)

theorem Writes.solid {d : Directive} {layout : DirectiveLayout} {pre iri text : Bytes}
    (h : d.Writes layout pre iri text) : Solid (pnameToken pre) ∧ Solid (irirefToken iri) :=
  ⟨solid_of_matches h.pnameNs rfl, solid_of_matches h.iriref rfl⟩

/-- Where white space separates the tokens the action reads them. -/
theorem reads_of_spacedOut {d : Directive} {layout : DirectiveLayout} (h : d.Admits layout)
    (hspaced : d.SpacedOut layout) {pre iri text : Bytes} (hwrites : d.Writes layout pre iri text) :
    d.Reads q text pre iri := by
  obtain ⟨hgap, hname, hend⟩ := hspaced
  obtain ⟨hne, hkeyword⟩ := h.keyword_solid
  obtain ⟨hpre, hiri⟩ := hwrites.solid
  rw [hwrites.text_eq, Directive.text, body]
  cases hd : d.declaresPrefix with
  | false =>
      rw [reads_base_iff hd, baseArgument_iff]
      simp only [Bool.false_eq_true, if_false]
      rw [second_word hne hkeyword hgap (by simp [irirefToken]) hiri,
        takeWhile_eq_nil_iff.mpr hend, List.append_nil]
      exact irirefToken_word iri
  | true =>
      obtain ⟨hgapne, hblank⟩ := hname hd
      have hboundary := hblank.atBoundary hgapne (irirefToken iri ++ d.ending layout)
      rw [reads_prefix_iff hd, prefixArguments_iff]
      simp only [if_true]
      rw [second_word hne hkeyword hgap (by simp [pnameToken]) hpre,
        takeWhile_eq_nil_iff.mpr hboundary, hboundary.dropWhile, List.append_nil,
        extractWord_blank hblank, extractWord_solid (by simp [irirefToken]) hiri hend]
      exact ⟨(pnameToken_word pre).1, (pnameToken_word pre).2, irirefToken_word iri⟩

/-- If a base directive is read with the sample IRIs, its layout is spaced out. -/
theorem spacedOut_of_reads_base {d : Directive} (hd : d.declaresPrefix = false)
    {layout : DirectiveLayout} (h : d.Admits layout)
    (hreads : ∀ iri, IsSample iri → d.Reads q (d.text layout [] iri) [] iri) :
    d.SpacedOut layout := by
  obtain ⟨hne, hkeyword⟩ := h.keyword_solid
  have hvalue : ∀ iri, IsSample iri →
      (extractWord (extractWord (layout.keyword ++ (layout.afterKeyword ++
        (irirefToken iri ++ d.ending layout)))).2).1.tail.dropLast = iri := by
    intro iri hiri
    have hargument := baseArgument_iff.mp ((reads_base_iff hd).mp (hreads iri hiri))
    rw [Directive.text, body, hd] at hargument
    exact hargument.2
  obtain ⟨hgap, hend⟩ := cutsIri.second_word_spaced hne hkeyword hvalue
  refine ⟨hgap, fun hprefix => ?_, hend⟩
  rw [hd] at hprefix
  exact absurd hprefix Bool.false_ne_true

/-- If a prefix directive is read with the sample prefixes and IRIs, its layout is
spaced out. -/
theorem spacedOut_of_reads_prefix {d : Directive} (hd : d.declaresPrefix = true)
    {layout : DirectiveLayout} (h : d.Admits layout)
    (hreads : ∀ pre iri, IsSample pre → IsSample iri →
      d.Reads q (d.text layout pre iri) pre iri) : d.SpacedOut layout := by
  obtain ⟨hne, hkeyword⟩ := h.keyword_solid
  let following : Bytes → Bytes := fun iri =>
    layout.afterName ++ (irirefToken iri ++ d.ending layout)
  let name : Bytes → Bytes → Bytes × Bytes := fun pre iri =>
    extractWord (extractWord (layout.keyword ++ (layout.afterKeyword ++
      (pnameToken pre ++ following iri)))).2
  have hwords : ∀ pre iri, IsSample pre → IsSample iri →
      (name pre iri).1.dropLast = pre ∧
        (extractWord (name pre iri).2).1.tail.dropLast = iri := by
    intro pre iri hpre hiri
    have harguments := prefixArguments_iff.mp ((reads_prefix_iff hd).mp (hreads pre iri hpre hiri))
    rw [Directive.text, body, hd] at harguments
    exact ⟨harguments.2.1, harguments.2.2.2⟩
  have hname : ∀ iri, IsSample iri → Spaced layout.afterKeyword ∧ AtBoundary (following iri) := by
    intro iri hiri
    refine cutsName.second_word_spaced hne hkeyword fun pre hpre => ?_
    exact (hwords pre iri hpre hiri).1
  have hgap := (hname [] (.inl rfl)).1
  -- the IRI is read from what follows the name
  have hvalue : ∀ iri, IsSample iri → (extractWord (following iri)).1.tail.dropLast = iri := by
    intro iri hiri
    have hsecond : name [] iri = (pnameToken [] ++ (following iri).takeWhile
        (fun b => !isSpace b), (following iri).dropWhile fun b => !isSpace b) :=
      second_word hne hkeyword hgap (cutsName.ne []) (cutsName.solid [] (.inl rfl)) _
    have hiri' := (hwords [] iri (.inl rfl) hiri).2
    rw [hsecond, (hname iri hiri).2.dropWhile] at hiri'
    exact hiri'
  obtain ⟨hblank, hend⟩ := cutsIri.word_blank hvalue
  refine ⟨hgap, fun _ => ⟨?_, hblank⟩, hend⟩
  -- the IRI does not begin with white space
  intro hnil
  have hboundary := (hname [] (.inl rfl)).2
  simp only [following, hnil, List.nil_append] at hboundary
  exact absurd (hboundary (char '<') rfl) (by decide)

/-! ### Single texts without comments -/

/-- No comment stands between the tokens. -/
structure Uncommented (layout : DirectiveLayout) : Prop where
  afterKeyword : Blank layout.afterKeyword
  afterName : Blank layout.afterName
  afterIri : Blank layout.afterIri

/-- White space is a gap, if there is any. -/
theorem spaced_of_blank {gap : Bytes} (hgap : Blank gap) (hne : gap ≠ []) : Spaced gap := by
  have hstart := hgap.atBoundary hne []
  rw [List.append_nil] at hstart
  unfold Spaced
  rw [hstart.dropWhile]
  exact ⟨hne, hgap⟩

/-- After the word with the IRI only the dot is left. -/
theorem ending_words (d : Directive) {layout : DirectiveLayout} (h : Blank layout.afterIri) :
    let word := extractWord ((d.ending layout).dropWhile fun b => !isSpace b)
    word.1.tail = [] ∧ (extractWord word.2).1 = [] := by
  unfold ending
  cases d.dotted with
  | false => exact ⟨rfl, rfl⟩
  | true =>
      by_cases hgap : layout.afterIri = []
      · rw [hgap]
        exact ⟨rfl, rfl⟩
      · have hdot : Solid [char '.'] := by decide
        simp only [if_true]
        rw [(h.atBoundary hgap _).dropWhile, extractWord_blank h, extractWord_word hdot]
        exact ⟨rfl, rfl⟩

/-- A single base directive without comments is read only if it is spaced out. -/
theorem spacedOut_of_uncommented_base {d : Directive} (hd : d.declaresPrefix = false)
    {layout : DirectiveLayout} (h : d.Admits layout) (hplain : Uncommented layout)
    {pre iri text : Bytes} (hwrites : d.Writes layout pre iri text)
    (hreads : d.Reads q text pre iri) : d.SpacedOut layout := by
  obtain ⟨hne, hkeyword⟩ := h.keyword_solid
  obtain ⟨-, hiri⟩ := hwrites.solid
  obtain ⟨hvalue, hcut⟩ := baseArgument_iff.mp ((reads_base_iff hd).mp hreads)
  have htext : text = layout.keyword ++ (layout.afterKeyword ++
      (irirefToken iri ++ d.ending layout)) := by
    rw [hwrites.text_eq, Directive.text, body, hd]
    simp
  rw [htext] at hvalue hcut
  by_cases hgap : layout.afterKeyword = []
  · -- keyword and IRI are one word
    rw [hgap, List.nil_append, ← List.append_assoc,
      extractWord_append _ (by simp [hne]) (hkeyword.append hiri)] at hvalue
    exact absurd (d.ending_words hplain.afterIri).1 hvalue
  · have hspaced := spaced_of_blank hplain.afterKeyword hgap
    rw [second_word hne hkeyword hspaced (by simp [irirefToken]) hiri,
      ← List.nil_append (irirefToken iri ++ _)] at hcut
    refine ⟨hspaced, fun hprefix => ?_, takeWhile_eq_nil_iff.mp (iri_exact hcut).2⟩
    rw [hd] at hprefix
    exact absurd hprefix Bool.false_ne_true

/-- A single prefix directive without comments is read only if it is spaced out. -/
theorem spacedOut_of_uncommented_prefix {d : Directive} (hd : d.declaresPrefix = true)
    {layout : DirectiveLayout} (h : d.Admits layout) (hplain : Uncommented layout)
    {pre iri text : Bytes} (hwrites : d.Writes layout pre iri text)
    (hreads : d.Reads q text pre iri) : d.SpacedOut layout := by
  obtain ⟨hne, hkeyword⟩ := h.keyword_solid
  obtain ⟨hpre, hiri⟩ := hwrites.solid
  have hpne : pnameToken pre ≠ [] := by simp [pnameToken]
  have hine : irirefToken iri ≠ [] := by simp [irirefToken]
  obtain ⟨-, hname, hvalue, hcut⟩ := prefixArguments_iff.mp ((reads_prefix_iff hd).mp hreads)
  have htext : text = layout.keyword ++ (layout.afterKeyword ++ (pnameToken pre ++
      (layout.afterName ++ (irirefToken iri ++ d.ending layout)))) := by
    rw [hwrites.text_eq, Directive.text, body, hd]
    simp
  rw [htext] at hname hvalue hcut
  obtain ⟨hlast, hnone⟩ := d.ending_words hplain.afterIri
  have hiriDrop : (irirefToken iri ++ d.ending layout).dropWhile (fun b => !isSpace b) =
      (d.ending layout).dropWhile fun b => !isSpace b :=
    List.dropWhile_append_of_pos fun b hb => by simp [hiri b hb]
  by_cases hgap : layout.afterKeyword = []
  · -- keyword and name are one word: the IRI, or the dot, is read as the name
    rw [hgap, List.nil_append, ← List.append_assoc,
      extractWord_append _ (by simp [hne]) (hkeyword.append hpre)] at hvalue
    by_cases hgap' : layout.afterName = []
    · rw [hgap', List.nil_append, hiriDrop, hnone] at hvalue
      exact absurd rfl hvalue
    · have hboundary := hplain.afterName.atBoundary hgap' (irirefToken iri ++ d.ending layout)
      rw [hboundary.dropWhile, extractWord_blank hplain.afterName,
        extractWord_append _ hine hiri] at hvalue
      exact absurd hlast hvalue
  · have hspaced := spaced_of_blank hplain.afterKeyword hgap
    rw [second_word hne hkeyword hspaced hpne hpre] at hname hcut
    rw [← List.nil_append (pnameToken pre ++ _)] at hname
    have hboundary := takeWhile_eq_nil_iff.mp (name_exact hname).2
    rw [hboundary.dropWhile, extractWord_blank hplain.afterName,
      extractWord_append _ hine hiri, ← List.nil_append (irirefToken iri ++ _)] at hcut
    refine ⟨hspaced, fun _ => ⟨fun hnil => ?_, hplain.afterName⟩,
      takeWhile_eq_nil_iff.mp (iri_exact hcut).2⟩
    rw [hnil] at hboundary
    exact absurd (hboundary (char '<') rfl) (by decide)

/-- The directive actions agree with the grammar on every text it matches, exactly
where white space separates the tokens.  Only a comment can make up for a layout that is
not spaced out, by spelling the tokens of one text: the agreement is that of all texts
with a layout, and of each single text without comments. -/
theorem reads_iff_spacedOut (d : Directive) :
    (∀ text, Matches turtle d.rule text →
      ∃ layout pre iri, d.Admits layout ∧ d.Writes layout pre iri text) ∧
    (∀ layout, d.Admits layout →
      ((∀ pre iri text, d.Writes layout pre iri text → d.Reads q text pre iri) ↔
        d.SpacedOut layout)) ∧
    ∀ layout, d.Admits layout → Uncommented layout →
      ∀ pre iri text, d.Writes layout pre iri text →
        (d.Reads q text pre iri ↔ d.SpacedOut layout) := by
  refine ⟨fun text => d.writes_of_matches, fun layout h => ⟨fun hreads => ?_, ?_⟩,
    fun layout h hplain pre iri text hwrites => ⟨fun hreads => ?_, fun hspaced => ?_⟩⟩
  · cases hd : d.declaresPrefix with
    | false =>
        refine spacedOut_of_reads_base (q := q) hd h fun iri hiri => ?_
        exact hreads [] iri _ (d.writes_sample h (.inl rfl) hiri)
    | true =>
        refine spacedOut_of_reads_prefix (q := q) hd h fun pre iri hpre hiri => ?_
        exact hreads pre iri _ (d.writes_sample h hpre hiri)
  · intro hspaced pre iri text hwrites
    exact reads_of_spacedOut h hspaced hwrites
  · cases hd : d.declaresPrefix with
    | false => exact spacedOut_of_uncommented_base hd h hplain hwrites hreads
    | true => exact spacedOut_of_uncommented_prefix hd h hplain hwrites hreads
  · exact reads_of_spacedOut h hspaced hwrites

/-- `@prefix p: <http://a/>` up to the dot. -/
def prefixLayout (afterIri : Bytes) : DirectiveLayout where
  keyword := bytes "@prefix"
  afterKeyword := bytes " "
  afterName := bytes " "
  afterIri := afterIri

theorem prefixLayout_admits {afterIri : Bytes} (h : IsLayout afterIri) :
    prefixID.Admits (prefixLayout afterIri) where
  keyword := by simp [prefixLayout, keywordClasses, bytes]
  afterKeyword := .space (by decide) .nil
  afterName := .space (by decide) .nil
  afterIri := h

theorem prefixLayout_writes {afterIri : Bytes} (h : afterIri = [] ∨ afterIri = bytes " ") :
    prefixID.Writes (prefixLayout afterIri) (bytes "p") (bytes "http://a/")
      (prefixID.text (prefixLayout afterIri) (bytes "p") (bytes "http://a/")) where
  matched := by
    rcases h with rfl | rfl
    · exact ⟨[], _, exec_sound 60 rfl⟩
    · exact ⟨[], _, exec_sound 60 rfl⟩
  pnameNs := ⟨[], _, exec_sound 60 rfl⟩
  iriref := ⟨[], _, exec_sound 60 rfl⟩
  text_eq := rfl

/-- `@prefix p: <http://a/> .` is read as it is written. -/
theorem spacedPrefix_reads : prefixID.Reads false (bytes "@prefix p: <http://a/> .")
    (bytes "p") (bytes "http://a/") := by
  have hadmits := prefixLayout_admits (.space (b := 32) rfl .nil)
  refine ((reads_iff_spacedOut prefixID).2.1 _ hadmits).mpr ?_ _ _ _
    (prefixLayout_writes (.inr rfl))
  decide

/-- Without white space in front of the dot, `@prefix p: <http://a/>.` binds `p` to
`http://a/>`. -/
theorem unspacedPrefix_misread : ¬ ∀ (d : Directive) (layout : DirectiveLayout)
    (pre iri text : Bytes), d.Admits layout → d.Writes layout pre iri text →
    d.Reads false text pre iri := by
  intro hclaim
  have hreads := hclaim prefixID (prefixLayout []) _ _ _ (prefixLayout_admits .nil)
    (prefixLayout_writes (.inl rfl))
  have hargument := (reads_prefix_iff rfl).mp hreads
  have hread : prefixArguments (bytes "@prefix p: <http://a/>.") =
      .ok (bytes "p", bytes "http://a/>") := rfl
  have heq := Except.ok.inj (hread.symm.trans hargument)
  exact absurd heq (by decide)

end Directive

end RdfParser.Turtle
