/-
  Turtle/Chunks.lean --- cutting the beginning of a document into pieces.

  Where the parser has read a document up to a place, the text up to there is made of
  pieces: those of the tokens, and the layout between them.  They fit in front of any fork
  that leaves the strings alone.
-/
import RdfParser.Peg.Occurs
import RdfParser.Turtle.Fork

set_option autoImplicit false

namespace RdfParser.Turtle

open RdfParser.Foundation RdfParser.Peg RdfParser.Peg.Rule

section Pieced

variable {fork : Fork} {old input rest stop : Bytes} {rule : Rule RuleName} {k : Trace RuleName}

/-- The text in front of `old` is made of pieces. -/
def Pieced (fork : Fork) (old input : Bytes) : Prop :=
  ∃ chunks, Woven fork chunks ∧ input = textOf chunks ++ old

/-- The strings in front of `old` end where they did before. -/
def Stays (fork : Fork) (old : Bytes) (rule : Rule RuleName) (input rest : Bytes) : Prop :=
  ∀ text mid, Occurs turtle .turtleString (text ++ (mid ++ old)) (mid ++ old) rule input rest →
    ∀ side, fork.tail side ≠ old → ¬ Overruns text (mid ++ fork.tail side)

theorem Pieced.refl (fork : Fork) (old : Bytes) : Pieced fork old old := ⟨[], trivial, rfl⟩

theorem Pieced.chunk (chunk : Chunk) (h : Pieced fork old rest)
    (hfits : ∀ chunks, Woven fork chunks → rest = textOf chunks ++ old →
      chunk.Fits fork chunks) : Pieced fork old (chunk.text ++ rest) := by
  obtain ⟨chunks, hwoven, rfl⟩ := h
  exact ⟨chunk :: chunks, ⟨hfits chunks hwoven rfl, hwoven⟩, (List.append_assoc ..).symm⟩

theorem Pieced.bytes {text : Bytes} (htext : ∀ b ∈ text, b ∉ char '[' :: marks)
    (h : Pieced fork old rest) : Pieced fork old (text ++ rest) := by
  induction text with
  | nil => exact h
  | cons b text ih =>
      have hb := htext b List.mem_cons_self
      rw [List.mem_cons, not_or] at hb
      have hmore := ih fun c hc => htext c (List.mem_cons_of_mem b hc)
      exact hmore.chunk (.byte b) fun _ _ _ => ⟨hb.2, fun hopen => absurd hopen hb.1⟩

theorem Pieced.closing (h : Pieced fork old rest) : Pieced fork old (char ']' :: rest) :=
  h.chunk (.byte (char ']')) fun _ _ _ => ⟨by decide, fun hopen => absurd hopen (by decide)⟩

theorem Pieced.layout {layout : Bytes} (hlayout : IsLayout layout) (h : Pieced fork old rest) :
    Pieced fork old (layout ++ rest) := by
  by_cases hne : layout = []
  · rw [hne]
    exact h
  · exact h.chunk (.gap layout) fun _ _ _ => ⟨hlayout, hne⟩

theorem Pieced.string {text : Bytes} {t : Trace RuleName}
    (hrun : Run turtle (.ref .turtleString) (text ++ rest) (.ok rest) t)
    (hstays : Stays fork old (.ref .turtleString) (text ++ rest) rest)
    (h : Pieced fork old rest) : Pieced fork old (text ++ rest) := by
  obtain ⟨k, hk⟩ := hrun.keeps rfl
  refine h.chunk (.string text) fun chunks _ htext side => ?_
  subst htext
  by_cases hside : fork.tail side = old
  · rw [Fork.weave, hside]
    exact ⟨t, hrun⟩
  · exact turtleString_stays hrun (hstays text (textOf chunks) (.here hk) side hside)

theorem gaps_ignored {chunks : List Chunk} (h : Woven fork chunks)
    (hgaps : ∀ c ∈ chunks, c.isGap = true)
    (hrest : ∃ t, Run turtle (.ref .ignored) rest (.ok stop) t) :
    ∃ t, Run turtle (.ref .ignored) (textOf chunks ++ rest) (.ok stop) t := by
  induction chunks with
  | nil => exact hrest
  | cons chunk chunks ih =>
      have hmore := ih h.2 fun c hc => hgaps c (List.mem_cons_of_mem _ hc)
      cases chunk with
      | gap layout =>
          rw [textOf_cons, List.append_assoc]
          exact ignored_layout h.1.1 hmore
      | byte _ | iri _ | string _ | escape _ => cases hgaps _ List.mem_cons_self

/-- A bracket in front of more than layout, or with no closing one behind the fork. -/
theorem Pieced.bracket (h : Pieced fork old rest)
    (hopen : (∃ middle t, Run turtle (.ref .ignored) rest (.ok middle) t ∧
      old.length < middle.length) ∨ ∀ c ∈ fork.final.head?, c ≠ char ']') :
    Pieced fork old (char '[' :: rest) := by
  refine h.chunk (.byte (char '[')) fun chunks hwoven htext => ⟨by decide, ?_⟩
  intro _ hgaps
  rcases hopen with ⟨middle, t, hrun, hlength⟩ | hfinal
  · exfalso
    subst htext
    obtain ⟨after, t', hignored⟩ := ignored_matches old
    obtain ⟨_, hignored'⟩ := gaps_ignored hwoven hgaps ⟨t', hignored⟩
    obtain rfl := Outcome.ok.inj (hrun.deterministic hignored').1
    have hle := hignored.length_le
    omega
  · exact hfinal

/-! ### Property lists -/

/-- What a property list contains, its list of verbs contains. -/
theorem occurs_propertyList {q : Bool} {name : RuleName} {start : Bytes}
    {m₁ m₂ m₃ m₄ : Bytes} {k₁ k₂ k₄ k₅ : Trace RuleName}
    (hbegin : Keeps turtle (.ref .blankNodePropertyListBegin) input m₁ k₁)
    (hlayout : Keeps turtle (.ref .ignored) m₁ m₂ k₂)
    (hlayout' : Keeps turtle (.ref .ignored) m₃ m₄ k₄) (hclose : Keeps turtle (ch ']') m₄ rest k₅)
    (h : Occurs turtle name start stop (.ref (.predicateObjectList q)) m₂ m₃) :
    Occurs turtle name start stop (.ref (.blankNodePropertyList q)) input rest :=
  .ref (.seqSecond hbegin (.seqSecond hlayout (.seqFirst h (.seq hlayout' hclose))))

/-! ### From the end of a match to its beginning -/

/-- The rules whose text is made of pieces. -/
def apart : RuleName → Bool
  | .blankNodePropertyListBegin => false
  | name => outsidePieces name

/-- The rules that read a piece or a bracket. -/
def whole : RuleName → Bool
  | .blankNodePropertyList _ => true
  | name => readsPiece name

theorem apart_closed (name : RuleName) (h : apart name = true) (hwhole : whole name = false) :
    (turtle name).avoids (char '[' :: marks) apart = true := by
  cases name
  all_goals first
    | exact absurd h Bool.false_ne_true
    | exact absurd hwhole (by decide)
    | decide
    | rename_i q
      cases q <;> first | decide | exact absurd hwhole (by decide)

theorem Stays.sub {rule' : Rule RuleName} {input' rest' : Bytes}
    (h : Stays fork old rule input rest)
    (hsub : ∀ {start stop}, Occurs turtle .turtleString start stop rule' input' rest' →
      Occurs turtle .turtleString start stop rule input rest) :
    Stays fork old rule' input' rest' :=
  fun text mid hoccurs => h text mid (hsub hoccurs)

theorem Pieced.piece {name : RuleName} (hname : readsPiece name = true) {t : Trace RuleName}
    (hrun : Run turtle (.ref name) input (.ok rest) t)
    (hstays : Stays fork old (.ref name) input rest) (h : Pieced fork old rest) :
    Pieced fork old input := by
  obtain ⟨text, rfl⟩ := hrun.suffix
  have hold : old.length ≤ rest.length := by
    obtain ⟨chunks, -, rfl⟩ := h
    simp
  cases name
  all_goals first
    | exact absurd hname Bool.false_ne_true
    | exact h.string hrun hstays
    | skip
  case pnLocalEsc => exact h.chunk (.escape text) fun _ _ _ => ⟨rest, t, hrun⟩
  case iriref => exact h.chunk (.iri text) fun _ _ _ => ⟨rest, t, hrun⟩
  case ignored =>
      obtain ⟨layout, htext, hlayout⟩ := ignored_sound hrun
      obtain rfl := List.append_cancel_right htext
      exact h.layout hlayout
  case anon =>
      obtain ⟨b, more, hinput, hb⟩ := firsts_begin (by decide) hrun
      obtain rfl := List.mem_singleton.mp hb
      rw [hinput] at hrun ⊢
      obtain ⟨blanks, rfl, hblanks⟩ := anon_iff.mp ⟨t, hrun⟩
      have hlayout := anonBlanks_layout hblanks
      have hclosing := h.closing
      have hstarts : StartsToken (char ']' :: rest) := startsToken_cons (by decide) (by decide)
      obtain ⟨t', hignored⟩ := ignored_complete hlayout hstarts
      refine (hclosing.layout hlayout).bracket (.inl ⟨_, t', hignored, ?_⟩)
      rw [List.length_cons]
      omega

theorem Pieced.token (hrule : rule.avoids (char '[' :: marks) apart = true)
    (htoken : rule.isToken = true) {t : Trace RuleName} (hrun : Run turtle rule input (.ok rest) t)
    (h : Pieced fork old rest) : Pieced fork old input := by
  have hsame : rule.avoids (char '[' :: marks) (fun _ => false) = true := by
    cases rule <;> first | exact hrule | cases htoken
  obtain ⟨text, rfl, htext⟩ := hrun.avoids (S := fun _ => false) (by decide +kernel)
    (fun _ hname => absurd hname Bool.false_ne_true) hsame
  exact h.bytes htext

/-- Where a match ends between pieces, it begins between pieces.  The induction on the
length of the input is for property lists, the list of verbs inside being shorter. -/
theorem pieced_of_keeps (bound : Nat) (hbound : input.length ≤ bound)
    (hrule : rule.avoids (char '[' :: marks) apart = true) (h : Keeps turtle rule input rest k)
    (hstays : Stays fork old rule input rest) (hrest : Pieced fork old rest) :
    Pieced fork old input := by
  induction bound using Nat.strongRecOn generalizing rule input rest k with
  | ind bound hshorter =>
  induction h with
  | token htoken hrun => exact hrest.token hrule htoken hrun
  | seq h₁ h₂ ih₁ ih₂ =>
      simp only [Rule.avoids, Bool.and_eq_true] at hrule
      have hmiddle := ih₂ (h₁.length_le.trans hbound) hrule.2
        (hstays.sub fun hoccurs => .seqSecond h₁ hoccurs) hrest
      exact ih₁ hbound hrule.1 (hstays.sub fun hoccurs => .seqFirst hoccurs h₂) hmiddle
  | sorFirst _ ih =>
      simp only [Rule.avoids, Bool.and_eq_true] at hrule
      exact ih hbound hrule.1 (hstays.sub fun hoccurs => .sorFirst hoccurs) hrest
  | sorSecond hfirst _ ih =>
      simp only [Rule.avoids, Bool.and_eq_true] at hrule
      exact ih hbound hrule.2 (hstays.sub fun hoccurs => .sorSecond hfirst hoccurs) hrest
  | starNext h₁ h₂ ih₁ ih₂ =>
      have hmiddle := ih₂ (h₁.length_le.trans hbound) hrule
        (hstays.sub fun hoccurs => .starMore h₁ hoccurs) hrest
      exact ih₁ hbound hrule (hstays.sub fun hoccurs => .starFirst hoccurs h₂) hmiddle
  | starDone _ => exact hrest
  | must _ ih => exact ih hbound hrule (hstays.sub fun hoccurs => .must hoccurs) hrest
  | @ref name input rest k h ih =>
      cases hwhole : whole name with
      | false =>
          exact ih hbound (apart_closed name hrule hwhole)
            (hstays.sub fun hoccurs => .ref hoccurs) hrest
      | true =>
          have hpiece : readsPiece name = true → Pieced fork old input := by
            intro hpiece
            obtain ⟨_, hrun, -⟩ := (Keeps.ref h).run
            exact hrest.piece hpiece hrun hstays
          cases name
          all_goals first
            | exact hpiece rfl
            | exact absurd hwhole Bool.false_ne_true
            | skip
          case blankNodePropertyList q =>
              obtain ⟨m₁, m₂, m₃, _, _, _, rfl, hbegin, hlayout, hverbs, _, _, hlayout', hclose⟩ :=
                propertyList_inv (.ref h)
              obtain ⟨_, hignored, -⟩ := hlayout.run
              obtain ⟨_, hignored', -⟩ := hlayout'.run
              obtain ⟨gap, rfl, hgap⟩ := ignored_sound hignored
              obtain ⟨gap', rfl, hgap'⟩ := ignored_sound hignored'
              have hclosing := hrest.closing
              have hlength : m₂.length < bound := by
                simp only [List.length_cons, List.length_append] at hbound
                omega
              have hmiddle : Pieced fork old m₂ :=
                hshorter m₂.length hlength le_rfl (by cases q <;> decide) hverbs
                  (hstays.sub (occurs_propertyList hbegin hlayout hlayout' hclose))
                  (hclosing.layout hgap')
              refine (hmiddle.layout hgap).bracket (.inl ⟨_, _, hignored, ?_⟩)
              obtain ⟨chunks, -, rfl⟩ := hrest
              have hle := hverbs.length_le
              simp only [List.length_cons, List.length_append] at hle
              omega

/-! ### From a layout back to the beginning of a match -/

/-- The rules inside of pieces. -/
def inPiece (name : RuleName) : Bool := silent name && name != .ignored

theorem inPiece_closed (name : RuleName) (h : inPiece name = true) :
    ∀ other ∈ (turtle name).names, inPiece other = true := by
  cases name <;> first | decide | exact absurd h Bool.false_ne_true

/-- There is no layout inside of pieces. -/
theorem not_inPiece {start : Bytes} (hrule : rule.names.all inPiece = true) :
    ¬ Occurs turtle .ignored start stop rule input rest := by
  intro h
  have hnone := h.names (S := fun name => inPiece name = true) inPiece_closed
    (List.all_eq_true.mp hrule)
  exact absurd hnone (by decide)

/-- The places of layout in a property list. -/
theorem ignored_propertyList {q : Bool} {start m₁ m₂ m₃ m₄ : Bytes} {k₁ k₂ k₃ k₄ : Trace RuleName}
    (hbegin : Keeps turtle (.ref .blankNodePropertyListBegin) input m₁ k₁)
    (hlayout : Keeps turtle (.ref .ignored) m₁ m₂ k₂)
    (hverbs : Keeps turtle (.ref (.predicateObjectList q)) m₂ m₃ k₃)
    (hlayout' : Keeps turtle (.ref .ignored) m₃ m₄ k₄)
    (h : Occurs turtle .ignored start stop (turtle (.blankNodePropertyList q)) input rest) :
    (start = m₁ ∧ stop = m₂) ∨
      Occurs turtle .ignored start stop (.ref (.predicateObjectList q)) m₂ m₃ ∨ start = m₃ := by
  have hignored : ∀ {input rest : Bytes},
      Occurs turtle .ignored start stop (.ref .ignored) input rest →
        start = input ∧ stop = rest := by
    intro input rest h
    rcases h.ref_inv with ⟨-, hat⟩ | h
    · exact hat
    · exact absurd h (not_inPiece (by decide))
  rcases h.seq_at hbegin with h | h
  · rcases h.ref_inv with ⟨hname, -⟩ | h
    · cases hname
    · exact absurd h (not_inPiece (by decide))
  rcases h.seq_at hlayout with h | h
  · exact .inl (hignored h)
  rcases h.seq_at hverbs with h | h
  · exact .inr (.inl h)
  rcases h.seq_at hlayout' with h | h
  · exact .inr (.inr (hignored h).1)
  · exact absurd h (Occurs.not_token rfl)

/-- From a layout inside of a match back to its beginning there are pieces. -/
theorem pieced_of_occurs (bound : Nat) (hbound : input.length ≤ bound)
    (hrule : rule.avoids (char '[' :: marks) apart = true)
    (h : Occurs turtle .ignored old stop rule input rest) (hne : old ≠ stop)
    (hfinal : (∀ b ∈ stop.head?, b ≠ char ']') → ∀ c ∈ fork.final.head?, c ≠ char ']')
    (hstays : Stays fork old rule input rest) : Pieced fork old input := by
  induction bound using Nat.strongRecOn generalizing rule input rest with
  | ind bound hshorter =>
  induction h with
  | here _ => exact .refl fork old
  | seqFirst _ hsecond ih =>
      simp only [Rule.avoids, Bool.and_eq_true] at hrule
      exact ih hbound hrule.1 (hstays.sub fun hoccurs => .seqFirst hoccurs hsecond)
  | seqSecond hfirst h ih =>
      simp only [Rule.avoids, Bool.and_eq_true] at hrule
      have hmiddle := ih (hfirst.length_le.trans hbound) hrule.2
        (hstays.sub fun hoccurs => .seqSecond hfirst hoccurs)
      obtain ⟨_, hk⟩ := h.keeps
      exact pieced_of_keeps bound hbound hrule.1 hfirst
        (hstays.sub fun hoccurs => .seqFirst hoccurs hk) hmiddle
  | sorFirst _ ih =>
      simp only [Rule.avoids, Bool.and_eq_true] at hrule
      exact ih hbound hrule.1 (hstays.sub fun hoccurs => .sorFirst hoccurs)
  | sorSecond hfirst _ ih =>
      simp only [Rule.avoids, Bool.and_eq_true] at hrule
      exact ih hbound hrule.2 (hstays.sub fun hoccurs => .sorSecond hfirst hoccurs)
  | starFirst _ hmore ih =>
      exact ih hbound hrule (hstays.sub fun hoccurs => .starFirst hoccurs hmore)
  | @starMore body _ _ _ _ hfirst h ih =>
      have hmiddle := ih (hfirst.length_le.trans hbound) hrule
        (hstays.sub fun hoccurs => .starMore hfirst hoccurs)
      have hbody : body.avoids (char '[' :: marks) apart = true := hrule
      obtain ⟨_, hk⟩ := h.keeps
      exact pieced_of_keeps bound hbound hbody hfirst
        (hstays.sub fun hoccurs => .starFirst hoccurs hk) hmiddle
  | must _ ih => exact ih hbound hrule (hstays.sub fun hoccurs => .must hoccurs)
  | @ref name input rest h ih =>
      cases hwhole : whole name with
      | false =>
          exact ih hbound (apart_closed name hrule hwhole)
            (hstays.sub fun hoccurs => .ref hoccurs)
      | true =>
          cases name
          all_goals first
            | exact absurd hwhole Bool.false_ne_true
            | exact absurd h (not_inPiece (by decide))
            | skip
          case blankNodePropertyList q =>
              obtain ⟨_, hk⟩ := h.keeps
              obtain ⟨m₁, m₂, m₃, _, _, _, rfl, hbegin, hlayout, hverbs, _, _, hlayout', hclose⟩ :=
                propertyList_inv (.ref hk)
              obtain ⟨_, hignored, -⟩ := hlayout.run
              obtain ⟨gap, rfl, hgap⟩ := ignored_sound hignored
              obtain ⟨_, hrun, -⟩ := hverbs.run
              have hlength : m₂.length < bound := by
                simp only [List.length_cons, List.length_append] at hbound
                omega
              have hinner := hstays.sub
                (occurs_propertyList (q := q) hbegin hlayout hlayout' hclose)
              have hopening : Pieced fork old m₂ → old.length < m₂.length →
                  Pieced fork old (char '[' :: (gap ++ m₂)) := fun hmiddle hlonger =>
                (hmiddle.layout hgap).bracket (.inl ⟨_, _, hignored, hlonger⟩)
              rcases ignored_propertyList hbegin hlayout hverbs hlayout' h with
                ⟨rfl, rfl⟩ | hoccurs | rfl
              · exact (Pieced.refl fork _).bracket (.inr (hfinal (verbs_begin hrun)))
              · refine hopening (hshorter m₂.length hlength le_rfl (by cases q <;> decide) hoccurs
                  hinner) ?_
                -- the list of verbs does not begin with the layout
                obtain ⟨⟨before, rfl⟩, -⟩ := hoccurs.within
                cases before with
                | cons b before =>
                    simp only [List.length_cons, List.length_append]
                    omega
                | nil =>
                    exfalso
                    obtain ⟨_, hat⟩ := hoccurs.inner
                    obtain ⟨_, hidle⟩ := ignored_again hignored
                    exact hne (hat.rest_eq hidle).symm
              · exact hopening (pieced_of_keeps m₂.length le_rfl (by cases q <;> decide) hverbs
                  hinner (.refl fork _)) (hrun.consumes consuming_closed (by cases q <;> rfl))

end Pieced

end RdfParser.Turtle
