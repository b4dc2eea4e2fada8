/-
  Turtle/Derivation.lean --- the context-free reading of the grammar of triples.

  A PEG takes the first alternative that matches and repeats as long as it can.  Here the
  rules of triples are read as those of a context-free grammar instead: an object is a
  term, a collection or a property list, a list goes on with a comma or with semicolons,
  and any layout stands between two tokens.  Only the tokens themselves are those of the
  PEG.  The trees are the derivations, and what a tree derives the PEG matches, with the
  actions of the tree.
-/
import Mathlib.Data.Bool.AllAny
import Mathlib.Logic.Relation
import RdfParser.Turtle.Fork
import RdfParser.Turtle.Keywords
import RdfParser.Turtle.Syntax

set_option autoImplicit false

namespace RdfParser.Turtle

open RdfParser.Foundation RdfParser.Rdf RdfParser.Peg RdfParser.Peg.Rule

/-! ## Derivations -/

/-- Any layout. -/
def Gap (input rest : Bytes) : Prop := ∃ layout, IsLayout layout ∧ input = layout ++ rest

/-- Any layout and a character. -/
def Mark (c : Char) (input rest : Bytes) : Prop := Gap input (char c :: rest)

/-- Any number of semicolons. -/
def Semicolons : Bytes → Bytes → Prop := Relation.ReflTransGen (Mark ';')

/-- A token of the PEG, read by this rule. -/
structure Leaf.ReadAs (q : Bool) (name : RuleName) (leaf : Leaf) (input rest : Bytes) : Prop where
  readable : leaf.Readable q
  text : input = leaf.text ++ rest
  yields : Yields (.ref name) input (.ok rest) leaf.actions

/-- The rules for the tokens that may be a verb. -/
def verbRules : Bool → List RuleName
  | false => [.predicate]
  | true => [.var, .predicate]

/-- The rules for the tokens that may be a subject. -/
def subjectRules : Bool → List RuleName
  | false => [.iri, .blankNode]
  | true => [.var, .term]

/-- The `a` is a verb where it does not begin a name. -/
def VerbTree.Derives (q : Bool) : VerbTree → Bytes → Bytes → Prop
  | .term leaf, input, rest => ∃ name ∈ verbRules q, leaf.ReadAs q name input rest
  | .a, input, rest => input = char 'a' :: rest ∧
      ∀ after t, ¬ Run turtle (.ref .predicate) input (.ok after) t

/-- A verb and its objects. -/
def PairDerives (q : Bool) (verb : VerbTree) (object objects : Bytes → Bytes → Prop)
    (input rest : Bytes) : Prop :=
  ∃ m₁ m₂ m₃, verb.Derives q input m₁ ∧ Gap m₁ m₂ ∧ object m₂ m₃ ∧ objects m₃ rest

/-- A property list in its brackets. -/
def Bracketed (list : Bytes → Bytes → Prop) (input rest : Bytes) : Prop :=
  ∃ m₁ m₂ m₃, input = char '[' :: m₁ ∧ Gap m₁ m₂ ∧ list m₂ m₃ ∧ Mark ']' m₃ rest

/-- The members of a collection in its parentheses. -/
def Parenthesized (members : Bytes → Bytes → Prop) (input rest : Bytes) : Prop :=
  ∃ m₁ m₂, input = char '(' :: m₁ ∧ members m₁ m₂ ∧ Mark ')' m₂ rest

mutual

def ObjectTree.Derives (q : Bool) : ObjectTree → Bytes → Bytes → Prop
  | .term leaf => leaf.ReadAs q (leafRule q)
  | .collection members => Parenthesized (members.Members q)
  | .blankNodePropertyList list => Bracketed (list.Derives q)

/-- The members of a collection. -/
def ObjectsTree.Members (q : Bool) : ObjectsTree → Bytes → Bytes → Prop
  | .nil, input, rest => input = rest
  | .cons object objects, input, rest =>
      ∃ m₁ m₂, Gap input m₁ ∧ object.Derives q m₁ m₂ ∧ objects.Members q m₂ rest

/-- The objects behind the first one. -/
def ObjectsTree.Further (q : Bool) : ObjectsTree → Bytes → Bytes → Prop
  | .nil, input, rest => input = rest
  | .cons object objects, input, rest =>
      ∃ m₁ m₂ m₃, Mark ',' input m₁ ∧ Gap m₁ m₂ ∧ object.Derives q m₂ m₃ ∧
        objects.Further q m₃ rest

def ListTree.Derives (q : Bool) : ListTree → Bytes → Bytes → Prop
  | .last verb object objects, input, rest =>
      ∃ m, PairDerives q verb (object.Derives q) (objects.Further q) input m ∧ Semicolons m rest
  | .more verb object objects next, input, rest =>
      ∃ m₁ m₂ m₃ m₄, PairDerives q verb (object.Derives q) (objects.Further q) input m₁ ∧
        Semicolons m₁ m₂ ∧ Mark ';' m₂ m₃ ∧ Gap m₃ m₄ ∧ next.Derives q m₄ rest

end

/-- A collection is a subject in documents only. -/
def SubjectTree.Derives (q : Bool) : SubjectTree → Bytes → Bytes → Prop
  | .term leaf, input, rest => ∃ name ∈ subjectRules q, leaf.ReadAs q name input rest
  | .collection members, input, rest => q = false ∧ Parenthesized (members.Members q) input rest

/-- A statement up to its full stop. -/
def StatementTree.Derives (q : Bool) : StatementTree → Bytes → Bytes → Prop
  | .tripleSeq1 subject list, input, rest =>
      ∃ m₁ m₂ m₃, subject.Derives q input m₁ ∧ Gap m₁ m₂ ∧ list.Derives q m₂ m₃ ∧
        Mark '.' m₃ rest
  | .tripleSeq2 list none, input, rest =>
      ∃ m, Bracketed (list.Derives q) input m ∧ Mark '.' m rest
  | .tripleSeq2 list (some more), input, rest =>
      ∃ m₁ m₂ m₃, Bracketed (list.Derives q) input m₁ ∧ Gap m₁ m₂ ∧ more.Derives q m₂ m₃ ∧
        Mark '.' m₃ rest

/-! ## What a tree derives is matched -/

section Completeness

variable {q : Bool} {input middle rest : Bytes}

/-- In front of what such a rule matches there is no layout. -/
theorem startsToken_of_yields {name : RuleName} {actions : Trace RuleName}
    (hname : ((char '#' :: spaces).all fun b => refusesWithin turtle b 12 name) = true)
    (h : Yields (.ref name) input (.ok rest) actions) : StartsToken input := by
  intro b hb
  have hlist : b ∉ char '#' :: spaces := by
    intro hmem
    obtain ⟨_, hrun, -⟩ := h
    cases input with
    | nil => cases hb
    | cons c input =>
        obtain rfl := Option.mem_some_iff.mp hb
        have hascii : ∀ b ∈ char '#' :: spaces, b.toNat < 128 :=
          List.all_iff_forall_prop.mp (by decide)
        exact Run.not_matches (hascii c hmem) (List.all_eq_true.mp hname c hmem) hrun
  rw [List.mem_cons, not_or] at hlist
  exact ⟨eq_false_of_ne_true fun hspace => hlist.2 (mem_spaces.mpr hspace), hlist.1⟩

theorem Gap.yields (h : Gap input rest) (hrest : StartsToken rest) :
    Yields (.ref .ignored) input (.ok rest) [] := by
  obtain ⟨layout, hlayout, rfl⟩ := h
  obtain ⟨_, hrun⟩ := ignored_complete hlayout hrest
  exact ignored_yields hrun

/-- The characters behind the parts of a statement. -/
abbrev punctuation : List Char := [',', ';', ')', ']', '.']

theorem punctuation_starts {c : Char} (hc : c ∈ punctuation) (more : Bytes) :
    StartsToken (char c :: more) := by
  have hplain : ∀ c ∈ punctuation, isSpace (char c) = false ∧ char c ≠ char '#' :=
    List.all_iff_forall_prop.mp (by decide)
  exact startsToken_cons (hplain c hc).1 (hplain c hc).2

theorem Mark.yields {c : Char} (h : Mark c input rest) (hc : c ∈ punctuation) :
    Yields (.ref .ignored) input (.ok (char c :: rest)) [] ∧
      Yields (ch c) (char c :: rest) (.ok rest) [] :=
  ⟨Gap.yields h (punctuation_starts hc rest), [], .byteOk (beq_self_eq_true _), rfl⟩

theorem Mark.follows {c : Char} {chars : List Char} (h : Mark c input rest)
    (hc : c ∈ punctuation) (hmem : c ∈ chars) : Follows chars input := by
  obtain ⟨t, hrun, -⟩ := (h.yields hc).1
  exact ⟨c, hmem, rest, t, hrun⟩

/-! ### Terms and verbs -/

theorem VerbTree.Derives.yields {verb : VerbTree} (h : verb.Derives q input rest) :
    Yields (.ref (.verb q)) input (.ok rest) (verb.actions q) := by
  cases verb with
  | term leaf =>
      obtain ⟨name, hname, -, -, hleaf⟩ := h
      have hbody : Yields (turtle (.verb q)) input (.ok rest) leaf.actions := by
        cases q with
        | false =>
            obtain rfl := List.mem_singleton.mp hname
            exact hleaf.choose
        | true =>
            rcases List.mem_cons.mp hname with rfl | hname
            · exact hleaf.choose.choose
            · obtain rfl := List.mem_singleton.mp hname
              obtain ⟨_, hrun, -⟩ := id hleaf
              exact ((var_fails (by decide) (by decide) hrun).skip hleaf).choose
      exact hbody.ref_ok
  | a =>
      obtain ⟨rfl, hname⟩ := h
      have hpredicate := unmatched_fails rfl hname
      have hverbA : Yields (turtle .verbA) (char 'a' :: rest) (.ok rest) [] :=
        ⟨[], .byteOk (beq_self_eq_true _), rfl⟩
      have hbody : Yields (turtle (.verb q)) (char 'a' :: rest) (.ok rest) [(.verbA, [])] := by
        cases q with
        | false => exact hpredicate.skip hverbA.ref_ok
        | true =>
            have hvar := refused_fails (b := char 'a') (by decide) .var (by decide) rfl rest
            exact (hvar.skip hpredicate).skip hverbA.ref_ok
      exact hbody.ref_ok

/-! ### Objects and lists -/

/-- What the objects of a verb repeat. -/
abbrev furtherObject (q : Bool) : Rule RuleName :=
  seqOf [.ref .ignored, ch ',', .ref .ignored, .ref (.object q)]

/-- What the verbs of a subject repeat. -/
abbrev furtherVerb (q : Bool) : Rule RuleName :=
  seqOf [.ref .ignored, ch ';', opt (.seq (.ref .ignored) (.ref (.predicateObjectListInner q)))]

theorem furtherObject_stops (h : Follows afterObjects rest) :
    Yields (furtherObject q) rest .fail [] := by
  refine h.stops fun c hc more => (ch_fails ?_ more).stop
  rcases mem_afterObjects hc with rfl | rfl | rfl <;> decide

theorem furtherVerb_stops (h : Follows afterList rest) : Yields (furtherVerb q) rest .fail [] := by
  refine h.stops fun c hc more => (ch_fails ?_ more).stop
  have hcases : c = ']' ∨ c = '.' := by simpa using hc
  rcases hcases with rfl | rfl <;> decide

theorem Semicolons.follows (h : Semicolons input rest) (hrest : Follows afterObjects rest) :
    Follows afterObjects input := by
  rcases Relation.ReflTransGen.cases_head h with rfl | ⟨_, hmark, -⟩
  · exact hrest
  · exact hmark.follows (by decide) (by decide)

/-- A semicolon without a verb is a round that runs no action. -/
theorem Semicolons.yields {actions : Trace RuleName} (h : Semicolons input middle)
    (hmiddle : Follows afterObjects middle)
    (hmore : Yields (.star (furtherVerb q)) middle (.ok rest) actions) :
    Yields (.star (furtherVerb q)) input (.ok rest) actions := by
  induction h using Relation.ReflTransGen.head_induction_on with
  | refl => exact hmore
  | head hmark htail ih =>
      obtain ⟨hgap, hsemicolon⟩ := hmark.yields (by decide)
      have hnone := (Semicolons.follows htail hmiddle).stops fun c hc more =>
        inner_refused q hc more
      have hround : Yields (furtherVerb q) _ (.ok _) [] :=
        hgap.seq (hsemicolon.seq (hnone.skip ⟨[], .success, rfl⟩))
      exact hround.again ih

theorem PairDerives.yields {verb : VerbTree} {object objects : Bytes → Bytes → Prop}
    {left right : Trace RuleName}
    (hobject : ∀ {input rest}, object input rest →
      Yields (.ref (.object q)) input (.ok rest) left)
    (hobjects : ∀ {input}, objects input rest →
      Yields (.star (furtherObject q)) input (.ok rest) right)
    (h : PairDerives q verb object objects input rest) :
    Yields (.ref (.predicateObjectListInner q)) input (.ok rest)
      (verb.actions q ++ left ++ right ++ [(.predicateObjectListInner q, [])]) := by
  obtain ⟨m₁, m₂, m₃, hverb, hgap, hfirst, hmore⟩ := h
  have hfirst := hobject hfirst
  have hstarts : StartsToken m₂ := startsToken_of_yields (by cases q <;> decide) hfirst
  have hlist : Yields (.ref (.objectList q)) m₂ (.ok rest) (left ++ right) :=
    .ref rfl (hfirst.seq (hobjects hmore))
  have hbody : Yields (turtle (.predicateObjectListInner q)) input (.ok rest)
      (verb.actions q ++ left ++ right) := by
    rw [List.append_assoc]
    exact hverb.yields.seq ((hgap.yields hstarts).seq hlist)
  exact hbody.ref_ok

/-- A bracket, given that its list is matched. -/
theorem Bracketed.yields {list : Bytes → Bytes → Prop} {actions : Trace RuleName}
    (hlist : ∀ {input rest}, list input rest → Follows afterList rest →
      Yields (.ref (.predicateObjectList q)) input (.ok rest) actions)
    (h : Bracketed list input rest) :
    Yields (.ref (.blankNodePropertyList q)) input (.ok rest)
      ([(.blankNodePropertyListBegin, [])] ++ actions ++ [(.blankNodePropertyList q, [])]) := by
  obtain ⟨m₁, m₂, m₃, rfl, hgap, hinner, hclose⟩ := h
  obtain ⟨hgap', hbracket⟩ := hclose.yields (by decide)
  have hinner := hlist hinner (hclose.follows (by decide) (by decide))
  have hstarts : StartsToken m₂ := startsToken_of_yields (by cases q <;> decide) hinner
  have hbegin : Yields (turtle .blankNodePropertyListBegin) (char '[' :: m₁) (.ok m₁) [] :=
    ⟨[], .byteOk (beq_self_eq_true _), rfl⟩
  have hbody : Yields (turtle (.blankNodePropertyList q)) (char '[' :: m₁) (.ok rest)
      ([(.blankNodePropertyListBegin, [])] ++ ([] ++ (actions ++ ([] ++ [])))) :=
    hbegin.ref_ok.seq ((hgap.yields hstarts).seq (hinner.seq (hgap'.seq hbracket)))
  rw [List.append_nil, List.append_nil, List.nil_append] at hbody
  exact hbody.ref_ok

/-- A collection, given that its members are matched. -/
theorem Parenthesized.yields {members : Bytes → Bytes → Prop} {actions : Trace RuleName}
    (hmembers : ∀ {input rest}, members input rest → Follows [')'] rest →
      Yields (.star (.seq (.ref .ignored) (.ref (.object q)))) input (.ok rest) actions)
    (h : Parenthesized members input rest) :
    Yields (.ref (.collection q)) input (.ok rest)
      ([(.collectionBegin, [])] ++ actions ++ [(.collection q, [])]) := by
  obtain ⟨m₁, m₂, rfl, hinner, hclose⟩ := h
  obtain ⟨hgap, hparenthesis⟩ := hclose.yields (by decide)
  have hinner := hmembers hinner (hclose.follows (by decide) (by decide))
  have hbegin : Yields (turtle .collectionBegin) (char '(' :: m₁) (.ok m₁) [] :=
    ⟨[], .byteOk (beq_self_eq_true _), rfl⟩
  have hbody : Yields (turtle (.collection q)) (char '(' :: m₁) (.ok rest)
      ([(.collectionBegin, [])] ++ (actions ++ ([] ++ []))) :=
    hbegin.ref_ok.seq (hinner.seq (hgap.seq hparenthesis))
  rw [List.append_nil, List.append_nil] at hbody
  exact hbody.ref_ok

/-- Where a property list is matched there is no term. -/
theorem leaf_refused {actions : Trace RuleName}
    (h : Yields (.ref (.blankNodePropertyList q)) input (.ok rest) actions) :
    Yields (.ref (leafRule q)) input .fail [] ∧ Yields (.ref (.collection q)) input .fail [] := by
  obtain ⟨_, hrun, -⟩ := h
  obtain ⟨_, hk⟩ := hrun.keeps rfl
  have hanon := anon_refused hk
  obtain ⟨m, _, _, _, _, _, rfl, -⟩ := propertyList_inv hk
  have hlabel := refused_fails (b := char '[') (by decide) .blankNodeLabel (by decide) rfl m
  have hblank : Yields (.ref .blankNode) (char '[' :: m) .fail [] := .ref_fail (hlabel.skip hanon)
  have hliteral := refused_fails (b := char '[') (by decide) .literal (by decide) rfl m
  have hiri := refused_fails (b := char '[') (by decide) .iri (by decide) rfl m
  have hterm : Yields (.ref .term) (char '[' :: m) .fail [] :=
    .ref_fail (hliteral.skip (hblank.skip hiri))
  have hvar := refused_fails (b := char '[') (by decide) .var (by decide) rfl m
  refine ⟨?_, .ref_fail (refused_fails (b := char '[') (by decide) .collectionBegin (by decide)
    rfl m).stop⟩
  cases q with
  | false => exact hterm
  | true => exact .ref_fail (hvar.skip hterm)

mutual

theorem ObjectTree.yields : ∀ (object : ObjectTree) {input rest : Bytes},
    object.Derives q input rest →
    Yields (.ref (.object q)) input (.ok rest) (object.actions q)
  | .term leaf, input, rest, h => by
      have hbody : Yields (turtle (.object q)) input (.ok rest) leaf.actions := h.yields.choose
      exact hbody.ref_ok
  | .collection members, input, rest, h => by
      have hcollection := Parenthesized.yields (fun h hrest => members.members_yields h hrest) h
      obtain ⟨m, _, rfl, -⟩ := h
      have hleaf := refused_fails (b := char '(') (by decide) (leafRule q)
        (by cases q <;> decide) (by cases q <;> rfl) m
      have hbody : Yields (turtle (.object q)) (char '(' :: m) (.ok rest) _ :=
        hleaf.skip hcollection.choose
      have hobject : Yields (.ref (.object q)) (char '(' :: m) (.ok rest)
          (_ ++ [(.object q, [])]) := hbody.ref_ok
      simpa [ObjectTree.actions] using hobject
  | .blankNodePropertyList list, input, rest, h => by
      have hlist := Bracketed.yields (fun h hrest => list.yields h hrest) h
      obtain ⟨hleaf, hcollection⟩ := leaf_refused hlist
      have hbody : Yields (turtle (.object q)) input (.ok rest) _ :=
        hleaf.skip (hcollection.skip hlist)
      have hobject : Yields (.ref (.object q)) input (.ok rest) (_ ++ [(.object q, [])]) :=
        hbody.ref_ok
      simpa [ObjectTree.actions] using hobject

theorem ObjectsTree.members_yields : ∀ (objects : ObjectsTree) {input rest : Bytes},
    objects.Members q input rest → Follows [')'] rest →
    Yields (.star (.seq (.ref .ignored) (.ref (.object q)))) input (.ok rest)
      (objects.actions q)
  | .nil, input, rest, h, hrest => by
      obtain rfl : input = rest := h
      refine Yields.done (hrest.stops fun c hc more => ?_)
      obtain rfl := List.mem_singleton.mp hc
      exact object_refused q more
  | .cons object objects, input, rest, h, hrest => by
      obtain ⟨m₁, m₂, hgap, hobject, hobjects⟩ := h
      have hobject := object.yields hobject
      have hstarts : StartsToken m₁ := startsToken_of_yields (by cases q <;> decide) hobject
      exact ((hgap.yields hstarts).seq hobject).again (objects.members_yields hobjects hrest)

theorem ObjectsTree.further_yields : ∀ (objects : ObjectsTree) {input rest : Bytes},
    objects.Further q input rest → Follows afterObjects rest →
    Yields (.star (furtherObject q)) input (.ok rest) (objects.actions q)
  | .nil, input, rest, h, hrest => by
      obtain rfl : input = rest := h
      exact (furtherObject_stops hrest).done
  | .cons object objects, input, rest, h, hrest => by
      obtain ⟨m₁, m₂, m₃, hcomma, hgap, hobject, hobjects⟩ := h
      obtain ⟨hgap', hcomma⟩ := hcomma.yields (by decide)
      have hobject := object.yields hobject
      have hstarts : StartsToken m₂ := startsToken_of_yields (by cases q <;> decide) hobject
      have hround : Yields (furtherObject q) input (.ok m₃) (object.actions q) :=
        hgap'.seq (hcomma.seq ((hgap.yields hstarts).seq hobject))
      exact hround.again (objects.further_yields hobjects hrest)

/-- The first verb and the rounds behind it. -/
theorem ListTree.rounds : ∀ (list : ListTree) {input rest : Bytes}, list.Derives q input rest →
    Follows afterList rest →
    ∃ m left right, Yields (.ref (.predicateObjectListInner q)) input (.ok m) left ∧
      Yields (.star (furtherVerb q)) m (.ok rest) right ∧ list.actions q = left ++ right
  | .last verb object objects, input, rest, h, hrest => by
      obtain ⟨m, hpair, hsemicolons⟩ := h
      have hrest' : Follows afterObjects rest := hrest.mono (by decide)
      have hm := hsemicolons.follows hrest'
      refine ⟨m, _, [], hpair.yields (fun h => object.yields h)
        (fun h => objects.further_yields h hm), ?_, (List.append_nil _).symm⟩
      exact hsemicolons.yields hrest' (furtherVerb_stops hrest).done
  | .more verb object objects next, input, rest, h, hrest => by
      obtain ⟨m₁, m₂, m₃, m₄, hpair, hsemicolons, hmark, hgap, hnext⟩ := h
      obtain ⟨m₅, left, right, hinner, hrounds, hactions⟩ := next.rounds hnext hrest
      have hm₂ : Follows afterObjects m₂ := hmark.follows (by decide) (by decide)
      have hm₁ := hsemicolons.follows hm₂
      obtain ⟨hgap', hsemicolon⟩ := hmark.yields (by decide)
      have hstarts : StartsToken m₄ := startsToken_of_yields (by cases q <;> decide) hinner
      have hround : Yields (furtherVerb q) m₂ (.ok m₅) left :=
        hgap'.seq (hsemicolon.seq ((hgap.yields hstarts).seq hinner).choose)
      refine ⟨m₁, _, left ++ right, hpair.yields (fun h => object.yields h)
        (fun h => objects.further_yields h hm₁),
        hsemicolons.yields hm₂ (hround.again hrounds), ?_⟩
      rw [ListTree.actions, hactions]

theorem ListTree.yields : ∀ (list : ListTree) {input rest : Bytes}, list.Derives q input rest →
    Follows afterList rest →
    Yields (.ref (.predicateObjectList q)) input (.ok rest) (list.actions q)
  | list, input, rest, h, hrest => by
      obtain ⟨m, left, right, hinner, hrounds, hactions⟩ := list.rounds h hrest
      rw [hactions]
      exact .ref rfl (hinner.seq hrounds)

end

/-! ### Statements -/

theorem SubjectTree.Derives.yields {subject : SubjectTree} (h : subject.Derives q input rest) :
    Yields (.ref (.subject q)) input (.ok rest) (subject.actions q ++ [(.subject q, [])]) := by
  suffices hbody : Yields (turtle (.subject q)) input (.ok rest) (subject.actions q) from
    hbody.ref_ok
  cases subject with
  | term leaf =>
      obtain ⟨name, hname, -, -, hleaf⟩ := h
      obtain ⟨_, hrun, -⟩ := id hleaf
      cases q with
      | false =>
          rcases List.mem_cons.mp hname with rfl | hname
          · exact hleaf.choose
          · obtain rfl := List.mem_singleton.mp hname
            obtain ⟨b, more, hb, rfl⟩ := blankNode_begins hrun
            have hiri : Yields (.ref .iri) (b :: more) .fail [] := by
              refine refused_fails ?_ .iri ?_ rfl more
              all_goals rcases hb with rfl | rfl <;> decide
            exact hiri.skip hleaf.choose
      | true =>
          rcases List.mem_cons.mp hname with rfl | hname
          · exact hleaf.choose
          · obtain rfl := List.mem_singleton.mp hname
            exact (var_fails (by decide) (by decide) hrun).skip hleaf
  | collection members =>
      obtain ⟨rfl, hmembers⟩ := h
      have hcollection := Parenthesized.yields (fun h hrest => members.members_yields h hrest)
        hmembers
      obtain ⟨m, _, rfl, -⟩ := hmembers
      have hiri := refused_fails (b := char '(') (by decide) .iri (by decide) rfl m
      have hblank := refused_fails (b := char '(') (by decide) .blankNode (by decide) rfl m
      exact hiri.skip (hblank.skip hcollection)

/-- A statement that begins with a property list has no other subject. -/
theorem tripleSeq2_yields_of {actions more : Trace RuleName} {m₁ m₂ : Bytes}
    (hlist : Yields (.ref (.blankNodePropertyList q)) input (.ok m₁) actions)
    (hgap : Yields (.ref .ignored) m₁ (.ok m₂) [])
    (hmore : Yields (opt (.ref (.predicateObjectList q))) m₂ (.ok rest) more) :
    Yields (.ref (.triple q)) input (.ok rest)
      (actions ++ more ++ [(.tripleSeq2 q, []), (.triple q, [])]) := by
  obtain ⟨_, hrun, -⟩ := id hlist
  obtain ⟨_, hk⟩ := hrun.keeps rfl
  have hseq1 : Yields (.ref (.tripleSeq1 q)) input .fail [] := .ref_fail (subject_refused hk).stop
  have hseq2 : Yields (turtle (.tripleSeq2 q)) input (.ok rest) (actions ++ ([] ++ more)) :=
    hlist.seq (hgap.seq hmore)
  have hbody : Yields (turtle (.triple q)) input (.ok rest) _ := hseq1.skip hseq2.ref_ok
  have htriple : Yields (.ref (.triple q)) input (.ok rest)
      ([] ++ (actions ++ ([] ++ more) ++ [(.tripleSeq2 q, [])]) ++ [(.triple q, [])]) :=
    hbody.ref_ok
  simpa using htriple

theorem tripleExtended_of_triple {actions : Trace RuleName}
    (htriple : Yields (.ref (.triple q)) input (.ok middle) actions)
    (hstop : Mark '.' middle rest) :
    Yields (.ref (.tripleExtended q)) input (.ok rest) actions := by
  obtain ⟨hgap, hstop⟩ := hstop.yields (by decide)
  have hbody : Yields (turtle (.tripleExtended q)) input (.ok rest) (actions ++ ([] ++ [])) :=
    htriple.seq (hgap.seq hstop)
  rw [List.append_nil, List.append_nil] at hbody
  exact .ref rfl hbody

/-- What a tree derives is matched with the actions of the tree. -/
theorem StatementTree.Derives.yields {statement : StatementTree}
    (h : statement.Derives q input rest) :
    Yields (.ref (.tripleExtended q)) input (.ok rest) (statement.actions q) := by
  cases statement with
  | tripleSeq1 subject list =>
      obtain ⟨m₁, m₂, m₃, hsubject, hgap, hlist, hstop⟩ := h
      have hlist := list.yields hlist (hstop.follows (by decide) (by decide))
      have hstarts : StartsToken m₂ := startsToken_of_yields (by cases q <;> decide) hlist
      have hseq1 : Yields (turtle (.tripleSeq1 q)) input (.ok m₃)
          (subject.actions q ++ [(.subject q, [])] ++ ([] ++ list.actions q)) :=
        hsubject.yields.seq ((hgap.yields hstarts).seq hlist)
      have hbody : Yields (turtle (.triple q)) input (.ok m₃) _ := hseq1.ref_ok.choose
      have htriple : Yields (.ref (.triple q)) input (.ok m₃)
          (_ ++ [(.tripleSeq1 q, [])] ++ [(.triple q, [])]) := hbody.ref_ok
      have hstatement := tripleExtended_of_triple htriple hstop
      simpa [StatementTree.actions] using hstatement
  | tripleSeq2 list more =>
      cases more with
      | none =>
          obtain ⟨m, hlist, hstop⟩ := h
          have hlist := Bracketed.yields (fun h hrest => list.yields h hrest) hlist
          obtain ⟨hgap, -⟩ := hstop.yields (by decide)
          have hnone : Yields (.ref (.predicateObjectList q)) (char '.' :: rest) .fail [] :=
            .ref_fail (inner_refused q (c := '.') (by decide) rest).stop
          have htriple := tripleSeq2_yields_of hlist hgap (hnone.skip ⟨[], .success, rfl⟩)
          have hstop : Mark '.' (char '.' :: rest) rest := ⟨[], .nil, rfl⟩
          have hstatement := tripleExtended_of_triple htriple hstop
          simpa [StatementTree.actions] using hstatement
      | some more =>
          obtain ⟨m₁, m₂, m₃, hlist, hgap, hmore, hstop⟩ := h
          have hlist := Bracketed.yields (fun h hrest => list.yields h hrest) hlist
          have hmore := more.yields hmore (hstop.follows (by decide) (by decide))
          have hstarts : StartsToken m₂ := startsToken_of_yields (by cases q <;> decide) hmore
          have htriple := tripleSeq2_yields_of hlist (hgap.yields hstarts) hmore.choose
          have hstatement := tripleExtended_of_triple htriple hstop
          simpa [StatementTree.actions] using hstatement

end Completeness

end RdfParser.Turtle
