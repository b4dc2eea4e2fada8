/-
  Turtle/Meaning.lean --- what a statement as it is written stands for.

  A tree of spellings becomes a tree of elements as soon as the prefixes and the base are
  known.  The actions of the one tree then do what the builder does for the other, and
  they throw where a spelling stands for no element.  `Statement.after` follows the
  builder over a whole statement, so that statements can be put one behind the other.
-/
import RdfParser.Turtle.History
import RdfParser.Turtle.Image
import RdfParser.Turtle.Nesting
import RdfParser.Turtle.Syntax

set_option autoImplicit false

namespace RdfParser.Turtle

open RdfParser.Foundation RdfParser.Rdf RdfParser.Peg RdfParser.Peg.Rule

/-! ## From spellings to elements -/

section Resolve

variable (q : Bool) (prefixMap : PrefixMap) (base : Bytes)

/-- A term; the node of `[]` is made when it is read. -/
def Leaf.resolve : Leaf → Except Fault (Object q)
  | .anon _ => .ok .anon
  | leaf => (leaf.element q prefixMap base 0).map .term

def VerbTree.resolve : VerbTree → Except Fault (Element q)
  | .term leaf => leaf.element q prefixMap base 0
  | .a => .ok (Element.ofTerm q (uriRef rdfTypeFixedURI))

mutual

def ObjectTree.resolve : ObjectTree → Except Fault (Object q)
  | .term leaf => leaf.resolve q prefixMap base
  | .collection members => do
      return .collection (← members.resolve)
  | .blankNodePropertyList list => do
      return .blankNodePropertyList (← list.resolve)

def ObjectsTree.resolve : ObjectsTree → Except Fault (Objects q)
  | .nil => .ok .nil
  | .cons object objects => do
      return .cons (← object.resolve) (← objects.resolve)

def ListTree.resolve : ListTree → Except Fault (PredicateObjectList q)
  | .last verb object objects => do
      return .last (← verb.resolve q prefixMap base) (← object.resolve) (← objects.resolve)
  | .more verb object objects next => do
      return .more (← verb.resolve q prefixMap base) (← object.resolve) (← objects.resolve)
        (← next.resolve)

end

def SubjectTree.resolve : SubjectTree → Except Fault (Subject q)
  | .term (.anon _) => .ok .anon
  | .term leaf => (leaf.element q prefixMap base 0).map .term
  | .collection members => do
      return .collection (← members.resolve q prefixMap base)

def StatementTree.resolve : StatementTree → Except Fault (Statement q)
  | .tripleSeq1 subject list => do
      return .tripleSeq1 (← subject.resolve q prefixMap base) (← list.resolve q prefixMap base)
  | .tripleSeq2 list none => do
      return .tripleSeq2 (← list.resolve q prefixMap base) none
  | .tripleSeq2 list (some more) => do
      return .tripleSeq2 (← list.resolve q prefixMap base)
        (some (← more.resolve q prefixMap base))

end Resolve

/-! ## Performing the steps of the builder -/

section Performs

variable {q : Bool} {prefixMap : PrefixMap} {base : Bytes}

/-- The prefixes and the base of the state, and no tag is pending. -/
structure State.Within (prefixMap : PrefixMap) (base : Bytes) (s : State q) : Prop where
  settled : s.Settled
  prefixMap : s.prefixMap = prefixMap
  base : s.base = base

/-- The two states differ at most in what one term leaves behind. -/
abbrev Same (b s : State q) : Prop := Image (fun e : Element q => e) b s

/-- The actions do what these steps of the builder do. -/
def Performs (prefixMap : PrefixMap) (base : Bytes) (actions : Trace RuleName)
    (builder : List (BuilderAction q)) : Prop :=
  ∀ b s b₁ : State q, Same b s → s.Within prefixMap base → runBuilder builder b = .ok b₁ →
    ∃ s₁, runActions actions s = (s₁, none) ∧ Same b₁ s₁ ∧ s₁.Within prefixMap base

theorem runBuilder_append_inv {left right : List (BuilderAction q)} {s s' : State q}
    (h : runBuilder (left ++ right) s = .ok s') :
    ∃ s₁, runBuilder left s = .ok s₁ ∧ runBuilder right s₁ = .ok s' := by
  cases hleft : runBuilder left s with
  | ok s₁ => exact ⟨s₁, rfl, (runBuilder_append hleft).symm.trans h⟩
  | error fault =>
      unfold runBuilder at h hleft
      rw [List.foldlM_append, hleft] at h
      cases h

namespace Performs

theorem nil : Performs prefixMap base [] ([] : List (BuilderAction q)) := by
  intro b s b₁ hsame hs hrun
  obtain rfl := Except.ok.inj hrun
  exact ⟨s, rfl, hsame, hs⟩

theorem append {left right : Trace RuleName} {builder builder' : List (BuilderAction q)}
    (hleft : Performs prefixMap base left builder)
    (hright : Performs prefixMap base right builder') :
    Performs prefixMap base (left ++ right) (builder ++ builder') := by
  intro b s b₂ hsame hs hrun
  obtain ⟨b₁, hrun₁, hrun₂⟩ := runBuilder_append_inv hrun
  obtain ⟨s₁, hs₁, hsame₁, hwithin₁⟩ := hleft b s b₁ hsame hs hrun₁
  obtain ⟨s₂, hs₂, hsame₂, hwithin₂⟩ := hright b₁ s₁ b₂ hsame₁ hwithin₁ hrun₂
  refine ⟨s₂, ?_, hsame₂, hwithin₂⟩
  rw [runActions_append, hs₁]
  exact hs₂

end Performs

/-- The rules whose actions build triples. -/
def builders (q : Bool) : List RuleName :=
  [.triple q, .tripleSeq1 q, .tripleSeq2 q, .subject q, .verb q, .object q, .collectionBegin,
    .collection q, .blankNodePropertyListBegin, .blankNodePropertyList q,
    .predicateObjectListInner q]

theorem single_of_builders {name : RuleName} (hname : name ∈ builders q) :
    single q name = true := by
  have hall : ∀ name ∈ builders q, single q name = true := by cases q <;> decide
  exact hall name hname

/-- They leave the prefixes and the base alone and raise no flag. -/
theorem apply_within {name : RuleName} (hname : name ∈ builders q) {text : Bytes} {s s₁ : State q}
    (h : apply name text s = .ok s₁) (hs : s.Within prefixMap base) :
    s₁.Within prefixMap base := by
  have hraising : ∀ name ∈ builders q, raising name = false := by cases q <;> decide
  have hnaming : ∀ name ∈ builders q, closesBracket name = false → naming name = false := by
    cases q <;> decide
  have hsettled := apply_settled hs.settled h (hraising name hname)
  cases hcloses : closesBracket name with
  | false =>
      have hagrees := apply_agrees h (hnaming name hname hcloses)
      exact ⟨hsettled, hagrees.prefixMap.trans hs.prefixMap, hagrees.base.trans hs.base⟩
  | true =>
      cases name <;> first | exact absurd hcloses Bool.false_ne_true | skip
      case collection =>
          have hbasic := State.processCollection_basic h
          exact ⟨hsettled, (congrArg BasicState.prefixMap hbasic).trans hs.prefixMap,
            (congrArg BasicState.base hbasic).trans hs.base⟩
      case blankNodePropertyList =>
          have hbasic := State.processBlankNodePropertyList_basic h
          exact ⟨hsettled, (congrArg BasicState.prefixMap hbasic).trans hs.prefixMap,
            (congrArg BasicState.base hbasic).trans hs.base⟩

namespace Performs

/-- A step of the triple level. -/
theorem rule (name : RuleName) (hname : name ∈ builders q) :
    Performs prefixMap base [(name, [])] [(.rule name : BuilderAction q)] := by
  intro b s b₁ hsame hs hrun
  have happly : apply name [] b = .ok b₁ := by
    cases hstep : apply name [] b with
    | error fault =>
        have hone : (BuilderAction.rule name).run b = .error fault := hstep
        simp [runBuilder, hone, bind, Except.bind] at hrun
    | ok b' =>
        rw [runBuilder_cons (show (BuilderAction.rule name).run b = .ok b' from hstep)] at hrun
        exact congrArg _ (Except.ok.inj hrun)
  obtain ⟨s₁, hs₁, hsame₁⟩ := hsame.action (fun _ => rfl) (fun _ _ => rfl)
    (single_of_builders hname) happly
  exact ⟨s₁, by rw [runActions_cons_ok hs₁, runActions_nil], hsame₁, apply_within hname hs₁ hs⟩

/-- A term becomes the current element. -/
theorem element {actions : Trace RuleName} {e : Element q}
    (h : ∀ s : State q, s.Within prefixMap base → ∃ s₁, runActions actions s = (s₁, none) ∧
      ReadsTerm s s₁ e s.latestBNLabel) :
    Performs prefixMap base actions [.term e] := by
  intro b s b₁ hsame hs hrun
  obtain rfl : { b with element := e } = b₁ := Except.ok.inj hrun
  obtain ⟨s₁, hs₁, hreads⟩ := h s hs
  have hothers := hreads.others
  refine ⟨s₁, hs₁, ?_, hreads.settled, hreads.prefixMap.trans hs.prefixMap,
    hreads.base.trans hs.base⟩
  have hbasic : ∀ {α : Type} (f : State q → α),
      f s₁ = f { s with toBasicState := s₁.toBasicState } := fun f => congrArg f hothers
  exact { hsame with
    element := hreads.element
    prefixMap := hreads.prefixMap.trans hsame.prefixMap
    base := hreads.base.trans hsame.base
    label := hreads.latestBNLabel.trans hsame.label
    settled := ⟨hsame.settled.typeTagFound, hsame.settled.langTagFound⟩
    settled' := hreads.settled
    oneStep := (hbasic (·.verbStackOneStepPreSize)).trans hsame.oneStep
    verbStack := (hbasic (·.verbStack)).trans hsame.verbStack
    subject := (hbasic (·.subject)).trans hsame.subject
    list := (hbasic (·.bnplCollectionList)).trans hsame.list
    listStack := (hbasic (·.bnplCollectionListStack)).trans hsame.listStack
    pairs := (hbasic (·.verbObjectPairList)).trans hsame.pairs
    pairStack := (hbasic (·.verbObjectPairListStack)).trans hsame.pairStack
    firstBNPL := (hbasic (·.firstBNPL)).trans hsame.firstBNPL
    inserted := (hbasic (·.inserted)).trans hsame.inserted }

/-- `[]` becomes a new node. -/
theorem anon : Performs prefixMap base [(.anon, []), (.blankNode, [])]
    [(.rule .anon : BuilderAction q), .rule .blankNode] := by
  intro b s b₁ hsame hs hrun
  obtain rfl := Except.ok.inj hrun
  refine ⟨_, rfl, ?_, ⟨hs.settled.typeTagFound, hs.settled.langTagFound⟩, hs.prefixMap, hs.base⟩
  exact { hsame with
    element := congrArg (fun n => Action.blankNodeElement q (blankNodeLabel n)) hsame.label
    label := congrArg (· + 1) hsame.label
    settled := ⟨hsame.settled.typeTagFound, hsame.settled.langTagFound⟩
    settled' := ⟨hsame.settled'.typeTagFound, hsame.settled'.langTagFound⟩ }

end Performs

/-! ## Trees -/

/-- The spelling may stand in the grammar `q`, and a verb is not `[]`. -/
def VerbTree.Legal (q : Bool) : VerbTree → Prop
  | .term leaf => leaf.Allowed q ∧ ∀ text, leaf ≠ .anon text
  | .a => True

mutual

def ObjectTree.Legal (q : Bool) : ObjectTree → Prop
  | .term leaf => leaf.Allowed q
  | .collection members => members.Legal q
  | .blankNodePropertyList list => list.Legal q

def ObjectsTree.Legal (q : Bool) : ObjectsTree → Prop
  | .nil => True
  | .cons object objects => object.Legal q ∧ objects.Legal q

def ListTree.Legal (q : Bool) : ListTree → Prop
  | .last verb object objects => verb.Legal q ∧ object.Legal q ∧ objects.Legal q
  | .more verb object objects next =>
      verb.Legal q ∧ object.Legal q ∧ objects.Legal q ∧ next.Legal q

end

def SubjectTree.Legal (q : Bool) : SubjectTree → Prop
  | .term leaf => leaf.Allowed q
  | .collection members => members.Legal q

def StatementTree.Legal (q : Bool) : StatementTree → Prop
  | .tripleSeq1 subject list => subject.Legal q ∧ list.Legal q
  | .tripleSeq2 list rest => list.Legal q ∧ ∀ more ∈ rest, more.Legal q

theorem ok_of_bind {α β : Type} {x : Except Fault α} {f : α → Except Fault β} {r : β}
    (h : x >>= f = .ok r) : ∃ a, x = .ok a ∧ f a = .ok r := by
  cases x with
  | error fault => cases h
  | ok a => exact ⟨a, rfl, h⟩

/-- The element of a spelling other than `[]` does not depend on the labels. -/
theorem Leaf.element_label {leaf : Leaf} (hanon : ∀ text, leaf ≠ .anon text) (n : Nat) :
    leaf.element q prefixMap base n = leaf.element q prefixMap base 0 := by
  cases leaf with
  | anon text => exact absurd rfl (hanon text)
  | _ => rfl

theorem Leaf.nextLabel_label {leaf : Leaf} (hanon : ∀ text, leaf ≠ .anon text) (n : Nat) :
    leaf.nextLabel n = n := by
  cases leaf with
  | anon text => exact absurd rfl (hanon text)
  | _ => rfl

/-! ### From the tree of elements to the actions -/

theorem Leaf.performs {leaf : Leaf} (hallowed : leaf.Allowed q)
    (hanon : ∀ text, leaf ≠ .anon text) {e : Element q}
    (h : leaf.element q prefixMap base 0 = .ok e) :
    Performs prefixMap base leaf.actions [.term e] := by
  refine .element fun s hs => ?_
  rw [← Leaf.element_label hanon s.latestBNLabel, ← hs.prefixMap, ← hs.base] at h
  obtain ⟨s₁, hs₁, hreads⟩ := Leaf.runActions_ok hs.settled hallowed h
  rw [Leaf.nextLabel_label hanon] at hreads
  exact ⟨s₁, hs₁, hreads⟩

theorem VerbTree.performs {verb : VerbTree} (hlegal : verb.Legal q) {e : Element q}
    (h : verb.resolve q prefixMap base = .ok e) :
    Performs prefixMap base (verb.actions q) [.term e, .rule (.verb q)] := by
  have hverb := @Performs.rule q prefixMap base (.verb q) (by simp [builders])
  cases verb with
  | term leaf => exact (Leaf.performs hlegal.1 hlegal.2 h).append hverb
  | a =>
      obtain rfl := Except.ok.inj h
      have ha : Performs prefixMap base [(.verbA, [])]
          [(.term (Element.ofTerm q (uriRef rdfTypeFixedURI)) : BuilderAction q)] :=
        .element fun s hs => ⟨_, rfl, rfl, rfl, rfl, rfl, rfl,
          ⟨hs.settled.typeTagFound, hs.settled.langTagFound⟩⟩
      exact ha.append hverb

/-- A term in the place of an object or a subject. -/
theorem Leaf.performs_resolve {leaf : Leaf} (hallowed : leaf.Allowed q) {object : Object q}
    (h : leaf.resolve q prefixMap base = .ok object) :
    Performs prefixMap base (leaf.actions ++ [(.object q, [])]) object.actions := by
  have hobject := @Performs.rule q prefixMap base (.object q) (by simp [builders])
  by_cases hanon : ∃ text, leaf = .anon text
  · obtain ⟨text, rfl⟩ := hanon
    obtain rfl := Except.ok.inj h
    exact Performs.anon.append hobject
  · have hanon : ∀ text, leaf ≠ .anon text := fun text heq => hanon ⟨text, heq⟩
    have hterm : (leaf.element q prefixMap base 0).map Object.term = .ok object := by
      cases leaf with
      | anon text => exact absurd rfl (hanon text)
      | _ => exact h
    cases helement : leaf.element q prefixMap base 0 with
    | error fault => simp [helement, Except.map] at hterm
    | ok e =>
        simp only [helement, Except.map, Except.ok.injEq] at hterm
        rw [← hterm]
        exact (Leaf.performs hallowed hanon helement).append hobject

mutual

theorem ObjectTree.performs : ∀ (object : ObjectTree) {o : Object q}, object.Legal q →
    object.resolve q prefixMap base = .ok o →
    Performs prefixMap base (object.actions q) o.actions
  | .term leaf, o, hlegal, h => Leaf.performs_resolve hlegal h
  | .collection members, o, hlegal, h => by
      obtain ⟨members', hmembers, hpure⟩ := ok_of_bind h
      obtain rfl := Except.ok.inj hpure
      have hbegin := @Performs.rule q prefixMap base .collectionBegin (by simp [builders])
      have hend := @Performs.rule q prefixMap base (.collection q) (by simp [builders])
      have hobject := @Performs.rule q prefixMap base (.object q) (by simp [builders])
      have hall := (hbegin.append (members.performs hlegal hmembers)).append
        (hend.append hobject)
      simpa [ObjectTree.actions, Object.actions] using hall
  | .blankNodePropertyList list, o, hlegal, h => by
      obtain ⟨list', hlist, hpure⟩ := ok_of_bind h
      obtain rfl := Except.ok.inj hpure
      have hbegin := @Performs.rule q prefixMap base .blankNodePropertyListBegin
        (by simp [builders])
      have hend := @Performs.rule q prefixMap base (.blankNodePropertyList q) (by simp [builders])
      have hobject := @Performs.rule q prefixMap base (.object q) (by simp [builders])
      have hall := (hbegin.append (list.performs hlegal hlist)).append (hend.append hobject)
      simpa [ObjectTree.actions, Object.actions] using hall

theorem ObjectsTree.performs : ∀ (objects : ObjectsTree) {os : Objects q}, objects.Legal q →
    objects.resolve q prefixMap base = .ok os →
    Performs prefixMap base (objects.actions q) os.actions
  | .nil, os, _, h => by
      obtain rfl := Except.ok.inj h
      exact .nil
  | .cons object objects, os, hlegal, h => by
      obtain ⟨o, ho, hmore⟩ := ok_of_bind h
      obtain ⟨os', hos, hpure⟩ := ok_of_bind hmore
      obtain rfl := Except.ok.inj hpure
      exact (object.performs hlegal.1 ho).append (objects.performs hlegal.2 hos)

theorem ListTree.performs : ∀ (list : ListTree) {l : PredicateObjectList q}, list.Legal q →
    list.resolve q prefixMap base = .ok l →
    Performs prefixMap base (list.actions q) l.actions
  | .last verb object objects, l, hlegal, h => by
      obtain ⟨v, hv, hmore⟩ := ok_of_bind h
      obtain ⟨o, ho, hmore⟩ := ok_of_bind hmore
      obtain ⟨os, hos, hpure⟩ := ok_of_bind hmore
      obtain rfl := Except.ok.inj hpure
      have hinner := @Performs.rule q prefixMap base (.predicateObjectListInner q)
        (by simp [builders])
      exact (((verb.performs hlegal.1 hv).append (object.performs hlegal.2.1 ho)).append
        (objects.performs hlegal.2.2 hos)).append hinner
  | .more verb object objects next, l, hlegal, h => by
      obtain ⟨v, hv, hmore⟩ := ok_of_bind h
      obtain ⟨o, ho, hmore⟩ := ok_of_bind hmore
      obtain ⟨os, hos, hmore⟩ := ok_of_bind hmore
      obtain ⟨n, hn, hpure⟩ := ok_of_bind hmore
      obtain rfl := Except.ok.inj hpure
      have hinner := @Performs.rule q prefixMap base (.predicateObjectListInner q)
        (by simp [builders])
      exact ((((verb.performs hlegal.1 hv).append (object.performs hlegal.2.1 ho)).append
        (objects.performs hlegal.2.2.1 hos)).append hinner).append (next.performs hlegal.2.2.2 hn)

end

theorem SubjectTree.performs {subject : SubjectTree} {value : Subject q} (hlegal : subject.Legal q)
    (h : subject.resolve q prefixMap base = .ok value) :
    Performs prefixMap base (subject.actions q) value.actions := by
  cases subject with
  | term leaf =>
      by_cases hanon : ∃ text, leaf = .anon text
      · obtain ⟨text, rfl⟩ := hanon
        obtain rfl := Except.ok.inj h
        exact .anon
      · have hanon : ∀ text, leaf ≠ .anon text := fun text heq => hanon ⟨text, heq⟩
        have hterm : (leaf.element q prefixMap base 0).map Subject.term = .ok value := by
          cases leaf with
          | anon text => exact absurd rfl (hanon text)
          | _ => exact h
        cases helement : leaf.element q prefixMap base 0 with
        | error fault => simp [helement, Except.map] at hterm
        | ok e =>
            simp only [helement, Except.map, Except.ok.injEq] at hterm
            rw [← hterm]
            exact Leaf.performs hlegal hanon helement
  | collection members =>
      obtain ⟨values, hvalues, hpure⟩ := ok_of_bind h
      obtain rfl := Except.ok.inj hpure
      have hbegin := @Performs.rule q prefixMap base .collectionBegin (by simp [builders])
      have hend := @Performs.rule q prefixMap base (.collection q) (by simp [builders])
      have hall := (hbegin.append (members.performs hlegal hvalues)).append hend
      simpa [SubjectTree.actions, Subject.actions] using hall

/-- The actions of a statement do what the builder does for its tree of elements. -/
theorem StatementTree.performs {statement : StatementTree} {st : Statement q}
    (hlegal : statement.Legal q) (h : statement.resolve q prefixMap base = .ok st) :
    Performs prefixMap base (statement.actions q) st.actions := by
  have htriple := @Performs.rule q prefixMap base (.triple q) (by simp [builders])
  cases statement with
  | tripleSeq1 subject list =>
      obtain ⟨value, hvalue, hmore⟩ := ok_of_bind h
      obtain ⟨l, hl, hpure⟩ := ok_of_bind hmore
      obtain rfl := Except.ok.inj hpure
      have hsubject := @Performs.rule q prefixMap base (.subject q) (by simp [builders])
      have hseq1 := @Performs.rule q prefixMap base (.tripleSeq1 q) (by simp [builders])
      exact (((SubjectTree.performs hlegal.1 hvalue).append hsubject).append
        (list.performs hlegal.2 hl)).append (hseq1.append htriple)
  | tripleSeq2 list more =>
      have hbegin := @Performs.rule q prefixMap base .blankNodePropertyListBegin
        (by simp [builders])
      have hend := @Performs.rule q prefixMap base (.blankNodePropertyList q) (by simp [builders])
      have hseq2 := @Performs.rule q prefixMap base (.tripleSeq2 q) (by simp [builders])
      cases more with
      | none =>
          obtain ⟨l, hl, hpure⟩ := ok_of_bind h
          obtain rfl := Except.ok.inj hpure
          have hall := ((hbegin.append (list.performs hlegal.1 hl)).append hend).append
            (hseq2.append htriple)
          simpa [StatementTree.actions, Statement.actions] using hall
      | some more =>
          obtain ⟨l, hl, hmore⟩ := ok_of_bind h
          obtain ⟨m, hm, hpure⟩ := ok_of_bind hmore
          obtain rfl := Except.ok.inj hpure
          have hall := (((hbegin.append (list.performs hlegal.1 hl)).append hend).append
            (more.performs (hlegal.2 more rfl) hm)).append (hseq2.append htriple)
          simpa [StatementTree.actions, Statement.actions] using hall

/-! ### From the actions to the tree of elements -/

/-- If the actions run, this holds, and they leave the prefixes and the base alone. -/
def Settles (q : Bool) (prefixMap : PrefixMap) (base : Bytes) (actions : Trace RuleName)
    (P : Prop) : Prop :=
  ∀ s s₁ : State q, s.Within prefixMap base → runActions actions s = (s₁, none) →
    P ∧ s₁.Within prefixMap base

namespace Settles

variable {left right actions : Trace RuleName} {P Q : Prop}

theorem append (hleft : Settles q prefixMap base left P)
    (hright : Settles q prefixMap base right Q) :
    Settles q prefixMap base (left ++ right) (P ∧ Q) := by
  intro s s₂ hs hrun
  obtain ⟨s₁, hrun₁, hrun₂⟩ := runActions_append_inv hrun
  obtain ⟨hP, hs₁⟩ := hleft s s₁ hs hrun₁
  obtain ⟨hQ, hs₂⟩ := hright s₁ s₂ hs₁ hrun₂
  exact ⟨⟨hP, hQ⟩, hs₂⟩

theorem mono (h : Settles q prefixMap base actions P) (himp : P → Q) :
    Settles q prefixMap base actions Q :=
  fun s s₁ hs hrun => ⟨himp (h s s₁ hs hrun).1, (h s s₁ hs hrun).2⟩

theorem nil : Settles q prefixMap base [] True := by
  intro s s₁ hs hrun
  obtain rfl := (Prod.mk.inj hrun).1
  exact ⟨trivial, hs⟩

theorem rule (name : RuleName) (hname : name ∈ builders q) :
    Settles q prefixMap base [(name, [])] True := by
  intro s s₁ hs hrun
  obtain ⟨s', happly, hrun⟩ := runActions_cons_inv hrun
  obtain rfl := (Prod.mk.inj hrun).1
  exact ⟨trivial, apply_within hname happly hs⟩

end Settles

theorem Leaf.settles {leaf : Leaf} (hallowed : leaf.Allowed q) :
    Settles q prefixMap base leaf.actions
      (∃ n e, leaf.element q prefixMap base n = .ok e) := by
  intro s s₁ hs hrun
  obtain ⟨e, he, hreads⟩ := Leaf.runActions_inv hs.settled hallowed hrun
  rw [hs.prefixMap, hs.base] at he
  exact ⟨⟨_, e, he⟩, hreads.settled, hreads.prefixMap.trans hs.prefixMap,
    hreads.base.trans hs.base⟩

theorem VerbTree.settles {verb : VerbTree} (hlegal : verb.Legal q) :
    Settles q prefixMap base (verb.actions q) (∃ e, verb.resolve q prefixMap base = .ok e) := by
  have hverb := @Settles.rule q prefixMap base (.verb q) (by simp [builders])
  cases verb with
  | term leaf =>
      refine ((Leaf.settles hlegal.1).append hverb).mono ?_
      rintro ⟨⟨n, e, he⟩, -⟩
      exact ⟨e, (Leaf.element_label hlegal.2 n).symm.trans he⟩
  | a =>
      have ha : Settles q prefixMap base [(.verbA, [])] True := by
        intro s s₁ hs hrun
        obtain rfl := (Prod.mk.inj hrun).1
        exact ⟨trivial, ⟨hs.settled.typeTagFound, hs.settled.langTagFound⟩, hs.prefixMap, hs.base⟩
      exact (ha.append hverb).mono fun _ => ⟨_, rfl⟩

theorem Leaf.resolve_ok {leaf : Leaf} {n : Nat} {e : Element q}
    (h : leaf.element q prefixMap base n = .ok e) :
    ∃ o, leaf.resolve q prefixMap base = .ok o := by
  by_cases hanon : ∃ text, leaf = .anon text
  · obtain ⟨text, rfl⟩ := hanon
    exact ⟨_, rfl⟩
  · have hanon : ∀ text, leaf ≠ .anon text := fun text heq => hanon ⟨text, heq⟩
    rw [Leaf.element_label hanon] at h
    cases leaf with
    | anon text => exact ⟨_, rfl⟩
    | _ => exact ⟨.term e, congrArg (Except.map Object.term) h⟩

mutual

theorem ObjectTree.settles : ∀ (object : ObjectTree), object.Legal q →
    Settles q prefixMap base (object.actions q)
      (∃ o, object.resolve q prefixMap base = .ok o)
  | .term leaf, hlegal => by
      have hobject := @Settles.rule q prefixMap base (.object q) (by simp [builders])
      refine ((Leaf.settles hlegal).append hobject).mono ?_
      rintro ⟨⟨n, e, he⟩, -⟩
      exact Leaf.resolve_ok he
  | .collection members, hlegal => by
      have hbegin := @Settles.rule q prefixMap base .collectionBegin (by simp [builders])
      have hend := @Settles.rule q prefixMap base (.collection q) (by simp [builders])
      have hobject := @Settles.rule q prefixMap base (.object q) (by simp [builders])
      refine ((hbegin.append (members.settles hlegal)).append (hend.append hobject)).mono ?_
      rintro ⟨⟨-, os, hos⟩, -⟩
      rw [ObjectTree.resolve, hos]
      exact ⟨_, rfl⟩
  | .blankNodePropertyList list, hlegal => by
      have hbegin := @Settles.rule q prefixMap base .blankNodePropertyListBegin
        (by simp [builders])
      have hend := @Settles.rule q prefixMap base (.blankNodePropertyList q) (by simp [builders])
      have hobject := @Settles.rule q prefixMap base (.object q) (by simp [builders])
      refine ((hbegin.append (list.settles hlegal)).append (hend.append hobject)).mono ?_
      rintro ⟨⟨-, l, hl⟩, -⟩
      rw [ObjectTree.resolve, hl]
      exact ⟨_, rfl⟩

theorem ObjectsTree.settles : ∀ (objects : ObjectsTree), objects.Legal q →
    Settles q prefixMap base (objects.actions q)
      (∃ os, objects.resolve q prefixMap base = .ok os)
  | .nil, _ => Settles.nil.mono fun _ => ⟨_, rfl⟩
  | .cons object objects, hlegal => by
      refine ((object.settles hlegal.1).append (objects.settles hlegal.2)).mono ?_
      rintro ⟨⟨o, ho⟩, os, hos⟩
      rw [ObjectsTree.resolve, ho, hos]
      exact ⟨_, rfl⟩

theorem ListTree.settles : ∀ (list : ListTree), list.Legal q →
    Settles q prefixMap base (list.actions q) (∃ l, list.resolve q prefixMap base = .ok l)
  | .last verb object objects, hlegal => by
      have hinner := @Settles.rule q prefixMap base (.predicateObjectListInner q)
        (by simp [builders])
      refine ((((VerbTree.settles hlegal.1).append (object.settles hlegal.2.1)).append
        (objects.settles hlegal.2.2)).append hinner).mono ?_
      rintro ⟨⟨⟨⟨v, hv⟩, o, ho⟩, os, hos⟩, -⟩
      rw [ListTree.resolve, hv, ho, hos]
      exact ⟨_, rfl⟩
  | .more verb object objects next, hlegal => by
      have hinner := @Settles.rule q prefixMap base (.predicateObjectListInner q)
        (by simp [builders])
      refine (((((VerbTree.settles hlegal.1).append (object.settles hlegal.2.1)).append
        (objects.settles hlegal.2.2.1)).append hinner).append
        (next.settles hlegal.2.2.2)).mono ?_
      rintro ⟨⟨⟨⟨⟨v, hv⟩, o, ho⟩, os, hos⟩, -⟩, l, hl⟩
      rw [ListTree.resolve, hv, ho, hos, hl]
      exact ⟨_, rfl⟩

end

theorem SubjectTree.settles {subject : SubjectTree} (hlegal : subject.Legal q) :
    Settles q prefixMap base (subject.actions q)
      (∃ value, subject.resolve q prefixMap base = .ok value) := by
  cases subject with
  | term leaf =>
      refine (Leaf.settles hlegal).mono ?_
      rintro ⟨n, e, he⟩
      by_cases hanon : ∃ text, leaf = .anon text
      · obtain ⟨text, rfl⟩ := hanon
        exact ⟨_, rfl⟩
      · have hanon : ∀ text, leaf ≠ .anon text := fun text heq => hanon ⟨text, heq⟩
        rw [Leaf.element_label hanon] at he
        cases leaf with
        | anon text => exact ⟨_, rfl⟩
        | _ => exact ⟨.term e, congrArg (Except.map Subject.term) he⟩
  | collection members =>
      have hbegin := @Settles.rule q prefixMap base .collectionBegin (by simp [builders])
      have hend := @Settles.rule q prefixMap base (.collection q) (by simp [builders])
      refine ((hbegin.append (members.settles hlegal)).append hend).mono ?_
      rintro ⟨⟨-, os, hos⟩, -⟩
      rw [SubjectTree.resolve, hos]
      exact ⟨_, rfl⟩

/-- If the actions of a statement run, each of its spellings stands for an element. -/
theorem StatementTree.settles {statement : StatementTree} (hlegal : statement.Legal q) :
    Settles q prefixMap base (statement.actions q)
      (∃ st, statement.resolve q prefixMap base = .ok st) := by
  have htriple := @Settles.rule q prefixMap base (.triple q) (by simp [builders])
  cases statement with
  | tripleSeq1 subject list =>
      have hsubject := @Settles.rule q prefixMap base (.subject q) (by simp [builders])
      have hseq1 := @Settles.rule q prefixMap base (.tripleSeq1 q) (by simp [builders])
      refine ((((SubjectTree.settles hlegal.1).append hsubject).append
        (list.settles hlegal.2)).append (hseq1.append htriple)).mono ?_
      rintro ⟨⟨⟨⟨value, hvalue⟩, -⟩, l, hl⟩, -⟩
      rw [StatementTree.resolve, hvalue, hl]
      exact ⟨_, rfl⟩
  | tripleSeq2 list more =>
      have hbegin := @Settles.rule q prefixMap base .blankNodePropertyListBegin
        (by simp [builders])
      have hend := @Settles.rule q prefixMap base (.blankNodePropertyList q) (by simp [builders])
      have hseq2 := @Settles.rule q prefixMap base (.tripleSeq2 q) (by simp [builders])
      have hlist := (hbegin.append (list.settles hlegal.1)).append hend
      cases more with
      | none =>
          refine ((hlist.append .nil).append (hseq2.append htriple)).mono ?_
          rintro ⟨⟨⟨⟨-, l, hl⟩, -⟩, -⟩, -⟩
          rw [StatementTree.resolve, hl]
          exact ⟨_, rfl⟩
      | some more =>
          refine ((hlist.append (more.settles (hlegal.2 more rfl))).append
            (hseq2.append htriple)).mono ?_
          rintro ⟨⟨⟨⟨-, l, hl⟩, -⟩, m, hm⟩, -⟩
          rw [StatementTree.resolve, hl]
          simp only [bind, Except.bind, hm]
          exact ⟨_, rfl⟩

/-! ## Statements one behind the other -/

variable {s : State q}

theorem Same.refl (hs : s.Settled) : Same s s where
  element := rfl
  prefixMap := rfl
  base := rfl
  label := rfl
  settled := hs
  settled' := hs
  oneStep := rfl
  verbStack := (List.map_id _).symm
  subject := rfl
  list := (List.map_id _).symm
  listStack := by rw [show List.map (fun e : Element q => e) = id from funext List.map_id,
    List.map_id]
  pairs := (List.map_id _).symm
  pairStack := by
    rw [show List.map (mapPair fun e : Element q => e) = id from funext List.map_id, List.map_id]
  firstBNPL := rfl
  inserted := (List.map_id _).symm

theorem Same.book {b : State q} (h : Same b s) : s.book = b.book := by
  have hpairs : List.map (mapPair fun e : Element q => e) = id := funext List.map_id
  have htriples : List.map (mapTriple fun e : Element q => e) = id := funext List.map_id
  have hpairs' := h.pairs
  have hstack := h.pairStack
  have hinserted := h.inserted
  rw [hpairs] at hpairs' hstack
  rw [htriples] at hinserted
  unfold State.book
  rw [h.label, h.oneStep, hpairs', hstack, h.firstBNPL, hinserted, List.map_id]
  rfl

/-- What the text in front of a place leaves for the text behind it. -/
structure Scope (q : Bool) where
  prefixMap : PrefixMap
  base : Bytes
  book : PairBook q

/-- The state is in this scope, between two statements. -/
structure Scope.Holds (c : Scope q) (s : State q) : Prop where
  within : s.Within c.prefixMap c.base
  book : s.book = c.book
  verbStack : s.verbStack = []
  list : s.bnplCollectionList = []

/-- A statement all of whose spellings stand for elements. -/
theorem StatementTree.run_ok {statement : StatementTree} {c : Scope q} {st : Statement q}
    (hlegal : statement.Legal q) (hs : c.Holds s)
    (h : statement.resolve q c.prefixMap c.base = .ok st) :
    ∃ s₁, runActions (statement.actions q) s = (s₁, none) ∧
      Scope.Holds { c with book := st.after c.book } s₁ := by
  obtain ⟨b, hb, hbook, hstack, hlist⟩ := st.run_book s hs.verbStack hs.list
  obtain ⟨s₁, hs₁, hsame, hwithin⟩ := StatementTree.performs hlegal h s s b
    (Same.refl hs.within.settled) hs.within hb
  refine ⟨s₁, hs₁, hwithin, ?_, ?_, ?_⟩
  · rw [hsame.book, hbook, hs.book]
  · rw [hsame.verbStack, hstack]
    rfl
  · rw [hsame.list, hlist]
    rfl

/-- There is no other way for the actions of a statement to run. -/
theorem StatementTree.run_inv {statement : StatementTree} {c : Scope q} {s₁ : State q}
    (hlegal : statement.Legal q) (hs : c.Holds s)
    (h : runActions (statement.actions q) s = (s₁, none)) :
    ∃ st, statement.resolve q c.prefixMap c.base = .ok st ∧
      Scope.Holds { c with book := st.after c.book } s₁ := by
  obtain ⟨⟨st, hst⟩, -⟩ := StatementTree.settles hlegal s s₁ hs.within h
  obtain ⟨s', hs', hholds⟩ := StatementTree.run_ok hlegal hs hst
  rw [h] at hs'
  obtain rfl := (Prod.mk.inj hs').1
  exact ⟨st, hst, hholds⟩

end Performs

end RdfParser.Turtle
