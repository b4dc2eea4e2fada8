/-
  Turtle/Stacks.lean --- no action pops an empty stack.

  Every action that pops belongs to a rule whose match has pushed before: a verb for
  `predicateObjectListInner`, an object list for the two kinds of brackets.  What an
  abandoned alternative leaves behind only makes the stacks higher.
-/
import RdfParser.Turtle.Frame

set_option autoImplicit false

namespace RdfParser.Turtle

open RdfParser.Foundation RdfParser.Rdf RdfParser.Peg

variable {q : Bool}

/-! ## What a match pushes -/

/-- A match of the expression pushes a verb. -/
def pushesVerb : Rule RuleName → Bool
  | .ref (.verb _) => true
  | .seq first second => pushesVerb first || pushesVerb second
  | _ => false

/-- A match of the expression pushes an object list. -/
def pushesList : Rule RuleName → Bool
  | .ref .collectionBegin | .ref .blankNodePropertyListBegin => true
  | .seq first second => pushesList first || pushesList second
  | _ => false

/-- The stacks have grown: by the given numbers of entries at least. -/
structure State.Grown (s s' : State q) (verbs lists : Nat) : Prop where
  verbStack : s.verbStack.length + verbs ≤ s'.verbStack.length
  listStack : s.bnplCollectionListStack.length + lists ≤ s'.bnplCollectionListStack.length

theorem State.Grown.refl (s : State q) : s.Grown s 0 0 := ⟨le_rfl, le_rfl⟩

theorem State.Grown.of_eq {s s' : State q} (hverbs : s'.verbStack = s.verbStack)
    (hlists : s'.bnplCollectionListStack = s.bnplCollectionListStack) : s.Grown s' 0 0 :=
  ⟨by rw [hverbs, Nat.add_zero], by rw [hlists, Nat.add_zero]⟩

theorem State.Grown.trans {s s' s'' : State q} {v l v' l' : Nat} (h : s.Grown s' v l)
    (h' : s'.Grown s'' v' l') : s.Grown s'' (v + v') (l + l') := by
  obtain ⟨hv, hl⟩ := h
  obtain ⟨hv', hl'⟩ := h'
  constructor <;> omega

theorem State.Grown.mono {s s' : State q} {v l v' l' : Nat} (h : s.Grown s' v l)
    (hv : v' ≤ v) (hl : l' ≤ l) : s.Grown s' v' l' := by
  obtain ⟨hverbs, hlists⟩ := h
  constructor <;> omega

/-! ## The popping actions -/

theorem State.processPredicateObjectListInner_pops {s s' : State q}
    (h : s.processPredicateObjectListInner = .ok s') :
    s'.verbStack.length + 1 = s.verbStack.length ∧
      s'.bnplCollectionListStack = s.bnplCollectionListStack := by
  unfold State.processPredicateObjectListInner at h
  cases hverbs : s.verbStack with
  | nil => simp [hverbs] at h
  | cons verb rest =>
      rw [hverbs] at h
      cases h
      exact ⟨rfl, rfl⟩

theorem State.processPredicateObjectListInner_error {s : State q} {fault : Fault}
    (h : s.processPredicateObjectListInner = .error fault) : s.verbStack = [] := by
  unfold State.processPredicateObjectListInner at h
  split at h
  · assumption
  · cases h

/-- An action that closes a bracket pops the list stack. -/
structure PopsList (s : State q) (result : Except Fault (State q)) : Prop where
  ok : ∀ s', result = .ok s' → s'.verbStack = s.verbStack ∧
    s'.bnplCollectionListStack.length + 1 = s.bnplCollectionListStack.length
  error : ∀ fault, result = .error fault → s.bnplCollectionListStack = []

theorem State.processCollection_pops (s : State q) : PopsList s s.processCollection := by
  unfold State.processCollection
  rw [collectionCells_eq]
  simp only [State.foldl_insertTriple]
  cases hstack : s.bnplCollectionListStack with
  | nil =>
      refine ⟨?_, ?_⟩
      · intro s' h
        cases h
      · intro fault _
        exact hstack
  | cons top rest =>
      refine ⟨?_, ?_⟩
      · intro s' h
        cases h
        exact ⟨rfl, by rw [hstack]; rfl⟩
      · intro fault h
        cases h

theorem State.processBlankNodePropertyList_pops (s : State q) :
    PopsList s s.processBlankNodePropertyList := by
  unfold State.processBlankNodePropertyList
  simp only [State.foldl_insertTriple]
  cases hstack : s.bnplCollectionListStack with
  | nil =>
      refine ⟨?_, fun _ _ => hstack⟩
      intro s' h
      cases hpairs : s.verbObjectPairListStack <;> simp only [hpairs] at h <;> cases h
  | cons top rest =>
      refine ⟨?_, ?_⟩
      · intro s' h
        cases hpairs : s.verbObjectPairListStack <;> simp only [hpairs] at h <;> cases h
        all_goals exact ⟨rfl, by rw [hstack]; rfl⟩
      · intro fault h
        cases hpairs : s.verbObjectPairListStack <;> simp only [hpairs] at h <;> cases h

/-! ## The other actions -/

theorem substr_fault {s : Bytes} {pos count : Nat} {fault : Fault}
    (h : substr s pos count = .error fault) : fault ≠ .emptyStack := by
  unfold substr at h
  split at h <;> cases h
  simp

theorem insert_fault {s str : Bytes} {pos : Nat} {fault : Fault}
    (h : Foundation.insert s pos str = .error fault) : fault ≠ .emptyStack := by
  unfold Foundation.insert at h
  split at h <;> cases h
  simp

theorem prefixArguments_fault {text : Bytes} {fault : Fault}
    (h : prefixArguments text = .error fault) : fault ≠ .emptyStack := by
  rw [prefixArguments_eq] at h
  simp only at h
  split at h <;> cases h
  simp

theorem baseArgument_fault {text : Bytes} {fault : Fault}
    (h : baseArgument text = .error fault) : fault ≠ .emptyStack := by
  rw [baseArgument_eq] at h
  simp only at h
  split at h <;> cases h
  simp

/-- The rules whose actions pop a stack. -/
def popping : RuleName → Bool
  | .predicateObjectListInner _ | .collection _ | .blankNodePropertyList _ => true
  | _ => false

/-- They fail in no other way. -/
theorem popping_fault {rule : RuleName} {text : Bytes} {s : State q} {fault : Fault}
    (h : apply rule text s = .error fault) (hrule : popping rule = true) :
    fault = .emptyStack := by
  cases rule <;> try exact absurd hrule Bool.false_ne_true
  case predicateObjectListInner p =>
    simp only [apply, State.processPredicateObjectListInner] at h
    split at h <;> cases h
    rfl
  case collection p =>
    simp only [apply, State.processCollection] at h
    split at h <;> cases h
    rfl
  case blankNodePropertyList p =>
    simp only [apply, State.processBlankNodePropertyList, State.foldl_insertTriple] at h
    cases hpairs : s.verbObjectPairListStack
    all_goals
      simp only [hpairs] at h
      split at h <;> cases h
      rfl

/-- The other actions fail only in string operations and at unknown prefixes. -/
theorem apply_fault {rule : RuleName} {text : Bytes} {s : State q} {fault : Fault}
    (h : apply rule text s = .error fault) (hrule : popping rule = false) :
    fault ≠ .emptyStack := by
  unfold apply at h
  split at h
  all_goals first
    | exact absurd hrule.symm Bool.false_ne_true
    | replace h := State.lift_error h
    | cases h
  case h_20 =>
      cases q with
      | false => cases h
      | true =>
          simp only [Action.var, bind, Except.bind, pure, Except.pure] at h
          split at h <;> cases h
          exact substr_fault ‹_›
  all_goals
    try simp only [Action.base, Action.sparqlBase, Action.prefixID, Action.sparqlPrefix,
      Action.prefixedName, Action.iriref, Action.rdfLiteral, Action.rdfLiteralTypeTag,
      Action.langtag, Action.turtleString, Action.blankNodeLabel, bind, Except.bind, pure,
      Except.pure] at h
    repeat' split at h
  all_goals cases h
  all_goals first
    | exact substr_fault ‹_›
    | exact insert_fault ‹_›
    | exact prefixArguments_fault ‹_›
    | exact baseArgument_fault ‹_›
    | simp

theorem State.processVerb_grows (s : State q) : s.Grown s.processVerb 1 0 := by
  unfold State.processVerb
  simp only
  split <;> exact ⟨le_rfl, le_rfl⟩

/-- The other actions only push. -/
theorem apply_grows {rule : RuleName} {text : Bytes} {s s' : State q}
    (h : apply rule text s = .ok s') (hrule : popping rule = false) :
    s.Grown s' (pushesVerb (.ref rule)).toNat (pushesList (.ref rule)).toNat := by
  unfold apply at h
  split at h
  all_goals first
    | exact absurd hrule.symm Bool.false_ne_true
    | (rw [State.lift_frame h]
       exact State.Grown.of_eq rfl rfl)
    | rw [Except.ok.injEq] at h
      subst h
  case h_23 | h_24 =>
      unfold State.processTripleSeq
      rw [State.foldl_insertTriple]
      exact State.Grown.of_eq rfl rfl
  case h_26 => exact State.processVerb_grows s
  case h_34 =>
      cases rule <;> first
        | exact State.Grown.of_eq rfl rfl
        | simp_all
  all_goals first
    | exact State.Grown.of_eq rfl rfl
    | exact ⟨le_rfl, le_rfl⟩

/-! ## Runs -/

/-- The actions have popped no empty stack and, if none has thrown, have left the stacks
higher by these numbers. -/
structure Safely (s : State q) (result : State q × Option Fault) (verbs lists : Nat) : Prop where
  fault : result.2 ≠ some .emptyStack
  grown : result.2 = none → s.Grown result.1 verbs lists

theorem Safely.mono {s : State q} {result : State q × Option Fault} {v l v' l' : Nat}
    (h : Safely s result v l) (hv : v' ≤ v) (hl : l' ≤ l) : Safely s result v' l' :=
  ⟨h.fault, fun hnone => (h.grown hnone).mono hv hl⟩

theorem Safely.nil (s : State q) : Safely s (runActions [] s) 0 0 :=
  ⟨by simp, fun _ => State.Grown.refl s⟩

theorem Safely.then {t₁ t₂ : Trace RuleName} {s : State q} {v l v' l' : Nat}
    (h₁ : Safely s (runActions t₁ s) v l)
    (h₂ : ∀ s₁ : State q, s.Grown s₁ v l → Safely s (runActions t₂ s₁) v' l') :
    Safely s (runActions (t₁ ++ t₂) s) v' l' := by
  rw [runActions_append]
  rcases hfirst : runActions t₁ s with ⟨s₁, _ | fault⟩
  · rw [hfirst] at h₁
    exact h₂ s₁ (h₁.grown rfl)
  · rw [hfirst] at h₁
    exact ⟨h₁.fault, fun hnone => absurd hnone (by simp)⟩

theorem Safely.append {t₁ t₂ : Trace RuleName} {s : State q} {v l v' l' : Nat}
    (h₁ : Safely s (runActions t₁ s) v l)
    (h₂ : ∀ s₁ : State q, Safely s₁ (runActions t₂ s₁) v' l') :
    Safely s (runActions (t₁ ++ t₂) s) (v + v') (l + l') := by
  refine h₁.then fun s₁ hgrown => ?_
  exact ⟨(h₂ s₁).fault, fun hnone => hgrown.trans ((h₂ s₁).grown hnone)⟩

/-- What a match of the expression pushes, if it succeeds. -/
def verbGain (rule : Rule RuleName) : Outcome → Nat
  | .ok _ => (pushesVerb rule).toNat
  | _ => 0

def listGain (rule : Rule RuleName) : Outcome → Nat
  | .ok _ => (pushesList rule).toNat
  | _ => 0

theorem verbGain_seq (first second : Rule RuleName) (middle : Bytes) (outcome : Outcome) :
    verbGain (.seq first second) outcome ≤
      verbGain first (.ok middle) + verbGain second outcome := by
  cases outcome <;> simp only [verbGain, pushesVerb, Nat.zero_le]
  cases pushesVerb first <;> cases pushesVerb second <;> simp

theorem listGain_seq (first second : Rule RuleName) (middle : Bytes) (outcome : Outcome) :
    listGain (.seq first second) outcome ≤
      listGain first (.ok middle) + listGain second outcome := by
  cases outcome <;> simp only [listGain, pushesList, Nat.zero_le]
  cases pushesList first <;> cases pushesList second <;> simp

theorem Safely.single {name : RuleName} {text : Bytes} {s s₁ : State q} {v l : Nat}
    (hok : ∀ s₂, apply name text s₁ = .ok s₂ → s.Grown s₂ v l)
    (herror : ∀ fault, apply name text s₁ = .error fault → fault ≠ .emptyStack) :
    Safely s (runActions [(name, text)] s₁) v l := by
  cases happly : apply name text s₁ with
  | ok s₂ =>
      rw [runActions_cons_ok happly, runActions_nil]
      exact ⟨by simp, fun _ => hok s₂ happly⟩
  | error fault =>
      rw [runActions_cons_error happly]
      exact ⟨by simpa using herror fault happly, fun hnone => absurd hnone (by simp)⟩

/-- A bracket closes behind the object list that its opening has pushed. -/
theorem PopsList.grown {s s₁ s₂ : State q} {result : Except Fault (State q)}
    (h : PopsList s₁ result) (hbody : s.Grown s₁ 0 1) (hok : result = .ok s₂) :
    s.Grown s₂ 0 0 := by
  obtain ⟨hverbs, hlists⟩ := hbody
  obtain ⟨hsame, hpopped⟩ := h.ok s₂ hok
  exact ⟨hsame ▸ hverbs, by omega⟩

theorem PopsList.fault {s s₁ : State q} {result : Except Fault (State q)} {fault : Fault}
    (h : PopsList s₁ result) (hbody : s.Grown s₁ 0 1) : result ≠ .error fault := by
  intro herror
  have hlists := hbody.listStack
  rw [h.error fault herror] at hlists
  simp at hlists

/-- The action of a name after its body: what it pops has been pushed. -/
theorem closing_safe {name : RuleName} {text : Bytes} {s s₁ : State q}
    (hbody : s.Grown s₁ (pushesVerb (turtle name)).toNat (pushesList (turtle name)).toNat) :
    Safely s (runActions [(name, text)] s₁) (pushesVerb (.ref name)).toNat
      (pushesList (.ref name)).toNat := by
  cases hpop : popping name with
  | false =>
      refine .single (fun s₂ happly => ?_) fun fault happly => apply_fault happly hpop
      have hgrown := (hbody.mono (Nat.zero_le _) (Nat.zero_le _)).trans (apply_grows happly hpop)
      rwa [Nat.zero_add, Nat.zero_add] at hgrown
  | true =>
      cases name <;> try exact absurd hpop Bool.false_ne_true
      case collection p =>
        have hpops := State.processCollection_pops s₁
        exact .single (fun s₂ happly => hpops.grown hbody happly)
          fun fault happly => absurd happly (hpops.fault hbody)
      case blankNodePropertyList p =>
        have hpops := State.processBlankNodePropertyList_pops s₁
        exact .single (fun s₂ happly => hpops.grown hbody happly)
          fun fault happly => absurd happly (hpops.fault hbody)
      case predicateObjectListInner p =>
        have hpushed : s.verbStack.length + 1 ≤ s₁.verbStack.length := hbody.verbStack
        have hkept : s.bnplCollectionListStack.length + 0 ≤ s₁.bnplCollectionListStack.length :=
          hbody.listStack
        refine .single (fun s₂ happly => ?_) fun fault happly => ?_
        · obtain ⟨hpopped, hsame⟩ := State.processPredicateObjectListInner_pops happly
          exact ⟨by simp only [pushesVerb, Bool.toNat_false]; omega, hsame ▸ hkept⟩
        · rw [State.processPredicateObjectListInner_error happly] at hpushed
          simp at hpushed

/-- In every match, from every state, no stack is popped when it is empty; the stacks do
not get lower, and a match that pushes makes them higher. -/
theorem run_stacks {rule : Rule RuleName} {input : Bytes} {outcome : Outcome}
    {trace : Trace RuleName} (h : Run turtle rule input outcome trace) (s : State q) :
    Safely s (runActions trace s) (verbGain rule outcome) (listGain rule outcome) := by
  induction h generalizing s with
  | byteOk _ | byteFail _ | codePointOk _ _ | codePointFail _ | eofOk | eofFail _ | success =>
      exact .nil s
  | @seqNext first second _ middle outcome _ _ _ _ ih₁ ih₂ =>
      exact ((ih₁ s).append ih₂).mono (verbGain_seq first second middle outcome)
        (listGain_seq first second middle outcome)
  | @seqStop _ _ _ outcome _ _ hstop ih =>
      cases outcome with
      | ok rest => exact absurd rfl (hstop rest)
      | fail | error => exact ih s
  | @sorStop _ _ _ outcome _ _ _ ih =>
      exact (ih s).mono (by cases outcome <;> exact Nat.zero_le _)
        (by cases outcome <;> exact Nat.zero_le _)
  | @sorNext _ _ _ outcome _ _ _ _ ih₁ ih₂ | @starNext _ _ _ outcome _ _ _ _ ih₁ ih₂ =>
      exact ((ih₁ s).append ih₂).mono (by cases outcome <;> exact Nat.zero_le _)
        (by cases outcome <;> exact Nat.zero_le _)
  | starDone _ ih | starError _ ih => exact (ih s).mono (Nat.zero_le _) (Nat.zero_le _)
  | @must _ _ outcome _ _ ih =>
      exact (ih s).mono (by cases outcome <;> exact Nat.zero_le _)
        (by cases outcome <;> exact Nat.zero_le _)
  | @ref name input outcome t h ih =>
      have hbody := ih s
      cases outcome with
      | ok rest => exact hbody.then fun s₁ hgrown => closing_safe hgrown
      | fail | error =>
          simp only [closing, List.append_nil]
          exact hbody.mono (Nat.zero_le _) (Nat.zero_le _)

end RdfParser.Turtle
