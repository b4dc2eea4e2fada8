/-
  Turtle/BlankNodes.lean --- which blank nodes a Turtle document denotes.

  Generated nodes take the labels `b1`, `b2`, ... from one counter, in the order in
  which they are completed.  Labels written in the document are used as they are, so
  a label such as `b1` names a node that may have been generated as well.
-/
import Mathlib.Data.List.Nodup
import RdfParser.Peg.Sequence
import RdfParser.Turtle.Frame

set_option autoImplicit false

namespace RdfParser.Turtle

open RdfParser.Foundation RdfParser.Rdf RdfParser.Peg

/-! ## The blank nodes of a trace -/

/-- A rule that is not about a single blank node. -/
def plain : RuleName → Bool
  | .anon | .blankNodeLabel | .blankNode => false
  | _ => true

theorem plain_of_ne {name : RuleName} (hanon : name ≠ .anon) (hlabel : name ≠ .blankNodeLabel)
    (hnode : name ≠ .blankNode) : plain name = true := by
  cases name <;> first | rfl | contradiction

/-- Every `BlankNode` comes directly after its `ANON` or its `BLANK_NODE_LABEL`. -/
inductive Paired : Trace RuleName → Prop where
  | nil : Paired []
  | other {rule : RuleName} {text : Bytes} {trace : Trace RuleName}
      (hrule : plain rule = true) (h : Paired trace) : Paired ((rule, text) :: trace)
  | anon {text : Bytes} {trace : Trace RuleName} (htext : text.head? = some (char '['))
      (h : Paired trace) : Paired ((.anon, text) :: (.blankNode, text) :: trace)
  | label {text : Bytes} {trace : Trace RuleName} (htext : text.head? = some (char '_'))
      (h : Paired trace) : Paired ((.blankNodeLabel, text) :: (.blankNode, text) :: trace)

theorem Paired.append {left right : Trace RuleName} (hl : Paired left) (hr : Paired right) :
    Paired (left ++ right) := by
  induction hl with
  | nil => exact hr
  | other hrule _ ih => exact .other hrule ih
  | anon htext _ ih => exact .anon htext ih
  | label htext _ ih => exact .label htext ih

theorem Paired.of_plain {trace : Trace RuleName} (h : ∀ entry ∈ trace, plain entry.1 = true) :
    Paired trace := by
  induction trace with
  | nil => exact .nil
  | cons entry trace ih =>
      exact .other (h entry List.mem_cons_self)
        (ih fun other hother => h other (List.mem_cons_of_mem _ hother))

/-- The rules inside an `ANON` or a `BLANK_NODE_LABEL`. -/
def inBlankNode : RuleName → Bool
  | .anonWs | .pnCharsU | .pnCharsBase | .pnChars => true
  | _ => false

theorem inBlankNode_closed (name : RuleName) (h : inBlankNode name = true) :
    ∀ other ∈ (turtle name).names, inBlankNode other = true := by
  cases name <;> first | decide | exact absurd h Bool.false_ne_true

theorem paired_inBlankNode {rule : Rule RuleName} {input : Bytes} {outcome : Outcome}
    {trace : Trace RuleName} (h : Run turtle rule input outcome trace)
    (hrule : ∀ name ∈ rule.names, inBlankNode name = true) : Paired trace := by
  refine Paired.of_plain fun entry hentry => ?_
  have hname := h.trace_names inBlankNode_closed hrule entry hentry
  generalize entry.1 = name at hname
  cases name <;> first | rfl | exact absurd hname Bool.false_ne_true

/-- A match of a sequence that begins with a byte begins with that byte. -/
theorem head?_consumed {b : UInt8} {rules : List (Rule RuleName)} {input rest : Bytes}
    {trace : Trace RuleName}
    (h : Run turtle (.seqOf (.one b :: rules)) input (.ok rest) trace) :
    (consumed input rest).head? = some b := by
  obtain ⟨middle, _, _, hbyte, hrules, -⟩ := Run.seqOf_cons_iff.mp h
  obtain ⟨c, hc, rfl, -⟩ := hbyte.byte_ok
  obtain ⟨text, rfl⟩ := hrules.suffix
  rw [← List.cons_append, consumed_append, beq_iff_eq.mp hc]
  rfl

theorem blankNode_paired {input : Bytes} {outcome : Outcome} {trace : Trace RuleName}
    (h : Run turtle (turtle .blankNode) input outcome trace) :
    Paired (trace ++ closing .blankNode input outcome) := by
  cases h with
  | sorStop hlabel hstop =>
      cases hlabel with
      | @ref _ _ _ before hbody =>
          have hbefore := paired_inBlankNode hbody (by decide)
          cases outcome with
          | fail => exact absurd rfl hstop
          | error => simpa [closing] using hbefore
          | ok rest =>
              rw [List.append_assoc]
              exact hbefore.append (.label (head?_consumed hbody) .nil)
  | sorNext hlabel hanon =>
      cases hlabel with
      | @ref _ _ _ before hbody =>
          have hbefore := paired_inBlankNode hbody (by decide)
          cases hanon with
          | @ref _ _ _ before' hbody' =>
              have hbefore' := paired_inBlankNode hbody' (by decide)
              have hnone : closing RuleName.blankNodeLabel input .fail = [] := rfl
              rw [hnone, List.append_nil, List.append_assoc, List.append_assoc]
              refine hbefore.append (hbefore'.append ?_)
              cases outcome with
              | fail => exact .nil
              | error => exact .nil
              | ok rest => exact .anon (head?_consumed hbody') .nil

/-- Only `BlankNode` refers to `ANON` and `BLANK_NODE_LABEL`. -/
theorem turtle_blankNode_names (name : RuleName) (hname : name ≠ .blankNode) :
    ∀ other ∈ (turtle name).names, other ≠ .anon ∧ other ≠ .blankNodeLabel := by
  cases name
  case blankNode => exact absurd rfl hname
  all_goals first
    | decide
    | rename_i sparqlQuery
      cases sparqlQuery <;> decide

/-- The trace of every match pairs its blank nodes. -/
theorem Run.paired {rule : Rule RuleName} {input : Bytes} {outcome : Outcome}
    {trace : Trace RuleName} (h : Run turtle rule input outcome trace)
    (hrule : ∀ name ∈ rule.names, name ≠ .anon ∧ name ≠ .blankNodeLabel) : Paired trace := by
  induction h with
  | byteOk _ | byteFail _ | codePointOk _ _ | codePointFail _ | eofOk | eofFail _ | success =>
      exact .nil
  | seqNext _ _ ih₁ ih₂ | sorNext _ _ ih₁ ih₂ =>
      simp only [Rule.names, List.mem_append] at hrule
      exact (ih₁ fun name hname => hrule name (.inl hname)).append
        (ih₂ fun name hname => hrule name (.inr hname))
  | seqStop _ _ ih | sorStop _ _ ih =>
      simp only [Rule.names, List.mem_append] at hrule
      exact ih fun name hname => hrule name (.inl hname)
  | starNext _ _ ih₁ ih₂ => exact (ih₁ hrule).append (ih₂ hrule)
  | starDone _ ih | starError _ ih | must _ ih => exact ih hrule
  | @ref name input outcome trace hbody ih =>
      by_cases hname : name = .blankNode
      · subst hname
        exact blankNode_paired hbody
      · have hself := hrule name (by simp [Rule.names])
        refine (ih (turtle_blankNode_names name hname)).append (Paired.of_plain ?_)
        intro entry hentry
        cases outcome with
        | fail => simp [closing] at hentry
        | error => simp [closing] at hentry
        | ok rest =>
            rw [closing, List.mem_singleton] at hentry
            rw [hentry]
            exact plain_of_ne hself.1 hself.2 hname

/-! ## The nodes a run denotes -/

/-- One action of a run, with the states around it. -/
structure Step where
  rule : RuleName
  text : Bytes
  before : State false
  after : State false

/-- The actions of a run, up to the first one that throws. -/
def steps : Trace RuleName → State false → List Step
  | [], _ => []
  | (rule, text) :: trace, s =>
      match apply rule text s with
      | .ok s' => ⟨rule, text, s, s'⟩ :: steps trace s'
      | .error _ => []

namespace Step

/-- The label and the node of a blank node that is written with a label. -/
def labeled? (step : Step) : Option (Bytes × Element false) :=
  if step.rule = .blankNode ∧ step.text.head? = some (char '_') then
    some (step.text.drop 2, step.after.element)
  else none

/-- The nodes generated for `[]`, for a property list, or for the cells of a
collection: those with an `rdf:first`. -/
def generated (step : Step) : List (Element false) :=
  match step.rule with
  | .blankNode => if step.text.head? = some (char '[') then [step.after.element] else []
  | .blankNodePropertyList _ => [step.after.element]
  | .collection _ =>
      ((step.after.inserted.drop step.before.inserted.length).filter
        fun t => t.predicate = rdfFirst false).map (·.subject)
  | _ => []

end Step

/-- The labels written in a document. -/
def labels (trace : Trace RuleName) : List Bytes :=
  trace.filterMap fun entry =>
    if entry.1 = .blankNode ∧ entry.2.head? = some (char '_') then some (entry.2.drop 2) else none

/-! ### The cells of a collection -/

theorem listCells_nodes (n : Nat) (values : List (Element false)) :
    ((listCells n values).filter fun t => t.predicate = rdfFirst false).map (·.subject) =
      (List.range' n values.length).map (unlabeledNode false) := by
  have hrest : rdfRest false ≠ rdfFirst false := by decide
  induction values with
  | nil => rfl
  | cons value values ih =>
      rw [listCells, List.filter_append, List.map_append, ih, List.length_cons,
        List.range'_1_concat, List.map_append]
      simp [hrest]

theorem collectionTriples_nodes (n : Nat) (values : List (Element false)) :
    ((collectionTriples n values).filter fun t => t.predicate = rdfFirst false).map (·.subject) =
      (List.range' n (cellCount values)).map (unlabeledNode false) := by
  unfold collectionTriples cellCount
  by_cases hnil : values = []
  · simp [hnil]
  · have hpos : 1 ≤ values.length := List.length_pos_iff.mpr hnil
    rw [if_neg hnil, listCells_nodes, Nat.max_eq_right hpos]

/-! ### Single actions -/

/-- An action generates the nodes of the labels it uses up. -/
structure Generates (step : Step) (count : Nat) : Prop where
  label : step.after.latestBNLabel = step.before.latestBNLabel + count
  nodes : step.generated =
    (List.range' step.before.latestBNLabel count).map (unlabeledNode false)

/-- A directive uses up no label. -/
theorem directive_label {q : Bool} {rule : RuleName} {text : Bytes} {s s' : State q}
    (h : apply rule text s = .ok s')
    (hrule : rule ∈ [.prefixID, .sparqlPrefix, .base, .sparqlBase]) :
    s'.latestBNLabel = s.latestBNLabel := by
  simp only [List.mem_cons, List.not_mem_nil, or_false] at hrule
  rcases hrule with rfl | rfl | rfl | rfl
  · obtain ⟨pre, value, -, hs'⟩ := Action.prefixID_basic (State.lift_ok h)
    rw [hs']
    rfl
  · obtain ⟨pre, value, -, hs'⟩ := Action.prefixID_basic (State.lift_ok h)
    rw [hs']
    rfl
  · obtain ⟨value, -, hs'⟩ := Action.base_basic (State.lift_ok h)
    rw [hs']
    rfl
  · obtain ⟨value, -, hs'⟩ := Action.base_basic (State.lift_ok h)
    rw [hs']
    rfl

theorem generates_plain {rule : RuleName} {text : Bytes} {s s' : State false}
    (h : apply rule text s = .ok s') (hrule : plain rule = true) :
    ∃ count, Generates ⟨rule, text, s, s'⟩ count := by
  cases hnaming : naming rule with
  | false =>
      refine ⟨0, (apply_agrees h hnaming).latestBNLabel, ?_⟩
      cases rule <;> first | rfl | simp only [plain, naming, reduceCtorEq] at hrule hnaming
  | true =>
      cases rule <;> simp only [naming, reduceCtorEq] at hnaming
      case anon => exact absurd hrule Bool.false_ne_true
      case prefixID | sparqlPrefix | base | sparqlBase =>
          exact ⟨0, directive_label h (by decide), rfl⟩
      case collection =>
          obtain ⟨outer, rest, -, hcloses⟩ := processCollection_closes h
          refine ⟨_, congrArg PairBook.label hcloses.book, ?_⟩
          unfold Step.generated
          simp only [processCollection_inserted h, List.drop_left]
          exact collectionTriples_nodes _ _
      case blankNodePropertyList =>
          obtain ⟨outer, rest, -, hcloses⟩ := processBlankNodePropertyList_closes h
          refine ⟨1, congrArg PairBook.label hcloses.book, ?_⟩
          unfold Step.generated
          rw [hcloses.element]
          rfl

theorem not_labeled_plain {rule : RuleName} {text : Bytes} {s s' : State false}
    (hrule : plain rule = true) : Step.labeled? ⟨rule, text, s, s'⟩ = none := by
  unfold Step.labeled?
  rw [if_neg]
  rintro ⟨hnode, -⟩
  simp only at hnode
  rw [hnode] at hrule
  exact absurd hrule Bool.false_ne_true

/-! ### Runs -/

/-- What a run generates and what it reads: its nodes are those of consecutive labels,
and each written label denotes its own node. -/
structure Denotes (trace : Trace RuleName) (s s' : State false) (count : Nat) : Prop where
  label : s'.latestBNLabel = s.latestBNLabel + count
  nodes : (steps trace s).flatMap Step.generated =
    (List.range' s.latestBNLabel count).map (unlabeledNode false)
  written : (steps trace s).filterMap Step.labeled? =
    (labels trace).map fun label => (label, Element.ofTerm false (bNode label))

theorem steps_cons {rule : RuleName} {text : Bytes} {trace : Trace RuleName}
    {s s' : State false} (h : apply rule text s = .ok s') :
    steps ((rule, text) :: trace) s = ⟨rule, text, s, s'⟩ :: steps trace s' := by
  simp [steps, h]

theorem labels_cons_plain {rule : RuleName} {text : Bytes} {trace : Trace RuleName}
    (hrule : rule ≠ .blankNode) : labels ((rule, text) :: trace) = labels trace := by
  simp [labels, hrule]

theorem Action.blankNode_basic {q : Bool} {text : Bytes} {s s' : BasicState q}
    (h : Action.blankNode text s = .ok s') :
    s' = { s with element := Action.blankNodeElement q s.blankNodeString } :=
  (Except.ok.inj h).symm

theorem Action.blankNodeLabel_basic {q : Bool} {text : Bytes} {s s' : BasicState q}
    (h : Action.blankNodeLabel text s = .ok s') :
    s' = { s with literalString := text.drop 2, blankNodeString := text.drop 2 } := by
  unfold Action.blankNodeLabel substr at h
  split at h
  · cases h
  · rw [List.take_of_length_le (by simp)] at h
    exact (Except.ok.inj h).symm

theorem anon_label {q : Bool} {text : Bytes} {s s₁ s₂ : State q}
    (hanon : apply .anon text s = .ok s₁) (hnode : apply .blankNode text s₁ = .ok s₂) :
    s₁.latestBNLabel = s.latestBNLabel + 1 ∧ s₂.latestBNLabel = s.latestBNLabel + 1 ∧
      s₂.element = Action.blankNodeElement q (blankNodeLabel s.latestBNLabel) := by
  have h₁ := Action.anon_basic (State.lift_ok hanon)
  have h₂ := Action.blankNode_basic (State.lift_ok hnode)
  rw [h₂, h₁]
  exact ⟨rfl, rfl, rfl⟩

theorem written_label {q : Bool} {text : Bytes} {s s₁ s₂ : State q}
    (hlabel : apply .blankNodeLabel text s = .ok s₁)
    (hnode : apply .blankNode text s₁ = .ok s₂) :
    s₂.latestBNLabel = s.latestBNLabel ∧
      s₂.element = Action.blankNodeElement q (text.drop 2) := by
  have h₁ := Action.blankNodeLabel_basic (State.lift_ok hlabel)
  have h₂ := Action.blankNode_basic (State.lift_ok hnode)
  rw [h₂, h₁]
  exact ⟨rfl, rfl⟩

/-- Consecutive labels used up by an action and by the rest of the run. -/
theorem range'_split (start count count' : Nat) :
    (List.range' start (count + count')).map (unlabeledNode false) =
      (List.range' start count).map (unlabeledNode false) ++
        (List.range' (start + count) count').map (unlabeledNode false) := by
  rw [← List.map_append, List.range'_append_1]

theorem Denotes.plain {rule : RuleName} {text : Bytes} {trace : Trace RuleName}
    {s s₁ s' : State false} {count : Nat} (happly : apply rule text s = .ok s₁)
    (hrule : plain rule = true) (h : Denotes trace s₁ s' count) :
    ∃ count', Denotes ((rule, text) :: trace) s s' count' := by
  obtain ⟨count', hgenerates⟩ := generates_plain happly hrule
  have hlabel : s₁.latestBNLabel = s.latestBNLabel + count' := hgenerates.label
  refine ⟨count' + count, by rw [h.label, hlabel, Nat.add_assoc], ?_, ?_⟩
  · rw [steps_cons happly, List.flatMap_cons, hgenerates.nodes, h.nodes, range'_split, hlabel]
  · rw [steps_cons happly, List.filterMap_cons, not_labeled_plain hrule, h.written,
      labels_cons_plain]
    rintro rfl
    exact absurd hrule Bool.false_ne_true

theorem Denotes.anon {text : Bytes} {trace : Trace RuleName} {s s₁ s₂ s' : State false}
    {count : Nat} (hanon : apply .anon text s = .ok s₁)
    (hnode : apply .blankNode text s₁ = .ok s₂) (htext : text.head? = some (char '['))
    (h : Denotes trace s₂ s' count) :
    Denotes ((.anon, text) :: (.blankNode, text) :: trace) s s' (1 + count) := by
  obtain ⟨hlabel₁, hlabel, hnew⟩ := anon_label hanon hnode
  have helement : s₂.element = unlabeledNode false s.latestBNLabel := hnew
  have hother : text.head? ≠ some (char '_') := by
    rw [htext]
    decide
  refine ⟨by rw [h.label, hlabel, Nat.add_assoc], ?_, ?_⟩
  · rw [steps_cons hanon, steps_cons hnode, List.flatMap_cons, List.flatMap_cons, h.nodes,
      range'_split, hlabel]
    simp [Step.generated, htext, helement]
  · rw [steps_cons hanon, steps_cons hnode, List.filterMap_cons, List.filterMap_cons, h.written]
    simp [Step.labeled?, labels, hother]

theorem Denotes.label_cons {text : Bytes} {trace : Trace RuleName} {s s₁ s₂ s' : State false}
    {count : Nat} (hlabel : apply .blankNodeLabel text s = .ok s₁)
    (hnode : apply .blankNode text s₁ = .ok s₂) (htext : text.head? = some (char '_'))
    (h : Denotes trace s₂ s' count) :
    Denotes ((.blankNodeLabel, text) :: (.blankNode, text) :: trace) s s' count := by
  obtain ⟨hcounter, hnamed⟩ := written_label hlabel hnode
  have helement : s₂.element = Element.ofTerm false (bNode (text.drop 2)) := hnamed
  have hother : text.head? ≠ some (char '[') := by
    rw [htext]
    decide
  refine ⟨by rw [h.label, hcounter], ?_, ?_⟩
  · rw [steps_cons hlabel, steps_cons hnode, List.flatMap_cons, List.flatMap_cons, h.nodes,
      hcounter]
    simp [Step.generated, hother]
  · rw [steps_cons hlabel, steps_cons hnode, List.filterMap_cons, List.filterMap_cons, h.written]
    simp [Step.labeled?, labels, htext, helement]

/-- Every run over a paired trace. -/
theorem Paired.denotes {trace : Trace RuleName} (h : Paired trace) {s s' : State false}
    (hrun : runActions trace s = (s', none)) : ∃ count, Denotes trace s s' count := by
  induction h generalizing s with
  | nil =>
      rw [runActions_nil, Prod.mk.injEq] at hrun
      rw [← hrun.1]
      exact ⟨0, rfl, rfl, rfl⟩
  | other hrule _ ih =>
      obtain ⟨s₁, happly, hrest⟩ := runActions_cons_inv hrun
      obtain ⟨count, hdenotes⟩ := ih hrest
      exact hdenotes.plain happly hrule
  | anon htext _ ih =>
      obtain ⟨s₁, hanon, hnext⟩ := runActions_cons_inv hrun
      obtain ⟨s₂, hnode, hrest⟩ := runActions_cons_inv hnext
      obtain ⟨count, hdenotes⟩ := ih hrest
      exact ⟨_, hdenotes.anon hanon hnode htext⟩
  | label htext _ ih =>
      obtain ⟨s₁, hlabel, hnext⟩ := runActions_cons_inv hrun
      obtain ⟨s₂, hnode, hrest⟩ := runActions_cons_inv hnext
      obtain ⟨count, hdenotes⟩ := ih hrest
      exact ⟨count, hdenotes.label_cons hlabel hnode htext⟩

/-! ## How many nodes a document generates -/

/-- The nodes counted so far, and the objects read in each open bracket. -/
structure Tally where
  nodes : Nat := 0
  objects : Nat := 0
  outer : List Nat := []

/-- A completed match: `[]` and a property list count one node, a collection one for
each of its objects, but at least one. -/
def Tally.read (t : Tally) : RuleName → Tally
  | .anon => { t with nodes := t.nodes + 1 }
  | .object _ => { t with objects := t.objects + 1 }
  | .collectionBegin | .blankNodePropertyListBegin =>
      { t with objects := 0, outer := t.objects :: t.outer }
  | .collection _ =>
      { nodes := t.nodes + max 1 t.objects, objects := t.outer.headD 0, outer := t.outer.tail }
  | .blankNodePropertyList _ =>
      { nodes := t.nodes + 1, objects := t.outer.headD 0, outer := t.outer.tail }
  | .predicateObjectListInner _ | .triple _ => { t with objects := 0 }
  | _ => t

/-- The tally of a trace. -/
def tally (trace : Trace RuleName) : Tally := trace.foldl (fun t entry => t.read entry.1) {}

/-- The number of blank nodes that are written without a label: each `[]`, each property
list, and each object of a collection, where the empty collection counts as one. -/
def nodeCount (trace : Trace RuleName) : Nat := (tally trace).nodes

/-- The state has as many objects in its lists, and has used as many labels, as have
been counted. -/
structure Tally.Counts {q : Bool} (t : Tally) (s : State q) : Prop where
  label : s.latestBNLabel = t.nodes + 1
  objects : s.bnplCollectionList.length = t.objects
  outer : s.bnplCollectionListStack.map List.length = t.outer

/-- The rules whose actions change the object lists. -/
def listing : RuleName → Bool
  | .object _ | .collectionBegin | .blankNodePropertyListBegin => true
  | .collection _ | .blankNodePropertyList _ => true
  | .predicateObjectListInner _ | .triple _ => true
  | _ => false

theorem State.lift_lists {q : Bool} {action : BasicState q → Except Fault (BasicState q)}
    {s s' : State q} (h : s.lift action = .ok s') :
    s'.bnplCollectionList = s.bnplCollectionList ∧
      s'.bnplCollectionListStack = s.bnplCollectionListStack := by
  unfold State.lift at h
  cases haction : action s.toBasicState with
  | error fault => simp [haction, Except.map] at h
  | ok basic =>
      simp only [haction, Except.map, Except.ok.injEq] at h
      rw [← h]
      exact ⟨rfl, rfl⟩

theorem apply_lists {q : Bool} {rule : RuleName} {text : Bytes} {s s' : State q}
    (h : apply rule text s = .ok s') (hrule : listing rule = false) :
    s'.bnplCollectionList = s.bnplCollectionList ∧
      s'.bnplCollectionListStack = s.bnplCollectionListStack := by
  unfold apply at h
  split at h
  all_goals first
    | exact State.lift_lists h
    | rw [Except.ok.injEq] at h
      subst h
    | cases hrule
  all_goals first
    | exact ⟨rfl, rfl⟩
    | cases hrule; done
    | unfold State.processVerb
      simp only
      split <;> exact ⟨rfl, rfl⟩
    | unfold State.processTripleSeq
      rw [State.foldl_insertTriple]
      exact ⟨rfl, rfl⟩

/-- The rules that do not generate a node use up no label. -/
theorem apply_label {q : Bool} {rule : RuleName} {text : Bytes} {s s' : State q}
    (h : apply rule text s = .ok s') (hanon : rule ≠ .anon)
    (hcollection : ∀ sparqlQuery, rule ≠ .collection sparqlQuery)
    (hlist : ∀ sparqlQuery, rule ≠ .blankNodePropertyList sparqlQuery) :
    s'.latestBNLabel = s.latestBNLabel := by
  cases hnaming : naming rule with
  | false => exact (apply_agrees h hnaming).latestBNLabel
  | true =>
      cases rule <;> simp only [naming, reduceCtorEq] at hnaming
      case anon => exact absurd rfl hanon
      case collection q => exact absurd rfl (hcollection q)
      case blankNodePropertyList q => exact absurd rfl (hlist q)
      case prefixID | sparqlPrefix | base | sparqlBase => exact directive_label h (by decide)

theorem Tally.Counts.read {q : Bool} {t : Tally} {rule : RuleName} {text : Bytes}
    {s s' : State q} (hcounts : t.Counts s) (h : apply rule text s = .ok s') :
    (t.read rule).Counts s' := by
  obtain ⟨hlabel, hobjects, houter⟩ := hcounts
  cases hrule : listing rule with
  | false =>
      obtain ⟨hlist, hstack⟩ := apply_lists h hrule
      by_cases hanon : rule = .anon
      · subst hanon
        refine ⟨?_, by rw [hlist]; exact hobjects, by rw [hstack]; exact houter⟩
        rw [Action.anon_basic (State.lift_ok h)]
        exact congrArg (· + 1) hlabel
      · have hread : t.read rule = t := by
          cases rule <;> first | rfl | contradiction
        rw [hread]
        refine ⟨?_, by rw [hlist]; exact hobjects, by rw [hstack]; exact houter⟩
        rw [apply_label h hanon, hlabel]
        · rintro q rfl
          cases hrule
        · rintro q rfl
          cases hrule
  | true =>
      have hkeep : (∀ sparqlQuery, rule ≠ .collection sparqlQuery) →
          (∀ sparqlQuery, rule ≠ .blankNodePropertyList sparqlQuery) →
          s'.latestBNLabel = t.nodes + 1 := by
        intro hcollection hlist
        rw [apply_label h (by rintro rfl; exact absurd hrule Bool.false_ne_true) hcollection
          hlist, hlabel]
      cases rule <;> first | exact absurd hrule Bool.false_ne_true | skip
      case triple =>
          refine ⟨hkeep (by simp) (by simp), ?_, ?_⟩
          · rw [← Except.ok.inj h]
            rfl
          · rw [← Except.ok.inj h]
            exact houter
      case object =>
          refine ⟨hkeep (by simp) (by simp), ?_, ?_⟩
          · rw [← Except.ok.inj h]
            simp [State.pushCurrentTermIntoBnplCollectionList, Tally.read, hobjects]
          · rw [← Except.ok.inj h]
            exact houter
      case collectionBegin | blankNodePropertyListBegin =>
          refine ⟨hkeep (by simp) (by simp), ?_, ?_⟩
          · rw [← Except.ok.inj h]
            rfl
          · rw [← Except.ok.inj h]
            simp [State.moveBnplCollectionListIntoStack, Tally.read, hobjects, houter]
      case collection =>
          obtain ⟨list, rest, hstack, hcloses⟩ := processCollection_closes h
          rw [hstack] at houter
          refine ⟨(congrArg PairBook.label hcloses.book).trans ?_, ?_, ?_⟩
          · show s.latestBNLabel + cellCount s.bnplCollectionList = t.nodes + max 1 t.objects + 1
            rw [hlabel, cellCount, hobjects]
            omega
          · rw [hcloses.list, Tally.read, ← houter]
            rfl
          · rw [hcloses.listStack, Tally.read, ← houter]
            rfl
      case blankNodePropertyList =>
          obtain ⟨list, rest, hstack, hcloses⟩ := processBlankNodePropertyList_closes h
          rw [hstack] at houter
          refine ⟨(congrArg PairBook.label hcloses.book).trans ?_, ?_, ?_⟩
          · exact congrArg (· + 1) hlabel
          · rw [hcloses.list, Tally.read, ← houter]
            rfl
          · rw [hcloses.listStack, Tally.read, ← houter]
            rfl
      case predicateObjectListInner =>
          have hlabel' := hkeep (by simp) (by simp)
          have hlists : s'.bnplCollectionList = [] ∧
              s'.bnplCollectionListStack = s.bnplCollectionListStack := by
            change s.processPredicateObjectListInner = .ok s' at h
            unfold State.processPredicateObjectListInner at h
            split at h
            · cases h
            · cases h
              exact ⟨rfl, rfl⟩
          exact ⟨hlabel', by rw [hlists.1]; rfl, by rw [hlists.2]; exact houter⟩

/-- What a run has used up is what its trace counts. -/
theorem label_eq_nodeCount {initial : PrefixMap} {trace : Trace RuleName} {final : State false}
    (h : runActions trace (initialState false initial) = (final, none)) :
    final.latestBNLabel = nodeCount trace + 1 := by
  have hcounts : (tally trace).Counts final := by
    refine runActions_induction (P := fun before s => (tally before).Counts s)
      ⟨rfl, rfl, rfl⟩ ?_ h
    intro before rule text s s' hcounts happly
    unfold tally
    rw [List.foldl_append]
    exact hcounts.read happly
  exact hcounts.label

/-! ## Freshness -/

/-- The generated blank nodes of a run are distinct from each other and from those
written with a label, and two of the latter are the same exactly if their labels are. -/
structure Separate (run : List Step) : Prop where
  nodup : (run.flatMap Step.generated).Nodup
  apart : ∀ node ∈ run.flatMap Step.generated, ∀ written ∈ run.filterMap Step.labeled?,
    node ≠ written.2
  same : ∀ written ∈ run.filterMap Step.labeled?, ∀ written' ∈ run.filterMap Step.labeled?,
    written.2 = written'.2 ↔ written.1 = written'.1

/-- The condition for a run over a paired trace. -/
theorem Denotes.separate_iff {trace : Trace RuleName} {s s' : State false} {count : Nat}
    (h : Denotes trace s s' count) :
    Separate (steps trace s) ↔
      ∀ label ∈ labels trace, ∀ n, s.latestBNLabel ≤ n → n < s.latestBNLabel + count →
        label ≠ blankNodeLabel n := by
  constructor
  · intro hseparate label hlabel n hlow hhigh heq
    have hgenerated : unlabeledNode false n ∈ (steps trace s).flatMap Step.generated := by
      rw [h.nodes]
      exact List.mem_map_of_mem (List.mem_range'_1.mpr ⟨hlow, hhigh⟩)
    have hwritten : (label, Element.ofTerm false (bNode label)) ∈
        (steps trace s).filterMap Step.labeled? := by
      rw [h.written]
      exact List.mem_map_of_mem hlabel
    refine hseparate.apart _ hgenerated _ hwritten ?_
    rw [heq]
    rfl
  · intro hlabels
    constructor
    · rw [h.nodes]
      exact (List.nodup_range' 1).map (unlabeledNode_injective false)
    · intro node hnode written hwritten
      rw [h.nodes, List.mem_map] at hnode
      rw [h.written, List.mem_map] at hwritten
      obtain ⟨n, hn, rfl⟩ := hnode
      obtain ⟨label, hlabel, rfl⟩ := hwritten
      obtain ⟨hlow, hhigh⟩ := List.mem_range'_1.mp hn
      intro heq
      have hterm := Element.ofTerm_injective false heq
      exact hlabels label hlabel n hlow hhigh (bNode_inj.mp hterm).symm
    · intro written hwritten written' hwritten'
      rw [h.written, List.mem_map] at hwritten hwritten'
      obtain ⟨label, -, rfl⟩ := hwritten
      obtain ⟨label', -, rfl⟩ := hwritten'
      constructor
      · intro heq
        exact bNode_inj.mp (Element.ofTerm_injective false heq)
      · intro heq
        simp only at heq
        rw [heq]

/-- None of the labels `b1`, ..., `bN` is written, where `N` blank nodes have no label. -/
def LabelsFree (trace : Trace RuleName) : Prop :=
  ∀ label ∈ labels trace, ∀ n < nodeCount trace, label ≠ blankNodeLabel (n + 1)

instance (trace : Trace RuleName) : Decidable (LabelsFree trace) :=
  inferInstanceAs (Decidable (∀ label ∈ labels trace, _))

theorem Paired.separate_iff {initial : PrefixMap} {trace : Trace RuleName} {final : State false}
    (hpaired : Paired trace)
    (hactions : runActions trace (initialState false initial) = (final, none)) :
    Separate (steps trace (initialState false initial)) ↔ LabelsFree trace := by
  obtain ⟨count, hdenotes⟩ := hpaired.denotes hactions
  have hstart : (initialState false initial).latestBNLabel = 1 := rfl
  have hcount : count = nodeCount trace := by
    have hfinal := label_eq_nodeCount hactions
    rw [hdenotes.label, hstart] at hfinal
    omega
  rw [hdenotes.separate_iff, hcount, hstart]
  constructor
  · intro hlabels label hlabel n hn
    exact hlabels label hlabel (n + 1) (by omega) (by omega)
  · intro hfree label hlabel n hlow hhigh
    obtain ⟨m, rfl⟩ : ∃ m, n = m + 1 := ⟨n - 1, by omega⟩
    exact hfree label hlabel m (by omega)

/-- In a document whose actions all succeed the generated nodes are fresh exactly if the
document writes none of their labels. -/
theorem blankNodes_separate_iff {initial : PrefixMap} {document : Bytes} {outcome : Outcome}
    {trace : Trace RuleName} {final : State false}
    (hrun : Run turtle (.ref (.grammar false)) document outcome trace)
    (hactions : runActions trace (initialState false initial) = (final, none)) :
    Separate (steps trace (initialState false initial)) ↔ LabelsFree trace := by
  have hpaired : Paired trace := Run.paired hrun (by decide)
  exact hpaired.separate_iff hactions

/-- The run of an accepted document, computed with a bound on the depth of the match. -/
theorem exec_run (q : Bool) (document : Bytes) (check : Trace RuleName → Bool)
    (h : (exec turtle 80 (.ref (.grammar q)) document).map (fun result =>
      (decide (result.1 = .error), (runActions result.2 (initialState q [])).2,
        check result.2)) = some (false, none, true)) :
    ∃ outcome trace final, Run turtle (.ref (.grammar q)) document outcome trace ∧
      outcome ≠ .error ∧ runActions trace (initialState q []) = (final, none) ∧
      check trace = true := by
  rw [Option.map_eq_some_iff] at h
  obtain ⟨⟨outcome, trace⟩, hexec, hsummary⟩ := h
  simp only [Prod.mk.injEq, decide_eq_false_iff_not] at hsummary
  obtain ⟨houtcome, hfault, hcheck⟩ := hsummary
  exact ⟨outcome, trace, _, exec_sound 80 hexec, houtcome, Prod.ext rfl hfault, hcheck⟩

/-- A document with three labels and four blank nodes without one. -/
def separateDocument : Bytes := bytes "_:x <p> [] , ( _:y _:x ) , [ <q> _:b9 ] ."

theorem separateDocument_separate : ∃ outcome trace final,
    Run turtle (.ref (.grammar false)) separateDocument outcome trace ∧
    runActions trace (initialState false []) = (final, none) ∧ nodeCount trace = 4 ∧
    Separate (steps trace (initialState false [])) := by
  obtain ⟨outcome, trace, final, hrun, -, hactions, hcheck⟩ :=
    exec_run false separateDocument
      (fun trace => decide (nodeCount trace = 4 ∧ LabelsFree trace)) (by decide +kernel)
  obtain ⟨hcount, hfree⟩ := of_decide_eq_true hcheck
  exact ⟨outcome, trace, final, hrun, hactions, hcount,
    (blankNodes_separate_iff hrun hactions).mpr hfree⟩

/-- A document in which a label is written that is also generated. -/
def mergedDocument : Bytes := bytes "_:b1 <p> [] ."

/-- The subject and the object of the document are the same blank node. -/
theorem mergedDocument_not_separate : ¬ ∀ (initial : PrefixMap) (document : Bytes)
    (outcome : Outcome) (trace : Trace RuleName) (final : State false),
    Run turtle (.ref (.grammar false)) document outcome trace → outcome ≠ .error →
    runActions trace (initialState false initial) = (final, none) →
    Separate (steps trace (initialState false initial)) := by
  intro hclaim
  obtain ⟨outcome, trace, final, hrun, houtcome, hactions, hcheck⟩ :=
    exec_run false mergedDocument
      (fun trace => decide (¬ LabelsFree trace)) (by decide +kernel)
  have hpaired : Paired trace := Run.paired hrun (by decide)
  have hseparate := hclaim [] mergedDocument outcome trace final hrun houtcome hactions
  exact of_decide_eq_true hcheck ((hpaired.separate_iff hactions).mp hseparate)

end RdfParser.Turtle
