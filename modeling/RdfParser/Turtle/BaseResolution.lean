/-
  Turtle/BaseResolution.lean --- IRI references under a base.

  `action<IRIREF>` inserts the base after the first byte of the reference: the
  position still counts the `<` that was cut off before.  So under a base that
  ends in a slash no reference is resolved, and the empty one throws.
-/
import RdfParser.Turtle.Frame

set_option autoImplicit false

namespace RdfParser.Turtle

open RdfParser.Foundation RdfParser.Rdf RdfParser.Peg

variable {q : Bool}

/-! ## The base of a trace -/

/-- The value of a base directive, as its action reads it. -/
def baseValue? (rule : RuleName) (text : Bytes) : Option Bytes :=
  match rule with
  | .base | .sparqlBase => (baseArgument text).toOption
  | _ => none

/-- The values of the base directives of a trace, in order. -/
def bases (trace : Trace RuleName) : List Bytes :=
  trace.filterMap fun entry => baseValue? entry.1 entry.2

theorem baseValue?_of_quiet {rule : RuleName} (text : Bytes) (h : naming rule = false) :
    baseValue? rule text = none := by
  cases rule <;> first | rfl | simp [naming] at h

/-- An action sets the base it reads, if any. -/
theorem apply_base {rule : RuleName} {text : Bytes} {s s' : State q}
    (h : apply rule text s = .ok s') : s'.base = (baseValue? rule text).getD s.base := by
  cases hnaming : naming rule with
  | false =>
      rw [baseValue?_of_quiet text hnaming]
      exact (apply_agrees h hnaming).base
  | true =>
      cases rule <;> simp only [naming, reduceCtorEq] at hnaming
      case base =>
          obtain ⟨value, hargument, hs'⟩ := Action.base_basic (State.lift_ok h)
          simp only [baseValue?, hargument, hs']
          rfl
      case sparqlBase =>
          obtain ⟨value, hargument, hs'⟩ := Action.base_basic (State.lift_ok h)
          simp only [baseValue?, hargument, hs']
          rfl
      case prefixID =>
          obtain ⟨pre, value, -, hs'⟩ := Action.prefixID_basic (State.lift_ok h)
          rw [hs']
          rfl
      case sparqlPrefix =>
          obtain ⟨pre, value, -, hs'⟩ := Action.prefixID_basic (State.lift_ok h)
          rw [hs']
          rfl
      case anon =>
          rw [Action.anon_basic (State.lift_ok h)]
          rfl
      case collection =>
          rw [State.processCollection_basic h]
          rfl
      case blankNodePropertyList =>
          rw [State.processBlankNodePropertyList_basic h]
          rfl

theorem bases_snoc (trace : Trace RuleName) (rule : RuleName) (text : Bytes) :
    bases (trace ++ [(rule, text)]) = bases trace ++ (baseValue? rule text).toList := by
  unfold bases
  rw [List.filterMap_append]
  cases h : baseValue? rule text <;> simp [h]

/-- The base after some actions is that of the last directive. -/
theorem runActions_base {trace : Trace RuleName} {s s' : State q}
    (h : runActions trace s = (s', none)) : s'.base = (bases trace).getLast?.getD s.base := by
  refine runActions_induction
    (P := fun before t => t.base = (bases before).getLast?.getD s.base) rfl ?_ h
  intro before rule text t t' ht happly
  rw [apply_base happly, ht, bases_snoc]
  cases baseValue? rule text <;> simp

/-! ## Resolution -/

/-- A byte of a scheme: a letter, a digit, `+`, `-` or `.`. -/
def isSchemeByte (b : UInt8) : Bool :=
  isAlnum b || b == char '+' || b == char '-' || b == char '.'

/-- The reference starts with a scheme and a colon. -/
def hasScheme (reference : Bytes) : Bool :=
  reference.head?.any isAlpha && (reference.dropWhile isSchemeByte).head? == some (char ':')

/-- The segments of the path of a reference. -/
def segments (reference : Bytes) : List Bytes :=
  (reference.takeWhile fun b => b != char '?' && b != char '#').splitOn (char '/')

/-- No scheme, no leading slash and no dot segments. -/
def PathRelative (reference : Bytes) : Prop :=
  hasScheme reference = false ∧ reference.head? ≠ some (char '/') ∧
    bytes "." ∉ segments reference ∧ bytes ".." ∉ segments reference

instance (reference : Bytes) : Decidable (PathRelative reference) :=
  inferInstanceAs (Decidable (_ ∧ _))

/-- What a reference stands for under a base that ends in a slash. -/
def resolve (base reference : Bytes) : Bytes :=
  if hasScheme reference then reference else base ++ reference

/-- The action of `IRIREF` reads the reference and resolves it. -/
def ReadsResolved (s : State q) (base reference : Bytes) : Prop :=
  ∃ s', apply .iriref (bytes "<" ++ reference ++ bytes ">") s = .ok s' ∧
    s'.element = Element.ofTerm q (uriRef (resolve base reference))

/-! ## The position of the base -/

/-- `iri.insert(1, base)` on the text without its angle brackets. -/
theorem iriref_element {s : State q} (reference : Bytes) (hbase : s.base ≠ []) :
    (apply .iriref (bytes "<" ++ reference ++ bytes ">") s).map (·.element) =
      match reference with
      | [] => .error .outOfRange
      | first :: rest => .ok (Element.ofTerm q (uriRef (first :: (s.base ++ rest)))) := by
  have htext : substr (bytes "<" ++ reference ++ bytes ">") 1
      (sizeSub (bytes "<" ++ reference ++ bytes ">").length 2) = .ok reference := by
    simp [substr, bytes]
  unfold apply State.lift Action.iriref
  simp only [htext, hbase, ne_eq, not_false_eq_true, if_true, bind, Except.bind]
  cases reference with
  | nil => rfl
  | cons first rest =>
      have hinsert : Foundation.insert (first :: rest) 1 s.base =
          .ok (first :: (s.base ++ rest)) := by
        simp [Foundation.insert]
      rw [hinsert]
      rfl

/-- A byte that moves past a nonempty string is the last byte of that string. -/
theorem getLast?_of_cons_eq_snoc {b : UInt8} {base : Bytes} (hbase : base ≠ [])
    (h : b :: base = base ++ [b]) : base.getLast? = some b := by
  induction base with
  | nil => exact absurd rfl hbase
  | cons c base ih =>
      rw [List.cons_append, List.cons.injEq] at h
      obtain ⟨rfl, h⟩ := h
      cases base with
      | nil => rfl
      | cons d base =>
          rw [List.getLast?_cons_cons]
          exact ih (List.cons_ne_nil d base) h

/-! ## References under a base -/

/-- The empty reference, an absolute IRI, or a path-relative reference. -/
def Resolvable (reference : Bytes) : Prop :=
  reference = [] ∨ hasScheme reference = true ∨ PathRelative reference

instance (reference : Bytes) : Decidable (Resolvable reference) :=
  inferInstanceAs (Decidable (_ ∨ _))

theorem misplaced_base {base rest : Bytes} {first : UInt8} (hbase : base ≠ [])
    (hslash : base.getLast? = some (char '/')) (href : Resolvable (first :: rest)) :
    first :: (base ++ rest) ≠ resolve base (first :: rest) := by
  intro h
  unfold resolve at h
  split at h
  · -- an absolute IRI has become longer
    have hlength := congrArg List.length h
    simp only [List.length_cons, List.length_append] at hlength
    have hpos : 0 < base.length := List.length_pos_of_ne_nil hbase
    omega
  · rename_i hscheme
    -- a relative one would have to start with the last byte of the base
    have hmoved : first :: base ++ rest = base ++ [first] ++ rest := by
      rw [List.append_assoc]
      exact h
    have hlast := getLast?_of_cons_eq_snoc hbase (List.append_cancel_right hmoved)
    rw [hslash, Option.some.injEq] at hlast
    rcases href with hnil | hscheme' | ⟨-, hhead, -⟩
    · exact absurd hnil (List.cons_ne_nil first rest)
    · exact hscheme hscheme'
    · exact hhead (by rw [hlast]; rfl)

theorem not_readsResolved {s : State q} {reference : Bytes}
    (hslash : s.base.getLast? = some (char '/')) (href : Resolvable reference) :
    ¬ ReadsResolved s s.base reference := by
  have hne : s.base ≠ [] := by
    intro hnil
    rw [hnil] at hslash
    exact absurd hslash (by simp)
  have helement := iriref_element reference hne
  rintro ⟨s', happly, hs'⟩
  rw [happly] at helement
  cases reference with
  | nil => exact absurd helement (by simp [Except.map])
  | cons first rest =>
      have hterm := Element.ofTerm_injective q (hs'.symm.trans (Except.ok.inj helement))
      exact misplaced_base hne hslash href (uriRef_inj.mp hterm).symm

/-- No reference is resolved under a base that ends in a slash: not in any state that
actions can reach, in whatever position the reference stands. -/
theorem iriref_not_resolved {initial : PrefixMap} {before : Trace RuleName} {s : State q}
    {base reference : Bytes} (hbefore : runActions before (initialState q initial) = (s, none))
    (hbase : (bases before).getLast? = some base) (hslash : base.getLast? = some (char '/'))
    (href : Resolvable reference) : ¬ ReadsResolved s base reference := by
  have hstate : s.base = base := by
    rw [runActions_base hbefore, hbase]
    rfl
  rw [← hstate] at hslash ⊢
  exact not_readsResolved hslash href

/-- A document with a base and three relative IRIs. -/
def relativeDocument : Bytes := bytes "@base <http://e/> . <a> <p> <o> ."

/-- Reading the document up to the first of them. -/
theorem relativeDocument_run : ∃ outcome before after s,
    Run turtle (.ref (.grammar false)) relativeDocument outcome
      (before ++ (.iriref, bytes "<a>") :: after) ∧ outcome ≠ .error ∧
    runActions before (initialState false []) = (s, none) ∧
    (bases before).getLast? = some (bytes "http://e/") := by
  let earlier : RuleName × Bytes → Bool := fun entry => entry != (.iriref, bytes "<a>")
  have hcomputed : (exec turtle 60 (.ref (.grammar false)) relativeDocument).map
      (fun result => ((result.2.dropWhile earlier).head?, decide (result.1 ≠ .error ∧
        (runActions (result.2.takeWhile earlier) (initialState false [])).2 = none ∧
        (bases (result.2.takeWhile earlier)).getLast? = some (bytes "http://e/")))) =
      some (some (.iriref, bytes "<a>"), true) := by
    decide +kernel
  rw [Option.map_eq_some_iff] at hcomputed
  obtain ⟨⟨outcome, trace⟩, hexec, hsummary⟩ := hcomputed
  simp only [Prod.mk.injEq, decide_eq_true_eq, List.head?_eq_some_iff] at hsummary
  obtain ⟨⟨after, hafter⟩, houtcome, hfault, hbase⟩ := hsummary
  have hrun := exec_sound 60 hexec
  rw [← List.takeWhile_append_dropWhile (p := earlier) (l := trace), hafter] at hrun
  exact ⟨outcome, _, after, _, hrun, houtcome, Prod.ext rfl hfault, hbase⟩

theorem relativeDocument_not_resolved : ∃ before s,
    runActions before (initialState false []) = (s, none) ∧
      ¬ ReadsResolved s (bytes "http://e/") (bytes "a") := by
  obtain ⟨_, before, _, s, -, -, hbefore, hbase⟩ := relativeDocument_run
  exact ⟨before, s, hbefore, iriref_not_resolved hbefore hbase (by decide) (by decide)⟩

/-- `<a>` under the base `http://e/` is not read as `http://e/a`. -/
theorem relativeDocument_misresolved : ¬ ∀ (initial : PrefixMap) (document : Bytes)
    (outcome : Outcome) (before after : Trace RuleName) (s : State false)
    (base reference : Bytes),
    Run turtle (.ref (.grammar false)) document outcome
      (before ++ (.iriref, bytes "<" ++ reference ++ bytes ">") :: after) →
    outcome ≠ .error → runActions before (initialState false initial) = (s, none) →
    (bases before).getLast? = some base → base.getLast? = some (char '/') →
    Resolvable reference → ReadsResolved s base reference := by
  intro hclaim
  obtain ⟨outcome, before, after, s, hrun, houtcome, hbefore, hbase⟩ := relativeDocument_run
  have hreads := hclaim [] relativeDocument outcome before after s (bytes "http://e/")
    (bytes "a") hrun houtcome hbefore hbase (by decide) (by decide)
  have hstate : s.base = bytes "http://e/" := by
    rw [runActions_base hbefore, hbase]
    rfl
  rw [← hstate] at hreads
  exact not_readsResolved (by rw [hstate]; decide) (by decide) hreads

end RdfParser.Turtle
