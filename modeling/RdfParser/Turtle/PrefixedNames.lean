/-
  Turtle/PrefixedNames.lean --- what a prefixed name stands for.

  `PN_LOCAL_ESC` lets a local name carry reserved characters behind a backslash.
  `action<PrefixedName>` appends the local name as it is written, so the backslashes
  become part of the IRI.
-/
import RdfParser.Turtle.Leaf
import RdfParser.Turtle.PrefixScope

set_option autoImplicit false

namespace RdfParser.Turtle

open RdfParser.Foundation RdfParser.Rdf RdfParser.Peg

/-! ## Escapes -/

/-- The characters that `PN_LOCAL_ESC` takes after a backslash. -/
def reservedChars : List Char :=
  ['_', '~', '.', '-', '!', '$', '&', '\'', '(', ')', '*', '+', ',', ';', '=', '/', '?', '#',
    '@', '%']

/-- The byte is that of a reserved character. -/
def isReserved (b : UInt8) : Bool := (reservedChars.map char).contains b

/-- A local name without the backslashes of its escapes. -/
def unescape : Bytes → Bytes
  | [] => []
  | [b] => [b]
  | b :: c :: rest =>
      if b = char '\\' ∧ isReserved c = true then c :: unescape rest
      else b :: unescape (c :: rest)

/-- Every backslash is that of an escape. -/
inductive Escaped : Bytes → Prop where
  | nil : Escaped []
  | plain {b : UInt8} {rest : Bytes} (hb : b ≠ char '\\') (hrest : Escaped rest) :
      Escaped (b :: rest)
  | escape {c : UInt8} {rest : Bytes} (hc : isReserved c = true) (hrest : Escaped rest) :
      Escaped (char '\\' :: c :: rest)

theorem unescape_plain {b : UInt8} (hb : b ≠ char '\\') (rest : Bytes) :
    unescape (b :: rest) = b :: unescape rest := by
  cases rest with
  | nil => rfl
  | cons c rest => rw [unescape, if_neg fun h => hb h.1]

theorem unescape_escape {c : UInt8} (hc : isReserved c = true) (rest : Bytes) :
    unescape (char '\\' :: c :: rest) = c :: unescape rest := by
  rw [unescape, if_pos ⟨rfl, hc⟩]

theorem ne_backslash_of_isReserved {c : UInt8} (hc : isReserved c = true) : c ≠ char '\\' := by
  rintro rfl
  exact absurd hc (by decide)

theorem ne_colon_of_isReserved {c : UInt8} (hc : isReserved c = true) : c ≠ char ':' := by
  rintro rfl
  exact absurd hc (by decide)

namespace Escaped

theorem append {left right : Bytes} (hleft : Escaped left) (hright : Escaped right) :
    Escaped (left ++ right) := by
  induction hleft with
  | nil => exact hright
  | plain hb _ ih => exact .plain hb ih
  | escape hc _ ih => exact .escape hc ih

theorem of_not_mem {text : Bytes} (h : char '\\' ∉ text) : Escaped text := by
  induction text with
  | nil => exact .nil
  | cons b rest ih =>
      rw [List.mem_cons, not_or] at h
      exact .plain (Ne.symm h.1) (ih h.2)

/-- A colon is not escaped, so the local name starts outside of an escape. -/
theorem afterColon {name : Bytes} (h : Escaped name) : Escaped (afterColon name) := by
  induction h with
  | nil => exact .nil
  | @plain b rest hb hrest ih =>
      unfold Turtle.afterColon at ih ⊢
      by_cases hcolon : b = char ':'
      · subst hcolon
        exact hrest
      · rw [List.dropWhile_cons_of_pos (by simpa using hcolon)]
        exact ih
  | @escape c rest hc hrest ih =>
      have hcolon := ne_colon_of_isReserved hc
      unfold Turtle.afterColon at ih ⊢
      rw [List.dropWhile_cons_of_pos (by decide),
        List.dropWhile_cons_of_pos (by simpa using hcolon)]
      exact ih

theorem unescape_eq_filter {text : Bytes} (h : Escaped text) :
    unescape text = text.filter (· != char '\\') := by
  induction h with
  | nil => rfl
  | plain hb _ ih =>
      rw [unescape_plain hb, ih, List.filter_cons_of_pos (by simpa using hb)]
  | @escape c rest hc _ ih =>
      have hkept := ne_backslash_of_isReserved hc
      rw [unescape_escape hc, ih, List.filter_cons_of_neg (by simp),
        List.filter_cons_of_pos (by simpa using hkept)]

/-- Nothing but the backslashes is lost. -/
theorem unescape_eq_self {text : Bytes} (h : Escaped text) :
    unescape text = text ↔ char '\\' ∉ text := by
  rw [h.unescape_eq_filter, List.filter_eq_self]
  constructor
  · intro hall hmem
    simpa using hall _ hmem
  · intro hnot b hb
    have hne : b ≠ char '\\' := by
      rintro rfl
      exact hnot hb
    simpa using hne

end Escaped

/-! ## Names -/

/-- The rules for names that take no backslash. -/
def unescapedRules : RuleName → Bool
  | .hex | .percent | .pnCharsBase | .pnCharsU | .pnChars | .pnPrefix | .pnameNs => true
  | _ => false

theorem unescapedRules_closed (name : RuleName) (h : unescapedRules name = true) :
    (turtle name).avoids [char '\\'] unescapedRules = true := by
  cases name <;> first | decide | exact absurd h Bool.false_ne_true

theorem spans_unescaped {rule : Rule RuleName}
    (hrule : rule.avoids [char '\\'] unescapedRules = true) : Spans turtle rule Escaped := by
  intro input rest trace hrun
  have hascii : ∀ b ∈ [char '\\'], b.toNat < 128 := by simp [char]
  obtain ⟨text, hinput, havoids⟩ := hrun.avoids hascii unescapedRules_closed hrule
  refine ⟨text, hinput, Escaped.of_not_mem fun hmem => ?_⟩
  exact havoids _ hmem (List.mem_singleton_self _)

theorem spans_reserved : Spans turtle (Rule.sorOf (ch '_') (reservedChars.tail.map ch))
    (fun text => ∃ c, isReserved c = true ∧ text = [c]) := by
  refine .sorOf ?_
  intro rule hrule
  obtain ⟨letter, hletter, rfl⟩ := List.mem_map.mp (show rule ∈ reservedChars.map ch from hrule)
  refine .byte fun c hc => ⟨c, ?_, rfl⟩
  rw [beq_iff_eq.mp hc]
  exact List.contains_iff_mem.mpr (List.mem_map_of_mem hletter)

theorem spans_plx : Spans turtle (.ref .plx) Escaped := by
  refine .ref (.sor (spans_unescaped rfl) (.ref ?_))
  intro input rest trace hrun
  obtain ⟨_, _, _, hslash, hreserved, -⟩ := hrun.seq_ok
  obtain ⟨b, hb, rfl, -⟩ := hslash.byte_ok
  obtain ⟨_, rfl, c, hc, rfl⟩ := spans_reserved _ _ _ hreserved
  rw [beq_iff_eq.mp hb]
  exact ⟨[char '\\', c], rfl, .escape hc .nil⟩

theorem spans_pnLocal : Spans turtle (.ref .pnLocal) Escaped := by
  have happend : ∀ left right, Escaped left → Escaped right → Escaped (left ++ right) :=
    fun _ _ => Escaped.append
  refine .ref (.seq happend ?_ (.star .nil happend (.seq happend (spans_unescaped rfl) ?_)))
  · exact .sor (spans_unescaped rfl) (.sor (spans_unescaped rfl)
      (.sor (spans_unescaped rfl) spans_plx))
  · exact .plus .nil happend (.sor (spans_unescaped rfl) (.sor (spans_unescaped rfl) spans_plx))

theorem spans_prefixedName : Spans turtle (.ref .prefixedName) Escaped :=
  .ref (.sor (.ref (.seq (fun _ _ => Escaped.append) (spans_unescaped rfl) spans_pnLocal))
    (spans_unescaped rfl))

/-- In a prefixed name every backslash is that of an escape. -/
theorem escaped_of_matches {name : Bytes} (h : Matches turtle .prefixedName name) :
    Escaped name := by
  obtain ⟨rest, trace, hrun⟩ := h
  obtain ⟨text, htext, hescaped⟩ := spans_prefixedName _ _ _ hrun
  rw [List.append_cancel_right htext]
  exact hescaped

/-! ## Expansion -/

variable {q : Bool}

/-- The actions of the match of a prefixed name make it the IRI of its prefix followed
by its local name without escapes; they throw if the prefix is not bound. -/
def Expands (s : State q) (trace : Trace RuleName) (name : Bytes) : Prop :=
  match s.getPrefixValue (beforeColon name) with
  | some iri => ∃ s', runActions trace s = (s', none) ∧
      s'.element = Element.ofTerm q (uriRef (iri ++ unescape (afterColon name)))
  | none => ∃ s', runActions trace s = (s', some (.runtimeError undefinedPrefix))

/-- The state in which the match of a prefixed name is left, and the exception. -/
theorem prefixedName_runActions {name rest : Bytes} {trace : Trace RuleName}
    (h : Run turtle (.ref .prefixedName) (name ++ rest) (.ok rest) trace) (s : State q) :
    runActions trace s = runActions [(.prefixedName, name)] s := by
  obtain ⟨text, hinput, -, hactions⟩ := token_essence (by decide) h
  obtain rfl : name = text := List.append_cancel_right hinput
  rw [runActions_eq_essence, hactions]
  rfl

/-- A prefixed name is expanded exactly if its prefix is not bound or its local name has
no escape. -/
theorem expands_iff {name rest : Bytes} {trace : Trace RuleName}
    (h : Run turtle (.ref .prefixedName) (name ++ rest) (.ok rest) trace) (s : State q) :
    Expands s trace name ↔
      (s.getPrefixValue (beforeColon name) ≠ none → char '\\' ∉ afterColon name) := by
  have hmatches : Matches turtle .prefixedName name := ⟨rest, trace, h⟩
  have hlocal := (escaped_of_matches hmatches).afterColon
  have helement := prefixedName_expands (s := s) (solid_of_matches hmatches rfl)
  have hrun := prefixedName_runActions h s
  unfold Expands
  cases hfind : s.getPrefixValue (beforeColon name) with
  | none =>
      refine iff_of_true ?_ (by simp)
      rw [show s.prefixMap.find (beforeColon name) = none from hfind] at helement
      cases happly : apply .prefixedName name s with
      | ok s' => simp [happly, expansion, Except.map] at helement
      | error fault =>
          rw [happly] at helement
          rw [hrun, runActions_cons_error happly]
          exact ⟨s, by rw [Except.error.inj helement]⟩
  | some iri =>
      rw [show s.prefixMap.find (beforeColon name) = some iri from hfind] at helement
      cases happly : apply .prefixedName name s with
      | error fault => simp [happly, expansion, Except.map] at helement
      | ok s₁ =>
          rw [happly] at helement
          have hs₁ : s₁.element = Element.ofTerm q (uriRef (iri ++ afterColon name)) :=
            Except.ok.inj helement
          rw [hrun, runActions_cons_ok happly, ← hlocal.unescape_eq_self]
          constructor
          · rintro ⟨s', hs', hunescaped⟩ -
            obtain rfl : s₁ = s' := congrArg Prod.fst hs'
            have hterm := Element.ofTerm_injective q (hunescaped.symm.trans hs₁)
            exact List.append_cancel_left (uriRef_inj.mp hterm)
          · intro hsame
            exact ⟨s₁, rfl, by rw [hs₁, hsame (by simp)]⟩

/-- `p:a.b:%41` -/
def plainName : Bytes := bytes "p:a.b:%41"

/-- The prefix `p` stands for `i`. -/
def boundPrefix : PrefixMap := [(bytes "p", bytes "i")]

theorem plainName_run : ∃ trace,
    Run turtle (.ref .prefixedName) (plainName ++ []) (.ok []) trace :=
  ⟨_, exec_sound 30 rfl⟩

theorem plainName_expands : ∃ trace, Expands (initialState false boundPrefix) trace plainName := by
  obtain ⟨trace, hrun⟩ := plainName_run
  exact ⟨trace, (expands_iff hrun _).mpr fun _ => by decide⟩

/-- `p:\~x` -/
def escapedName : Bytes := bytes "p:\\~x"

/-- The backslash of `p:\~x` becomes part of the IRI. -/
theorem escapedName_keeps_backslash : ¬ ∀ (prefixMap : PrefixMap) (before : Trace RuleName)
    (s : State false) (name rest : Bytes) (trace : Trace RuleName),
    runActions before (initialState false prefixMap) = (s, none) →
    Run turtle (.ref .prefixedName) (name ++ rest) (.ok rest) trace → Expands s trace name := by
  intro hclaim
  have hrun : ∃ trace, Run turtle (.ref .prefixedName) (escapedName ++ []) (.ok []) trace :=
    ⟨_, exec_sound 30 rfl⟩
  obtain ⟨trace, hrun⟩ := hrun
  obtain ⟨s', hs', hexpanded⟩ :=
    hclaim boundPrefix [] (initialState false boundPrefix) escapedName [] trace rfl hrun
  rw [prefixedName_runActions hrun] at hs'
  obtain ⟨s₁, happly, hs₁⟩ := runActions_cons_inv hs'
  have hkept : s₁.element = Element.ofTerm false (uriRef (bytes "i\\~x")) := by
    cases happly
    rfl
  obtain rfl : s₁ = s' := congrArg Prod.fst hs₁
  rw [hkept] at hexpanded
  exact absurd (uriRef_inj.mp (Element.ofTerm_injective false hexpanded)) (by decide)

end RdfParser.Turtle
