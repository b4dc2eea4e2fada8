/-
  Turtle/Tokens.lean --- the shape of names and IRIs: how they begin and end, and
  that they contain no white space.
-/
import RdfParser.Peg.Consumed
import RdfParser.Turtle.Grammar

set_option autoImplicit false

namespace RdfParser.Turtle

open RdfParser.Foundation RdfParser.Peg

/-! ## White space -/

/-- The rules for names, IRIs and their parts: none of them accepts white space. -/
def solidRules : RuleName → Bool
  | .pnLocalEsc | .hex | .percent | .plx => true
  | .pnCharsBase | .pnCharsU | .pnChars | .pnLocal | .pnPrefix => true
  | .uchar | .iriref | .pnameNs | .pnameLn | .prefixedName | .blankNodeLabel => true
  | _ => false

theorem solidRules_closed (name : RuleName) (h : solidRules name = true) :
    (turtle name).avoids spaces solidRules = true := by
  cases name <;> first | decide | exact absurd h Bool.false_ne_true

/-- A name or an IRI is a single word. -/
theorem solid_of_matches {name : RuleName} {text : Bytes} (h : Matches turtle name text)
    (hname : solidRules name = true) : Solid text := by
  intro b hb
  have hnotMem : b ∉ spaces := h.avoids (fun _ => spaces_ascii) solidRules_closed hname b hb
  rw [mem_spaces] at hnotMem
  exact eq_false_of_ne_true hnotMem

/-! ## Delimiters -/

/-- A `PNAME_NS` by its prefix. -/
def pnameToken (pre : Bytes) : Bytes := pre ++ [char ':']

/-- An `IRIREF` by its text. -/
def irirefToken (iri : Bytes) : Bytes := char '<' :: (iri ++ [char '>'])

/-- A `PNAME_NS` is a prefix and a colon. -/
theorem pnameNs_sound {input rest : Bytes} {trace : Trace RuleName}
    (h : Run turtle (.ref .pnameNs) input (.ok rest) trace) :
    ∃ pre, input = pnameToken pre ++ rest := by
  obtain ⟨_, hbody, -⟩ := h.ref_ok
  obtain ⟨middle, _, _, hpre, hcolon, -⟩ := hbody.seq_ok
  obtain ⟨pre, hinput⟩ := hpre.suffix
  obtain ⟨b, hb, hmiddle, -⟩ := hcolon.byte_ok
  refine ⟨pre, ?_⟩
  rw [hinput, hmiddle, beq_iff_eq.mp hb]
  simp [pnameToken]

/-- An `IRIREF` is a text in angle brackets. -/
theorem iriref_sound {input rest : Bytes} {trace : Trace RuleName}
    (h : Run turtle (.ref .iriref) input (.ok rest) trace) :
    ∃ iri, input = irirefToken iri ++ rest := by
  obtain ⟨_, hbody, -⟩ := h.ref_ok
  obtain ⟨_, _, _, hopen, hinner, -⟩ := hbody.seq_ok
  obtain ⟨b, hb, hinput, -⟩ := hopen.byte_ok
  obtain ⟨_, _, _, hstar, hlast, -⟩ := hinner.seq_ok
  obtain ⟨iri, hmiddle⟩ := hstar.suffix
  obtain ⟨c, hc, hlast, -⟩ := hlast.byte_ok
  refine ⟨iri, ?_⟩
  rw [hinput, hmiddle, hlast, beq_iff_eq.mp hb, beq_iff_eq.mp hc]
  simp [irirefToken]

end RdfParser.Turtle
