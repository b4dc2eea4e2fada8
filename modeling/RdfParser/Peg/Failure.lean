/-
  Peg/Failure.lean --- what a failed match leaves behind.

  A PEG parser runs an action as soon as its rule has matched, also when an
  expression around it fails later.  The tables below bound this from the text of
  a grammar alone: which expressions cannot begin with a given byte, and which
  ones, when they fail, have run no action outside a given set.
-/
import RdfParser.Peg.Consumed

set_option autoImplicit false

namespace RdfParser.Peg

open RdfParser.Foundation

variable {ν : Type} {G : ν → Rule ν}

/-! ## Expressions that always match -/

/-- The expression has no local failure. -/
def Rule.neverFails : Rule ν → Bool
  | .byte _ | .codePoint _ | .eof | .ref _ => false
  | .success | .star _ | .must _ => true
  | .seq first second => first.neverFails && second.neverFails
  | .sor first second => first.neverFails || second.neverFails

theorem Run.neverFails_of_fail {rule : Rule ν} {input : Bytes} {outcome : Outcome}
    {trace : Trace ν} (h : Run G rule input outcome trace) (hfail : outcome = .fail) :
    rule.neverFails = false := by
  induction h with
  | byteOk _ | byteFail _ | codePointOk _ _ | codePointFail _ | eofOk | eofFail _ | ref _ _ => rfl
  | success | starDone _ _ | starError _ _ => cases hfail
  | seqNext _ _ _ ih₂ =>
      rw [Rule.neverFails, ih₂ hfail, Bool.and_false]
  | seqStop _ _ ih =>
      rw [Rule.neverFails, ih hfail, Bool.false_and]
  | sorStop _ hstop _ => exact absurd hfail hstop
  | sorNext _ _ ih₁ ih₂ =>
      rw [Rule.neverFails, ih₁ rfl, ih₂ hfail, Bool.or_false]
  | starNext _ _ _ ih₂ => exact absurd (ih₂ hfail) (by simp [Rule.neverFails])
  | @must _ _ outcome _ _ _ => cases outcome <;> cases hfail

/-! ## First bytes -/

mutual

/-- The expression does not match an input that begins with `b`, given that the
names in `R` do not. -/
def Rule.refuses (b : UInt8) (R : ν → Bool) : Rule ν → Bool
  | .byte accepts => !accepts b
  | .codePoint accepts => !accepts b.toNat
  | .eof => true
  | .success | .star _ => false
  | .seq first second => first.refuses b R || (first.passes b R && second.refuses b R)
  | .sor first second => first.refuses b R && second.refuses b R
  | .must body => body.refuses b R
  | .ref name => R name

/-- If the expression matches an input that begins with `b`, it matches the empty
text. -/
def Rule.passes (b : UInt8) (R : ν → Bool) : Rule ν → Bool
  | .byte _ | .codePoint _ | .eof | .ref _ => false
  | .success => true
  | .seq first second => first.passes b R && second.passes b R
  | .sor first second =>
      (first.refuses b R || first.passes b R) && (second.refuses b R || second.passes b R)
  | .star body => body.refuses b R
  | .must body => body.passes b R

end

theorem peekUtf8_cons {b : UInt8} (hascii : b.toNat < 128) (rest : Bytes) :
    peekUtf8 (b :: rest) = some (b.toNat, 1) := by
  simp [peekUtf8, hascii]

/-- The tables of first bytes are right, for a set of names closed under them. -/
theorem Run.first_byte {b : UInt8} (hascii : b.toNat < 128) {R : ν → Bool}
    (hclosed : ∀ name, R name = true → (G name).refuses b R = true)
    {rule : Rule ν} {input : Bytes} {outcome : Outcome} {trace : Trace ν}
    (h : Run G rule input outcome trace) {rest : Bytes} (hinput : input = b :: rest) :
    (rule.refuses b R = true → ∀ after, outcome ≠ .ok after) ∧
      (rule.passes b R = true → ∀ after, outcome = .ok after → after = b :: rest) := by
  induction h with
  | byteOk haccepts =>
      cases hinput
      simp [Rule.refuses, Rule.passes, haccepts]
  | codePointOk hpeek haccepts =>
      rw [hinput, peekUtf8_cons hascii] at hpeek
      cases hpeek
      simp [Rule.refuses, Rule.passes, haccepts]
  | byteFail _ | codePointFail _ | eofFail _ => simp [Rule.passes]
  | eofOk => cases hinput
  | success => simp [Rule.refuses, hinput]
  | seqNext _ _ ih₁ ih₂ =>
      simp only [Rule.refuses, Rule.passes, Bool.or_eq_true, Bool.and_eq_true]
      constructor
      · rintro (hfirst | ⟨hpass, hsecond⟩)
        · exact absurd rfl ((ih₁ hinput).1 hfirst _)
        · exact (ih₂ ((ih₁ hinput).2 hpass _ rfl)).1 hsecond
      · rintro ⟨hpass, hsecond⟩
        exact (ih₂ ((ih₁ hinput).2 hpass _ rfl)).2 hsecond
  | seqStop _ hstop _ =>
      exact ⟨fun _ => hstop, fun _ after hafter => absurd hafter (hstop after)⟩
  | sorStop _ hstop ih =>
      simp only [Rule.refuses, Rule.passes, Bool.or_eq_true, Bool.and_eq_true]
      refine ⟨fun hrefuse => (ih hinput).1 hrefuse.1, ?_⟩
      rintro ⟨hfirst | hfirst, -⟩ after hafter
      · exact absurd hafter ((ih hinput).1 hfirst after)
      · exact (ih hinput).2 hfirst after hafter
  | sorNext _ _ _ ih₂ =>
      simp only [Rule.refuses, Rule.passes, Bool.or_eq_true, Bool.and_eq_true]
      refine ⟨fun hrefuse => (ih₂ hinput).1 hrefuse.2, ?_⟩
      rintro ⟨-, hsecond | hsecond⟩ after hafter
      · exact absurd hafter ((ih₂ hinput).1 hsecond after)
      · exact (ih₂ hinput).2 hsecond after hafter
  | starNext _ _ ih₁ _ =>
      simp only [Rule.refuses, Rule.passes, Bool.false_eq_true, false_implies, true_and]
      intro hrefuse
      exact absurd rfl ((ih₁ hinput).1 hrefuse _)
  | starDone _ _ =>
      simp only [Rule.refuses, Rule.passes, Bool.false_eq_true, false_implies, true_and]
      intro _ after hafter
      cases hafter
      exact hinput
  | starError _ _ =>
      simp [Rule.refuses]
  | @must _ _ outcome _ _ ih =>
      simp only [Rule.refuses, Rule.passes]
      cases outcome with
      | ok _ => exact ih hinput
      | fail => simp
      | error => simp
  | @ref name _ outcome _ _ ih =>
      simp only [Rule.refuses, Rule.passes, Bool.false_eq_true, false_implies, and_true]
      intro hname
      exact (ih hinput).1 (hclosed name hname)

/-- A refused input is not matched. -/
theorem Run.refused {b : UInt8} (hascii : b.toNat < 128) {R : ν → Bool}
    (hclosed : ∀ name, R name = true → (G name).refuses b R = true)
    {rule : Rule ν} (hrule : rule.refuses b R = true) {rest after : Bytes} {trace : Trace ν}
    (h : Run G rule (b :: rest) (.ok after) trace) : False :=
  (h.first_byte hascii hclosed rfl).1 hrule after rfl

/-! ### First bytes, computed -/

mutual

theorem Rule.refuses_mono {b : UInt8} {R R' : ν → Bool}
    (hR : ∀ name, R name = true → R' name = true) :
    ∀ rule : Rule ν, rule.refuses b R = true → rule.refuses b R' = true
  | .byte _, h | .codePoint _, h | .eof, h => h
  | .success, h | .star _, h => absurd h Bool.false_ne_true
  | .seq first second, h => by
      simp only [Rule.refuses, Bool.or_eq_true, Bool.and_eq_true] at h ⊢
      exact h.imp (first.refuses_mono hR)
        (And.imp (first.passes_mono hR) (second.refuses_mono hR))
  | .sor first second, h => by
      simp only [Rule.refuses, Bool.and_eq_true] at h ⊢
      exact ⟨first.refuses_mono hR h.1, second.refuses_mono hR h.2⟩
  | .must body, h => body.refuses_mono hR h
  | .ref name, h => hR name h

theorem Rule.passes_mono {b : UInt8} {R R' : ν → Bool}
    (hR : ∀ name, R name = true → R' name = true) :
    ∀ rule : Rule ν, rule.passes b R = true → rule.passes b R' = true
  | .byte _, h | .codePoint _, h | .eof, h | .ref _, h => absurd h Bool.false_ne_true
  | .success, _ => rfl
  | .seq first second, h => by
      simp only [Rule.passes, Bool.and_eq_true] at h ⊢
      exact ⟨first.passes_mono hR h.1, second.passes_mono hR h.2⟩
  | .sor first second, h => by
      simp only [Rule.passes, Bool.and_eq_true, Bool.or_eq_true] at h ⊢
      exact ⟨h.1.imp (first.refuses_mono hR) (first.passes_mono hR),
        h.2.imp (second.refuses_mono hR) (second.passes_mono hR)⟩
  | .star body, h => body.refuses_mono hR h
  | .must body, h => body.passes_mono hR h

end

/-- The names that do not match an input that begins with `b`, as far as `n` rounds of
looking at the rules can tell. -/
def refusesWithin (G : ν → Rule ν) (b : UInt8) : Nat → ν → Bool
  | 0, _ => false
  | n + 1, name => (G name).refuses b (refusesWithin G b n)

theorem refusesWithin_succ {b : UInt8} (n : Nat) (name : ν)
    (h : refusesWithin G b n name = true) : refusesWithin G b (n + 1) name = true := by
  induction n generalizing name with
  | zero => exact absurd h Bool.false_ne_true
  | succ n ih => exact Rule.refuses_mono ih (G name) h

/-- A name that refuses the first byte does not match. -/
theorem Run.not_matches {b : UInt8} (hascii : b.toNat < 128) {n : Nat} {name : ν}
    (hname : refusesWithin G b n name = true) {rest after : Bytes} {trace : Trace ν} :
    ¬ Run G (.ref name) (b :: rest) (.ok after) trace := by
  intro h
  have hrefuses : (Rule.ref name).refuses b (refusesWithin G b n) = true := hname
  exact h.refused hascii (refusesWithin_succ n) hrefuses

/-! ## Failures that run no action -/

/-- All entries are of names in `S`. -/
def Trace.Within (S : ν → Bool) (trace : Trace ν) : Prop := ∀ entry ∈ trace, S entry.1 = true

theorem Trace.Within.nil {S : ν → Bool} : Trace.Within S [] := by simp [Trace.Within]

theorem Trace.Within.append {S : ν → Bool} {left right : Trace ν} (hl : left.Within S)
    (hr : right.Within S) : Trace.Within S (left ++ right) := by
  intro entry hentry
  rcases List.mem_append.mp hentry with h | h
  · exact hl entry h
  · exact hr entry h

/-- If the expression fails, only names in `S` have been matched.  `front` says that
the input is one that the expressions in `refused` do not match; `F` are the names
this is known of. -/
def Rule.retracts (S : ν → Bool) (F : Bool → ν → Bool) (refused : Rule ν → Bool) :
    Bool → Rule ν → Bool
  | _, .byte _ | _, .codePoint _ | _, .eof | _, .success | _, .star _ | _, .must _ => true
  | front, .seq first second =>
      first.retracts S F refused front &&
        (front && refused first || second.neverFails ||
          first.names.all S && second.retracts S F refused false)
  | front, .sor first second =>
      first.retracts S F refused front && second.retracts S F refused front
  | front, .ref name => F front name

/-- An expression that retracts leaves only names in `S` when it fails. -/
theorem Run.retracts {S : ν → Bool} {F : Bool → ν → Bool} {refused : Rule ν → Bool}
    (hsilent : ∀ name, S name = true → ∀ other ∈ (G name).names, S other = true)
    (hclosed : ∀ front name, F front name = true →
      (G name).retracts S F refused front = true)
    {rule : Rule ν} {input : Bytes} {outcome : Outcome} {trace : Trace ν}
    (h : Run G rule input outcome trace) (hfail : outcome = .fail) {front : Bool}
    (hfront : front = true → ∀ rule, refused rule = true →
      ∀ after trace, ¬ Run G rule input (.ok after) trace)
    (hrule : rule.retracts S F refused front = true) : trace.Within S := by
  induction h generalizing front with
  | byteOk _ | codePointOk _ _ | eofOk | success => cases hfail
  | byteFail _ | codePointFail _ | eofFail _ => exact .nil
  | @seqNext first second _ _ _ _ _ h₁ h₂ _ ih₂ =>
      simp only [Rule.retracts, Bool.or_eq_true, Bool.and_eq_true, List.all_eq_true] at hrule
      obtain ⟨-, (⟨rfl, hrefused⟩ | hnever) | ⟨hnames, hsecond⟩⟩ := hrule
      · exact absurd h₁ (hfront rfl _ hrefused _ _)
      · rw [h₂.neverFails_of_fail hfail] at hnever
        exact absurd hnever Bool.false_ne_true
      · have hfirst : Trace.Within S _ := h₁.trace_names hsilent hnames
        exact hfirst.append (ih₂ hfail (by simp) hsecond)
  | seqStop _ _ ih =>
      simp only [Rule.retracts, Bool.and_eq_true] at hrule
      exact ih hfail hfront hrule.1
  | sorStop _ hstop _ => exact absurd hfail hstop
  | sorNext _ _ ih₁ ih₂ =>
      simp only [Rule.retracts, Bool.and_eq_true] at hrule
      exact (ih₁ rfl hfront hrule.1).append (ih₂ hfail hfront hrule.2)
  | starNext _ h₂ _ _ =>
      exact absurd (h₂.neverFails_of_fail hfail) (by simp [Rule.neverFails])
  | starDone _ _ | starError _ _ => cases hfail
  | @must _ _ outcome _ _ _ => cases outcome <;> cases hfail
  | @ref name input _ _ _ ih =>
      subst hfail
      have hnone : closing name input .fail = [] := rfl
      rw [hnone, List.append_nil]
      exact ih rfl hfront (hclosed front name hrule)

/-! ## The end of a repetition -/

/-- A repetition stops where its body fails. -/
theorem Run.star_stop {body : Rule ν} {input rest : Bytes} {trace : Trace ν}
    (h : Run G (.star body) input (.ok rest) trace) : ∃ last, Run G body rest .fail last := by
  generalize hrule : Rule.star body = rule at h
  generalize hout : Outcome.ok rest = outcome at h
  induction h with
  | starNext _ _ _ ih => exact ih hrule hout
  | starDone h _ =>
      cases hrule
      cases hout
      exact ⟨_, h⟩
  | _ => cases hrule <;> cases hout

/-- Repeating a repetition matches the empty text. -/
theorem Run.star_again {body : Rule ν} {input middle rest : Bytes} {t₁ t₂ : Trace ν}
    (h₁ : Run G (.star body) input (.ok middle) t₁)
    (h₂ : Run G (.star body) middle (.ok rest) t₂) : rest = middle := by
  obtain ⟨last, hlast⟩ := h₁.star_stop
  exact (Outcome.ok.inj ((Run.starDone hlast).deterministic h₂).1).symm

end RdfParser.Peg
