/-
  Peg/Kept.lean --- the matches that a match is made of.

  A match tries alternatives that fail and ends every repetition with an attempt that
  fails.  The actions of names that have matched there have run, but these matches are not
  part of the result.  `Keeps` is a match with the trace of its parts only.
-/
import RdfParser.Peg.Failure

set_option autoImplicit false

namespace RdfParser.Peg

open RdfParser.Foundation

variable {ν : Type}

/-- Matching `rule` at the front of the first input leaves the second one, and the trace
lists the matches of named rules that belong to the match. -/
inductive Keeps (G : ν → Rule ν) : Rule ν → Bytes → Bytes → Trace ν → Prop where
  | token {rule : Rule ν} {input rest : Bytes} (hrule : rule.isToken = true)
      (h : Run G rule input (.ok rest) []) : Keeps G rule input rest []
  | seq {first second : Rule ν} {input middle rest : Bytes} {k₁ k₂ : Trace ν}
      (h₁ : Keeps G first input middle k₁) (h₂ : Keeps G second middle rest k₂) :
      Keeps G (.seq first second) input rest (k₁ ++ k₂)
  | sorFirst {first second : Rule ν} {input rest : Bytes} {k : Trace ν}
      (h : Keeps G first input rest k) : Keeps G (.sor first second) input rest k
  | sorSecond {first second : Rule ν} {input rest : Bytes} {t k : Trace ν}
      (hfirst : Run G first input .fail t) (h : Keeps G second input rest k) :
      Keeps G (.sor first second) input rest k
  | starNext {body : Rule ν} {input middle rest : Bytes} {k₁ k₂ : Trace ν}
      (h₁ : Keeps G body input middle k₁) (h₂ : Keeps G (.star body) middle rest k₂) :
      Keeps G (.star body) input rest (k₁ ++ k₂)
  | starDone {body : Rule ν} {input : Bytes} {t : Trace ν} (h : Run G body input .fail t) :
      Keeps G (.star body) input input []
  | must {body : Rule ν} {input rest : Bytes} {k : Trace ν} (h : Keeps G body input rest k) :
      Keeps G (.must body) input rest k
  | ref {name : ν} {input rest : Bytes} {k : Trace ν} (h : Keeps G (G name) input rest k) :
      Keeps G (.ref name) input rest (k ++ [(name, consumed input rest)])

section Keeps

variable {G : ν → Rule ν} {rule : Rule ν} {input rest : Bytes} {k : Trace ν}

/-! ## Kept matches and runs -/

/-- A kept match is a match, and what is kept has been run. -/
theorem Keeps.run (h : Keeps G rule input rest k) :
    ∃ t, Run G rule input (.ok rest) t ∧ k.Sublist t := by
  induction h with
  | token _ h => exact ⟨[], h, .slnil⟩
  | seq _ _ ih₁ ih₂ | starNext _ _ ih₁ ih₂ =>
      obtain ⟨t₁, hrun₁, hsub₁⟩ := ih₁
      obtain ⟨t₂, hrun₂, hsub₂⟩ := ih₂
      exact ⟨t₁ ++ t₂, by first | exact .seqNext hrun₁ hrun₂ | exact .starNext hrun₁ hrun₂,
        hsub₁.append hsub₂⟩
  | sorFirst _ ih =>
      obtain ⟨t, hrun, hsub⟩ := ih
      exact ⟨t, .sorStop hrun (by simp), hsub⟩
  | sorSecond hfirst _ ih =>
      obtain ⟨t, hrun, hsub⟩ := ih
      exact ⟨_, .sorNext hfirst hrun, hsub.trans (List.sublist_append_right _ t)⟩
  | starDone h => exact ⟨_, .starDone h, List.nil_sublist _⟩
  | must _ ih =>
      obtain ⟨t, hrun, hsub⟩ := ih
      exact ⟨t, .must hrun, hsub⟩
  | ref _ ih =>
      obtain ⟨t, hrun, hsub⟩ := ih
      exact ⟨_, .ref hrun, hsub.append (List.Sublist.refl _)⟩

/-- Every match keeps something. -/
theorem Run.keeps {outcome : Outcome} {t : Trace ν} (h : Run G rule input outcome t)
    (hout : outcome = .ok rest) : ∃ k, Keeps G rule input rest k := by
  induction h generalizing rest with
  | byteOk h =>
      cases hout
      exact ⟨[], .token rfl (.byteOk h)⟩
  | codePointOk hpeek h =>
      cases hout
      exact ⟨[], .token rfl (.codePointOk hpeek h)⟩
  | eofOk =>
      cases hout
      exact ⟨[], .token rfl .eofOk⟩
  | success =>
      cases hout
      exact ⟨[], .token rfl .success⟩
  | byteFail _ | codePointFail _ | eofFail _ | starError _ _ => cases hout
  | seqNext _ _ ih₁ ih₂ =>
      obtain ⟨k₁, hk₁⟩ := ih₁ rfl
      obtain ⟨k₂, hk₂⟩ := ih₂ hout
      exact ⟨k₁ ++ k₂, .seq hk₁ hk₂⟩
  | seqStop _ hstop _ => exact absurd hout (hstop rest)
  | sorStop _ _ ih =>
      obtain ⟨k, hk⟩ := ih hout
      exact ⟨k, .sorFirst hk⟩
  | sorNext h₁ _ _ ih₂ =>
      obtain ⟨k, hk⟩ := ih₂ hout
      exact ⟨k, .sorSecond h₁ hk⟩
  | starNext _ _ ih₁ ih₂ =>
      obtain ⟨k₁, hk₁⟩ := ih₁ rfl
      obtain ⟨k₂, hk₂⟩ := ih₂ hout
      exact ⟨k₁ ++ k₂, .starNext hk₁ hk₂⟩
  | starDone h _ =>
      cases hout
      exact ⟨[], .starDone h⟩
  | @must _ _ outcome _ _ ih =>
      cases outcome with
      | ok _ =>
          obtain ⟨k, hk⟩ := ih hout
          exact ⟨k, .must hk⟩
      | fail | error => cases hout
  | @ref name input _ _ _ ih =>
      obtain ⟨k, hk⟩ := ih hout
      exact ⟨_, .ref hk⟩

theorem Keeps.suffix (h : Keeps G rule input rest k) : ∃ text, input = text ++ rest := by
  obtain ⟨t, hrun, -⟩ := h.run
  exact hrun.suffix

theorem Keeps.length_le (h : Keeps G rule input rest k) : rest.length ≤ input.length := by
  obtain ⟨text, rfl⟩ := h.suffix
  simp

/-- The place where a match ends does not depend on what it keeps. -/
theorem Keeps.rest_eq {rest' : Bytes} {t : Trace ν} (h : Keeps G rule input rest k)
    (h' : Run G rule input (.ok rest') t) : rest = rest' := by
  obtain ⟨_, hrun, -⟩ := h.run
  exact Outcome.ok.inj (hrun.deterministic h').1

/-- What a match keeps is determined by the input. -/
theorem Keeps.unique {rest' : Bytes} {k' : Trace ν} (h : Keeps G rule input rest k)
    (h' : Keeps G rule input rest' k') : rest = rest' ∧ k = k' := by
  have hrest : rest = rest' := by
    obtain ⟨_, hrun', -⟩ := h'.run
    exact h.rest_eq hrun'
  subst hrest
  refine ⟨rfl, ?_⟩
  -- a match and a failure of the same expression exclude each other
  have hexclude : ∀ {rule : Rule ν} {input rest : Bytes} {k t : Trace ν},
      Keeps G rule input rest k → Run G rule input .fail t → False := by
    intro rule input rest k t hkeeps hfail
    obtain ⟨_, hrun, -⟩ := hkeeps.run
    cases (hrun.deterministic hfail).1
  induction h generalizing k' with
  | token hrule _ => cases h' <;> first | rfl | cases hrule
  | seq h₁ _ ih₁ ih₂ =>
      cases h' with
      | token hrule _ => cases hrule
      | seq g₁ g₂ =>
          obtain ⟨_, hrun, -⟩ := g₁.run
          obtain rfl := h₁.rest_eq hrun
          rw [ih₁ g₁, ih₂ g₂]
  | sorFirst h ih =>
      cases h' with
      | token hrule _ => cases hrule
      | sorFirst g => exact ih g
      | sorSecond hfirst _ => exact (hexclude h hfirst).elim
  | sorSecond hfirst _ ih =>
      cases h' with
      | token hrule _ => cases hrule
      | sorFirst g => exact (hexclude g hfirst).elim
      | sorSecond _ g => exact ih g
  | starNext h₁ _ ih₁ ih₂ =>
      cases h' with
      | token hrule _ => cases hrule
      | starNext g₁ g₂ =>
          obtain ⟨_, hrun, -⟩ := g₁.run
          obtain rfl := h₁.rest_eq hrun
          rw [ih₁ g₁, ih₂ g₂]
      | starDone g => exact (hexclude h₁ g).elim
  | starDone h =>
      cases h' with
      | token hrule _ => cases hrule
      | starNext g₁ _ => exact (hexclude g₁ h).elim
      | starDone _ => rfl
  | must _ ih =>
      cases h' with
      | token hrule _ => cases hrule
      | must g => exact ih g
  | ref _ ih =>
      cases h' with
      | token hrule _ => cases hrule
      | ref g => rw [ih g]

/-! ## Taking a kept match apart -/

theorem Keeps.token_inv (h : Keeps G rule input rest k) (hrule : rule.isToken = true) :
    k = [] ∧ Run G rule input (.ok rest) [] := by
  cases h with
  | token _ h => exact ⟨rfl, h⟩
  | _ => cases hrule

theorem Keeps.byte_inv {accepts : UInt8 → Bool} (h : Keeps G (.byte accepts) input rest k) :
    ∃ b, accepts b = true ∧ input = b :: rest ∧ k = [] := by
  obtain ⟨rfl, hrun⟩ := h.token_inv rfl
  exact hrun.byte_ok

theorem Keeps.success_inv (h : Keeps G .success input rest k) : input = rest ∧ k = [] := by
  obtain ⟨rfl, hrun⟩ := h.token_inv rfl
  exact hrun.success_ok

theorem Keeps.seq_inv {first second : Rule ν} (h : Keeps G (.seq first second) input rest k) :
    ∃ middle k₁ k₂, Keeps G first input middle k₁ ∧ Keeps G second middle rest k₂ ∧
      k = k₁ ++ k₂ := by
  cases h with
  | token hrule _ => cases hrule
  | seq h₁ h₂ => exact ⟨_, _, _, h₁, h₂, rfl⟩

theorem Keeps.sor_inv {first second : Rule ν} (h : Keeps G (.sor first second) input rest k) :
    Keeps G first input rest k ∨
      ∃ t, Run G first input .fail t ∧ Keeps G second input rest k := by
  cases h with
  | token hrule _ => cases hrule
  | sorFirst h => exact .inl h
  | sorSecond hfirst h => exact .inr ⟨_, hfirst, h⟩

theorem Keeps.ref_inv {name : ν} (h : Keeps G (.ref name) input rest k) :
    ∃ k', Keeps G (G name) input rest k' ∧ k = k' ++ [(name, consumed input rest)] := by
  cases h with
  | token hrule _ => cases hrule
  | ref h => exact ⟨_, h, rfl⟩

theorem Keeps.seqOf_cons_inv {rules : List (Rule ν)}
    (h : Keeps G (.seqOf (rule :: rules)) input rest k) :
    ∃ middle k₁ k₂, Keeps G rule input middle k₁ ∧ Keeps G (.seqOf rules) middle rest k₂ ∧
      k = k₁ ++ k₂ := by
  cases rules with
  | nil => exact ⟨rest, k, [], h, .token rfl .success, (List.append_nil k).symm⟩
  | cons next rules => exact h.seq_inv

/-! ## Matches that abandon nothing of interest -/

/-- The entries of names outside of `S`. -/
def Trace.outside (S : ν → Bool) (trace : Trace ν) : Trace ν :=
  trace.filter fun entry => !S entry.1

theorem Trace.outside_append (S : ν → Bool) (left right : Trace ν) :
    Trace.outside S (left ++ right) = left.outside S ++ right.outside S :=
  List.filter_append ..

theorem Trace.Within.outside {S : ν → Bool} {trace : Trace ν} (h : trace.Within S) :
    trace.outside S = [] := by
  refine List.filter_eq_nil_iff.mpr fun entry hentry => ?_
  simp [h entry hentry]

/-- The alternatives and repetitions in the expression are among the `quiet` ones, and the
names that it refers to are in `N`. -/
def Rule.settles (quiet : Rule ν → Bool) (N : ν → Bool) : Rule ν → Bool
  | .byte _ | .codePoint _ | .eof | .success => true
  | .seq first second => first.settles quiet N && second.settles quiet N
  | .sor first second => quiet first && first.settles quiet N && second.settles quiet N
  | .star body => quiet body && body.settles quiet N
  | .must body => body.settles quiet N
  | .ref name => N name

/-- If quiet expressions leave only names in `S` when they fail, a match whose
alternatives are quiet keeps everything else. -/
theorem Run.keeps_outside {S N : ν → Bool} {quiet : Rule ν → Bool}
    (hquiet : ∀ rule input t, quiet rule = true → Run G rule input .fail t → t.Within S)
    (hclosed : ∀ name, N name = true → (G name).settles quiet N = true)
    {outcome : Outcome} {t : Trace ν} (h : Run G rule input outcome t)
    (hrule : rule.settles quiet N = true) (hout : outcome = .ok rest) :
    ∃ k, Keeps G rule input rest k ∧ t.outside S = k.outside S := by
  induction h generalizing rest with
  | byteOk h =>
      cases hout
      exact ⟨[], .token rfl (.byteOk h), rfl⟩
  | codePointOk hpeek h =>
      cases hout
      exact ⟨[], .token rfl (.codePointOk hpeek h), rfl⟩
  | eofOk =>
      cases hout
      exact ⟨[], .token rfl .eofOk, rfl⟩
  | success =>
      cases hout
      exact ⟨[], .token rfl .success, rfl⟩
  | byteFail _ | codePointFail _ | eofFail _ | starError _ _ => cases hout
  | seqNext _ _ ih₁ ih₂ =>
      simp only [Rule.settles, Bool.and_eq_true] at hrule
      obtain ⟨k₁, hk₁, hsame₁⟩ := ih₁ hrule.1 rfl
      obtain ⟨k₂, hk₂, hsame₂⟩ := ih₂ hrule.2 hout
      refine ⟨k₁ ++ k₂, .seq hk₁ hk₂, ?_⟩
      rw [Trace.outside_append, Trace.outside_append, hsame₁, hsame₂]
  | seqStop _ hstop _ => exact absurd hout (hstop rest)
  | sorStop _ _ ih =>
      simp only [Rule.settles, Bool.and_eq_true] at hrule
      obtain ⟨k, hk, hsame⟩ := ih hrule.1.2 hout
      exact ⟨k, .sorFirst hk, hsame⟩
  | sorNext h₁ _ _ ih₂ =>
      simp only [Rule.settles, Bool.and_eq_true] at hrule
      obtain ⟨k, hk, hsame⟩ := ih₂ hrule.2 hout
      refine ⟨k, .sorSecond h₁ hk, ?_⟩
      rw [Trace.outside_append, (hquiet _ _ _ hrule.1.1 h₁).outside, hsame]
      rfl
  | starNext _ _ ih₁ ih₂ =>
      obtain ⟨k₂, hk₂, hsame₂⟩ := ih₂ hrule hout
      simp only [Rule.settles, Bool.and_eq_true] at hrule
      obtain ⟨k₁, hk₁, hsame₁⟩ := ih₁ hrule.2 rfl
      refine ⟨k₁ ++ k₂, .starNext hk₁ hk₂, ?_⟩
      rw [Trace.outside_append, Trace.outside_append, hsame₁, hsame₂]
  | starDone h _ =>
      cases hout
      simp only [Rule.settles, Bool.and_eq_true] at hrule
      exact ⟨[], .starDone h, (hquiet _ _ _ hrule.1 h).outside⟩
  | @must _ _ outcome _ _ ih =>
      cases outcome with
      | ok _ =>
          obtain ⟨k, hk, hsame⟩ := ih hrule hout
          exact ⟨k, .must hk, hsame⟩
      | fail | error => cases hout
  | @ref name input _ _ _ ih =>
      subst hout
      obtain ⟨k, hk, hsame⟩ := ih (hclosed name hrule) rfl
      refine ⟨_, .ref hk, ?_⟩
      rw [Trace.outside_append, Trace.outside_append, hsame]
      rfl

end Keeps

end RdfParser.Peg
