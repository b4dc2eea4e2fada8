/-
  Peg/Total.lean --- matching ends.

  A grammar without left recursion, in which the bodies of repetitions consume
  something, has an outcome on every input.  Both conditions are checked rule by
  rule, given which names always consume and a rank that falls along the names an
  expression refers to before it has consumed anything.
-/
import RdfParser.Peg.Run

set_option autoImplicit false

namespace RdfParser.Peg

open RdfParser.Foundation

variable {ν : Type} {G : ν → Rule ν}

/-! ## Consuming expressions -/

/-- Every match of the expression consumes something, given that the matches of the
names in `C` do. -/
def Rule.consumes (C : ν → Bool) : Rule ν → Bool
  | .byte _ | .codePoint _ => true
  | .eof | .success | .star _ => false
  | .seq first second => first.consumes C || second.consumes C
  | .sor first second => first.consumes C && second.consumes C
  | .must body => body.consumes C
  | .ref name => C name

/-- A code point occupies part of the input. -/
theorem peekUtf8_size {input : Bytes} {c size : Nat} (h : peekUtf8 input = some (c, size)) :
    0 < size ∧ input ≠ [] := by
  unfold peekUtf8 at h
  split at h
  · cases h
  · refine ⟨?_, List.cons_ne_nil _ _⟩
    simp only at h
    repeat' split at h
    all_goals simp only [Option.some.injEq, Prod.mk.injEq, reduceCtorEq] at h
    all_goals omega

theorem Run.length_le {rule : Rule ν} {input rest : Bytes} {t : Trace ν}
    (h : Run G rule input (.ok rest) t) : rest.length ≤ input.length := by
  obtain ⟨text, rfl⟩ := h.suffix
  simp

/-- The input gets shorter. -/
theorem Run.consumes {C : ν → Bool} (hclosed : ∀ name, C name = true → (G name).consumes C = true)
    {rule : Rule ν} {input rest : Bytes} {t : Trace ν} (h : Run G rule input (.ok rest) t)
    (hrule : rule.consumes C = true) : rest.length < input.length := by
  generalize hout : Outcome.ok rest = outcome at h
  induction h generalizing rest with
  | byteOk _ =>
      cases hout
      simp
  | codePointOk hpeek _ =>
      cases hout
      obtain ⟨hsize, hne⟩ := peekUtf8_size hpeek
      have hlength := List.length_pos_of_ne_nil hne
      rw [List.length_drop]
      omega
  | byteFail _ | codePointFail _ | eofFail _ => cases hout
  | eofOk | success | starNext _ _ _ _ | starDone _ _ | starError _ _ =>
      exact absurd hrule (by simp [Rule.consumes])
  | seqNext h₁ h₂ ih₁ ih₂ =>
      subst hout
      simp only [Rule.consumes, Bool.or_eq_true] at hrule
      rcases hrule with hfirst | hsecond
      · exact lt_of_le_of_lt h₂.length_le (ih₁ hfirst rfl)
      · exact lt_of_lt_of_le (ih₂ hsecond rfl) h₁.length_le
  | seqStop _ hstop _ => exact absurd hout.symm (hstop _)
  | sorStop _ _ ih =>
      simp only [Rule.consumes, Bool.and_eq_true] at hrule
      exact ih hrule.1 hout
  | sorNext _ _ _ ih₂ =>
      simp only [Rule.consumes, Bool.and_eq_true] at hrule
      exact ih₂ hrule.2 hout
  | @must _ _ outcome _ _ ih =>
      cases outcome with
      | ok _ => exact ih hrule hout
      | fail => cases hout
      | error => cases hout
  | @ref name _ _ _ _ ih => exact ih (hclosed name hrule) hout

/-! ## Expressions without global failures -/

/-- The expression has no `must`. -/
def Rule.mustFree : Rule ν → Bool
  | .byte _ | .codePoint _ | .eof | .success | .ref _ => true
  | .seq first second | .sor first second => first.mustFree && second.mustFree
  | .star body => body.mustFree
  | .must _ => false

/-- Without `must` there are no global failures. -/
theorem Run.not_error {S : ν → Prop}
    (hclosed : ∀ name, S name → ∀ other ∈ (G name).names, S other)
    (hfree : ∀ name, S name → (G name).mustFree = true) {rule : Rule ν} {input : Bytes}
    {outcome : Outcome} {t : Trace ν} (h : Run G rule input outcome t)
    (hnames : ∀ name ∈ rule.names, S name) (hrule : rule.mustFree = true) :
    outcome ≠ .error := by
  induction h with
  | byteOk _ | byteFail _ | codePointOk _ _ | codePointFail _ | eofOk | eofFail _ | success
  | starDone _ _ => simp
  | seqNext _ _ _ ih | sorNext _ _ _ ih =>
      simp only [Rule.mustFree, Bool.and_eq_true] at hrule
      exact ih (fun name hname => hnames name (List.mem_append_right _ hname)) hrule.2
  | seqStop _ _ ih | sorStop _ _ ih =>
      simp only [Rule.mustFree, Bool.and_eq_true] at hrule
      exact ih (fun name hname => hnames name (List.mem_append_left _ hname)) hrule.1
  | starNext _ _ _ ih => exact ih hnames hrule
  | starError _ ih => exact absurd rfl (ih hnames hrule)
  | must _ _ => exact absurd hrule Bool.false_ne_true
  | @ref name _ _ _ _ ih =>
      have hname : S name := hnames name (by simp [Rule.names])
      exact ih (hclosed name hname) (hfree name hname)

/-! ## Expressions on which matching ends -/

/-- Before the expression has consumed anything, it refers to names in `front` only;
the bodies of its repetitions consume. -/
def Rule.terminates (C : ν → Bool) : (ν → Bool) → Rule ν → Bool
  | _, .byte _ | _, .codePoint _ | _, .eof | _, .success => true
  | front, .seq first second =>
      first.terminates C front &&
        second.terminates C (if first.consumes C then fun _ => true else front)
  | front, .sor first second => first.terminates C front && second.terminates C front
  | front, .star body => body.consumes C && body.terminates C front
  | front, .must body => body.terminates C front
  | front, .ref name => front name

theorem Rule.terminates_mono {C : ν → Bool} {rule : Rule ν} {front front' : ν → Bool}
    (hfront : ∀ name, front name = true → front' name = true)
    (h : rule.terminates C front = true) : rule.terminates C front' = true := by
  induction rule generalizing front front' with
  | byte _ | codePoint _ | eof | success => rfl
  | seq first second ih₁ ih₂ =>
      simp only [terminates, Bool.and_eq_true] at h ⊢
      refine ⟨ih₁ hfront h.1, ih₂ ?_ h.2⟩
      intro name hname
      split at hname
      · rename_i hconsumes
        rw [if_pos hconsumes]
      · rename_i hconsumes
        rw [if_neg hconsumes]
        exact hfront name hname
  | sor first second ih₁ ih₂ =>
      simp only [terminates, Bool.and_eq_true] at h ⊢
      exact ⟨ih₁ hfront h.1, ih₂ hfront h.2⟩
  | star body ih =>
      simp only [terminates, Bool.and_eq_true] at h ⊢
      exact ⟨h.1, ih hfront h.2⟩
  | must body ih => exact ih hfront h
  | ref name => exact hfront name h

/-- Matching the expression at the front of the input has an outcome. -/
def Ends (G : ν → Rule ν) (rule : Rule ν) (input : Bytes) : Prop :=
  ∃ outcome trace, Run G rule input outcome trace

section Termination

variable {C : ν → Bool} (hclosed : ∀ name, C name = true → (G name).consumes C = true)
include hclosed

/-- Matching ends on inputs of one length, if it does on shorter inputs and for the
names in front. -/
theorem ends_of_front {n : Nat}
    (hshort : ∀ (rule : Rule ν) (input : Bytes), input.length < n →
      rule.terminates C (fun _ => true) = true → Ends G rule input)
    {front : ν → Bool}
    (hfront : ∀ name, front name = true → ∀ input : Bytes, input.length = n →
      Ends G (.ref name) input) :
    ∀ rule : Rule ν, rule.terminates C front = true → ∀ input : Bytes, input.length = n →
      Ends G rule input := by
  intro rule
  induction rule with
  | byte accepts =>
      intro _ input _
      by_cases haccepts : ∀ b ∈ input.head?, accepts b = false
      · exact ⟨_, _, .byteFail haccepts⟩
      · cases input with
        | nil => simp at haccepts
        | cons b rest => exact ⟨_, _, .byteOk (by simpa using haccepts)⟩
  | codePoint accepts =>
      intro _ input _
      by_cases haccepts : ∀ p ∈ peekUtf8 input, accepts p.1 = false
      · exact ⟨_, _, .codePointFail haccepts⟩
      · push Not at haccepts
        obtain ⟨⟨c, size⟩, hpeek, hc⟩ := haccepts
        exact ⟨_, _, .codePointOk hpeek (by simpa using hc)⟩
  | eof =>
      intro _ input _
      by_cases hinput : input = []
      · subst hinput
        exact ⟨_, _, .eofOk⟩
      · exact ⟨_, _, .eofFail hinput⟩
  | success =>
      intro _ input _
      exact ⟨_, _, .success⟩
  | seq first second ih₁ ih₂ =>
      intro h input hlength
      simp only [Rule.terminates, Bool.and_eq_true] at h
      obtain ⟨outcome, t₁, hrun⟩ := ih₁ h.1 input hlength
      cases outcome with
      | fail => exact ⟨_, _, .seqStop hrun (by simp)⟩
      | error => exact ⟨_, _, .seqStop hrun (by simp)⟩
      | ok middle =>
          -- the second expression starts where the input has become shorter, or
          -- else where only the names in front can occur
          have hsecond : Ends G second middle := by
            rcases Nat.lt_or_eq_of_le hrun.length_le with hlt | heq
            · exact hshort second middle (hlength ▸ hlt)
                (Rule.terminates_mono (fun _ _ => rfl) h.2)
            · cases hconsumes : first.consumes C with
              | true => exact absurd heq (Nat.ne_of_lt (hrun.consumes hclosed hconsumes))
              | false =>
                  rw [hconsumes] at h
                  exact ih₂ h.2 middle (heq.trans hlength)
          obtain ⟨outcome, t₂, hrun₂⟩ := hsecond
          exact ⟨_, _, .seqNext hrun hrun₂⟩
  | sor first second ih₁ ih₂ =>
      intro h input hlength
      simp only [Rule.terminates, Bool.and_eq_true] at h
      obtain ⟨outcome, t₁, hrun⟩ := ih₁ h.1 input hlength
      by_cases hfail : outcome = .fail
      · subst hfail
        obtain ⟨outcome, t₂, hrun₂⟩ := ih₂ h.2 input hlength
        exact ⟨_, _, .sorNext hrun hrun₂⟩
      · exact ⟨_, _, .sorStop hrun hfail⟩
  | star body ih =>
      intro h input hlength
      simp only [Rule.terminates, Bool.and_eq_true] at h
      obtain ⟨outcome, t₁, hrun⟩ := ih h.2 input hlength
      cases outcome with
      | fail => exact ⟨_, _, .starDone hrun⟩
      | error => exact ⟨_, _, .starError hrun⟩
      | ok middle =>
          have hstar : (Rule.star body).terminates C (fun _ => true) = true := by
            simp only [Rule.terminates, Bool.and_eq_true]
            exact ⟨h.1, Rule.terminates_mono (fun _ _ => rfl) h.2⟩
          obtain ⟨outcome, t₂, hrun₂⟩ :=
            hshort (.star body) middle (hlength ▸ hrun.consumes hclosed h.1) hstar
          exact ⟨_, _, .starNext hrun hrun₂⟩
  | must body ih =>
      intro h input hlength
      obtain ⟨outcome, t, hrun⟩ := ih h input hlength
      exact ⟨_, _, .must hrun⟩
  | ref name =>
      intro h input hlength
      exact hfront name h input hlength

/-- A grammar whose names are ranked has an outcome on every input. -/
theorem ends_of_ranked {rank : ν → Nat}
    (hranked : ∀ name, (G name).terminates C (fun other => rank other < rank name) = true)
    {rule : Rule ν} (hrule : rule.terminates C (fun _ => true) = true) (input : Bytes) :
    Ends G rule input := by
  generalize hn : input.length = n
  induction n using Nat.strong_induction_on generalizing rule input with
  | _ n ih =>
      have hshort : ∀ (rule : Rule ν) (input : Bytes), input.length < n →
          rule.terminates C (fun _ => true) = true → Ends G rule input :=
        fun rule input hlt hrule => ih input.length hlt hrule input rfl
      -- on inputs of this length, by the rank of the name
      have hname : ∀ r name, rank name = r → ∀ input : Bytes, input.length = n →
          Ends G (.ref name) input := by
        intro r
        induction r using Nat.strong_induction_on with
        | _ r ihr =>
            intro name hr input hlength
            obtain ⟨outcome, t, hrun⟩ := ends_of_front hclosed hshort
              (fun other hother => ihr (rank other) (hr ▸ of_decide_eq_true hother) other rfl)
              (G name) (hranked name) input hlength
            exact ⟨_, _, .ref hrun⟩
      exact ends_of_front hclosed hshort (fun name _ => hname (rank name) name rfl) rule hrule
        input hn

end Termination

end RdfParser.Peg
