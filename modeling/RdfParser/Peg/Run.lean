/-
  Peg/Run.lean --- what it means to match a parsing expression.

  `Run G rule input outcome trace` says that matching `rule` at the front of
  `input` ends in `outcome`.  The trace lists the matches of named rules in the
  order in which they complete, each with its matched text: that is the order in
  which a parser with semantic actions runs them.  A failing expression gives its
  input back, but the actions of the named rules that matched inside it have run;
  so its trace stays.

  Matching never looks at the state of the actions.  `exec` is the same relation
  as a function with a bound on the depth of the derivation.
-/
import RdfParser.Peg.Rule

set_option autoImplicit false

namespace RdfParser.Peg

open RdfParser.Foundation

/-- How a match ends. -/
inductive Outcome where
  /-- matched; the unread input -/
  | ok (rest : Bytes)
  /-- local failure, to be backtracked -/
  | fail
  /-- global failure: the parse is abandoned with an exception -/
  | error
  deriving DecidableEq, Repr

namespace Outcome

/-- The effect of `must` on an outcome. -/
def escalate : Outcome → Outcome
  | .fail => .error
  | outcome => outcome

@[simp] theorem escalate_ok (rest : Bytes) : (ok rest).escalate = ok rest := rfl
@[simp] theorem escalate_fail : fail.escalate = error := rfl
@[simp] theorem escalate_error : error.escalate = error := rfl

end Outcome

/-- The completed matches of named rules with their texts. -/
abbrev Trace (ν : Type) : Type := List (ν × Bytes)

/-- The text between two positions of one input. -/
def consumed (input rest : Bytes) : Bytes := input.take (input.length - rest.length)

@[simp] theorem consumed_append (text rest : Bytes) : consumed (text ++ rest) rest = text := by
  simp [consumed]

/-- The entry a named rule adds to the trace once its body has been run. -/
def closing {ν : Type} (name : ν) (input : Bytes) : Outcome → Trace ν
  | .ok rest => [(name, consumed input rest)]
  | _ => []

/-! ## The matching relation -/

/-- Matching `rule` at the front of `input`. -/
inductive Run {ν : Type} (G : ν → Rule ν) :
    Rule ν → Bytes → Outcome → Trace ν → Prop where
  | byteOk {accepts : UInt8 → Bool} {b : UInt8} {rest : Bytes} (h : accepts b = true) :
      Run G (.byte accepts) (b :: rest) (.ok rest) []
  | byteFail {accepts : UInt8 → Bool} {input : Bytes}
      (h : ∀ b ∈ input.head?, accepts b = false) :
      Run G (.byte accepts) input .fail []
  | codePointOk {accepts : Nat → Bool} {input : Bytes} {c size : Nat}
      (hpeek : peekUtf8 input = some (c, size)) (h : accepts c = true) :
      Run G (.codePoint accepts) input (.ok (input.drop size)) []
  | codePointFail {accepts : Nat → Bool} {input : Bytes}
      (h : ∀ p ∈ peekUtf8 input, accepts p.1 = false) :
      Run G (.codePoint accepts) input .fail []
  | eofOk : Run G .eof [] (.ok []) []
  | eofFail {input : Bytes} (h : input ≠ []) : Run G .eof input .fail []
  | success {input : Bytes} : Run G .success input (.ok input) []
  | seqNext {first second : Rule ν} {input middle : Bytes} {outcome : Outcome}
      {t₁ t₂ : Trace ν} (h₁ : Run G first input (.ok middle) t₁)
      (h₂ : Run G second middle outcome t₂) :
      Run G (.seq first second) input outcome (t₁ ++ t₂)
  | seqStop {first second : Rule ν} {input : Bytes} {outcome : Outcome} {t : Trace ν}
      (h : Run G first input outcome t) (hstop : ∀ rest, outcome ≠ .ok rest) :
      Run G (.seq first second) input outcome t
  | sorStop {first second : Rule ν} {input : Bytes} {outcome : Outcome} {t : Trace ν}
      (h : Run G first input outcome t) (hstop : outcome ≠ .fail) :
      Run G (.sor first second) input outcome t
  | sorNext {first second : Rule ν} {input : Bytes} {outcome : Outcome}
      {t₁ t₂ : Trace ν} (h₁ : Run G first input .fail t₁)
      (h₂ : Run G second input outcome t₂) :
      Run G (.sor first second) input outcome (t₁ ++ t₂)
  | starNext {body : Rule ν} {input middle : Bytes} {outcome : Outcome}
      {t₁ t₂ : Trace ν} (h₁ : Run G body input (.ok middle) t₁)
      (h₂ : Run G (.star body) middle outcome t₂) :
      Run G (.star body) input outcome (t₁ ++ t₂)
  | starDone {body : Rule ν} {input : Bytes} {t : Trace ν}
      (h : Run G body input .fail t) : Run G (.star body) input (.ok input) t
  | starError {body : Rule ν} {input : Bytes} {t : Trace ν}
      (h : Run G body input .error t) : Run G (.star body) input .error t
  | must {body : Rule ν} {input : Bytes} {outcome : Outcome} {t : Trace ν}
      (h : Run G body input outcome t) : Run G (.must body) input outcome.escalate t
  | ref {name : ν} {input : Bytes} {outcome : Outcome} {t : Trace ν}
      (h : Run G (G name) input outcome t) :
      Run G (.ref name) input outcome (t ++ closing name input outcome)

section Runs

variable {ν : Type} {G : ν → Rule ν}

/-! ## Inversion

One lemma for each combinator on a match that succeeds; every proof about a
concrete grammar takes a match apart with these. -/

theorem Run.byte_ok {accepts : UInt8 → Bool} {input rest : Bytes} {t : Trace ν}
    (h : Run G (.byte accepts) input (.ok rest) t) :
    ∃ b, accepts b = true ∧ input = b :: rest ∧ t = [] := by
  cases h with
  | byteOk hb => exact ⟨_, hb, rfl, rfl⟩

theorem Run.seq_ok {first second : Rule ν} {input rest : Bytes} {t : Trace ν}
    (h : Run G (.seq first second) input (.ok rest) t) :
    ∃ middle t₁ t₂, Run G first input (.ok middle) t₁ ∧
      Run G second middle (.ok rest) t₂ ∧ t = t₁ ++ t₂ := by
  cases h with
  | seqNext h₁ h₂ => exact ⟨_, _, _, h₁, h₂, rfl⟩
  | seqStop _ hstop => exact absurd rfl (hstop rest)

theorem Run.sor_ok {first second : Rule ν} {input rest : Bytes} {t : Trace ν}
    (h : Run G (.sor first second) input (.ok rest) t) :
    Run G first input (.ok rest) t ∨
      ∃ t₁ t₂, Run G first input .fail t₁ ∧ Run G second input (.ok rest) t₂ ∧
        t = t₁ ++ t₂ := by
  cases h with
  | sorStop h _ => exact .inl h
  | sorNext h₁ h₂ => exact .inr ⟨_, _, h₁, h₂, rfl⟩

theorem Run.ref_ok {name : ν} {input rest : Bytes} {t : Trace ν}
    (h : Run G (.ref name) input (.ok rest) t) :
    ∃ t', Run G (G name) input (.ok rest) t' ∧ t = t' ++ [(name, consumed input rest)] := by
  cases h with
  | ref h => exact ⟨_, h, rfl⟩

theorem Run.success_ok {input rest : Bytes} {t : Trace ν}
    (h : Run G .success input (.ok rest) t) : input = rest ∧ t = [] := by
  cases h with
  | success => exact ⟨rfl, rfl⟩

theorem Run.must_inv {body : Rule ν} {input : Bytes} {outcome : Outcome} {t : Trace ν}
    (h : Run G (.must body) input outcome t) :
    ∃ inner, outcome = inner.escalate ∧ Run G body input inner t := by
  cases h with
  | must h => exact ⟨_, rfl, h⟩

theorem Run.eof_inv {input : Bytes} {outcome : Outcome} {t : Trace ν}
    (h : Run G .eof input outcome t) :
    t = [] ∧ outcome = if input = [] then .ok [] else .fail := by
  cases h with
  | eofOk => exact ⟨rfl, rfl⟩
  | eofFail hne => exact ⟨rfl, (if_neg hne).symm⟩

/-! ## The unread input is a suffix -/

/-- A match consumes a prefix of its input. -/
theorem Run.suffix {rule : Rule ν} {input rest : Bytes} {t : Trace ν}
    (h : Run G rule input (.ok rest) t) : ∃ text, input = text ++ rest := by
  generalize hout : Outcome.ok rest = outcome at h
  induction h generalizing rest with
  | byteOk _ => cases hout; exact ⟨[_], rfl⟩
  | byteFail _ => cases hout
  | codePointOk _ _ => cases hout; exact ⟨_, (List.take_append_drop _ _).symm⟩
  | codePointFail _ => cases hout
  | eofOk => cases hout; exact ⟨[], rfl⟩
  | eofFail _ => cases hout
  | success => cases hout; exact ⟨[], rfl⟩
  | seqNext _ _ ih₁ ih₂ =>
      obtain ⟨x, hx⟩ := ih₁ rfl
      obtain ⟨y, hy⟩ := ih₂ hout
      exact ⟨x ++ y, by rw [hx, hy, List.append_assoc]⟩
  | seqStop _ hstop _ => exact absurd hout.symm (hstop _)
  | sorStop _ _ ih => exact ih hout
  | sorNext _ _ _ ih₂ => exact ih₂ hout
  | starNext _ _ ih₁ ih₂ =>
      obtain ⟨x, hx⟩ := ih₁ rfl
      obtain ⟨y, hy⟩ := ih₂ hout
      exact ⟨x ++ y, by rw [hx, hy, List.append_assoc]⟩
  | starDone _ _ => cases hout; exact ⟨[], rfl⟩
  | starError _ _ => cases hout
  | @must _ _ outcome _ _ ih =>
      cases outcome with
      | ok _ => exact ih hout
      | fail => cases hout
      | error => cases hout
  | ref _ ih => exact ih hout

/-- The text of a match, put back in front of the unread input. -/
theorem Run.consumed_append_rest {rule : Rule ν} {input rest : Bytes} {t : Trace ν}
    (h : Run G rule input (.ok rest) t) : consumed input rest ++ rest = input := by
  obtain ⟨text, rfl⟩ := h.suffix
  rw [consumed_append]

/-! ## Determinism -/

/-- An input determines how a rule ends and which actions run. -/
theorem Run.deterministic {rule : Rule ν} {input : Bytes} {o₁ o₂ : Outcome}
    {t₁ t₂ : Trace ν} (h₁ : Run G rule input o₁ t₁) (h₂ : Run G rule input o₂ t₂) :
    o₁ = o₂ ∧ t₁ = t₂ := by
  induction h₁ generalizing o₂ t₂ with
  | byteOk h =>
      cases h₂ with
      | byteOk _ => exact ⟨rfl, rfl⟩
      | byteFail h' => simp [h] at h'
  | byteFail h =>
      cases h₂ with
      | byteOk h' => simp [h'] at h
      | byteFail _ => exact ⟨rfl, rfl⟩
  | codePointOk hpeek h =>
      cases h₂ with
      | codePointOk hpeek' _ =>
          rw [hpeek] at hpeek'
          cases hpeek'
          exact ⟨rfl, rfl⟩
      | codePointFail h' => simp [hpeek, h] at h'
  | codePointFail h =>
      cases h₂ with
      | codePointOk hpeek h' => simp [hpeek, h'] at h
      | codePointFail _ => exact ⟨rfl, rfl⟩
  | eofOk =>
      cases h₂ with
      | eofOk => exact ⟨rfl, rfl⟩
      | eofFail h' => exact absurd rfl h'
  | eofFail h =>
      cases h₂ with
      | eofOk => exact absurd rfl h
      | eofFail _ => exact ⟨rfl, rfl⟩
  | success =>
      cases h₂ with
      | success => exact ⟨rfl, rfl⟩
  | seqNext _ _ ih₁ ih₂ =>
      cases h₂ with
      | seqNext g₁ g₂ =>
          obtain ⟨ho, rfl⟩ := ih₁ g₁
          cases ho
          obtain ⟨rfl, rfl⟩ := ih₂ g₂
          exact ⟨rfl, rfl⟩
      | seqStop g hstop => exact absurd (ih₁ g).1.symm (hstop _)
  | seqStop _ hstop ih =>
      cases h₂ with
      | seqNext g₁ _ => exact absurd (ih g₁).1 (hstop _)
      | seqStop g _ => exact ih g
  | sorStop _ hstop ih =>
      cases h₂ with
      | sorStop g _ => exact ih g
      | sorNext g _ => exact absurd (ih g).1 hstop
  | sorNext _ _ ih₁ ih₂ =>
      cases h₂ with
      | sorStop g hstop => exact absurd (ih₁ g).1.symm hstop
      | sorNext g₁ g₂ =>
          obtain ⟨-, rfl⟩ := ih₁ g₁
          obtain ⟨rfl, rfl⟩ := ih₂ g₂
          exact ⟨rfl, rfl⟩
  | starNext _ _ ih₁ ih₂ =>
      cases h₂ with
      | starNext g₁ g₂ =>
          obtain ⟨ho, rfl⟩ := ih₁ g₁
          cases ho
          obtain ⟨rfl, rfl⟩ := ih₂ g₂
          exact ⟨rfl, rfl⟩
      | starDone g => cases (ih₁ g).1
      | starError g => cases (ih₁ g).1
  | starDone _ ih =>
      cases h₂ with
      | starNext g _ => cases (ih g).1
      | starDone g => exact ⟨rfl, (ih g).2⟩
      | starError g => cases (ih g).1
  | starError _ ih =>
      cases h₂ with
      | starNext g _ => cases (ih g).1
      | starDone g => cases (ih g).1
      | starError g => exact ⟨rfl, (ih g).2⟩
  | must _ ih =>
      cases h₂ with
      | must g =>
          obtain ⟨rfl, rfl⟩ := ih g
          exact ⟨rfl, rfl⟩
  | ref _ ih =>
      cases h₂ with
      | ref g =>
          obtain ⟨rfl, rfl⟩ := ih g
          exact ⟨rfl, rfl⟩

/-! ## Which names a trace can contain -/

/-- If the names in `S` refer only to names in `S`, matching an expression over
`S` runs only actions of names in `S`. -/
theorem Run.trace_names {S : ν → Prop}
    (hclosed : ∀ name, S name → ∀ other ∈ (G name).names, S other)
    {rule : Rule ν} {input : Bytes} {outcome : Outcome} {t : Trace ν}
    (h : Run G rule input outcome t) (hrule : ∀ name ∈ rule.names, S name) :
    ∀ entry ∈ t, S entry.1 := by
  induction h with
  | byteOk _ | byteFail _ | codePointOk _ _ | codePointFail _ | eofOk | eofFail _ | success =>
      simp
  | seqNext _ _ ih₁ ih₂ | sorNext _ _ ih₁ ih₂ =>
      simp only [Rule.names, List.mem_append] at hrule
      intro entry hentry
      rcases List.mem_append.mp hentry with h | h
      · exact ih₁ (fun name hn => hrule name (.inl hn)) entry h
      · exact ih₂ (fun name hn => hrule name (.inr hn)) entry h
  | seqStop _ _ ih | sorStop _ _ ih =>
      simp only [Rule.names, List.mem_append] at hrule
      exact ih fun name hn => hrule name (.inl hn)
  | starNext _ _ ih₁ ih₂ =>
      intro entry hentry
      rcases List.mem_append.mp hentry with h | h
      · exact ih₁ hrule entry h
      · exact ih₂ hrule entry h
  | starDone _ ih | starError _ ih | must _ ih => exact ih hrule
  | @ref name input outcome t _ ih =>
      have hname : S name := hrule name (by simp [Rule.names])
      intro entry hentry
      rcases List.mem_append.mp hentry with h | h
      · exact ih (hclosed name hname) entry h
      · cases outcome with
        | ok rest =>
            simp only [closing, List.mem_singleton] at h
            rw [h]
            exact hname
        | fail => simp [closing] at h
        | error => simp [closing] at h

/-! ## The executable matcher -/

/-- `Run` as a function; `none` means that the derivation is deeper than the
bound. -/
def exec (G : ν → Rule ν) : Nat → Rule ν → Bytes → Option (Outcome × Trace ν)
  | 0, _, _ => none
  | _ + 1, .byte accepts, input =>
      match input with
      | [] => some (.fail, [])
      | b :: rest => some (if accepts b then .ok rest else .fail, [])
  | _ + 1, .codePoint accepts, input =>
      match peekUtf8 input with
      | none => some (.fail, [])
      | some (c, size) => some (if accepts c then .ok (input.drop size) else .fail, [])
  | _ + 1, .eof, input => some (if input = [] then .ok [] else .fail, [])
  | _ + 1, .success, input => some (.ok input, [])
  | fuel + 1, .seq first second, input =>
      match exec G fuel first input with
      | none => none
      | some (.ok middle, t₁) =>
          (exec G fuel second middle).map fun (outcome, t₂) => (outcome, t₁ ++ t₂)
      | some (outcome, t) => some (outcome, t)
  | fuel + 1, .sor first second, input =>
      match exec G fuel first input with
      | none => none
      | some (.fail, t₁) =>
          (exec G fuel second input).map fun (outcome, t₂) => (outcome, t₁ ++ t₂)
      | some (outcome, t) => some (outcome, t)
  | fuel + 1, .star body, input =>
      match exec G fuel body input with
      | none => none
      | some (.ok middle, t₁) =>
          (exec G fuel (.star body) middle).map fun (outcome, t₂) => (outcome, t₁ ++ t₂)
      | some (.fail, t) => some (.ok input, t)
      | some (.error, t) => some (.error, t)
  | fuel + 1, .must body, input =>
      (exec G fuel body input).map fun (outcome, t) => (outcome.escalate, t)
  | fuel + 1, .ref name, input =>
      (exec G fuel (G name) input).map fun (outcome, t) =>
        (outcome, t ++ closing name input outcome)

/-- What the executable matcher returns is a run. -/
theorem exec_sound : ∀ (fuel : Nat) {rule : Rule ν} {input : Bytes} {outcome : Outcome}
    {t : Trace ν}, exec G fuel rule input = some (outcome, t) → Run G rule input outcome t := by
  intro fuel
  induction fuel with
  | zero => intro rule input outcome t h; simp [exec] at h
  | succ fuel ih =>
      intro rule input outcome t h
      cases rule with
      | byte accepts =>
          cases input with
          | nil =>
              simp only [exec, Option.some.injEq, Prod.mk.injEq] at h
              obtain ⟨rfl, rfl⟩ := h
              exact .byteFail (by simp)
          | cons b rest =>
              simp only [exec, Option.some.injEq, Prod.mk.injEq] at h
              obtain ⟨rfl, rfl⟩ := h
              by_cases hb : accepts b = true
              · simpa [hb] using Run.byteOk hb
              · simpa [hb] using Run.byteFail (by simpa using hb)
      | codePoint accepts =>
          simp only [exec] at h
          cases hpeek : peekUtf8 input with
          | none =>
              rw [hpeek] at h
              simp only [Option.some.injEq, Prod.mk.injEq] at h
              obtain ⟨rfl, rfl⟩ := h
              exact .codePointFail (by simp [hpeek])
          | some p =>
              obtain ⟨c, size⟩ := p
              rw [hpeek] at h
              simp only [Option.some.injEq, Prod.mk.injEq] at h
              obtain ⟨rfl, rfl⟩ := h
              by_cases hc : accepts c = true
              · simpa [hc] using Run.codePointOk hpeek hc
              · simpa [hc] using Run.codePointFail (by simpa [hpeek] using hc)
      | eof =>
          simp only [exec, Option.some.injEq, Prod.mk.injEq] at h
          obtain ⟨rfl, rfl⟩ := h
          by_cases hin : input = []
          · subst hin
            exact .eofOk
          · simpa [hin] using Run.eofFail hin
      | success =>
          simp only [exec, Option.some.injEq, Prod.mk.injEq] at h
          obtain ⟨rfl, rfl⟩ := h
          exact .success
      | seq first second =>
          simp only [exec] at h
          cases hfirst : exec G fuel first input with
          | none => simp [hfirst] at h
          | some p =>
              obtain ⟨o₁, t₁⟩ := p
              have h₁ := ih hfirst
              rw [hfirst] at h
              cases o₁ with
              | ok middle =>
                  simp only [Option.map_eq_some_iff, Prod.mk.injEq, Prod.exists] at h
                  obtain ⟨o₂, t₂, hsecond, rfl, rfl⟩ := h
                  exact .seqNext h₁ (ih hsecond)
              | fail =>
                  simp only [Option.some.injEq, Prod.mk.injEq] at h
                  obtain ⟨rfl, rfl⟩ := h
                  exact .seqStop h₁ (by simp)
              | error =>
                  simp only [Option.some.injEq, Prod.mk.injEq] at h
                  obtain ⟨rfl, rfl⟩ := h
                  exact .seqStop h₁ (by simp)
      | sor first second =>
          simp only [exec] at h
          cases hfirst : exec G fuel first input with
          | none => simp [hfirst] at h
          | some p =>
              obtain ⟨o₁, t₁⟩ := p
              have h₁ := ih hfirst
              rw [hfirst] at h
              cases o₁ with
              | fail =>
                  simp only [Option.map_eq_some_iff, Prod.mk.injEq, Prod.exists] at h
                  obtain ⟨o₂, t₂, hsecond, rfl, rfl⟩ := h
                  exact .sorNext h₁ (ih hsecond)
              | ok middle =>
                  simp only [Option.some.injEq, Prod.mk.injEq] at h
                  obtain ⟨rfl, rfl⟩ := h
                  exact .sorStop h₁ (by simp)
              | error =>
                  simp only [Option.some.injEq, Prod.mk.injEq] at h
                  obtain ⟨rfl, rfl⟩ := h
                  exact .sorStop h₁ (by simp)
      | star body =>
          simp only [exec] at h
          cases hbody : exec G fuel body input with
          | none => simp [hbody] at h
          | some p =>
              obtain ⟨o₁, t₁⟩ := p
              have h₁ := ih hbody
              rw [hbody] at h
              cases o₁ with
              | ok middle =>
                  simp only [Option.map_eq_some_iff, Prod.mk.injEq, Prod.exists] at h
                  obtain ⟨o₂, t₂, hrest, rfl, rfl⟩ := h
                  exact .starNext h₁ (ih hrest)
              | fail =>
                  simp only [Option.some.injEq, Prod.mk.injEq] at h
                  obtain ⟨rfl, rfl⟩ := h
                  exact .starDone h₁
              | error =>
                  simp only [Option.some.injEq, Prod.mk.injEq] at h
                  obtain ⟨rfl, rfl⟩ := h
                  exact .starError h₁
      | must body =>
          simp only [exec, Option.map_eq_some_iff, Prod.mk.injEq, Prod.exists] at h
          obtain ⟨o₁, t₁, hbody, rfl, rfl⟩ := h
          exact .must (ih hbody)
      | ref name =>
          simp only [exec, Option.map_eq_some_iff, Prod.mk.injEq, Prod.exists] at h
          obtain ⟨o₁, t₁, hbody, rfl, rfl⟩ := h
          exact .ref (ih hbody)

end Runs

end RdfParser.Peg
