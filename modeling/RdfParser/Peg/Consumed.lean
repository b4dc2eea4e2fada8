/-
  Peg/Consumed.lean --- what is known about the text a rule has matched.

  An entry of a trace is a match of its rule.  And if none of the expressions
  behind a rule accepts certain ASCII bytes, no text the rule matches has them.
-/
import RdfParser.Peg.Run

set_option autoImplicit false

namespace RdfParser.Peg

open RdfParser.Foundation

variable {ν : Type} {G : ν → Rule ν}

/-! ## Entries of a trace -/

/-- A rule matches a text if it consumes exactly that text of some input. -/
def Matches (G : ν → Rule ν) (name : ν) (text : Bytes) : Prop :=
  ∃ rest trace, Run G (.ref name) (text ++ rest) (.ok rest) trace

theorem Run.matches_consumed {name : ν} {input rest : Bytes} {trace : Trace ν}
    (h : Run G (.ref name) input (.ok rest) trace) : Matches G name (consumed input rest) := by
  refine ⟨rest, trace, ?_⟩
  rw [h.consumed_append_rest]
  exact h

/-- Every entry of a trace is a match. -/
theorem Run.trace_matches {rule : Rule ν} {input : Bytes} {outcome : Outcome} {trace : Trace ν}
    (h : Run G rule input outcome trace) : ∀ entry ∈ trace, Matches G entry.1 entry.2 := by
  induction h with
  | byteOk _ | byteFail _ | codePointOk _ _ | codePointFail _ | eofOk | eofFail _ | success =>
      simp
  | seqNext _ _ ih₁ ih₂ | sorNext _ _ ih₁ ih₂ | starNext _ _ ih₁ ih₂ =>
      intro entry hentry
      rcases List.mem_append.mp hentry with hentry | hentry
      · exact ih₁ entry hentry
      · exact ih₂ entry hentry
  | seqStop _ _ ih | sorStop _ _ ih | starDone _ ih | starError _ ih | must _ ih => exact ih
  | @ref name input outcome trace hbody ih =>
      intro entry hentry
      rcases List.mem_append.mp hentry with hentry | hentry
      · exact ih entry hentry
      · cases outcome with
        | fail => simp [closing] at hentry
        | error => simp [closing] at hentry
        | ok rest =>
            rw [closing, List.mem_singleton] at hentry
            rw [hentry]
            exact (Run.ref hbody).matches_consumed

/-! ## Bytes that cannot occur -/

/-- The expression accepts no byte of `bad`, given that the names in `S` do not. -/
def Rule.avoids (bad : Bytes) (S : ν → Bool) : Rule ν → Bool
  | .byte accepts => bad.all fun b => !accepts b
  | .codePoint accepts => bad.all fun b => !accepts b.toNat
  | .eof | .success => true
  | .seq first second | .sor first second => first.avoids bad S && second.avoids bad S
  | .star body | .must body => body.avoids bad S
  | .ref name => S name

theorem isContinuation_le {b : UInt8} (h : isContinuation b = true) : 128 ≤ b.toNat := by
  unfold isContinuation at h
  rw [Bool.and_eq_true, decide_eq_true_eq] at h
  exact UInt8.le_iff_toNat_le.mp h.1

/-- An ASCII byte in a decoded code point is that code point. -/
theorem peekUtf8_ascii {input : Bytes} {c size : Nat} (h : peekUtf8 input = some (c, size)) :
    ∀ b ∈ input.take size, b.toNat < 128 → c = b.toNat := by
  unfold peekUtf8 at h
  split at h
  · simp at h
  · simp only at h
    repeat' split at h
    all_goals simp only [Option.some.injEq, Prod.mk.injEq, reduceCtorEq] at h
    all_goals
      obtain ⟨hc, hsize⟩ := h
      rw [← hc, ← hsize]
      intro b hb hlt
      simp only [List.take_succ_cons, List.take_zero, List.mem_cons, List.not_mem_nil,
        or_false] at hb
    -- the bytes after the first one are continuation bytes, hence not ASCII
    all_goals grind [isContinuation_le]

/-- Matching consumes no byte that the expressions behind it avoid. -/
theorem Run.avoids {bad : Bytes} (hascii : ∀ b ∈ bad, b.toNat < 128) {S : ν → Bool}
    (hclosed : ∀ name, S name = true → (G name).avoids bad S = true) {rule : Rule ν}
    {input rest : Bytes} {trace : Trace ν} (h : Run G rule input (.ok rest) trace)
    (hrule : rule.avoids bad S = true) :
    ∃ text, input = text ++ rest ∧ ∀ b ∈ text, b ∉ bad := by
  generalize hout : Outcome.ok rest = outcome at h
  induction h generalizing rest with
  | byteOk haccepts =>
      cases hout
      refine ⟨[_], rfl, ?_⟩
      intro b hb hbad
      rw [List.mem_singleton] at hb
      simp only [Rule.avoids, List.all_eq_true] at hrule
      have hrefuse := hrule b hbad
      rw [hb, haccepts] at hrefuse
      exact absurd hrefuse (by simp)
  | byteFail _ => cases hout
  | codePointOk hpeek haccepts =>
      cases hout
      refine ⟨_, (List.take_append_drop _ _).symm, ?_⟩
      intro b hb hbad
      simp only [Rule.avoids, List.all_eq_true] at hrule
      have hrefuse := hrule b hbad
      rw [← peekUtf8_ascii hpeek b hb (hascii b hbad), haccepts] at hrefuse
      exact absurd hrefuse (by simp)
  | codePointFail _ => cases hout
  | eofOk =>
      cases hout
      exact ⟨[], rfl, by simp⟩
  | eofFail _ => cases hout
  | success =>
      cases hout
      exact ⟨[], rfl, by simp⟩
  | seqNext _ _ ih₁ ih₂ =>
      simp only [Rule.avoids, Bool.and_eq_true] at hrule
      obtain ⟨text₁, hinput₁, htext₁⟩ := ih₁ hrule.1 rfl
      obtain ⟨text₂, hinput₂, htext₂⟩ := ih₂ hrule.2 hout
      refine ⟨text₁ ++ text₂, by rw [hinput₁, hinput₂, List.append_assoc], ?_⟩
      intro b hb
      rcases List.mem_append.mp hb with hb | hb
      · exact htext₁ b hb
      · exact htext₂ b hb
  | seqStop _ hstop _ => exact absurd hout.symm (hstop _)
  | sorStop _ _ ih =>
      simp only [Rule.avoids, Bool.and_eq_true] at hrule
      exact ih hrule.1 hout
  | sorNext _ _ _ ih₂ =>
      simp only [Rule.avoids, Bool.and_eq_true] at hrule
      exact ih₂ hrule.2 hout
  | starNext _ _ ih₁ ih₂ =>
      obtain ⟨text₁, hinput₁, htext₁⟩ := ih₁ hrule rfl
      obtain ⟨text₂, hinput₂, htext₂⟩ := ih₂ hrule hout
      refine ⟨text₁ ++ text₂, by rw [hinput₁, hinput₂, List.append_assoc], ?_⟩
      intro b hb
      rcases List.mem_append.mp hb with hb | hb
      · exact htext₁ b hb
      · exact htext₂ b hb
  | starDone _ _ =>
      cases hout
      exact ⟨[], rfl, by simp⟩
  | starError _ _ => cases hout
  | @must _ _ outcome _ _ ih =>
      cases outcome with
      | ok _ => exact ih hrule hout
      | fail => cases hout
      | error => cases hout
  | @ref name _ _ _ _ ih => exact ih (hclosed name hrule) hout

/-- The text a rule matches has no byte that the expressions behind it avoid. -/
theorem Matches.avoids {bad : Bytes} (hascii : ∀ b ∈ bad, b.toNat < 128) {S : ν → Bool}
    (hclosed : ∀ name, S name = true → (G name).avoids bad S = true) {name : ν} {text : Bytes}
    (h : Matches G name text) (hname : S name = true) : ∀ b ∈ text, b ∉ bad := by
  obtain ⟨rest, trace, hrun⟩ := h
  obtain ⟨text', htext, havoids⟩ := hrun.avoids hascii hclosed hname
  rw [List.append_cancel_right htext]
  exact havoids

end RdfParser.Peg
