/-
  Peg/Progress.lean --- why matching ends.

  In a grammar that passes the checks of `Peg/Total.lean` no rule is entered again inside
  itself before input has been consumed, and neither is the body of a repetition.  The
  executable matcher then returns with any bound that is large enough.
-/
import RdfParser.Peg.Moment
import RdfParser.Peg.Total

set_option autoImplicit false

namespace RdfParser.Peg

open RdfParser.Foundation

variable {ν : Type} {G : ν → Rule ν}

/-! ## The bound of the matcher -/

/-- From some bound on the executable matcher returns this. -/
def Returns (G : ν → Rule ν) (rule : Rule ν) (input : Bytes) (outcome : Outcome)
    (trace : Trace ν) : Prop :=
  ∃ fuel, ∀ more, fuel ≤ more → exec G more rule input = some (outcome, trace)

/-- One level of recursion over two expressions. -/
theorem Returns.two {first second rule : Rule ν} {input₁ input₂ input : Bytes}
    {o₁ o₂ outcome : Outcome} {t₁ t₂ trace : Trace ν} (h₁ : Returns G first input₁ o₁ t₁)
    (h₂ : Returns G second input₂ o₂ t₂)
    (hstep : ∀ fuel, exec G fuel first input₁ = some (o₁, t₁) →
      exec G fuel second input₂ = some (o₂, t₂) →
      exec G (fuel + 1) rule input = some (outcome, trace)) :
    Returns G rule input outcome trace := by
  obtain ⟨fuel₁, h₁⟩ := h₁
  obtain ⟨fuel₂, h₂⟩ := h₂
  refine ⟨max fuel₁ fuel₂ + 1, fun more hmore => ?_⟩
  obtain ⟨fuel, rfl⟩ : ∃ fuel, more = fuel + 1 := ⟨more - 1, by omega⟩
  exact hstep fuel (h₁ fuel (by omega)) (h₂ fuel (by omega))

/-- One level of recursion over one expression. -/
theorem Returns.one {inner rule : Rule ν} {input : Bytes} {o outcome : Outcome}
    {t trace : Trace ν} (h : Returns G inner input o t)
    (hstep : ∀ fuel, exec G fuel inner input = some (o, t) →
      exec G (fuel + 1) rule input = some (outcome, trace)) :
    Returns G rule input outcome trace :=
  h.two h fun fuel hinner _ => hstep fuel hinner

/-- An expression that is matched without recursion. -/
theorem Returns.token {rule : Rule ν} {input : Bytes} {outcome : Outcome} {trace : Trace ν}
    (h : ∀ fuel, exec G (fuel + 1) rule input = some (outcome, trace)) :
    Returns G rule input outcome trace := by
  refine ⟨1, fun more hmore => ?_⟩
  obtain ⟨fuel, rfl⟩ : ∃ fuel, more = fuel + 1 := ⟨more - 1, by omega⟩
  exact h fuel

/-- The executable matcher finds every run. -/
theorem Run.returns {rule : Rule ν} {input : Bytes} {outcome : Outcome} {trace : Trace ν}
    (h : Run G rule input outcome trace) : Returns G rule input outcome trace := by
  induction h with
  | byteOk hb => exact .token fun fuel => by simp [exec, hb]
  | @byteFail _ input hb =>
      refine .token fun fuel => ?_
      cases input with
      | nil => rfl
      | cons b rest => simpa [exec] using hb
  | codePointOk hpeek hc => exact .token fun fuel => by simp [exec, hpeek, hc]
  | @codePointFail _ input hc =>
      refine .token fun fuel => ?_
      cases hpeek : peekUtf8 input with
      | none => simp [exec, hpeek]
      | some p =>
          have hrefused := hc p hpeek
          simp [exec, hpeek, hrefused]
  | eofOk => exact .token fun fuel => rfl
  | eofFail hne => exact .token fun fuel => by simp [exec, hne]
  | success => exact .token fun fuel => rfl
  | seqNext _ _ ih₁ ih₂ => exact ih₁.two ih₂ fun fuel h₁ h₂ => by simp [exec, h₁, h₂]
  | @seqStop _ _ _ outcome _ _ hstop ih =>
      refine ih.one fun fuel hfirst => ?_
      cases outcome with
      | ok rest => exact absurd rfl (hstop rest)
      | fail | error => simp [exec, hfirst]
  | @sorStop _ _ _ outcome _ _ hstop ih =>
      refine ih.one fun fuel hfirst => ?_
      cases outcome with
      | fail => exact absurd rfl hstop
      | ok _ | error => simp [exec, hfirst]
  | sorNext _ _ ih₁ ih₂ => exact ih₁.two ih₂ fun fuel h₁ h₂ => by simp [exec, h₁, h₂]
  | starNext _ _ ih₁ ih₂ => exact ih₁.two ih₂ fun fuel h₁ h₂ => by simp [exec, h₁, h₂]
  | starDone _ ih | starError _ ih => exact ih.one fun fuel hbody => by simp [exec, hbody]
  | must _ ih | ref _ ih => exact ih.one fun fuel hbody => by simp [exec, hbody]

/-! ## Repetitions -/

/-- The bodies of the repetitions in an expression. -/
def Rule.starBodies : Rule ν → List (Rule ν)
  | .byte _ | .codePoint _ | .eof | .success | .ref _ => []
  | .seq first second | .sor first second => first.starBodies ++ second.starBodies
  | .star body => body :: body.starBodies
  | .must body => body.starBodies

/-- `inner` is what is left of `input`, either behind consumed input or where `P` holds. -/
def Behind (inner input : Bytes) (P : Prop) : Prop :=
  inner <:+ input ∧ (inner.length < input.length ∨ inner = input ∧ P)

theorem Behind.trans {inner middle input : Bytes} {P Q : Prop} (h : Behind inner middle P)
    (hmiddle : middle <:+ input) (himp : middle = input → P → Q) : Behind inner input Q := by
  refine ⟨h.1.trans hmiddle, ?_⟩
  rcases h.2 with hshorter | ⟨rfl, hP⟩
  · exact .inl (lt_of_lt_of_le hshorter hmiddle.length_le)
  · rcases Nat.lt_or_eq_of_le hmiddle.length_le with hlt | heq
    · exact .inl hlt
    · have hsame := hmiddle.eq_of_length heq
      exact .inr ⟨hsame, himp hsame hP⟩

theorem Run.isSuffix {rule : Rule ν} {input rest : Bytes} {trace : Trace ν}
    (h : Run G rule input (.ok rest) trace) : rest <:+ input := by
  obtain ⟨text, rfl⟩ := h.suffix
  exact List.suffix_append text rest

section Checked

variable {C : ν → Bool} (hclosed : ∀ name, C name = true → (G name).consumes C = true)

/-- Bodies of repetitions consume. -/
theorem Rule.starBodies_consume {rule : Rule ν} {front : ν → Bool}
    (h : rule.terminates C front = true) : ∀ body ∈ rule.starBodies, body.consumes C = true := by
  induction rule generalizing front with
  | byte _ | codePoint _ | eof | success | ref _ => simp [starBodies]
  | seq first second ih₁ ih₂ | sor first second ih₁ ih₂ =>
      simp only [terminates, Bool.and_eq_true] at h
      intro body hbody
      rcases List.mem_append.mp hbody with hbody | hbody
      · exact ih₁ h.1 body hbody
      · exact ih₂ h.2 body hbody
  | star inner ih =>
      simp only [terminates, Bool.and_eq_true] at h
      intro body hbody
      rcases List.mem_cons.mp hbody with rfl | hbody
      · exact h.1
      · exact ih h.2 body hbody
  | must inner ih => exact ih h

/-! ## Rules inside rules -/

include hclosed

/-- The outermost rule of a moment has been entered behind consumed input, or is one of
those in front. -/
theorem Moment.entered {rule : Rule ν} {front : ν → Bool} (hrule : rule.terminates C front = true)
    {input : Bytes} {active : List (ν × Bytes)} {before : Trace ν}
    (h : Moment G rule input active before) :
    ∀ entry ∈ active.head?, Behind entry.2 input (front entry.1 = true) := by
  induction h generalizing front with
  | start | finish _ => simp
  | seqFirst _ ih | sorFirst _ ih =>
      simp only [Rule.terminates, Bool.and_eq_true] at hrule
      exact ih hrule.1
  | seqSecond hfirst _ ih =>
      simp only [Rule.terminates, Bool.and_eq_true] at hrule
      intro entry hentry
      refine (ih hrule.2 entry hentry).trans hfirst.isSuffix fun hsame hfront => ?_
      split at hfront
      · rename_i hconsumes
        have hshorter := hfirst.consumes hclosed hconsumes
        exact absurd (congrArg List.length hsame) (Nat.ne_of_lt hshorter)
      · exact hfront
  | sorSecond _ _ ih =>
      simp only [Rule.terminates, Bool.and_eq_true] at hrule
      exact ih hrule.2
  | starBody _ ih =>
      simp only [Rule.terminates, Bool.and_eq_true] at hrule
      exact ih hrule.2
  | starMore hfirst _ ih =>
      intro entry hentry
      exact (ih hrule entry hentry).trans hfirst.isSuffix fun _ hfront => hfront
  | must _ ih => exact ih hrule
  | ref _ _ =>
      intro entry hentry
      obtain rfl := Option.mem_some_iff.mp hentry
      exact ⟨List.suffix_rfl, .inr ⟨rfl, hrule⟩⟩

variable {rank : ν → Nat}
  (hranked : ∀ name, (G name).terminates C (fun other => decide (rank other < rank name)) = true)
include hranked

/-- Whatever is being matched inside a rule has been entered behind consumed input, or is
of smaller rank. -/
theorem Moment.inside_entered {name : ν} {start : Bytes} {inside : List (ν × Bytes)}
    {before : Trace ν} (h : Moment G (G name) start inside before) :
    ∀ entry ∈ inside, Behind entry.2 start (rank entry.1 < rank name) := by
  induction inside generalizing name start before with
  | nil => simp
  | cons outer inside ih =>
      have houter := h.entered hclosed (hranked name) outer rfl
      rw [decide_eq_true_eq] at houter
      intro entry hentry
      rcases List.mem_cons.mp hentry with rfl | hentry
      · exact houter
      · have hactive : outer :: inside = [] ++ (outer.1, outer.2) :: inside := rfl
        obtain ⟨_, hinner⟩ := h.inner hactive
        refine (ih hinner entry hentry).trans houter.1 fun hsame hrank => ?_
        rcases houter.2 with hshorter | ⟨-, hrank'⟩
        · exact absurd (congrArg List.length hsame) (Nat.ne_of_lt hshorter)
        · exact hrank.trans hrank'

/-- A rule that is entered again inside itself is entered behind consumed input. -/
theorem Moment.reentered {rule : Rule ν} {input : Bytes} {active : List (ν × Bytes)}
    {before : Trace ν} (h : Moment G rule input active before) {name : ν} {start again : Bytes}
    {outer inside : List (ν × Bytes)} (hactive : active = outer ++ (name, start) :: inside)
    (hagain : (name, again) ∈ inside) : again <:+ start ∧ again.length < start.length := by
  obtain ⟨_, hinner⟩ := h.inner hactive
  obtain ⟨hsuffix, hshorter | ⟨-, hrank⟩⟩ :=
    hinner.inside_entered hclosed hranked (name, again) hagain
  · exact ⟨hsuffix, hshorter⟩
  · exact absurd hrank (Nat.lt_irrefl _)

end Checked

end RdfParser.Peg
