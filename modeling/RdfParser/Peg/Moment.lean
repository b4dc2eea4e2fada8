/-
  Peg/Moment.lean --- the moments of a match.

  A parser that runs actions as it matches can be looked at in the middle of a
  match.  A moment is the list of named rules being matched, each with the input it
  was started on, and the trace so far.
-/
import RdfParser.Peg.Run

set_option autoImplicit false

namespace RdfParser.Peg

open RdfParser.Foundation

variable {ν : Type} {G : ν → Rule ν}

/-- While `rule` is matched on `input` there is a moment in which the names in `active`
are being matched, the innermost last, and `before` is the trace so far. -/
inductive Moment (G : ν → Rule ν) :
    Rule ν → Bytes → List (ν × Bytes) → Trace ν → Prop where
  | start {rule : Rule ν} {input : Bytes} : Moment G rule input [] []
  | finish {rule : Rule ν} {input : Bytes} {outcome : Outcome} {trace : Trace ν}
      (h : Run G rule input outcome trace) : Moment G rule input [] trace
  | seqFirst {first second : Rule ν} {input : Bytes} {active : List (ν × Bytes)}
      {before : Trace ν} (h : Moment G first input active before) :
      Moment G (.seq first second) input active before
  | seqSecond {first second : Rule ν} {input middle : Bytes} {active : List (ν × Bytes)}
      {trace before : Trace ν} (hfirst : Run G first input (.ok middle) trace)
      (h : Moment G second middle active before) :
      Moment G (.seq first second) input active (trace ++ before)
  | sorFirst {first second : Rule ν} {input : Bytes} {active : List (ν × Bytes)}
      {before : Trace ν} (h : Moment G first input active before) :
      Moment G (.sor first second) input active before
  | sorSecond {first second : Rule ν} {input : Bytes} {active : List (ν × Bytes)}
      {trace before : Trace ν} (hfirst : Run G first input .fail trace)
      (h : Moment G second input active before) :
      Moment G (.sor first second) input active (trace ++ before)
  | starBody {body : Rule ν} {input : Bytes} {active : List (ν × Bytes)}
      {before : Trace ν} (h : Moment G body input active before) :
      Moment G (.star body) input active before
  | starMore {body : Rule ν} {input middle : Bytes} {active : List (ν × Bytes)}
      {trace before : Trace ν} (hfirst : Run G body input (.ok middle) trace)
      (h : Moment G (.star body) middle active before) :
      Moment G (.star body) input active (trace ++ before)
  | must {body : Rule ν} {input : Bytes} {active : List (ν × Bytes)} {before : Trace ν}
      (h : Moment G body input active before) : Moment G (.must body) input active before
  | ref {name : ν} {input : Bytes} {active : List (ν × Bytes)} {before : Trace ν}
      (h : Moment G (G name) input active before) :
      Moment G (.ref name) input ((name, input) :: active) before

/-- The moment is inside a match of `name`: one that is being matched and will match. -/
def Inside (G : ν → Rule ν) (name : ν) (active : List (ν × Bytes)) : Prop :=
  ∃ entry ∈ active, entry.1 = name ∧
    ∃ rest trace, Run G (.ref name) entry.2 (.ok rest) trace

theorem Inside.mono {name : ν} {active : List (ν × Bytes)} {entry : ν × Bytes}
    (h : Inside G name active) : Inside G name (entry :: active) := by
  obtain ⟨other, hother, hmatch⟩ := h
  exact ⟨other, List.mem_cons_of_mem _ hother, hmatch⟩

/-- The trace of a moment contains only names that the expression leads to. -/
theorem Moment.trace_names {S : ν → Prop}
    (hclosed : ∀ name, S name → ∀ other ∈ (G name).names, S other)
    {rule : Rule ν} {input : Bytes} {active : List (ν × Bytes)} {before : Trace ν}
    (h : Moment G rule input active before) (hrule : ∀ name ∈ rule.names, S name) :
    ∀ entry ∈ before, S entry.1 := by
  induction h with
  | start => simp
  | finish h => exact h.trace_names hclosed hrule
  | seqFirst _ ih | sorFirst _ ih =>
      exact ih fun name hname => hrule name (List.mem_append_left _ hname)
  | seqSecond hfirst _ ih | sorSecond hfirst _ ih =>
      intro entry hentry
      rcases List.mem_append.mp hentry with h | h
      · exact hfirst.trace_names hclosed
          (fun name hname => hrule name (List.mem_append_left _ hname)) entry h
      · exact ih (fun name hname => hrule name (List.mem_append_right _ hname)) entry h
  | starBody _ ih | must _ ih => exact ih hrule
  | starMore hfirst _ ih =>
      intro entry hentry
      rcases List.mem_append.mp hentry with h | h
      · exact hfirst.trace_names hclosed hrule entry h
      · exact ih hrule entry h
  | @ref name _ _ _ _ ih =>
      have hname : S name := hrule name (by simp [Rule.names])
      exact ih (hclosed name hname)

/-- What is being matched inside a match of `name`. -/
theorem Moment.inner {rule : Rule ν} {input : Bytes} {active : List (ν × Bytes)}
    {before : Trace ν} (h : Moment G rule input active before) {name : ν} {start : Bytes}
    {outer inside : List (ν × Bytes)} (hactive : active = outer ++ (name, start) :: inside) :
    ∃ before', Moment G (G name) start inside before' := by
  induction h generalizing outer with
  | start | finish _ => simp at hactive
  | seqFirst _ ih | sorFirst _ ih | starBody _ ih | must _ ih => exact ih hactive
  | seqSecond _ _ ih | sorSecond _ _ ih | starMore _ _ ih => exact ih hactive
  | @ref _ _ _ before h ih =>
      cases outer with
      | nil =>
          rw [List.nil_append, List.cons.injEq, Prod.mk.injEq] at hactive
          obtain ⟨⟨rfl, rfl⟩, rfl⟩ := hactive
          exact ⟨before, h⟩
      | cons entry outer =>
          rw [List.cons_append, List.cons.injEq] at hactive
          exact ih hactive.2

end RdfParser.Peg
