/-
  Peg/Sequence.lean --- sequences and repetitions as a whole.

  A production of a grammar is usually one long sequence.  These rules take such a
  sequence apart element by element, and put it together again, without looking at
  how it is nested.
-/
import Mathlib.Logic.Relation
import RdfParser.Peg.Run

set_option autoImplicit false

namespace RdfParser.Peg

open RdfParser.Foundation

variable {ν : Type} {G : ν → Rule ν}

/-! ## Sequences -/

theorem Run.seqOf_nil_iff {input rest : Bytes} {trace : Trace ν} :
    Run G (.seqOf []) input (.ok rest) trace ↔ input = rest ∧ trace = [] := by
  constructor
  · exact Run.success_ok
  · rintro ⟨rfl, rfl⟩
    exact .success

/-- The first element of a sequence and the others. -/
theorem Run.seqOf_cons_iff {rule : Rule ν} {rules : List (Rule ν)} {input rest : Bytes}
    {trace : Trace ν} :
    Run G (.seqOf (rule :: rules)) input (.ok rest) trace ↔
      ∃ middle t₁ t₂, Run G rule input (.ok middle) t₁ ∧
        Run G (.seqOf rules) middle (.ok rest) t₂ ∧ trace = t₁ ++ t₂ := by
  cases rules with
  | nil =>
      -- a sequence of one element is that element
      constructor
      · intro h
        exact ⟨rest, trace, [], h, .success, (List.append_nil trace).symm⟩
      · rintro ⟨middle, t₁, t₂, h, hnil, rfl⟩
        obtain ⟨rfl, rfl⟩ := seqOf_nil_iff.mp hnil
        rw [List.append_nil]
        exact h
  | cons next rules =>
      constructor
      · exact Run.seq_ok
      · rintro ⟨middle, t₁, t₂, h₁, h₂, rfl⟩
        exact .seqNext h₁ h₂

/-- A sequence in two parts. -/
theorem Run.seqOf_append_iff {first second : List (Rule ν)} {input rest : Bytes}
    {trace : Trace ν} :
    Run G (.seqOf (first ++ second)) input (.ok rest) trace ↔
      ∃ middle t₁ t₂, Run G (.seqOf first) input (.ok middle) t₁ ∧
        Run G (.seqOf second) middle (.ok rest) t₂ ∧ trace = t₁ ++ t₂ := by
  induction first generalizing input trace with
  | nil =>
      constructor
      · intro h
        exact ⟨input, [], trace, .success, h, rfl⟩
      · rintro ⟨middle, t₁, t₂, hnil, h, rfl⟩
        obtain ⟨rfl, rfl⟩ := seqOf_nil_iff.mp hnil
        exact h
  | cons rule first ih =>
      rw [List.cons_append, seqOf_cons_iff]
      constructor
      · rintro ⟨middle, t₁, t₂, h, hrest, rfl⟩
        obtain ⟨middle', t₃, t₄, hfirst, hsecond, rfl⟩ := ih.mp hrest
        exact ⟨middle', t₁ ++ t₃, t₄, seqOf_cons_iff.mpr ⟨middle, t₁, t₃, h, hfirst, rfl⟩,
          hsecond, (List.append_assoc t₁ t₃ t₄).symm⟩
      · rintro ⟨middle, t, t₂, h, hsecond, rfl⟩
        obtain ⟨middle', t₁, t₃, hrule, hfirst, rfl⟩ := seqOf_cons_iff.mp h
        exact ⟨middle', t₁, t₃ ++ t₂, hrule, ih.mpr ⟨middle, t₃, t₂, hfirst, hsecond, rfl⟩,
          List.append_assoc t₁ t₃ t₂⟩

theorem Run.byte_iff {accepts : UInt8 → Bool} {input rest : Bytes} {trace : Trace ν} :
    Run G (.byte accepts) input (.ok rest) trace ↔
      ∃ b, accepts b = true ∧ input = b :: rest ∧ trace = [] := by
  constructor
  · exact Run.byte_ok
  · rintro ⟨b, hb, rfl, rfl⟩
    exact .byteOk hb

/-- A word, given by a byte class for each of its bytes. -/
theorem Run.seqOf_byte_iff {classes : List (UInt8 → Bool)} {input rest : Bytes}
    {trace : Trace ν} :
    Run G (.seqOf (classes.map .byte)) input (.ok rest) trace ↔
      ∃ word, List.Forall₂ (fun b accepts => accepts b = true) word classes ∧
        input = word ++ rest ∧ trace = [] := by
  induction classes generalizing input trace with
  | nil =>
      rw [List.map_nil, seqOf_nil_iff]
      constructor
      · rintro ⟨rfl, rfl⟩
        exact ⟨[], .nil, rfl, rfl⟩
      · rintro ⟨word, hword, rfl, rfl⟩
        cases hword
        exact ⟨rfl, rfl⟩
  | cons accepts classes ih =>
      rw [List.map_cons, seqOf_cons_iff]
      constructor
      · rintro ⟨middle, t₁, t₂, hbyte, hrest, rfl⟩
        obtain ⟨b, hb, rfl, rfl⟩ := byte_iff.mp hbyte
        obtain ⟨word, hword, rfl, rfl⟩ := ih.mp hrest
        exact ⟨b :: word, .cons hb hword, rfl, rfl⟩
      · rintro ⟨word, hword, rfl, rfl⟩
        cases hword with
        | @cons b _ word _ hb hword =>
            exact ⟨word ++ rest, [], [], byte_iff.mpr ⟨b, hb, rfl, rfl⟩,
              ih.mpr ⟨word, hword, rfl, rfl⟩, rfl⟩

/-- A fixed word. -/
theorem Run.string_iff {word : Bytes} {input rest : Bytes} {trace : Trace ν} :
    Run G (.string word) input (.ok rest) trace ↔ input = word ++ rest ∧ trace = [] := by
  unfold Rule.string
  induction word generalizing input trace with
  | nil => exact seqOf_nil_iff
  | cons b word ih =>
      rw [List.map_cons, seqOf_cons_iff]
      constructor
      · rintro ⟨middle, t₁, t₂, hbyte, hword, rfl⟩
        obtain ⟨c, hc, rfl, rfl⟩ := byte_iff.mp hbyte
        obtain ⟨rfl, rfl⟩ := ih.mp hword
        rw [beq_iff_eq.mp hc]
        exact ⟨rfl, rfl⟩
      · rintro ⟨rfl, rfl⟩
        exact ⟨word ++ rest, [], [], byte_iff.mpr ⟨b, beq_self_eq_true b, rfl, rfl⟩,
          ih.mpr ⟨rfl, rfl⟩, rfl⟩

/-- A sequence between two given bytes. -/
theorem Run.delimited {first last : UInt8} (rules : List (Rule ν)) {input rest : Bytes}
    {trace : Trace ν}
    (h : Run G (.seqOf (.one first :: (rules ++ [.one last]))) input (.ok rest) trace) :
    ∃ body, input = first :: (body ++ last :: rest) := by
  obtain ⟨middle, _, _, hfirst, hmore, -⟩ := seqOf_cons_iff.mp h
  obtain ⟨b, hb, rfl, -⟩ := byte_iff.mp hfirst
  obtain ⟨before, _, _, hbody, hlast, -⟩ := seqOf_append_iff.mp hmore
  obtain ⟨body, rfl⟩ := hbody.suffix
  obtain ⟨c, hc, rfl, -⟩ := byte_iff.mp hlast
  refine ⟨body, ?_⟩
  rw [beq_iff_eq.mp hb, beq_iff_eq.mp hc]

/-! ## Repetitions -/

/-- The text of a repetition, built up from the back: what holds of the empty text and
is kept by putting a match of the body in front. -/
theorem Run.star_induction {body : Rule ν} {P : Bytes → Prop} (hnil : P [])
    (hbody : ∀ text middle trace more, Run G body (text ++ middle) (.ok middle) trace →
      P more → P (text ++ more))
    {input rest : Bytes} {trace : Trace ν} (h : Run G (.star body) input (.ok rest) trace) :
    ∃ text, input = text ++ rest ∧ P text := by
  generalize hrule : Rule.star body = rule at h
  generalize hout : Outcome.ok rest = outcome at h
  induction h with
  | starNext hfirst _ _ ih =>
      cases hrule
      obtain ⟨text, rfl⟩ := hfirst.suffix
      obtain ⟨more, rfl, hmore⟩ := ih rfl hout
      exact ⟨text ++ more, (List.append_assoc ..).symm, hbody text _ _ more hfirst hmore⟩
  | starDone _ _ =>
      cases hout
      exact ⟨[], rfl, hnil⟩
  | _ => cases hrule <;> cases hout

/-- A repetition as a chain of matches of its body, none of them in a longer input. -/
theorem Run.star_chain {body : Rule ν} {R : Bytes → Bytes → Prop} {input rest : Bytes}
    {trace : Trace ν} (hbody : ∀ start stop t, start.length ≤ input.length →
      Run G body start (.ok stop) t → R start stop)
    (h : Run G (.star body) input (.ok rest) trace) : Relation.ReflTransGen R input rest := by
  generalize hrule : Rule.star body = rule at h
  generalize hout : Outcome.ok rest = outcome at h
  induction h with
  | starNext hfirst _ _ ih =>
      cases hrule
      obtain ⟨text, rfl⟩ := hfirst.suffix
      refine .head (hbody _ _ _ le_rfl hfirst) (ih (fun start stop t hle hrun => ?_) rfl hout)
      exact hbody start stop t (hle.trans (by simp)) hrun
  | starDone _ _ =>
      cases hout
      exact .refl
  | _ => cases hrule <;> cases hout

/-- A repetition that reads byte by byte, up to a place where its body fails. -/
theorem Run.star_complete {body : Rule ν} {P : UInt8 → Prop} {rest : Bytes}
    (hbyte : ∀ b more, P b → ∃ trace, Run G body (b :: more) (.ok more) trace)
    (hstop : ∃ trace, Run G body rest .fail trace) {text : Bytes} (htext : ∀ b ∈ text, P b) :
    ∃ trace, Run G (.star body) (text ++ rest) (.ok rest) trace := by
  induction text with
  | nil =>
      obtain ⟨trace, hstop⟩ := hstop
      exact ⟨trace, .starDone hstop⟩
  | cons b text ih =>
      obtain ⟨_, hmore⟩ := ih fun c hc => htext c (List.mem_cons_of_mem b hc)
      obtain ⟨_, hfirst⟩ := hbyte b (text ++ rest) (htext b List.mem_cons_self)
      exact ⟨_, .starNext hfirst hmore⟩

/-! ## Languages

What an expression matches is put together from what its parts match. -/

/-- Every match of the expression spans a text with the property. -/
def Spans (G : ν → Rule ν) (rule : Rule ν) (P : Bytes → Prop) : Prop :=
  ∀ input rest trace, Run G rule input (.ok rest) trace → ∃ text, input = text ++ rest ∧ P text

namespace Spans

variable {P Q R : Bytes → Prop} {first second body : Rule ν}

theorem mono (h : Spans G body P) (himp : ∀ text, P text → Q text) : Spans G body Q := by
  intro input rest trace hrun
  obtain ⟨text, hinput, htext⟩ := h input rest trace hrun
  exact ⟨text, hinput, himp text htext⟩

theorem byte {accepts : UInt8 → Bool} (h : ∀ b, accepts b = true → P [b]) :
    Spans G (.byte accepts) P := by
  intro input rest trace hrun
  obtain ⟨b, hb, rfl, -⟩ := hrun.byte_ok
  exact ⟨[b], rfl, h b hb⟩

theorem success (h : P []) : Spans G .success P := by
  intro input rest trace hrun
  obtain ⟨rfl, -⟩ := hrun.success_ok
  exact ⟨[], rfl, h⟩

theorem sor (h₁ : Spans G first P) (h₂ : Spans G second P) : Spans G (.sor first second) P := by
  intro input rest trace hrun
  rcases hrun.sor_ok with hfirst | ⟨_, _, -, hsecond, -⟩
  · exact h₁ input rest _ hfirst
  · exact h₂ input rest _ hsecond

theorem sorOf {rule : Rule ν} {rules : List (Rule ν)} (h : ∀ r ∈ rule :: rules, Spans G r P) :
    Spans G (.sorOf rule rules) P := by
  induction rules generalizing rule with
  | nil => exact h rule (List.mem_singleton_self rule)
  | cons next rules ih =>
      refine sor (h rule List.mem_cons_self) (ih ?_)
      intro r hr
      exact h r (List.mem_cons_of_mem rule hr)

theorem ref {name : ν} (h : Spans G (G name) P) : Spans G (.ref name) P := by
  intro input rest trace hrun
  obtain ⟨inner, hbody, -⟩ := hrun.ref_ok
  exact h input rest inner hbody

theorem any (rule : Rule ν) : Spans G rule fun _ => True := by
  intro input rest trace hrun
  obtain ⟨text, hinput⟩ := hrun.suffix
  exact ⟨text, hinput, trivial⟩

theorem seq (happend : ∀ left right, P left → Q right → R (left ++ right))
    (h₁ : Spans G first P) (h₂ : Spans G second Q) : Spans G (.seq first second) R := by
  intro input rest trace hrun
  obtain ⟨middle, _, _, hfirst, hsecond, -⟩ := hrun.seq_ok
  obtain ⟨left, rfl, hleft⟩ := h₁ _ _ _ hfirst
  obtain ⟨right, rfl, hright⟩ := h₂ _ _ _ hsecond
  exact ⟨left ++ right, (List.append_assoc ..).symm, happend left right hleft hright⟩

theorem star (hnil : P []) (happend : ∀ left right, P left → P right → P (left ++ right))
    (h : Spans G body P) : Spans G (.star body) P := by
  intro input rest trace hrun
  refine Run.star_induction hnil ?_ hrun
  intro text middle trace more hbody hmore
  obtain ⟨text', htext, hP⟩ := h _ _ _ hbody
  obtain rfl : text = text' := List.append_cancel_right htext
  exact happend text more hP hmore

theorem plus (hnil : P []) (happend : ∀ left right, P left → P right → P (left ++ right))
    (h : Spans G body P) : Spans G (Rule.plus body) P :=
  h.seq happend (h.star hnil happend)

end Spans

end RdfParser.Peg
