/-
  Peg/Occurs.lean --- the matches inside of a match.

  A match is made of matches of other expressions.  Of a name it is of interest where the
  document has been read by it: what was left when its match began and when it ended.
-/
import RdfParser.Peg.Kept

set_option autoImplicit false

namespace RdfParser.Peg

open RdfParser.Foundation

variable {ν : Type}

/-- The match of an expression on the first input that leaves the second one contains a
match of `name` on `start` that leaves `stop`. -/
inductive Occurs (G : ν → Rule ν) (name : ν) (start stop : Bytes) :
    Rule ν → Bytes → Bytes → Prop where
  | here {k : Trace ν} (h : Keeps G (.ref name) start stop k) :
      Occurs G name start stop (.ref name) start stop
  | seqFirst {first second : Rule ν} {input middle rest : Bytes} {k : Trace ν}
      (h : Occurs G name start stop first input middle) (hsecond : Keeps G second middle rest k) :
      Occurs G name start stop (.seq first second) input rest
  | seqSecond {first second : Rule ν} {input middle rest : Bytes} {k : Trace ν}
      (hfirst : Keeps G first input middle k) (h : Occurs G name start stop second middle rest) :
      Occurs G name start stop (.seq first second) input rest
  | sorFirst {first second : Rule ν} {input rest : Bytes}
      (h : Occurs G name start stop first input rest) :
      Occurs G name start stop (.sor first second) input rest
  | sorSecond {first second : Rule ν} {input rest : Bytes} {t : Trace ν}
      (hfirst : Run G first input .fail t) (h : Occurs G name start stop second input rest) :
      Occurs G name start stop (.sor first second) input rest
  | starFirst {body : Rule ν} {input middle rest : Bytes} {k : Trace ν}
      (h : Occurs G name start stop body input middle)
      (hmore : Keeps G (.star body) middle rest k) :
      Occurs G name start stop (.star body) input rest
  | starMore {body : Rule ν} {input middle rest : Bytes} {k : Trace ν}
      (hfirst : Keeps G body input middle k)
      (h : Occurs G name start stop (.star body) middle rest) :
      Occurs G name start stop (.star body) input rest
  | must {body : Rule ν} {input rest : Bytes} (h : Occurs G name start stop body input rest) :
      Occurs G name start stop (.must body) input rest
  | ref {other : ν} {input rest : Bytes} (h : Occurs G name start stop (G other) input rest) :
      Occurs G name start stop (.ref other) input rest

section Occurs

variable {G : ν → Rule ν} {name : ν} {start stop input rest : Bytes} {rule : Rule ν}

/-- The surrounding match. -/
theorem Occurs.keeps (h : Occurs G name start stop rule input rest) :
    ∃ k, Keeps G rule input rest k := by
  induction h with
  | here h => exact ⟨_, h⟩
  | seqFirst _ hsecond ih =>
      obtain ⟨k, hk⟩ := ih
      exact ⟨_, .seq hk hsecond⟩
  | seqSecond hfirst _ ih =>
      obtain ⟨k, hk⟩ := ih
      exact ⟨_, .seq hfirst hk⟩
  | sorFirst _ ih =>
      obtain ⟨k, hk⟩ := ih
      exact ⟨_, .sorFirst hk⟩
  | sorSecond hfirst _ ih =>
      obtain ⟨k, hk⟩ := ih
      exact ⟨_, .sorSecond hfirst hk⟩
  | starFirst _ hmore ih =>
      obtain ⟨k, hk⟩ := ih
      exact ⟨_, .starNext hk hmore⟩
  | starMore hfirst _ ih =>
      obtain ⟨k, hk⟩ := ih
      exact ⟨_, .starNext hfirst hk⟩
  | must _ ih =>
      obtain ⟨k, hk⟩ := ih
      exact ⟨_, .must hk⟩
  | ref _ ih =>
      obtain ⟨k, hk⟩ := ih
      exact ⟨_, .ref hk⟩

/-- The match inside. -/
theorem Occurs.inner (h : Occurs G name start stop rule input rest) :
    ∃ k, Keeps G (.ref name) start stop k := by
  induction h with
  | here h => exact ⟨_, h⟩
  | _ => assumption

/-- It lies between the beginning and the end. -/
theorem Occurs.within (h : Occurs G name start stop rule input rest) :
    (∃ before, input = before ++ start) ∧ ∃ after, stop = after ++ rest := by
  induction h with
  | here _ => exact ⟨⟨[], rfl⟩, ⟨[], rfl⟩⟩
  | seqFirst _ hafter ih | starFirst _ hafter ih =>
      obtain ⟨hbefore, after, rfl⟩ := ih
      obtain ⟨more, rfl⟩ := hafter.suffix
      exact ⟨hbefore, after ++ more, (List.append_assoc ..).symm⟩
  | seqSecond hfirst _ ih | starMore hfirst _ ih =>
      obtain ⟨⟨before, rfl⟩, hafter⟩ := ih
      obtain ⟨more, rfl⟩ := hfirst.suffix
      exact ⟨⟨more ++ before, (List.append_assoc ..).symm⟩, hafter⟩
  | sorFirst _ ih | sorSecond _ _ ih | must _ ih | ref _ ih => exact ih

/-- The expression leads to the name. -/
theorem Occurs.names {S : ν → Prop} (hclosed : ∀ name, S name → ∀ other ∈ (G name).names, S other)
    (h : Occurs G name start stop rule input rest) (hrule : ∀ name ∈ rule.names, S name) :
    S name := by
  induction h with
  | here _ => exact hrule name (by simp [Rule.names])
  | seqFirst _ _ ih | sorFirst _ ih =>
      exact ih fun name hname => hrule name (List.mem_append_left _ hname)
  | seqSecond _ _ ih | sorSecond _ _ ih =>
      exact ih fun name hname => hrule name (List.mem_append_right _ hname)
  | starFirst _ _ ih | starMore _ _ ih | must _ ih => exact ih hrule
  | @ref other _ _ _ ih => exact ih (hclosed other (hrule other (by simp [Rule.names])))

/-! ## Taking it apart -/

/-- In a sequence it lies on one side of the place where the first part ends. -/
theorem Occurs.seq_at {first second : Rule ν} {middle : Bytes} {k : Trace ν}
    (h : Occurs G name start stop (.seq first second) input rest)
    (hfirst : Keeps G first input middle k) :
    Occurs G name start stop first input middle ∨ Occurs G name start stop second middle rest := by
  cases h with
  | seqFirst h _ =>
      obtain ⟨_, hk⟩ := h.keeps
      obtain ⟨rfl, -⟩ := hk.unique hfirst
      exact .inl h
  | seqSecond hk h =>
      obtain ⟨rfl, -⟩ := hk.unique hfirst
      exact .inr h

theorem Occurs.ref_inv {other : ν} (h : Occurs G name start stop (.ref other) input rest) :
    (name = other ∧ start = input ∧ stop = rest) ∨
      Occurs G name start stop (G other) input rest := by
  cases h with
  | here _ => exact .inl ⟨rfl, rfl, rfl⟩
  | ref h => exact .inr h

theorem Occurs.not_token (hrule : rule.isToken = true) :
    ¬ Occurs G name start stop rule input rest := by
  rintro (_ | _ | _ | _ | _ | _ | _ | _ | _) <;> cases hrule

end Occurs

end RdfParser.Peg
