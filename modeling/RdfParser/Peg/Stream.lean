/-
  Peg/Stream.lean --- matching on an input that is read through a buffer.

  On a stream only the unread bytes and what has been read since the last discard are
  in memory.  A rule that may have to go back saves the place in the buffer at which it
  began; discarding moves the unread bytes to the front of the buffer and leaves the
  saved places as they are.  So a place that was saved before a discard denotes
  something else afterwards: to go back to it is to lose the input, and an action that
  is told where its text began sees other bytes.

  `Streams` follows a match like `Run`, with the offset of the buffer in the document.
-/
import RdfParser.Peg.Consumed

set_option autoImplicit false

namespace RdfParser.Peg

open RdfParser.Foundation

variable {ν : Type}

/-! ## Buffers -/

/-- A document that is read through a buffer: the rules with an action, which save the
place where they begin, the rules after which the buffer is discarded, and how much has
to be read before a discard moves anything. -/
structure Buffering (ν : Type) where
  document : Bytes
  saves : ν → Bool
  discards : ν → Bool
  chunk : Nat

/-- How matching on a stream ends: as on a string, or after going back to a place that
the buffer no longer holds. -/
inductive Streamed where
  | matched (outcome : Outcome)
  | lost
  deriving DecidableEq, Repr

/-- A failure goes back to a place saved when the buffer began at `start`; now it begins
at `start'`. -/
def Streamed.restore (start start' : Nat) : Streamed → Streamed
  | .matched .fail => if start' = start then .matched .fail else .lost
  | out => out

/-- `must` on a stream. -/
def Streamed.escalate : Streamed → Streamed
  | .matched outcome => .matched outcome.escalate
  | .lost => .lost

/-- An action: its rule, the text the rule has matched, and the text that the action is
given. -/
structure Call (ν : Type) where
  name : ν
  text : Bytes
  seen : Option Bytes

/-- Every action is given the text its rule has matched. -/
def Faithful (calls : List (Call ν)) : Prop := ∀ call ∈ calls, call.seen = some call.text

namespace Buffering

variable (b : Buffering ν)

/-- How much of the document has been read. -/
def offset (input : Bytes) : Nat := b.document.length - input.length

/-- The new beginning of the buffer: a discard moves the unread bytes if more than a
chunk has been read. -/
def discard (start : Nat) (input : Bytes) : Nat :=
  if start + b.chunk < b.offset input then b.offset input else start

/-- The bytes between the place saved at the beginning of a match and the end of the
match, as they lie in the buffer; nothing if the saved place comes after the end. -/
def seen (start start' : Nat) (input rest : Bytes) : Option Bytes :=
  let first := b.offset input - start
  let last := b.offset rest - start'
  if first ≤ last then some ((b.document.drop (start' + first)).take (last - first)) else none

/-- The action of a rule that has matched. -/
def call (name : ν) (start start' : Nat) (input : Bytes) : Streamed → List (Call ν)
  | .matched (.ok rest) =>
      if b.saves name then [⟨name, consumed input rest, b.seen start start' input rest⟩] else []
  | _ => []

/-- The end of a rule: one with an action goes back if it has failed. -/
def close (name : ν) (start start' : Nat) (out : Streamed) : Streamed :=
  if b.saves name then out.restore start start' else out

/-- The beginning of the buffer after a rule. -/
def after (name : ν) (start : Nat) (input : Bytes) : Streamed → Nat
  | .matched (.ok rest) => if b.discards name then b.discard start rest else start
  | .matched .fail => if b.discards name then b.discard start input else start
  | _ => start

end Buffering

/-! ## The matching relation -/

/-- Matching `rule` at the front of `input`, where the buffer begins at the first number
and in the end at the second one. -/
inductive Streams (b : Buffering ν) (G : ν → Rule ν) :
    Rule ν → Nat → Bytes → Streamed → Nat → List (Call ν) → Prop where
  | token {rule : Rule ν} {start : Nat} {input : Bytes} {outcome : Outcome}
      (hrule : rule.isToken = true) (h : Run G rule input outcome []) :
      Streams b G rule start input (.matched outcome) start []
  | seqNext {first second : Rule ν} {start start₁ start₂ : Nat} {input middle : Bytes}
      {out : Streamed} {calls₁ calls₂ : List (Call ν)}
      (h₁ : Streams b G first start input (.matched (.ok middle)) start₁ calls₁)
      (h₂ : Streams b G second start₁ middle out start₂ calls₂) :
      Streams b G (.seq first second) start input (out.restore start start₂) start₂
        (calls₁ ++ calls₂)
  | seqStop {first second : Rule ν} {start start₁ : Nat} {input : Bytes} {out : Streamed}
      {calls : List (Call ν)} (h : Streams b G first start input out start₁ calls)
      (hstop : ∀ rest, out ≠ .matched (.ok rest)) :
      Streams b G (.seq first second) start input (out.restore start start₁) start₁ calls
  | sorStop {first second : Rule ν} {start start₁ : Nat} {input : Bytes} {out : Streamed}
      {calls : List (Call ν)} (h : Streams b G first start input out start₁ calls)
      (hstop : out ≠ .matched .fail) :
      Streams b G (.sor first second) start input out start₁ calls
  | sorNext {first second : Rule ν} {start start₁ start₂ : Nat} {input : Bytes}
      {out : Streamed} {calls₁ calls₂ : List (Call ν)}
      (h₁ : Streams b G first start input (.matched .fail) start₁ calls₁)
      (h₂ : Streams b G second start₁ input out start₂ calls₂) :
      Streams b G (.sor first second) start input out start₂ (calls₁ ++ calls₂)
  | starNext {body : Rule ν} {start start₁ start₂ : Nat} {input middle : Bytes}
      {out : Streamed} {calls₁ calls₂ : List (Call ν)}
      (h₁ : Streams b G body start input (.matched (.ok middle)) start₁ calls₁)
      (h₂ : Streams b G (.star body) start₁ middle out start₂ calls₂) :
      Streams b G (.star body) start input out start₂ (calls₁ ++ calls₂)
  | starDone {body : Rule ν} {start : Nat} {input : Bytes} {calls : List (Call ν)}
      (h : Streams b G body start input (.matched .fail) start calls) :
      Streams b G (.star body) start input (.matched (.ok input)) start calls
  | starLost {body : Rule ν} {start start₁ : Nat} {input : Bytes} {calls : List (Call ν)}
      (h : Streams b G body start input (.matched .fail) start₁ calls)
      (hmoved : start₁ ≠ start) :
      Streams b G (.star body) start input .lost start₁ calls
  | starStop {body : Rule ν} {start start₁ : Nat} {input : Bytes} {out : Streamed}
      {calls : List (Call ν)} (h : Streams b G body start input out start₁ calls)
      (hstop : out = .matched .error ∨ out = .lost) :
      Streams b G (.star body) start input out start₁ calls
  | must {body : Rule ν} {start start₁ : Nat} {input : Bytes} {out : Streamed}
      {calls : List (Call ν)} (h : Streams b G body start input out start₁ calls) :
      Streams b G (.must body) start input out.escalate start₁ calls
  | ref {name : ν} {start start₁ : Nat} {input : Bytes} {out : Streamed}
      {calls : List (Call ν)} (h : Streams b G (G name) start input out start₁ calls) :
      Streams b G (.ref name) start input (b.close name start start₁ out)
        (b.after name start₁ input (b.close name start start₁ out))
        (calls ++ b.call name start start₁ input out)

/-! ## Restoring -/

theorem Streamed.restore_same (start : Nat) (out : Streamed) : out.restore start start = out := by
  cases out with
  | lost => rfl
  | matched outcome => cases outcome <;> simp [restore]

/-- What is not lost by going back was not lost before. -/
theorem Streamed.of_restore {start start' : Nat} {out : Streamed} {outcome : Outcome}
    (h : out.restore start start' = .matched outcome) :
    out = .matched outcome ∧ (outcome = .fail → start' = start) := by
  cases out with
  | lost => cases h
  | matched outcome' =>
      cases outcome' with
      | fail =>
          by_cases hsame : start' = start
          · simp only [restore, if_pos hsame, matched.injEq] at h
            exact ⟨by rw [h], fun _ => hsame⟩
          · simp only [restore, if_neg hsame, reduceCtorEq] at h
      | ok rest | error =>
          simp only [restore, matched.injEq] at h
          subst h
          exact ⟨rfl, by simp⟩

theorem Buffering.of_close {b : Buffering ν} {name : ν} {start start' : Nat} {out : Streamed}
    {outcome : Outcome} (h : b.close name start start' out = .matched outcome) :
    out = .matched outcome ∧ (b.saves name = true → outcome = .fail → start' = start) := by
  unfold close at h
  split at h
  · obtain ⟨hout, hsame⟩ := Streamed.of_restore h
    exact ⟨hout, fun _ => hsame⟩
  · rename_i hsaves
    exact ⟨h, fun htrue => absurd htrue hsaves⟩

/-! ### Inversion -/

theorem Streams.ref_matched {b : Buffering ν} {G : ν → Rule ν} {name : ν} {start start' : Nat}
    {input : Bytes} {outcome : Outcome} {calls : List (Call ν)}
    (h : Streams b G (.ref name) start input (.matched outcome) start' calls) :
    ∃ start₁ calls₁, Streams b G (G name) start input (.matched outcome) start₁ calls₁ ∧
      (b.saves name = true → outcome = .fail → start₁ = start) ∧
      start' = b.after name start₁ input (.matched outcome) ∧
      calls = calls₁ ++ b.call name start start₁ input (.matched outcome) := by
  obtain ⟨out, hout⟩ : ∃ out, out = Streamed.matched outcome := ⟨_, rfl⟩
  rw [← hout] at h
  cases h with
  | token hrule _ => cases hrule
  | ref h =>
      obtain ⟨rfl, hsame⟩ := Buffering.of_close hout
      exact ⟨_, _, h, hsame, by rw [hout], rfl⟩

theorem Streams.seq_matched {b : Buffering ν} {G : ν → Rule ν} {first second : Rule ν}
    {start start' : Nat} {input : Bytes} {outcome : Outcome} {calls : List (Call ν)}
    (h : Streams b G (.seq first second) start input (.matched outcome) start' calls) :
    (∃ middle start₁ calls₁ calls₂,
      Streams b G first start input (.matched (.ok middle)) start₁ calls₁ ∧
      Streams b G second start₁ middle (.matched outcome) start' calls₂ ∧
      (outcome = .fail → start' = start) ∧ calls = calls₁ ++ calls₂) ∨
    Streams b G first start input (.matched outcome) start' calls ∧
      (∀ rest, outcome ≠ .ok rest) := by
  obtain ⟨out, hout⟩ : ∃ out, out = Streamed.matched outcome := ⟨_, rfl⟩
  rw [← hout] at h
  cases h with
  | token hrule _ => cases hrule
  | seqNext h₁ h₂ =>
      obtain ⟨rfl, hsame⟩ := Streamed.of_restore hout
      exact .inl ⟨_, _, _, _, h₁, h₂, hsame, rfl⟩
  | seqStop h hstop =>
      obtain ⟨rfl, -⟩ := Streamed.of_restore hout
      exact .inr ⟨h, fun rest heq => hstop rest (congrArg Streamed.matched heq)⟩

theorem Streams.sor_matched {b : Buffering ν} {G : ν → Rule ν} {first second : Rule ν}
    {start start' : Nat} {input : Bytes} {outcome : Outcome} {calls : List (Call ν)}
    (h : Streams b G (.sor first second) start input (.matched outcome) start' calls) :
    (Streams b G first start input (.matched outcome) start' calls ∧ outcome ≠ .fail) ∨
    ∃ start₁ calls₁ calls₂, Streams b G first start input (.matched .fail) start₁ calls₁ ∧
      Streams b G second start₁ input (.matched outcome) start' calls₂ ∧
      calls = calls₁ ++ calls₂ := by
  cases h with
  | token hrule _ => cases hrule
  | sorStop h hstop => exact .inl ⟨h, fun heq => hstop (congrArg Streamed.matched heq)⟩
  | sorNext h₁ h₂ => exact .inr ⟨_, _, _, h₁, h₂, rfl⟩

theorem Streams.must_matched {b : Buffering ν} {G : ν → Rule ν} {body : Rule ν}
    {start start' : Nat} {input : Bytes} {outcome : Outcome} {calls : List (Call ν)}
    (h : Streams b G (.must body) start input (.matched outcome) start' calls) :
    ∃ outcome', Streams b G body start input (.matched outcome') start' calls ∧
      outcome = outcome'.escalate := by
  obtain ⟨out, hout⟩ : ∃ out, out = Streamed.matched outcome := ⟨_, rfl⟩
  rw [← hout] at h
  cases h with
  | token hrule _ => cases hrule
  | @must _ _ _ _ out _ h =>
      cases out with
      | lost => cases hout
      | matched outcome' => exact ⟨outcome', h, (Streamed.matched.inj hout).symm⟩

/-- `must` has no local failure. -/
theorem Streams.must_ne_fail {b : Buffering ν} {G : ν → Rule ν} {body : Rule ν}
    {start start' : Nat} {input : Bytes} {outcome : Outcome} {calls : List (Call ν)}
    (h : Streams b G (.must body) start input (.matched outcome) start' calls) :
    outcome ≠ .fail := by
  obtain ⟨outcome', -, rfl⟩ := h.must_matched
  cases outcome' <;> simp

/-! ## A match that is not lost is a match of the document -/

/-- The actions with the texts of their rules. -/
def Call.entry (call : Call ν) : ν × Bytes := (call.name, call.text)

theorem Streams.run {b : Buffering ν} {G : ν → Rule ν} {rule : Rule ν} {start start' : Nat}
    {input : Bytes} {out : Streamed} {calls : List (Call ν)}
    (h : Streams b G rule start input out start' calls) {outcome : Outcome}
    (hout : out = .matched outcome) :
    ∃ t, Run G rule input outcome t ∧ calls.map Call.entry = t.filter (b.saves ·.1) := by
  induction h generalizing outcome with
  | token _ h =>
      cases hout
      exact ⟨[], h, rfl⟩
  | seqNext _ _ ih₁ ih₂ =>
      obtain ⟨t₁, hrun₁, hcalls₁⟩ := ih₁ rfl
      obtain ⟨t₂, hrun₂, hcalls₂⟩ := ih₂ (Streamed.of_restore hout).1
      refine ⟨t₁ ++ t₂, .seqNext hrun₁ hrun₂, ?_⟩
      rw [List.map_append, hcalls₁, hcalls₂, List.filter_append]
  | seqStop _ hstop ih =>
      have hsame := (Streamed.of_restore hout).1
      obtain ⟨t, hrun, hcalls⟩ := ih hsame
      refine ⟨t, .seqStop hrun ?_, hcalls⟩
      rintro rest rfl
      exact hstop rest hsame
  | sorStop _ hstop ih =>
      obtain ⟨t, hrun, hcalls⟩ := ih hout
      refine ⟨t, .sorStop hrun ?_, hcalls⟩
      rintro rfl
      exact hstop hout
  | sorNext _ _ ih₁ ih₂ =>
      obtain ⟨t₁, hrun₁, hcalls₁⟩ := ih₁ rfl
      obtain ⟨t₂, hrun₂, hcalls₂⟩ := ih₂ hout
      refine ⟨t₁ ++ t₂, .sorNext hrun₁ hrun₂, ?_⟩
      rw [List.map_append, hcalls₁, hcalls₂, List.filter_append]
  | starNext _ _ ih₁ ih₂ =>
      obtain ⟨t₁, hrun₁, hcalls₁⟩ := ih₁ rfl
      obtain ⟨t₂, hrun₂, hcalls₂⟩ := ih₂ hout
      refine ⟨t₁ ++ t₂, .starNext hrun₁ hrun₂, ?_⟩
      rw [List.map_append, hcalls₁, hcalls₂, List.filter_append]
  | starDone _ ih =>
      cases hout
      obtain ⟨t, hrun, hcalls⟩ := ih rfl
      exact ⟨t, .starDone hrun, hcalls⟩
  | starLost _ _ _ => cases hout
  | starStop _ hstop ih =>
      obtain ⟨t, hrun, hcalls⟩ := ih hout
      rcases hstop with herror | hlost
      · rw [herror] at hout
        cases hout
        exact ⟨t, .starError hrun, hcalls⟩
      · rw [hlost] at hout
        cases hout
  | @must _ _ _ _ out _ _ ih =>
      cases out with
      | lost => cases hout
      | matched outcome' =>
          obtain ⟨t, hrun, hcalls⟩ := ih rfl
          cases hout
          exact ⟨t, .must hrun, hcalls⟩
  | @ref name start start₁ input out calls _ ih =>
      obtain ⟨hsame, -⟩ := Buffering.of_close hout
      obtain ⟨t, hrun, hcalls⟩ := ih hsame
      refine ⟨_, .ref hrun, ?_⟩
      rw [List.map_append, hcalls, List.filter_append, hsame]
      congr 1
      cases outcome with
      | ok rest =>
          simp only [Buffering.call, closing]
          cases hsaves : b.saves name <;> simp [hsaves, Call.entry]
      | fail | error => rfl

/-! ## A match without a discard -/

/-- While the buffer stays where it is, a saved place denotes what it denoted. -/
theorem Buffering.seen_same {b : Buffering ν} {start : Nat} {text rest : Bytes}
    (hinput : text ++ rest <:+ b.document) (hstart : start ≤ b.offset (text ++ rest)) :
    b.seen start start (text ++ rest) rest = some text := by
  obtain ⟨before, hdocument⟩ := hinput
  have hfirst : b.offset (text ++ rest) = before.length := by
    unfold offset
    rw [← hdocument, List.length_append]
    omega
  have hlast : b.offset rest = before.length + text.length := by
    unfold offset
    rw [← hdocument, List.length_append, List.length_append]
    omega
  unfold seen
  simp only
  rw [hfirst] at hstart ⊢
  rw [hlast, if_pos (by omega)]
  have hdrop : start + (before.length - start) = before.length := by omega
  have htake : before.length + text.length - start - (before.length - start) = text.length := by
    omega
  rw [hdrop, htake, ← hdocument, List.drop_left, List.take_left]

/-- The place of what is left after a match. -/
theorem Run.offset_le {b : Buffering ν} {G : ν → Rule ν} {rule : Rule ν} {input rest : Bytes}
    {t : Trace ν} (h : Run G rule input (.ok rest) t) (hinput : input <:+ b.document) :
    rest <:+ b.document ∧ b.offset input ≤ b.offset rest := by
  obtain ⟨text, rfl⟩ := h.suffix
  refine ⟨(List.suffix_append text rest).trans hinput, ?_⟩
  unfold Buffering.offset
  rw [List.length_append]
  omega

theorem Faithful.append {left right : List (Call ν)} (hl : Faithful left) (hr : Faithful right) :
    Faithful (left ++ right) := by
  intro call hcall
  rcases List.mem_append.mp hcall with h | h
  · exact hl call h
  · exact hr call h

theorem Faithful.left {left right : List (Call ν)} (h : Faithful (left ++ right)) :
    Faithful left :=
  fun call hcall => h call (List.mem_append_left _ hcall)

theorem Faithful.right {left right : List (Call ν)} (h : Faithful (left ++ right)) :
    Faithful right :=
  fun call hcall => h call (List.mem_append_right _ hcall)

theorem Faithful.nil : Faithful ([] : List (Call ν)) := by simp [Faithful]

/-- The action of a rule during which the buffer has stayed where it is. -/
theorem Buffering.call_faithful {b : Buffering ν} {G : ν → Rule ν} {rule : Rule ν} (name : ν)
    {start : Nat} {input : Bytes} {outcome : Outcome} {t : Trace ν}
    (h : Run G rule input outcome t) (hinput : input <:+ b.document)
    (hstart : start ≤ b.offset input) :
    Faithful (b.call name start start input (.matched outcome)) := by
  cases outcome with
  | fail | error => exact Faithful.nil
  | ok rest =>
      obtain ⟨text, rfl⟩ := h.suffix
      intro entry hentry
      simp only [call] at hentry
      by_cases hsaves : b.saves name = true
      · rw [if_pos hsaves, List.mem_singleton] at hentry
        rw [hentry, seen_same hinput hstart, consumed_append]
      · rw [if_neg hsaves] at hentry
        cases hentry

theorem Buffering.close_same {b : Buffering ν} (name : ν) (start : Nat) (out : Streamed) :
    b.close name start start out = out := by
  unfold close
  split
  · exact Streamed.restore_same start out
  · rfl

/-- A match in which nothing is discarded is the same on a stream. -/
theorem Run.streams {b : Buffering ν} {G : ν → Rule ν} {S : ν → Bool}
    (hclosed : ∀ name, S name = true → ∀ other ∈ (G name).names, S other = true)
    (hquiet : ∀ name, S name = true → b.discards name = false) {rule : Rule ν} {input : Bytes}
    {outcome : Outcome} {t : Trace ν} (h : Run G rule input outcome t)
    (hrule : ∀ name ∈ rule.names, S name = true) {start : Nat} (hinput : input <:+ b.document)
    (hstart : start ≤ b.offset input) :
    ∃ calls, Streams b G rule start input (.matched outcome) start calls ∧ Faithful calls := by
  induction h with
  | byteOk h => exact ⟨[], .token rfl (.byteOk h), Faithful.nil⟩
  | byteFail h => exact ⟨[], .token rfl (.byteFail h), Faithful.nil⟩
  | codePointOk hpeek h => exact ⟨[], .token rfl (.codePointOk hpeek h), Faithful.nil⟩
  | codePointFail h => exact ⟨[], .token rfl (.codePointFail h), Faithful.nil⟩
  | eofOk => exact ⟨[], .token rfl .eofOk, Faithful.nil⟩
  | eofFail h => exact ⟨[], .token rfl (.eofFail h), Faithful.nil⟩
  | success => exact ⟨[], .token rfl .success, Faithful.nil⟩
  | seqNext h₁ _ ih₁ ih₂ =>
      obtain ⟨hmiddle, hle⟩ := h₁.offset_le hinput
      obtain ⟨_, hfirst, hfaithful₁⟩ :=
        ih₁ (fun name hname => hrule name (List.mem_append_left _ hname)) hinput hstart
      obtain ⟨_, hsecond, hfaithful₂⟩ :=
        ih₂ (fun name hname => hrule name (List.mem_append_right _ hname)) hmiddle
          (hstart.trans hle)
      have hseq := Streams.seqNext hfirst hsecond
      rw [Streamed.restore_same] at hseq
      exact ⟨_, hseq, hfaithful₁.append hfaithful₂⟩
  | @seqStop first second _ _ _ _ hstop ih =>
      obtain ⟨_, hfirst, hfaithful⟩ :=
        ih (fun name hname => hrule name (List.mem_append_left _ hname)) hinput hstart
      have hseq : Streams b G (.seq first second) start _ _ start _ :=
        .seqStop hfirst fun rest heq => hstop rest (Streamed.matched.inj heq)
      rw [Streamed.restore_same] at hseq
      exact ⟨_, hseq, hfaithful⟩
  | sorStop _ hstop ih =>
      obtain ⟨_, hfirst, hfaithful⟩ :=
        ih (fun name hname => hrule name (List.mem_append_left _ hname)) hinput hstart
      exact ⟨_, .sorStop hfirst fun heq => hstop (Streamed.matched.inj heq), hfaithful⟩
  | sorNext _ _ ih₁ ih₂ =>
      obtain ⟨_, hfirst, hfaithful₁⟩ :=
        ih₁ (fun name hname => hrule name (List.mem_append_left _ hname)) hinput hstart
      obtain ⟨_, hsecond, hfaithful₂⟩ :=
        ih₂ (fun name hname => hrule name (List.mem_append_right _ hname)) hinput hstart
      exact ⟨_, .sorNext hfirst hsecond, hfaithful₁.append hfaithful₂⟩
  | starNext h₁ _ ih₁ ih₂ =>
      obtain ⟨hmiddle, hle⟩ := h₁.offset_le hinput
      obtain ⟨_, hfirst, hfaithful₁⟩ := ih₁ hrule hinput hstart
      obtain ⟨_, hsecond, hfaithful₂⟩ := ih₂ hrule hmiddle (hstart.trans hle)
      exact ⟨_, .starNext hfirst hsecond, hfaithful₁.append hfaithful₂⟩
  | starDone _ ih =>
      obtain ⟨_, hbody, hfaithful⟩ := ih hrule hinput hstart
      exact ⟨_, .starDone hbody, hfaithful⟩
  | starError _ ih =>
      obtain ⟨_, hbody, hfaithful⟩ := ih hrule hinput hstart
      exact ⟨_, .starStop hbody (.inl rfl), hfaithful⟩
  | must _ ih =>
      obtain ⟨_, hbody, hfaithful⟩ := ih hrule hinput hstart
      exact ⟨_, .must hbody, hfaithful⟩
  | @ref name input outcome t h ih =>
      have hname : S name = true := hrule name (by simp [Rule.names])
      obtain ⟨_, hbody, hfaithful⟩ := ih (hclosed name hname) hinput hstart
      have hcall := Buffering.call_faithful name h hinput hstart
      have href := Streams.ref hbody
      rw [Buffering.close_same] at href
      have hafter : b.after name start input (.matched outcome) = start := by
        unfold Buffering.after
        rw [hquiet name hname]
        cases outcome <;> rfl
      rw [hafter] at href
      exact ⟨_, href, hfaithful.append hcall⟩

/-! ## What a discard does -/

theorem Buffering.le_discard (b : Buffering ν) (start : Nat) (input : Bytes) :
    start ≤ b.discard start input := by
  unfold discard
  split <;> omega

/-- A discard that moves nothing comes within a chunk. -/
theorem Buffering.offset_le_of_discard {b : Buffering ν} {start : Nat} {input : Bytes}
    (h : b.discard start input ≤ start) : b.offset input ≤ start + b.chunk := by
  unfold discard at h
  split at h <;> omega

theorem Buffering.discard_of_le {b : Buffering ν} {start : Nat} {input : Bytes}
    (h : b.offset input ≤ start + b.chunk) : b.discard start input = start := by
  unfold discard
  rw [if_neg (by omega)]

/-- After a discard what has been read since is at most a chunk. -/
theorem Buffering.offset_le_discard (b : Buffering ν) (start : Nat) (input : Bytes) :
    b.offset input ≤ b.discard start input + b.chunk := by
  unfold discard
  split <;> omega

/-- A discard does not go beyond what has been read. -/
theorem Buffering.discard_le_offset {b : Buffering ν} {start : Nat} {input : Bytes}
    (h : start ≤ b.offset input) : b.discard start input ≤ b.offset input := by
  unfold discard
  split
  · exact le_rfl
  · exact h

theorem Buffering.le_after (b : Buffering ν) (name : ν) (start : Nat) (input : Bytes)
    (out : Streamed) : start ≤ b.after name start input out := by
  unfold after
  split
  · split
    · exact b.le_discard _ _
    · exact le_rfl
  · split
    · exact b.le_discard _ _
    · exact le_rfl
  · exact le_rfl

/-- The buffer only moves forward. -/
theorem Streams.start_le {b : Buffering ν} {G : ν → Rule ν} {rule : Rule ν} {start start' : Nat}
    {input : Bytes} {out : Streamed} {calls : List (Call ν)}
    (h : Streams b G rule start input out start' calls) : start ≤ start' := by
  induction h with
  | token _ _ | starDone _ _ => exact le_rfl
  | seqNext _ _ ih₁ ih₂ | sorNext _ _ ih₁ ih₂ | starNext _ _ ih₁ ih₂ => exact ih₁.trans ih₂
  | seqStop _ _ ih | sorStop _ _ ih | starLost _ _ ih | starStop _ _ ih | must _ ih => exact ih
  | ref _ ih => exact ih.trans (b.le_after _ _ _ _)

/-- Without a discard it stays where it is. -/
theorem Streams.start_eq {b : Buffering ν} {G : ν → Rule ν} {S : ν → Bool}
    (hclosed : ∀ name, S name = true → ∀ other ∈ (G name).names, S other = true)
    (hquiet : ∀ name, S name = true → b.discards name = false) {rule : Rule ν}
    {start start' : Nat} {input : Bytes} {out : Streamed} {calls : List (Call ν)}
    (h : Streams b G rule start input out start' calls)
    (hrule : ∀ name ∈ rule.names, S name = true) : start' = start := by
  induction h with
  | token _ _ | starDone _ _ => rfl
  | seqNext _ _ ih₁ ih₂ | sorNext _ _ ih₁ ih₂ =>
      rw [ih₂ fun name hname => hrule name (List.mem_append_right _ hname),
        ih₁ fun name hname => hrule name (List.mem_append_left _ hname)]
  | seqStop _ _ ih | sorStop _ _ ih =>
      exact ih fun name hname => hrule name (List.mem_append_left _ hname)
  | starNext _ _ ih₁ ih₂ => rw [ih₂ hrule, ih₁ hrule]
  | starLost _ _ ih | starStop _ _ ih | must _ ih => exact ih hrule
  | @ref name _ _ _ _ _ _ ih =>
      have hname : S name = true := hrule name (by simp [Rule.names])
      have hbody := ih (hclosed name hname)
      unfold Buffering.after
      rw [hquiet name hname]
      split <;> exact hbody

/-- A saved place denotes what it denoted only if the buffer has stayed where it is. -/
theorem Buffering.start_eq_of_seen {b : Buffering ν} {start start' : Nat} {text rest : Bytes}
    (hinput : text ++ rest <:+ b.document) (htext : text ≠ [])
    (hstart : start ≤ b.offset (text ++ rest)) (hle : start ≤ start')
    (h : b.seen start start' (text ++ rest) rest = some text) : start' = start := by
  obtain ⟨before, hdocument⟩ := hinput
  have hoffset : b.offset rest = b.offset (text ++ rest) + text.length := by
    unfold offset
    rw [← hdocument, List.length_append, List.length_append]
    omega
  have hpos := List.length_pos_of_ne_nil htext
  unfold seen at h
  simp only at h
  split at h
  · have hlength := congrArg List.length (Option.some.inj h)
    rw [List.length_take] at hlength
    omega
  · cases h

/-! ## Determinism -/

/-- How a match on a stream ends, where the buffer begins then and which actions have been
called with what is determined by the input. -/
theorem Streams.deterministic {b : Buffering ν} {G : ν → Rule ν} {rule : Rule ν}
    {start start' start'' : Nat} {input : Bytes} {out out' : Streamed}
    {calls calls' : List (Call ν)} (h : Streams b G rule start input out start' calls)
    (h' : Streams b G rule start input out' start'' calls') :
    out = out' ∧ start' = start'' ∧ calls = calls' := by
  induction h generalizing out' start'' calls' with
  | token hrule h =>
      cases h' with
      | token _ g =>
          obtain ⟨rfl, -⟩ := h.deterministic g
          exact ⟨rfl, rfl, rfl⟩
      | _ => cases hrule
  | seqNext _ _ ih₁ ih₂ =>
      cases h' with
      | token hrule _ => cases hrule
      | seqNext g₁ g₂ =>
          obtain ⟨hout, rfl, rfl⟩ := ih₁ g₁
          cases hout
          obtain ⟨rfl, rfl, rfl⟩ := ih₂ g₂
          exact ⟨rfl, rfl, rfl⟩
      | seqStop g hstop => exact absurd (ih₁ g).1.symm (hstop _)
  | seqStop _ hstop ih =>
      cases h' with
      | token hrule _ => cases hrule
      | seqNext g₁ _ => exact absurd (ih g₁).1 (hstop _)
      | seqStop g _ =>
          obtain ⟨rfl, rfl, rfl⟩ := ih g
          exact ⟨rfl, rfl, rfl⟩
  | sorStop _ hstop ih =>
      cases h' with
      | token hrule _ => cases hrule
      | sorStop g _ => exact ih g
      | sorNext g _ => exact absurd (ih g).1 hstop
  | sorNext _ _ ih₁ ih₂ =>
      cases h' with
      | token hrule _ => cases hrule
      | sorStop g hstop => exact absurd (ih₁ g).1.symm hstop
      | sorNext g₁ g₂ =>
          obtain ⟨-, rfl, rfl⟩ := ih₁ g₁
          obtain ⟨rfl, rfl, rfl⟩ := ih₂ g₂
          exact ⟨rfl, rfl, rfl⟩
  | starNext _ _ ih₁ ih₂ =>
      cases h' with
      | token hrule _ => cases hrule
      | starNext g₁ g₂ =>
          obtain ⟨hout, rfl, rfl⟩ := ih₁ g₁
          cases hout
          obtain ⟨rfl, rfl, rfl⟩ := ih₂ g₂
          exact ⟨rfl, rfl, rfl⟩
      | starDone g | starLost g _ => cases (ih₁ g).1
      | starStop g hstop =>
          rw [← (ih₁ g).1] at hstop
          simp at hstop
  | starDone _ ih =>
      cases h' with
      | token hrule _ => cases hrule
      | starNext g _ => cases (ih g).1
      | starDone g => exact ⟨rfl, rfl, (ih g).2.2⟩
      | starLost g hmoved => exact absurd (ih g).2.1.symm hmoved
      | starStop g hstop =>
          rw [← (ih g).1] at hstop
          simp at hstop
  | starLost _ hmoved ih =>
      cases h' with
      | token hrule _ => cases hrule
      | starNext g _ => cases (ih g).1
      | starDone g => exact absurd (ih g).2.1 hmoved
      | starLost g _ => exact ⟨rfl, (ih g).2⟩
      | starStop g hstop =>
          rw [← (ih g).1] at hstop
          simp at hstop
  | starStop _ hstop ih =>
      cases h' with
      | token hrule _ => cases hrule
      | starNext g _ | starDone g | starLost g _ =>
          rw [(ih g).1] at hstop
          simp at hstop
      | starStop g _ => exact ih g
  | must _ ih =>
      cases h' with
      | token hrule _ => cases hrule
      | must g =>
          obtain ⟨rfl, rfl, rfl⟩ := ih g
          exact ⟨rfl, rfl, rfl⟩
  | ref _ ih =>
      cases h' with
      | token hrule _ => cases hrule
      | ref g =>
          obtain ⟨rfl, rfl, rfl⟩ := ih g
          exact ⟨rfl, rfl, rfl⟩

end RdfParser.Peg
