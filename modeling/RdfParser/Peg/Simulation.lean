/-
  Peg/Simulation.lean --- two inputs that a grammar reads in the same way.

  A relation between positions of two inputs is followed step by step: every match at one
  of two related positions is a match at the other one, and it ends at related positions
  again.  This is known of a few names, the atoms; all other expressions read single
  characters, and the positions have to agree on these.
-/
import RdfParser.Peg.Failure
import RdfParser.Peg.Sequence

set_option autoImplicit false

namespace RdfParser.Peg

open RdfParser.Foundation

variable {ν : Type} {G : ν → Rule ν}

/-! ## Positions -/

/-- Two positions in front of the same character, or both in front of one of `marks` or at
the end. -/
structure Aligned (marks : Bytes) (R : Bytes → Bytes → Prop) : Prop where
  ascii : ∀ b ∈ marks, b.toNat < 128
  step : ∀ input input', R input input' →
    (∃ b rest rest', b ∉ marks ∧ input = b :: rest ∧ input' = b :: rest' ∧ R rest rest') ∨
      ((∀ b ∈ input.head?, b ∈ marks) ∧ ∀ b ∈ input'.head?, b ∈ marks)

section Aligned

variable {marks : Bytes} {R : Bytes → Bytes → Prop} {input input' : Bytes}

/-- The characters that related positions have in common, up to a mark. -/
theorem Aligned.common (hR : Aligned marks R) (h : R input input') :
    ∃ text rest rest', input = text ++ rest ∧ input' = text ++ rest' ∧
      (∀ b ∈ rest.head?, b ∈ marks) ∧ (∀ b ∈ rest'.head?, b ∈ marks) ∧
      (∀ b ∈ text, b ∉ marks) ∧
      ∀ n ≤ text.length, R (text.drop n ++ rest) (text.drop n ++ rest') := by
  induction input generalizing input' with
  | nil =>
      rcases hR.step _ _ h with ⟨_, _, _, -, hnil, -⟩ | ⟨-, hmark⟩
      · cases hnil
      · exact ⟨[], [], input', rfl, rfl, by simp, hmark, by simp, fun n _ => by simpa using h⟩
  | cons b input ih =>
      rcases hR.step _ _ h with ⟨c, rest, rest', hc, hinput, rfl, hrest⟩ | ⟨hmark, hmark'⟩
      · obtain ⟨rfl, rfl⟩ := List.cons.inj hinput
        obtain ⟨text, rest, rest', rfl, rfl, hmark, hmark', htext, hdrop⟩ := ih hrest
        refine ⟨b :: text, rest, rest', rfl, rfl, hmark, hmark', ?_, ?_⟩
        · intro d hd
          rcases List.mem_cons.mp hd with rfl | hd
          · exact hc
          · exact htext d hd
        · intro n hn
          cases n with
          | zero => exact h
          | succ n => exact hdrop n (Nat.le_of_succ_le_succ hn)
      · exact ⟨[], b :: input, input', rfl, rfl, hmark, hmark', by simp,
          fun n _ => by simpa using h⟩

/-- A code point ends in front of an ASCII character. -/
theorem peekUtf8_stops {text rest rest' : Bytes} (htext : text ≠ [])
    (hrest : ∀ b ∈ rest.head?, isContinuation b = false)
    (hrest' : ∀ b ∈ rest'.head?, isContinuation b = false) :
    peekUtf8 (text ++ rest) = peekUtf8 (text ++ rest') ∧
      ∀ p ∈ peekUtf8 (text ++ rest), p.2 ≤ text.length := by
  have hstop : ∀ {input : Bytes}, (∀ b ∈ input.head?, isContinuation b = false) →
      input = [] ∨ ∃ b more, input = b :: more ∧ isContinuation b = false := by
    intro input h
    cases input with
    | nil => exact .inl rfl
    | cons b more => exact .inr ⟨b, more, rfl, h b rfl⟩
  obtain ⟨b₀, text, rfl⟩ := List.exists_cons_of_ne_nil htext
  rcases hstop hrest with rfl | ⟨b, more, rfl, hb⟩ <;>
    rcases hstop hrest' with rfl | ⟨b', more', rfl, hb'⟩
  all_goals
    rcases text with _ | ⟨b₁, _ | ⟨b₂, _ | ⟨b₃, text⟩⟩⟩ <;>
      simp only [List.cons_append, List.nil_append, peekUtf8] <;> grind

/-- The code point in front of two related positions. -/
theorem Aligned.codePoint (hR : Aligned marks R) (h : R input input') :
    (∀ b ∈ input.head?, b ∈ marks) ∧ (∀ b ∈ input'.head?, b ∈ marks) ∨
      peekUtf8 input = peekUtf8 input' ∧ ∀ p ∈ peekUtf8 input,
        ∃ text rest rest', input = text ++ rest ∧ input' = text ++ rest' ∧
          input.drop p.2 = rest ∧ input'.drop p.2 = rest' ∧ R rest rest' := by
  obtain ⟨text, rest, rest', rfl, rfl, hmark, hmark', -, hdrop⟩ := hR.common h
  by_cases htext : text = []
  · subst htext
    exact .inl ⟨hmark, hmark'⟩
  · have hcontinues : ∀ b ∈ marks, isContinuation b = false := by
      intro b hb
      have hascii := hR.ascii b hb
      refine eq_false_of_ne_true fun hcontinuation => ?_
      have hle := isContinuation_le hcontinuation
      omega
    obtain ⟨hsame, hsize⟩ := peekUtf8_stops htext (fun b hb => hcontinues b (hmark b hb))
      fun b hb => hcontinues b (hmark' b hb)
    refine .inr ⟨hsame, fun p hp => ?_⟩
    have hle := hsize p hp
    refine ⟨text.take p.2, text.drop p.2 ++ rest, text.drop p.2 ++ rest', ?_, ?_, ?_, ?_,
      hdrop p.2 hle⟩
    · rw [← List.append_assoc, List.take_append_drop]
    · rw [← List.append_assoc, List.take_append_drop]
    · rw [List.drop_append_of_le_length hle]
    · rw [List.drop_append_of_le_length hle]

end Aligned

/-! ## Matches at related positions -/

/-- Outcomes at related positions. -/
inductive Outcome.Related (R : Bytes → Bytes → Prop) : Outcome → Outcome → Prop where
  | ok {rest rest' : Bytes} (h : R rest rest') : Related R (.ok rest) (.ok rest')
  | fail : Related R .fail .fail
  | error : Related R .error .error

/-- The same text lies in front of both positions. -/
def SameText (input rest input' rest' : Bytes) : Prop :=
  ∃ text, input = text ++ rest ∧ input' = text ++ rest'

theorem SameText.refl (input input' : Bytes) : SameText input input input' input' :=
  ⟨[], rfl, rfl⟩

theorem SameText.trans {input middle rest input' middle' rest' : Bytes}
    (h₁ : SameText input middle input' middle') (h₂ : SameText middle rest middle' rest') :
    SameText input rest input' rest' := by
  obtain ⟨left, rfl, rfl⟩ := h₁
  obtain ⟨right, rfl, rfl⟩ := h₂
  exact ⟨left ++ right, (List.append_assoc ..).symm, (List.append_assoc ..).symm⟩

theorem SameText.consumed_eq {input rest input' rest' : Bytes}
    (h : SameText input rest input' rest') : consumed input rest = consumed input' rest' := by
  obtain ⟨text, rfl, rfl⟩ := h
  rw [consumed_append, consumed_append]

section Mirrored

variable {β : Type} {R : Bytes → Bytes → Prop} {view : ν × Bytes → Option β} {exact : Prop}
  {first second body : Rule ν} {input input' middle : Bytes} {outcome : Outcome}
  {t t₁ t₂ : Trace ν}

/-- The expression ends at `input'` as it does at `input`, with the same actions as far as
`view` shows them; if it is `exact`, it consumes the same text, too. -/
def Mirrored (G : ν → Rule ν) (R : Bytes → Bytes → Prop) (view : ν × Bytes → Option β)
    (exact : Prop) (rule : Rule ν) (input input' : Bytes) (outcome : Outcome)
    (t : Trace ν) : Prop :=
  ∃ outcome' t', Run G rule input' outcome' t' ∧ outcome.Related R outcome' ∧
    t.filterMap view = t'.filterMap view ∧
    (exact → ∀ rest rest', outcome = .ok rest → outcome' = .ok rest' →
      SameText input rest input' rest')

/-- The expression accepts none of `marks` and does not ask for the end, given that the
names in `S` do not. -/
def Rule.tracks (marks : Bytes) (S : ν → Bool) : Rule ν → Bool
  | .byte accepts => marks.all fun b => !accepts b
  | .codePoint accepts => marks.all fun b => !accepts b.toNat
  | .eof => false
  | .success => true
  | .seq first second | .sor first second => first.tracks marks S && second.tracks marks S
  | .star body | .must body => body.tracks marks S
  | .ref name => S name

/-- A mark is not accepted as a code point. -/
theorem codePoint_refused {marks : Bytes} {S : ν → Bool} {accepts : Nat → Bool}
    (hascii : ∀ b ∈ marks, b.toNat < 128)
    (hrule : (Rule.codePoint accepts : Rule ν).tracks marks S = true)
    (hhead : ∀ b ∈ input.head?, b ∈ marks) :
    ∀ p ∈ peekUtf8 input, accepts p.1 = false := by
  intro p hp
  cases input with
  | nil => cases hp
  | cons b rest =>
      have hb := hhead b rfl
      rw [peekUtf8_cons (hascii b hb)] at hp
      obtain rfl := Option.mem_some_iff.mp hp
      simpa using List.all_eq_true.mp hrule b hb

/-- A relation that the matches of a grammar follow: those of the atoms `A` by assumption.
The names in `L` consume the same text at both positions, and the actions of the others do
not show theirs. -/
structure Simulation (G : ν → Rule ν) (marks : Bytes) (R : Bytes → Bytes → Prop)
    (view : ν × Bytes → Option β) (S A L : ν → Bool) : Prop where
  aligned : Aligned marks R
  tracks : ∀ name, S name = true → A name = false → (G name).tracks marks S = true
  exact : ∀ name, L name = true → A name = false → ∀ other ∈ (G name).names, L other = true
  hidden : ∀ name, L name = false → A name = false → ∀ text text',
    view (name, text) = view (name, text')
  atoms : ∀ name, A name = true → ∀ input input' outcome t, R input input' →
    Run G (.ref name) input outcome t →
    Mirrored G R view (L name = true) (.ref name) input input' outcome t

/-- Every match at one of two related positions is followed at the other one. -/
theorem Simulation.mirrored {marks : Bytes} {S A L : ν → Bool}
    (hsim : Simulation G marks R view S A L) {rule : Rule ν}
    (hrule : rule.tracks marks S = true) (h : Run G rule input outcome t) (hR : R input input') :
    Mirrored G R view (∀ name ∈ rule.names, L name = true) rule input input' outcome t := by
  induction h generalizing input' with
  | @byteOk accepts b rest haccepts =>
      have hmark : b ∉ marks := by
        intro hb
        have hrefuse := List.all_eq_true.mp hrule b hb
        simp [haccepts] at hrefuse
      rcases hsim.aligned.step _ _ hR with ⟨c, rest₀, rest', -, hinput, rfl, hrest⟩ | ⟨hhead, -⟩
      · obtain ⟨rfl, rfl⟩ := List.cons.inj hinput
        refine ⟨.ok rest', [], .byteOk haccepts, .ok hrest, rfl, ?_⟩
        rintro - _ _ hout hout'
        cases hout
        cases hout'
        exact ⟨[b], rfl, rfl⟩
      · exact absurd (hhead b rfl) hmark
  | @byteFail accepts input hfail =>
      refine ⟨.fail, [], .byteFail fun b hb => ?_, .fail, rfl, by rintro - _ _ ⟨⟩⟩
      rcases hsim.aligned.step _ _ hR with ⟨c, rest, rest', -, rfl, rfl, -⟩ | ⟨-, hhead⟩
      · exact hfail b hb
      · simpa using List.all_eq_true.mp hrule b (hhead b hb)
  | @codePointOk accepts input c size hpeek haccepts =>
      rcases hsim.aligned.codePoint hR with ⟨hhead, -⟩ | ⟨hsame, hrest⟩
      · have hrefuse := codePoint_refused hsim.aligned.ascii hrule hhead (c, size) hpeek
        simp [haccepts] at hrefuse
      · obtain ⟨text, rest, rest', hinput, hinput', rfl, rfl, hrest⟩ := hrest _ hpeek
        rw [hsame] at hpeek
        refine ⟨.ok (input'.drop size), [], .codePointOk hpeek haccepts, .ok hrest, rfl, ?_⟩
        rintro - _ _ hout hout'
        cases hout
        cases hout'
        exact ⟨text, hinput, hinput'⟩
  | @codePointFail accepts input hfail =>
      refine ⟨.fail, [], .codePointFail ?_, .fail, rfl, by rintro - _ _ ⟨⟩⟩
      rcases hsim.aligned.codePoint hR with ⟨-, hhead⟩ | ⟨hsame, -⟩
      · exact codePoint_refused hsim.aligned.ascii hrule hhead
      · rwa [← hsame]
  | eofOk | eofFail _ => exact absurd hrule Bool.false_ne_true
  | @success input =>
      refine ⟨.ok input', [], .success, .ok hR, rfl, ?_⟩
      rintro - _ _ hout hout'
      cases hout
      cases hout'
      exact .refl _ _
  | seqNext _ _ ih₁ ih₂ =>
      simp only [Rule.tracks, Bool.and_eq_true] at hrule
      obtain ⟨_, t₁', hrun₁, hrelated, hview₁, hexact₁⟩ := ih₁ hrule.1 hR
      cases hrelated with
      | @ok _ middle' hmiddle =>
          obtain ⟨outcome', t₂', hrun₂, hrelated, hview₂, hexact₂⟩ := ih₂ hrule.2 hmiddle
          refine ⟨outcome', t₁' ++ t₂', .seqNext hrun₁ hrun₂, hrelated, ?_, ?_⟩
          · rw [List.filterMap_append, List.filterMap_append, hview₁, hview₂]
          · intro hnames rest rest' hout hout'
            have hsame₁ := hexact₁ (fun name hname => hnames name (by simp [Rule.names, hname]))
              _ _ rfl rfl
            exact hsame₁.trans
              (hexact₂ (fun name hname => hnames name (by simp [Rule.names, hname])) _ _ hout hout')
  | seqStop _ hstop ih =>
      simp only [Rule.tracks, Bool.and_eq_true] at hrule
      obtain ⟨outcome', t', hrun, hrelated, hview, -⟩ := ih hrule.1 hR
      refine ⟨outcome', t', .seqStop hrun ?_, hrelated, hview, ?_⟩
      · cases hrelated with
        | ok _ => exact absurd rfl (hstop _)
        | fail | error => simp
      · rintro - rest _ hout
        exact absurd hout (hstop rest)
  | sorStop _ hstop ih =>
      simp only [Rule.tracks, Bool.and_eq_true] at hrule
      obtain ⟨outcome', t', hrun, hrelated, hview, hexact⟩ := ih hrule.1 hR
      refine ⟨outcome', t', .sorStop hrun ?_, hrelated, hview, ?_⟩
      · cases hrelated with
        | fail => exact absurd rfl hstop
        | ok _ | error => simp
      · intro hnames
        exact hexact fun name hname => hnames name (by simp [Rule.names, hname])
  | sorNext _ _ ih₁ ih₂ =>
      simp only [Rule.tracks, Bool.and_eq_true] at hrule
      obtain ⟨_, t₁', hrun₁, hrelated, hview₁, -⟩ := ih₁ hrule.1 hR
      cases hrelated
      obtain ⟨outcome', t₂', hrun₂, hrelated, hview₂, hexact⟩ := ih₂ hrule.2 hR
      refine ⟨outcome', t₁' ++ t₂', .sorNext hrun₁ hrun₂, hrelated, ?_, ?_⟩
      · rw [List.filterMap_append, List.filterMap_append, hview₁, hview₂]
      · intro hnames
        exact hexact fun name hname => hnames name (by simp [Rule.names, hname])
  | starNext _ _ ih₁ ih₂ =>
      obtain ⟨_, t₁', hrun₁, hrelated, hview₁, hexact₁⟩ := ih₁ hrule hR
      cases hrelated with
      | @ok _ middle' hmiddle =>
          obtain ⟨outcome', t₂', hrun₂, hrelated, hview₂, hexact₂⟩ := ih₂ hrule hmiddle
          refine ⟨outcome', t₁' ++ t₂', .starNext hrun₁ hrun₂, hrelated, ?_, ?_⟩
          · rw [List.filterMap_append, List.filterMap_append, hview₁, hview₂]
          · intro hnames rest rest' hout hout'
            exact (hexact₁ hnames _ _ rfl rfl).trans (hexact₂ hnames _ _ hout hout')
  | @starDone body input _ _ ih =>
      obtain ⟨_, t', hrun, hrelated, hview, -⟩ := ih hrule hR
      cases hrelated
      refine ⟨.ok input', t', .starDone hrun, .ok hR, hview, ?_⟩
      rintro - _ _ hout hout'
      cases hout
      cases hout'
      exact .refl _ _
  | starError _ ih =>
      obtain ⟨_, t', hrun, hrelated, hview, -⟩ := ih hrule hR
      cases hrelated
      exact ⟨.error, t', .starError hrun, .error, hview, by rintro - _ _ ⟨⟩⟩
  | must _ ih =>
      obtain ⟨_, t', hrun, hrelated, hview, hexact⟩ := ih hrule hR
      refine ⟨_, t', .must hrun, ?_, hview, ?_⟩
      · cases hrelated with
        | ok h => exact .ok h
        | fail | error => exact .error
      · cases hrelated with
        | ok h => exact hexact
        | fail | error => rintro - _ _ ⟨⟩
  | @ref name input outcome t hbody ih =>
      cases hatom : A name with
      | true =>
          obtain ⟨outcome', t', hrun, hrelated, hview, hexact⟩ :=
            hsim.atoms name hatom _ _ _ _ hR (.ref hbody)
          exact ⟨outcome', t', hrun, hrelated, hview,
            fun hnames => hexact (hnames name (by simp [Rule.names]))⟩
      | false =>
          obtain ⟨outcome', t', hrun, hrelated, hview, hexact⟩ :=
            ih (hsim.tracks name hrule hatom) hR
          have hsame : L name = true → ∀ rest rest', outcome = .ok rest → outcome' = .ok rest' →
              SameText input rest input' rest' :=
            fun hname => hexact fun other hother => hsim.exact name hname hatom other hother
          refine ⟨outcome', t' ++ closing name input' outcome', .ref hrun, hrelated, ?_,
            fun hnames => hsame (hnames name (by simp [Rule.names]))⟩
          rw [List.filterMap_append, List.filterMap_append, hview]
          congr 1
          cases hrelated with
          | fail | error => rfl
          | @ok rest rest' h =>
              have hentry : view (name, consumed input rest) =
                  view (name, consumed input' rest') := by
                cases hname : L name with
                | true => rw [(hsame hname rest rest' rfl rfl).consumed_eq]
                | false => exact hsim.hidden name hname hatom _ _
              simp only [closing, List.filterMap_cons, List.filterMap_nil, hentry]

end Mirrored

/-! ## Matches that do not depend on what follows -/

/-- What the expression matches, it matches in front of anything. -/
def Portable (G : ν → Rule ν) (rule : Rule ν) : Prop :=
  ∀ text rest rest' t, Run G rule (text ++ rest) (.ok rest) t →
    ∃ t', Run G rule (text ++ rest') (.ok rest') t'

namespace Portable

variable {first second body last : Rule ν}

theorem byte (accepts : UInt8 → Bool) : Portable G (.byte accepts) := by
  intro text rest rest' t h
  obtain ⟨b, hb, htext, -⟩ := h.byte_ok
  obtain rfl : text = [b] := List.append_cancel_right htext
  exact ⟨[], .byteOk hb⟩

theorem seq (h₁ : Portable G first) (h₂ : Portable G second) :
    Portable G (.seq first second) := by
  intro text rest rest' t h
  obtain ⟨middle, t₁, t₂, hfirst, hsecond, -⟩ := h.seq_ok
  obtain ⟨right, rfl⟩ := hsecond.suffix
  obtain ⟨left, htext⟩ := hfirst.suffix
  obtain rfl : text = left ++ right :=
    List.append_cancel_right (htext.trans (List.append_assoc ..).symm)
  rw [List.append_assoc] at hfirst ⊢
  obtain ⟨_, hfirst⟩ := h₁ _ _ (right ++ rest') _ hfirst
  obtain ⟨_, hsecond⟩ := h₂ _ _ rest' _ hsecond
  exact ⟨_, .seqNext hfirst hsecond⟩

/-- The first alternative has to fail again where the second one matches. -/
theorem sor (h₁ : Portable G first) (h₂ : Portable G second)
    (hfirst : ∀ text rest rest' t t', Run G first (text ++ rest) .fail t →
      Run G second (text ++ rest) (.ok rest) t' → ∃ t, Run G first (text ++ rest') .fail t) :
    Portable G (.sor first second) := by
  intro text rest rest' t h
  rcases h.sor_ok with hrun | ⟨_, _, hfail, hrun, -⟩
  · obtain ⟨_, hrun⟩ := h₁ _ _ rest' _ hrun
    exact ⟨_, .sorStop hrun (by simp)⟩
  · obtain ⟨_, hfail⟩ := hfirst _ _ rest' _ _ hfail hrun
    obtain ⟨_, hrun⟩ := h₂ _ _ rest' _ hrun
    exact ⟨_, .sorNext hfail hrun⟩

/-- A first alternative of one character. -/
theorem byte_sor {accepts : UInt8 → Bool} (h : Portable G second)
    (hne : ∀ rest t, ¬ Run G second rest (.ok rest) t) :
    Portable G (.sor (.byte accepts) second) := by
  refine sor (byte accepts) h ?_
  intro text rest rest' t t' hfail hrun
  cases text with
  | nil => exact absurd hrun (hne _ _)
  | cons b text =>
      refine ⟨[], .byteFail fun c hc => ?_⟩
      cases hfail with
      | byteFail h => exact h c hc

theorem ref {name : ν} (h : Portable G (G name)) : Portable G (.ref name) := by
  intro text rest rest' t hrun
  obtain ⟨_, hbody, -⟩ := hrun.ref_ok
  obtain ⟨_, hbody⟩ := h _ _ rest' _ hbody
  exact ⟨_, .ref hbody⟩

/-- A repetition that ends where its body fails anyway. -/
theorem star (h : Portable G body) {text rest rest' : Bytes} {t : Trace ν}
    (hrun : Run G (.star body) (text ++ rest) (.ok rest) t)
    (hstop : ∃ t, Run G body rest' .fail t) :
    ∃ t', Run G (.star body) (text ++ rest') (.ok rest') t' := by
  obtain ⟨text', htext, hcomplete⟩ := Run.star_induction
    (P := fun text => ∃ t', Run G (.star body) (text ++ rest') (.ok rest') t')
    (by
      obtain ⟨last, hstop⟩ := hstop
      exact ⟨last, .starDone hstop⟩)
    (by
      intro text middle trace more hbody hmore
      obtain ⟨_, hfirst⟩ := h _ _ (more ++ rest') _ hbody
      obtain ⟨_, hmore⟩ := hmore
      rw [List.append_assoc]
      exact ⟨_, .starNext hfirst hmore⟩) hrun
  obtain rfl : text = text' := List.append_cancel_right htext
  exact hcomplete

/-- A repetition up to a delimiter that its body does not match. -/
theorem upTo (h : Portable G body) (hlast : Portable G last)
    (hstop : ∀ text rest t, Run G last (text ++ rest) (.ok rest) t →
      ∀ rest', ∃ t, Run G body (text ++ rest') .fail t) :
    Portable G (.seq (.star body) last) := by
  intro text rest rest' t hrun
  obtain ⟨middle, t₁, t₂, hbody, hclose, -⟩ := hrun.seq_ok
  obtain ⟨right, rfl⟩ := hclose.suffix
  obtain ⟨left, htext⟩ := hbody.suffix
  obtain rfl : text = left ++ right :=
    List.append_cancel_right (htext.trans (List.append_assoc ..).symm)
  rw [List.append_assoc] at hbody ⊢
  obtain ⟨_, hbody⟩ := h.star hbody (hstop _ _ _ hclose rest')
  obtain ⟨_, hclose⟩ := hlast _ _ rest' _ hclose
  exact ⟨_, .seqNext hbody hclose⟩

end Portable

/-- One of several characters. -/
theorem Run.sorOf_byte_iff {accepts : UInt8 → Bool} {classes : List (UInt8 → Bool)}
    {input rest : Bytes} :
    (∃ t, Run G (.sorOf (.byte accepts) (classes.map .byte)) input (.ok rest) t) ↔
      ∃ b, input = b :: rest ∧ ∃ c ∈ accepts :: classes, c b = true := by
  induction classes generalizing accepts with
  | nil =>
      constructor
      · rintro ⟨t, hrun⟩
        obtain ⟨b, hb, rfl, -⟩ := hrun.byte_ok
        exact ⟨b, rfl, accepts, List.mem_singleton_self _, hb⟩
      · rintro ⟨b, rfl, c, hc, hb⟩
        obtain rfl := List.mem_singleton.mp hc
        exact ⟨[], .byteOk hb⟩
  | cons next classes ih =>
      constructor
      · rintro ⟨t, hrun⟩
        rcases hrun.sor_ok with hfirst | ⟨_, _, -, hmore, -⟩
        · obtain ⟨b, hb, rfl, -⟩ := hfirst.byte_ok
          exact ⟨b, rfl, accepts, List.mem_cons_self, hb⟩
        · obtain ⟨b, rfl, c, hc, hb⟩ := ih.mp ⟨_, hmore⟩
          exact ⟨b, rfl, c, List.mem_cons_of_mem _ hc, hb⟩
      · rintro ⟨b, rfl, c, hc, hb⟩
        cases haccepts : accepts b with
        | true => exact ⟨_, .sorStop (.byteOk haccepts) (by simp)⟩
        | false =>
            have hmem : c ∈ next :: classes := by
              rcases List.mem_cons.mp hc with rfl | hc
              · simp [haccepts] at hb
              · exact hc
            obtain ⟨_, hmore⟩ := ih.mpr ⟨b, rfl, c, hmem, hb⟩
            refine ⟨_, .sorNext (.byteFail fun d hd => ?_) hmore⟩
            obtain rfl := Option.mem_some_iff.mp hd
            exact haccepts

/-- One of several given characters. -/
theorem Run.sorOf_one_iff {b : UInt8} {bs : Bytes} {input rest : Bytes} :
    (∃ t, Run G (.sorOf (.one b) (bs.map .one)) input (.ok rest) t) ↔
      ∃ c ∈ b :: bs, input = c :: rest := by
  have hclasses : (bs.map .one : List (Rule ν)) =
      (bs.map fun c b => b == c).map .byte := by
    rw [List.map_map]
    rfl
  rw [hclasses, Rule.one, sorOf_byte_iff]
  constructor
  · rintro ⟨c, rfl, accepts, haccepts, hc⟩
    have hmem : accepts ∈ (b :: bs).map fun c b => b == c := haccepts
    obtain ⟨d, hd, rfl⟩ := List.mem_map.mp hmem
    exact ⟨d, hd, by rw [beq_iff_eq.mp hc]⟩
  · rintro ⟨c, hc, rfl⟩
    have hmem : (fun d => d == c) ∈ (b :: bs).map fun c b => b == c :=
      List.mem_map_of_mem hc
    exact ⟨c, rfl, _, hmem, beq_self_eq_true c⟩

theorem Portable.sorOf_byte (accepts : UInt8 → Bool) (classes : List (UInt8 → Bool)) :
    Portable G (.sorOf (.byte accepts) (classes.map .byte)) := by
  intro text rest rest' t hrun
  obtain ⟨b, htext, hb⟩ := Run.sorOf_byte_iff.mp ⟨t, hrun⟩
  obtain rfl : text = [b] := List.append_cancel_right htext
  exact Run.sorOf_byte_iff.mpr ⟨b, rfl, hb⟩

end RdfParser.Peg
