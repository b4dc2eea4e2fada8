/-
  Turtle/Layout.lean --- what the grammar ignores between two tokens.
-/
import RdfParser.Peg.Sequence
import RdfParser.Turtle.Grammar

set_option autoImplicit false

namespace RdfParser.Turtle

open RdfParser.Foundation RdfParser.Peg RdfParser.Peg.Rule

/-- A byte of a comment. -/
def inComment (b : UInt8) : Bool := !([char '\n', char '\r', 0x0C].contains b)

/-- A byte that ends a comment. -/
def isEol (b : UInt8) : Bool := [char '\n', char '\r'].contains b

/-- White space and comments. -/
inductive IsLayout : Bytes → Prop where
  | nil : IsLayout []
  | space {b : UInt8} {layout : Bytes} (hb : isSpace b = true) (h : IsLayout layout) :
      IsLayout (b :: layout)
  | comment {body layout : Bytes} {eol : UInt8} (hbody : ∀ b ∈ body, inComment b = true)
      (heol : isEol eol = true) (h : IsLayout layout) :
      IsLayout (char '#' :: (body ++ eol :: layout))

theorem IsLayout.append {left right : Bytes} (hleft : IsLayout left) (hright : IsLayout right) :
    IsLayout (left ++ right) := by
  induction hleft with
  | nil => exact hright
  | space hb _ ih => exact .space hb ih
  | comment hbody heol _ ih =>
      rw [List.cons_append, List.append_assoc, List.cons_append]
      exact .comment hbody heol ih

/-- Neither white space nor a comment comes next. -/
def StartsToken (input : Bytes) : Prop := ∀ b ∈ input.head?, isSpace b = false ∧ b ≠ char '#'

theorem startsToken_cons {b : UInt8} {input : Bytes} (hb : isSpace b = false)
    (hhash : b ≠ char '#') : StartsToken (b :: input) := by
  intro c hc
  rw [List.head?_cons, Option.mem_some_iff] at hc
  rw [← hc]
  exact ⟨hb, hhash⟩

theorem comment_sound {input rest : Bytes} {trace : Trace RuleName}
    (h : Run turtle (.ref .comment) input (.ok rest) trace) :
    ∃ body eol, input = char '#' :: (body ++ eol :: rest) ∧
      (∀ b ∈ body, inComment b = true) ∧ isEol eol = true := by
  obtain ⟨_, hrule, -⟩ := h.ref_ok
  obtain ⟨_, _, _, hhash, hline, -⟩ := hrule.seq_ok
  obtain ⟨b, hb, rfl, -⟩ := hhash.byte_ok
  obtain ⟨_, _, _, hstar, hlast, -⟩ := hline.seq_ok
  obtain ⟨eol, heol, rfl, -⟩ := hlast.byte_ok
  obtain ⟨body, rfl, hbody⟩ := Run.star_induction (P := fun body => ∀ b ∈ body, inComment b = true)
    (by simp) (by
      intro text middle trace more hrun hmore
      obtain ⟨c, hc, htext, -⟩ := hrun.byte_ok
      rw [List.append_cancel_right (htext.trans (List.singleton_append).symm)]
      intro b hb
      rcases List.mem_append.mp hb with hb | hb
      · rw [List.mem_singleton.mp hb]
        exact hc
      · exact hmore b hb) hstar
  refine ⟨body, eol, ?_, hbody, heol⟩
  rw [beq_iff_eq.mp hb]

theorem comment_complete {body : Bytes} {eol : UInt8} (rest : Bytes)
    (hbody : ∀ b ∈ body, inComment b = true) (heol : isEol eol = true) :
    ∃ trace, Run turtle (.ref .comment) (char '#' :: (body ++ eol :: rest)) (.ok rest) trace := by
  have hline : ∃ trace, Run turtle (.star (notOneOf [char '\n', char '\r', 0x0C]))
      (body ++ eol :: rest) (.ok (eol :: rest)) trace := by
    refine Run.star_complete (fun b _ hb => ⟨_, .byteOk hb⟩) ⟨[], .byteFail ?_⟩ hbody
    intro b hb
    rw [List.head?_cons, Option.mem_some_iff] at hb
    rw [← hb]
    simp only [isEol, List.contains_cons, List.contains_nil, Bool.or_false, Bool.or_eq_true,
      beq_iff_eq] at heol
    rcases heol with rfl | rfl <;> decide
  obtain ⟨trace, hline⟩ := hline
  exact ⟨_, .ref (.seqNext (.byteOk (by decide)) (.seqNext hline (.byteOk heol)))⟩

/-- What `ignored` consumes is layout. -/
theorem ignored_sound {input rest : Bytes} {trace : Trace RuleName}
    (h : Run turtle (.ref .ignored) input (.ok rest) trace) :
    ∃ layout, input = layout ++ rest ∧ IsLayout layout := by
  obtain ⟨_, hstar, -⟩ := h.ref_ok
  refine Run.star_induction .nil ?_ hstar
  intro text middle trace more hbody hmore
  rcases hbody.sor_ok with hspace | ⟨_, _, -, hcomment, -⟩
  · obtain ⟨b, hb, htext, -⟩ := hspace.byte_ok
    rw [List.append_cancel_right (htext.trans (List.singleton_append).symm)]
    exact .space hb hmore
  · obtain ⟨body, eol, htext, hbody, heol⟩ := comment_sound hcomment
    have hsplit : text ++ middle = char '#' :: (body ++ [eol]) ++ middle := by
      rw [htext]
      simp
    rw [List.append_cancel_right hsplit]
    have hlayout := IsLayout.comment hbody heol hmore
    simpa using hlayout

/-- In front of a token there is nothing to ignore. -/
theorem ignored_idle {rest : Bytes} (h : StartsToken rest) :
    ∃ trace, Run turtle (.ref .ignored) rest (.ok rest) trace := by
  refine ⟨_, .ref (.starDone (.sorNext (.byteFail fun b hb => (h b hb).1)
    (.ref (.seqStop (.byteFail ?_) (by simp)))))⟩
  intro b hb
  exact beq_false_of_ne (h b hb).2

/-- Layout is ignored together with what follows. -/
theorem ignored_layout {layout rest after : Bytes} (h : IsLayout layout)
    (hrest : ∃ trace, Run turtle (.ref .ignored) rest (.ok after) trace) :
    ∃ trace, Run turtle (.ref .ignored) (layout ++ rest) (.ok after) trace := by
  have hstar : ∃ trace, Run turtle (turtle .ignored) (layout ++ rest) (.ok after) trace := by
    induction h with
    | nil =>
        obtain ⟨_, hrest⟩ := hrest
        obtain ⟨trace, hrun, -⟩ := hrest.ref_ok
        exact ⟨trace, hrun⟩
    | space hb _ ih =>
        obtain ⟨trace, hrun⟩ := ih
        exact ⟨_, .starNext (.sorStop (.byteOk hb) (by simp)) hrun⟩
    | @comment body layout eol hbody heol _ ih =>
        obtain ⟨trace, hrun⟩ := ih
        obtain ⟨trace', hcomment⟩ := comment_complete (layout ++ rest) hbody heol
        have hinput : char '#' :: (body ++ eol :: layout) ++ rest =
            char '#' :: (body ++ eol :: (layout ++ rest)) := by
          simp
        rw [hinput]
        refine ⟨_, .starNext (.sorNext (.byteFail ?_) hcomment) hrun⟩
        intro b hb
        rw [List.head?_cons, Option.mem_some_iff] at hb
        rw [← hb]
        decide
  obtain ⟨trace, hrun⟩ := hstar
  exact ⟨_, .ref hrun⟩

/-- Layout in front of a token is consumed by `ignored`. -/
theorem ignored_complete {layout rest : Bytes} (h : IsLayout layout) (hrest : StartsToken rest) :
    ∃ trace, Run turtle (.ref .ignored) (layout ++ rest) (.ok rest) trace :=
  ignored_layout h (ignored_idle hrest)

/-! ## Anonymous nodes -/

/-- The blanks that `ANON` allows between its brackets. -/
def anonBlanks : Bytes := [char ' ', char '\t', char '\r', char '\n']

theorem anonBlanks_layout {blanks : Bytes} (h : ∀ b ∈ blanks, b ∈ anonBlanks) :
    IsLayout blanks := by
  have hspaces : ∀ b ∈ anonBlanks, isSpace b = true := by decide +kernel
  induction blanks with
  | nil => exact .nil
  | cons b blanks ih =>
      exact .space (hspaces b (h b List.mem_cons_self))
        (ih fun c hc => h c (List.mem_cons_of_mem b hc))

theorem anon_iff {input rest : Bytes} :
    (∃ t, Run turtle (.ref .anon) (char '[' :: input) (.ok rest) t) ↔
      ∃ blanks, input = blanks ++ char ']' :: rest ∧ ∀ b ∈ blanks, b ∈ anonBlanks := by
  constructor
  · rintro ⟨t, h⟩
    obtain ⟨_, hbody, -⟩ := h.ref_ok
    obtain ⟨middle, _, _, hopen, hmore, -⟩ := hbody.seq_ok
    obtain ⟨after, _, _, hblanks, hclose, -⟩ := hmore.seq_ok
    obtain ⟨a, -, hinput, -⟩ := hopen.byte_ok
    obtain ⟨-, rfl⟩ := List.cons.inj hinput
    obtain ⟨c, hc, rfl, -⟩ := hclose.byte_ok
    obtain rfl := beq_iff_eq.mp hc
    refine Run.star_induction (P := fun blanks => ∀ b ∈ blanks, b ∈ anonBlanks) (by simp) ?_ hblanks
    intro text middle t more hblank hmore b hb
    obtain ⟨_, hblank, -⟩ := hblank.ref_ok
    obtain ⟨d, hd, htext, -⟩ := hblank.byte_ok
    obtain rfl : text = [d] := List.append_cancel_right htext
    rcases List.mem_cons.mp hb with rfl | hb
    · simpa [anonBlanks] using hd
    · exact hmore b hb
  · rintro ⟨blanks, rfl, hblanks⟩
    have hstar : ∃ t, Run turtle (.star (.ref .anonWs)) (blanks ++ char ']' :: rest)
        (.ok (char ']' :: rest)) t := by
      refine Run.star_complete (P := fun b => b ∈ anonBlanks) ?_ ?_ hblanks
      · intro b more hb
        refine ⟨_, .ref (.byteOk ?_)⟩
        simpa [anonBlanks] using hb
      · refine ⟨_, .ref (.byteFail fun b hb => ?_)⟩
        obtain rfl := Option.mem_some_iff.mp hb
        decide
    obtain ⟨_, hstar⟩ := hstar
    exact ⟨_, .ref (.seqNext (.byteOk (by decide)) (.seqNext hstar (.byteOk (by decide))))⟩

/-- Layout does not contain a bracket behind blanks. -/
theorem bracket_ends {blanks rest after : Bytes} (hblanks : ∀ b ∈ blanks, b ∈ anonBlanks)
    {t : Trace RuleName}
    (h : Run turtle (.ref .ignored) (blanks ++ char ']' :: rest) (.ok after) t) :
    after = char ']' :: rest := by
  have hstarts : StartsToken (char ']' :: rest) := startsToken_cons (by decide) (by decide)
  obtain ⟨_, hignored⟩ := ignored_complete (anonBlanks_layout hblanks) hstarts
  exact Outcome.ok.inj (h.deterministic hignored).1

end RdfParser.Turtle
