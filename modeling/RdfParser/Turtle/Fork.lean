/-
  Turtle/Fork.lean --- two documents that part in a layout.

  The documents have a beginning in common, go on with layout of their own, and behind it
  with a common text again.  The beginning is cut into pieces: IRIs, strings, escapes,
  layout and single characters.  The rules of the grammar read each of them as a whole or
  character by character, so they read both documents in the same way.
-/
import Mathlib.Data.Bool.AllAny
import RdfParser.Turtle.Portable

set_option autoImplicit false

namespace RdfParser.Turtle

open RdfParser.Foundation RdfParser.Peg RdfParser.Peg.Rule

/-! ## Pieces -/

/-- A piece of the common beginning. -/
inductive Chunk where
  | byte (b : UInt8)
  | iri (text : Bytes)
  | string (text : Bytes)
  | escape (text : Bytes)
  | gap (layout : Bytes)

namespace Chunk

def text : Chunk → Bytes
  | .byte b => [b]
  | .iri text | .string text | .escape text | .gap text => text

def isGap : Chunk → Bool
  | .gap _ => true
  | _ => false

/-- The characters with which it begins. -/
def openings : Chunk → Bytes
  | .byte b => [b]
  | .iri _ => [char '<']
  | .string _ => [char '"', char '\'']
  | .escape _ => [char '\\']
  | .gap _ => char '#' :: spaces

/-- The rule that reads it as a whole. -/
def rule : Chunk → Option RuleName
  | .iri _ => some .iriref
  | .string _ => some .turtleString
  | .escape _ => some .pnLocalEsc
  | .byte _ | .gap _ => none

end Chunk

/-- The text of a list of pieces. -/
def textOf (chunks : List Chunk) : Bytes := chunks.flatMap Chunk.text

@[simp] theorem textOf_nil : textOf [] = [] := rfl

@[simp] theorem textOf_cons (chunk : Chunk) (chunks : List Chunk) :
    textOf (chunk :: chunks) = chunk.text ++ textOf chunks := rfl

@[simp] theorem textOf_append (left right : List Chunk) :
    textOf (left ++ right) = textOf left ++ textOf right := List.flatMap_append

/-- The characters with which the pieces of several characters begin. -/
def marks : Bytes := [char '<', char '"', char '\'', char '\\', char '#'] ++ spaces

/-- The rules that read a piece as a whole. -/
def readsPiece : RuleName → Bool
  | .iriref | .turtleString | .pnLocalEsc | .anon | .ignored => true
  | _ => false

/-- How two documents go on behind their common beginning, `false` being the first one:
with layout, and then with `final`.  The texts in `Beyond` are met from there on. -/
structure Fork where
  tail : Bool → Bytes
  final : Bytes
  Beyond : Bytes → Prop
  begins : ∀ side, ∀ b ∈ (tail side).head?, b ∈ char '#' :: spaces
  ignored : ∀ side, ∃ t, Run turtle (.ref .ignored) (tail side) (.ok final) t
  beyond : Beyond final
  byte : ∀ b rest, Beyond (b :: rest) → b ∉ marks → Beyond rest
  piece : ∀ name input rest t, readsPiece name = true → Beyond input →
    Run turtle (.ref name) input (.ok rest) t → Beyond rest

/-- The documents from a piece of the common beginning on. -/
def Fork.weave (fork : Fork) (chunks : List Chunk) (side : Bool) : Bytes :=
  textOf chunks ++ fork.tail side

section Fork

variable {fork : Fork} {chunks more : List Chunk} {side : Bool}

@[simp] theorem weave_nil : fork.weave [] side = fork.tail side := rfl

@[simp] theorem weave_cons (chunk : Chunk) :
    fork.weave (chunk :: chunks) side = chunk.text ++ fork.weave chunks side :=
  List.append_assoc ..

/-- The piece is what it is said to be, in both documents.  A bracket is not closed behind
the place where they part, if there is only layout up to there. -/
def Chunk.Fits (fork : Fork) (following : List Chunk) : Chunk → Prop
  | .byte b => b ∉ marks ∧ (b = char '[' → (∀ c ∈ following, c.isGap = true) →
      ∀ c ∈ fork.final.head?, c ≠ char ']')
  | .iri text => Matches turtle .iriref text
  | .string text => ∀ side, ∃ t, Run turtle (.ref .turtleString)
      (text ++ fork.weave following side) (.ok (fork.weave following side)) t
  | .escape text => Matches turtle .pnLocalEsc text
  | .gap layout => IsLayout layout ∧ layout ≠ []

def Woven (fork : Fork) : List Chunk → Prop
  | [] => True
  | chunk :: chunks => chunk.Fits fork chunks ∧ Woven fork chunks

theorem Woven.suffix (h : Woven fork chunks) (hmore : more <:+ chunks) : Woven fork more := by
  induction chunks with
  | nil =>
      rw [List.suffix_nil.mp hmore]
      exact h
  | cons chunk chunks ih =>
      rcases List.suffix_cons_iff.mp hmore with rfl | hmore
      · exact h
      · exact ih h.2 hmore

/-! ## First characters -/

theorem layout_begins {layout : Bytes} (h : IsLayout layout) (hne : layout ≠ []) :
    ∃ b more, layout = b :: more ∧ b ∈ char '#' :: spaces := by
  cases h with
  | nil => exact absurd rfl hne
  | space hb _ => exact ⟨_, _, rfl, List.mem_cons_of_mem _ (mem_spaces.mpr hb)⟩
  | comment _ _ _ => exact ⟨_, _, rfl, List.mem_cons_self⟩

theorem Chunk.Fits.begins {chunk : Chunk} (h : chunk.Fits fork chunks) :
    ∃ b more, chunk.text = b :: more ∧ b ∈ chunk.openings := by
  cases chunk with
  | byte b => exact ⟨b, [], rfl, List.mem_singleton_self b⟩
  | iri text =>
      obtain ⟨rest, _, hrun⟩ := h
      obtain ⟨iri, htext⟩ := iriref_sound hrun
      exact ⟨_, _, List.append_cancel_right htext, List.mem_singleton_self _⟩
  | string text =>
      obtain ⟨_, hrun⟩ := h false
      obtain ⟨b, more, hb, htext⟩ := turtleString_begins hrun
      have hconsumes := hrun.consumes consuming_closed rfl
      cases text with
      | nil => exact absurd hconsumes (lt_irrefl _)
      | cons c text =>
          obtain rfl : c = b := (List.cons.inj htext).1
          exact ⟨c, text, rfl, by simpa [openings] using hb⟩
  | escape text =>
      obtain ⟨rest, _, hrun⟩ := h
      obtain ⟨_, hbody, -⟩ := hrun.ref_ok
      obtain ⟨more, htext⟩ := ch_begins hbody
      have hconsumes := hrun.consumes consuming_closed rfl
      cases text with
      | nil => exact absurd hconsumes (lt_irrefl _)
      | cons b text =>
          obtain rfl := (List.cons.inj htext).1
          exact ⟨_, _, rfl, List.mem_singleton_self _⟩
  | gap layout => exact layout_begins h.1 h.2

/-- Layout begins with marked bytes. -/
theorem layout_marks {b : UInt8} (hb : b ∈ char '#' :: spaces) : b ∈ marks := by
  rcases List.mem_cons.mp hb with rfl | hspace
  · simp [marks]
  · exact List.mem_append_right _ hspace

/-- The other pieces do not begin like layout. -/
theorem Chunk.Fits.solid {chunk : Chunk} (h : chunk.Fits fork chunks)
    (hgap : chunk.isGap = false) : ∀ b ∈ chunk.openings, b ∉ char '#' :: spaces := by
  cases chunk with
  | byte b =>
      intro c hc hlayout
      obtain rfl := List.mem_singleton.mp hc
      exact h.1 (layout_marks hlayout)
  | gap _ => cases hgap
  | iri _ | string _ | escape _ =>
      simp [openings, spaces, char]

theorem startsToken_of_solid {b : UInt8} (hb : b ∉ char '#' :: spaces) (more : Bytes) :
    StartsToken (b :: more) := by
  rw [List.mem_cons, not_or, mem_spaces, Bool.not_eq_true] at hb
  exact startsToken_cons hb.2 hb.1

/-- The characters with which the rules begin that read pieces as a whole. -/
def firsts : RuleName → Bytes
  | .iriref => [char '<']
  | .turtleString => [char '"', char '\'']
  | .pnLocalEsc => [char '\\']
  | .anon => [char '[']
  | _ => []

theorem firsts_cases {name : RuleName} (h : firsts name ≠ []) :
    name = .iriref ∨ name = .turtleString ∨ name = .pnLocalEsc ∨ name = .anon := by
  cases name <;> first | exact absurd rfl h | simp

theorem firsts_begin {name : RuleName} (hname : firsts name ≠ []) {input rest : Bytes}
    {t : Trace RuleName} (h : Run turtle (.ref name) input (.ok rest) t) :
    ∃ b more, input = b :: more ∧ b ∈ firsts name := by
  have hchar : ∀ {c : Char} {rule : Rule RuleName}, turtle name = .seq (ch c) rule →
      ∃ more, input = char c :: more := by
    intro c rule hrule
    obtain ⟨_, hbody, -⟩ := h.ref_ok
    rw [hrule] at hbody
    exact ch_begins hbody
  cases name <;> first
    | exact absurd rfl hname
    | (obtain ⟨more, rfl⟩ := hchar rfl
       exact ⟨_, more, rfl, List.mem_singleton_self _⟩)
    | (obtain ⟨b, more, hb, rfl⟩ := turtleString_begins h
       exact ⟨b, more, rfl, by simpa [firsts] using hb⟩)

theorem firsts_unmatched {name : RuleName} (hname : firsts name ≠ []) {input : Bytes}
    (h : ∀ rest t, ¬ Run turtle (.ref name) input (.ok rest) t) :
    Yields (.ref name) input .fail [] := by
  refine unmatched_fails ?_ h
  cases name <;> first | rfl | exact absurd rfl hname

/-- They fail in front of anything else. -/
theorem firsts_fail {name : RuleName} (hname : firsts name ≠ []) {input : Bytes}
    (h : ∀ b ∈ input.head?, b ∉ firsts name) : Yields (.ref name) input .fail [] := by
  refine firsts_unmatched hname fun rest t hrun => ?_
  obtain ⟨b, more, rfl, hb⟩ := firsts_begin hname hrun
  exact h b rfl hb

/-! ## Positions -/

/-- A position in both documents. -/
inductive At (fork : Fork) (chunks : List Chunk) : (Bool → Bytes) → Prop where
  | inside {more : List Chunk} (h : more <:+ chunks) : At fork chunks (fork.weave more)
  | beyond {input : Bytes} (h : fork.Beyond input) : At fork chunks fun _ => input

/-- The rule fails at a position of both documents, or it matches in both and ends at a
position again; what is not layout is the same in both. -/
inductive Steps (fork : Fork) (chunks : List Chunk) (name : RuleName) (pos : Bool → Bytes) :
    Prop where
  | fail (h : ∀ side, Yields (.ref name) (pos side) .fail [])
  | ok {next : Bool → Bytes} {actions : Trace RuleName} (hnext : At fork chunks next)
      (h : ∀ side, Yields (.ref name) (pos side) (.ok (next side)) actions)
      (htext : name ≠ .ignored → ∃ text, ∀ side, pos side = text ++ next side)

theorem ignored_yields {input rest : Bytes} {t : Trace RuleName}
    (h : Run turtle (.ref .ignored) input (.ok rest) t) :
    Yields (.ref .ignored) input (.ok rest) [] := by
  obtain ⟨k, hk⟩ := h.keeps rfl
  exact (layout_yields hk).2

/-- Nothing is ignored twice. -/
theorem ignored_again {input rest : Bytes} {t : Trace RuleName}
    (h : Run turtle (.ref .ignored) input (.ok rest) t) :
    ∃ t, Run turtle (.ref .ignored) rest (.ok rest) t := by
  obtain ⟨rest', t', hagain⟩ := ignored_matches rest
  obtain ⟨_, hstar, -⟩ := h.ref_ok
  obtain ⟨_, hstar', -⟩ := hagain.ref_ok
  obtain rfl := hstar.star_again hstar'
  exact ⟨t', hagain⟩

/-- All layout in front of the next token is ignored. -/
theorem Woven.ignored (h : Woven fork more) (hmore : more <:+ chunks) :
    ∃ next, At fork chunks next ∧
      ∀ side, ∃ t, Run turtle (.ref .ignored) (fork.weave more side) (.ok (next side)) t := by
  induction more with
  | nil => exact ⟨_, .beyond fork.beyond, fork.ignored⟩
  | cons chunk more ih =>
      have hidle : chunk.isGap = false → ∃ next, At fork chunks next ∧ ∀ side, ∃ t,
          Run turtle (.ref .ignored) (fork.weave (chunk :: more) side) (.ok (next side)) t := by
        intro hgap
        refine ⟨_, .inside hmore, fun side => ignored_idle ?_⟩
        obtain ⟨b, text, htext, hb⟩ := h.1.begins
        rw [weave_cons, htext]
        exact startsToken_of_solid (h.1.solid hgap b hb) _
      cases chunk with
      | gap layout =>
          obtain ⟨next, hnext, hrun⟩ := ih h.2 ((List.suffix_cons _ _).trans hmore)
          refine ⟨next, hnext, fun side => ?_⟩
          rw [weave_cons]
          exact ignored_layout h.1.1 (hrun side)
      | byte _ | iri _ | string _ | escape _ => exact hidle rfl

theorem steps_ignored (hwoven : Woven fork chunks) {pos : Bool → Bytes}
    (hpos : At fork chunks pos) : Steps fork chunks .ignored pos := by
  have hnext : ∃ next, At fork chunks next ∧
      ∀ side, ∃ t, Run turtle (.ref .ignored) (pos side) (.ok (next side)) t := by
    cases hpos with
    | inside hmore => exact (hwoven.suffix hmore).ignored hmore
    | @beyond input hbeyond =>
        obtain ⟨rest, t, hrun⟩ := ignored_matches input
        exact ⟨_, .beyond (fork.piece _ _ _ _ rfl hbeyond hrun), fun _ => ⟨t, hrun⟩⟩
  obtain ⟨next, hnext, hrun⟩ := hnext
  have hyields : ∀ side, Yields (.ref .ignored) (pos side) (.ok (next side)) [] := by
    intro side
    obtain ⟨_, hrun⟩ := hrun side
    exact ignored_yields hrun
  exact .ok hnext hyields fun hname => absurd rfl hname

/-! ## Rules that read a piece as a whole -/

/-- Behind the layout both documents are the same. -/
theorem steps_beyond {name : RuleName} (hname : firsts name ≠ []) {input : Bytes}
    (hbeyond : fork.Beyond input) : Steps fork chunks name fun _ => input := by
  by_cases hmatch : ∃ rest t, Run turtle (.ref name) input (.ok rest) t
  · obtain ⟨rest, t, hrun⟩ := hmatch
    have hpiece : readsPiece name = true := by
      rcases firsts_cases hname with rfl | rfl | rfl | rfl <;> rfl
    have hnext : At fork chunks fun _ => rest := .beyond (fork.piece _ _ _ _ hpiece hbeyond hrun)
    obtain ⟨text, htext⟩ := hrun.suffix
    exact .ok hnext (fun _ => ⟨t, hrun, rfl⟩) fun _ => ⟨text, fun _ => htext⟩
  · exact .fail fun _ => firsts_unmatched hname fun rest t hrun => hmatch ⟨rest, t, hrun⟩

/-- Such a rule fails where no piece of its kind comes next. -/
theorem steps_fail {name : RuleName} (hname : firsts name ≠ []) {pos : Bool → Bytes}
    (h : ∀ side, ∀ b ∈ (pos side).head?, b ∉ firsts name) : Steps fork chunks name pos :=
  .fail fun side => firsts_fail hname (h side)

theorem steps_first {name : RuleName} (hname : firsts name ≠ [])
    (hwoven : Woven fork chunks) {pos : Bool → Bytes} (hpos : At fork chunks pos)
    (hpiece : ∀ chunk more, more <:+ chunks → chunk.Fits fork more →
      (∃ b ∈ chunk.openings, b ∈ firsts name) →
      Steps fork chunks name (fork.weave (chunk :: more))) :
    Steps fork chunks name pos := by
  have hlayout : ∀ b ∈ char '#' :: spaces, b ∉ firsts name := by
    rcases firsts_cases hname with rfl | rfl | rfl | rfl <;>
      exact List.all_iff_forall_prop.mp (by decide)
  cases hpos with
  | beyond hbeyond => exact steps_beyond hname hbeyond
  | @inside more hmore =>
      cases more with
      | nil => exact steps_fail hname fun side b hb => hlayout b (fork.begins side b hb)
      | cons chunk more =>
          have hfits := (hwoven.suffix hmore).1
          by_cases hfirst : ∃ b ∈ chunk.openings, b ∈ firsts name
          · exact hpiece chunk more ((List.suffix_cons _ _).trans hmore) hfits hfirst
          · refine steps_fail hname fun side b hb hfirsts => ?_
            obtain ⟨c, text, htext, hc⟩ := hfits.begins
            rw [weave_cons, htext] at hb
            obtain rfl := Option.mem_some_iff.mp hb
            exact hfirst ⟨_, hc, hfirsts⟩

theorem token_yields {name : RuleName} (hname : (turtle name).names.all silent = true)
    {text rest : Bytes} {t : Trace RuleName}
    (h : Run turtle (.ref name) (text ++ rest) (.ok rest) t) :
    Yields (.ref name) (text ++ rest) (.ok rest) (essential (name, text)).toList := by
  obtain ⟨text', htext, -, hessence⟩ := token_essence hname h
  obtain rfl : text = text' := List.append_cancel_right htext
  exact ⟨t, h, hessence⟩

/-- A piece of its kind is matched as a whole. -/
theorem steps_piece {name : RuleName} (hname : (turtle name).names.all silent = true)
    {chunk : Chunk} (hmore : more <:+ chunks)
    (hrun : ∀ side, ∃ t, Run turtle (.ref name) (chunk.text ++ fork.weave more side)
      (.ok (fork.weave more side)) t) :
    Steps fork chunks name (fork.weave (chunk :: more)) := by
  have hyields : ∀ side, Yields (.ref name) (fork.weave (chunk :: more) side)
      (.ok (fork.weave more side)) (essential (name, chunk.text)).toList := by
    intro side
    obtain ⟨_, hrun⟩ := hrun side
    rw [weave_cons]
    exact token_yields hname hrun
  exact .ok (.inside hmore) hyields fun _ => ⟨chunk.text, fun side => weave_cons chunk⟩

/-- What begins like a piece is one. -/
theorem Chunk.Fits.rule_eq {chunk : Chunk} (hfits : chunk.Fits fork chunks) {name : RuleName}
    (hname : name = .iriref ∨ name = .turtleString ∨ name = .pnLocalEsc) {b : UInt8}
    (hb : b ∈ chunk.openings) (hfirst : b ∈ firsts name) : chunk.rule = some name := by
  cases chunk with
  | byte c =>
      obtain rfl := List.mem_singleton.mp hb
      have hmarks : ∀ c ∈ firsts name, c ∈ marks := by
        rcases hname with rfl | rfl | rfl <;> exact List.all_iff_forall_prop.mp (by decide)
      exact absurd (hmarks b hfirst) hfits.1
  | gap layout =>
      have hlayout : ∀ c ∈ char '#' :: spaces, c ∉ firsts name := by
        rcases hname with rfl | rfl | rfl <;> exact List.all_iff_forall_prop.mp (by decide)
      exact absurd hfirst (hlayout b hb)
  | iri _ | escape _ =>
      obtain rfl := List.mem_singleton.mp hb
      rcases hname with rfl | rfl | rfl <;> first | rfl | exact absurd hfirst (by decide)
  | string _ =>
      have hcases : b = char '"' ∨ b = char '\'' := by simpa [openings] using hb
      rcases hcases with rfl | rfl <;> rcases hname with rfl | rfl | rfl <;>
        first | rfl | exact absurd hfirst (by decide)

/-- The rules for pieces. -/
theorem steps_rule {name : RuleName}
    (hname : name = .iriref ∨ name = .turtleString ∨ name = .pnLocalEsc)
    (hwoven : Woven fork chunks) {pos : Bool → Bytes}
    (hpos : At fork chunks pos) : Steps fork chunks name pos := by
  have hfirsts : firsts name ≠ [] := by rcases hname with rfl | rfl | rfl <;> decide
  refine steps_first hfirsts hwoven hpos ?_
  rintro chunk more hmore hfits ⟨b, hb, hfirst⟩
  have hrule := hfits.rule_eq hname hb hfirst
  cases chunk with
  | byte _ | gap _ => cases hrule
  | iri text =>
      obtain rfl := Option.some.inj hrule
      obtain ⟨rest, _, hrun⟩ := hfits
      exact steps_piece (by decide) hmore fun side => portable_iriref _ _ _ _ hrun
  | string text =>
      obtain rfl := Option.some.inj hrule
      exact steps_piece (by decide) hmore hfits
  | escape text =>
      obtain rfl := Option.some.inj hrule
      obtain ⟨rest, _, hrun⟩ := hfits
      exact steps_piece (by decide) hmore
        fun side => portable_pnLocalEsc _ _ _ _ hrun

/-! ## Anonymous nodes -/

/-- Blanks in front of a closing bracket are pieces of layout, or the documents part in
front of it. -/
theorem Woven.blanks (h : Woven fork chunks) {blanks rest : Bytes}
    (hblanks : ∀ b ∈ blanks, b ∈ anonBlanks)
    (hinput : fork.weave chunks side = blanks ++ char ']' :: rest) :
    (∃ gaps after, chunks = gaps ++ .byte (char ']') :: after ∧ textOf gaps = blanks) ∨
      (∀ c ∈ chunks, c.isGap = true) ∧ fork.final = char ']' :: rest := by
  induction chunks generalizing blanks with
  | nil =>
      obtain ⟨t, hignored⟩ := fork.ignored side
      rw [← weave_nil, hinput] at hignored
      exact .inr ⟨by simp, bracket_ends hblanks hignored⟩
  | cons chunk chunks ih =>
      rw [weave_cons] at hinput
      cases hgap : chunk.isGap with
      | true =>
          obtain ⟨layout, rfl⟩ : ∃ layout, chunk = .gap layout := by
            cases chunk <;> first | exact ⟨_, rfl⟩ | cases hgap
          have hsplit : ∃ more, blanks = layout ++ more ∧
              fork.weave chunks side = more ++ char ']' :: rest := by
            rcases List.append_eq_append_iff.mp hinput with ⟨more, rfl, hmore⟩ |
              ⟨more, hlayout, hmore⟩
            · exact ⟨more, rfl, hmore⟩
            · cases more with
              | nil =>
                  rw [List.append_nil] at hlayout
                  refine ⟨[], ?_, hmore.symm⟩
                  rw [List.append_nil]
                  exact hlayout.symm
              | cons c more =>
                  obtain ⟨rfl, -⟩ := List.cons.inj hmore
                  have hend : StartsToken [] := by simp [StartsToken]
                  obtain ⟨_, hignored⟩ := ignored_complete h.1.1 hend
                  rw [List.append_nil, show layout = _ from hlayout] at hignored
                  cases bracket_ends hblanks hignored
          obtain ⟨more, rfl, hmore⟩ := hsplit
          rcases ih h.2 (fun b hb => hblanks b (List.mem_append_right _ hb)) hmore with
            ⟨gaps, after, rfl, htext⟩ | ⟨hgaps, hfinal⟩
          · refine .inl ⟨.gap layout :: gaps, after, rfl, ?_⟩
            rw [textOf_cons, htext]
            rfl
          · refine .inr ⟨fun c hc => ?_, hfinal⟩
            rcases List.mem_cons.mp hc with rfl | hc
            · rfl
            · exact hgaps c hc
      | false =>
          obtain ⟨b, text, htext, hb⟩ := h.1.begins
          have hsolid := h.1.solid hgap b hb
          rw [htext] at hinput
          cases blanks with
          | cons c blanks =>
              obtain rfl : b = c := (List.cons.inj hinput).1
              have hspaces : ∀ c ∈ anonBlanks, c ∈ char '#' :: spaces :=
                List.all_iff_forall_prop.mp (by decide)
              exact absurd (hspaces b (hblanks b List.mem_cons_self)) hsolid
          | nil =>
              obtain ⟨rfl, -⟩ := List.cons.inj hinput
              cases chunk with
              | byte c =>
                  obtain rfl := List.mem_singleton.mp hb
                  exact .inl ⟨[], chunks, rfl, rfl⟩
              | gap _ => cases hgap
              | iri _ | string _ | escape _ =>
                  exfalso
                  revert hb
                  simp only [Chunk.openings]
                  decide

/-- `ANON` matches in both documents or in none: it ends before the documents part. -/
theorem steps_anon (hwoven : Woven fork chunks) {pos : Bool → Bytes}
    (hpos : At fork chunks pos) : Steps fork chunks .anon pos := by
  refine steps_first (by decide) hwoven hpos ?_
  rintro chunk more hmore hfits ⟨b, hb, hfirst⟩
  obtain rfl := List.mem_singleton.mp hfirst
  obtain rfl : chunk = .byte (char '[') := by
    cases chunk with
    | byte c => rw [List.mem_singleton.mp hb]
    | iri _ | string _ | escape _ | gap _ =>
        exfalso
        revert hb
        simp only [Chunk.openings]
        decide
  -- a match in one of them is a match in both
  have hboth : ∀ side rest t,
      Run turtle (.ref .anon) (fork.weave (.byte (char '[') :: more) side) (.ok rest) t →
      ∃ after text, after <:+ chunks ∧ ∀ side, fork.weave (.byte (char '[') :: more) side =
        text ++ fork.weave after side ∧ ∃ t, Run turtle (.ref .anon)
          (text ++ fork.weave after side) (.ok (fork.weave after side)) t := by
    intro side rest t hrun
    obtain ⟨blanks, hinput, hblanks⟩ := anon_iff.mp ⟨t, hrun⟩
    rcases (hwoven.suffix hmore).blanks hblanks hinput with ⟨gaps, after, rfl, htext⟩ |
      ⟨hgaps, hfinal⟩
    · refine ⟨after, char '[' :: (blanks ++ [char ']']), ?_, fun side => ⟨?_, ?_⟩⟩
      · exact ((List.suffix_cons _ _).trans (List.suffix_append _ _)).trans hmore
      · simp [Fork.weave, htext, Chunk.text]
      · rw [List.cons_append, List.append_assoc]
        exact anon_iff.mpr ⟨blanks, rfl, hblanks⟩
    · have hopen := hfits.2 rfl hgaps (char ']')
      rw [hfinal] at hopen
      exact absurd rfl (hopen rfl)
  by_cases hmatch : ∃ rest t,
      Run turtle (.ref .anon) (fork.weave (.byte (char '[') :: more) false) (.ok rest) t
  · obtain ⟨rest, t, hrun⟩ := hmatch
    obtain ⟨after, text, hafter, hsides⟩ := hboth false rest t hrun
    have hyields : ∀ side, Yields (.ref .anon) (fork.weave (.byte (char '[') :: more) side)
        (.ok (fork.weave after side)) (essential (.anon, text)).toList := by
      intro side
      obtain ⟨hweave, _, hrun⟩ := hsides side
      rw [hweave]
      exact token_yields (by decide) hrun
    exact .ok (.inside hafter) hyields fun _ => ⟨text, fun side => (hsides side).1⟩
  · refine .fail fun side => firsts_unmatched (by decide) fun rest t hrun => hmatch ?_
    obtain ⟨after, text, -, hsides⟩ := hboth side rest t hrun
    obtain ⟨hweave, t, hrun⟩ := hsides false
    exact ⟨_, t, hweave ▸ hrun⟩

/-! ## Both documents are read in the same way -/

/-- The rules whose actions read a text with layout in it. -/
def declares : RuleName → Bool
  | .prefixID | .sparqlPrefix | .base | .sparqlBase => true
  | _ => false

/-- An action without such a text. -/
def blur (entry : RuleName × Bytes) : RuleName × Bytes :=
  if declares entry.1 then (entry.1, []) else entry

def blurred (entry : RuleName × Bytes) : Option (RuleName × Bytes) := (essential entry).map blur

theorem filterMap_blurred (t : Trace RuleName) : t.filterMap blurred = (essence t).map blur := by
  unfold essence
  rw [List.map_filterMap]
  rfl

/-- The rules that are not used inside of pieces only. -/
def outsidePieces : RuleName → Bool
  | .comment | .uchar | .echar | .anonWs | .grammar _ => false
  | .stringLiteralLongQuote | .stringLiteralQuote => false
  | .stringLiteralSingleQuote | .stringLiteralLongSingleQuote => false
  | _ => true

/-- The rules that match no layout. -/
def gapless : RuleName → Bool
  | .ignored | .comment => false
  | name => inTerm name

/-- Two positions of the documents. -/
def Opposite (fork : Fork) (chunks : List Chunk) (input input' : Bytes) : Prop :=
  ∃ pos, At fork chunks pos ∧ input = pos false ∧ input' = pos true

theorem aligned (hwoven : Woven fork chunks) :
    Aligned marks (Opposite fork chunks) := by
  refine ⟨List.all_iff_forall_prop.mp (by decide), ?_⟩
  rintro _ _ ⟨pos, hpos, rfl, rfl⟩
  suffices hpos : (∃ b next, b ∉ marks ∧ At fork chunks next ∧
      ∀ side, pos side = b :: next side) ∨ ∀ side, ∀ b ∈ (pos side).head?, b ∈ marks by
    rcases hpos with ⟨b, next, hb, hnext, hside⟩ | hmarks
    · exact .inl ⟨b, _, _, hb, hside false, hside true, next, hnext, rfl, rfl⟩
    · exact .inr ⟨hmarks false, hmarks true⟩
  cases hpos with
  | @beyond input hbeyond =>
      cases input with
      | nil => exact .inr fun _ b hb => by cases hb
      | cons b rest =>
          by_cases hb : b ∈ marks
          · refine .inr fun _ c hc => ?_
            obtain rfl := Option.mem_some_iff.mp hc
            exact hb
          · exact .inl ⟨b, fun _ => rest, hb, .beyond (fork.byte b rest hbeyond hb),
              fun _ => rfl⟩
  | @inside more hmore =>
      cases more with
      | nil => exact .inr fun side b hb => layout_marks (fork.begins side b hb)
      | cons chunk more =>
          have hfits := (hwoven.suffix hmore).1
          have hmarked : (∀ b ∈ chunk.openings, b ∈ marks) →
              ∀ side, ∀ b ∈ (fork.weave (chunk :: more) side).head?, b ∈ marks := by
            intro hopenings side b hb
            obtain ⟨c, text, htext, hc⟩ := hfits.begins
            rw [weave_cons, htext] at hb
            obtain rfl := Option.mem_some_iff.mp hb
            exact hopenings _ hc
          cases chunk with
          | byte b =>
              exact .inl ⟨b, fork.weave more, hfits.1,
                .inside ((List.suffix_cons _ _).trans hmore), fun side => weave_cons _⟩
          | gap _ => exact .inr (hmarked fun b hb => layout_marks hb)
          | iri _ | string _ | escape _ =>
              refine .inr (hmarked ?_)
              simp [Chunk.openings, marks]

/-- Such a step in the first document is one in the second. -/
theorem Steps.mirrored {name : RuleName} {pos : Bool → Bytes}
    (h : Steps fork chunks name pos) {outcome : Outcome} {t : Trace RuleName}
    (hrun : Run turtle (.ref name) (pos false) outcome t) :
    Mirrored turtle (Opposite fork chunks) blurred (gapless name = true) (.ref name)
      (pos false) (pos true) outcome t := by
  have hactions : Yields (.ref name) (pos false) outcome (essence t) := ⟨t, hrun, rfl⟩
  cases h with
  | fail hfail =>
      obtain ⟨rfl, hessence⟩ := hactions.unique (hfail false)
      obtain ⟨t', hrun', hessence'⟩ := hfail true
      refine ⟨.fail, t', hrun', .fail, ?_, by rintro - _ _ ⟨⟩⟩
      rw [filterMap_blurred, filterMap_blurred, hessence, hessence']
  | ok hnext hok htext =>
      obtain ⟨rfl, hessence⟩ := hactions.unique (hok false)
      obtain ⟨t', hrun', hessence'⟩ := hok true
      refine ⟨_, t', hrun', .ok ⟨_, hnext, rfl, rfl⟩, ?_, ?_⟩
      · rw [filterMap_blurred, filterMap_blurred, hessence, hessence']
      · intro hname _ _ hout hout'
        cases hout
        cases hout'
        obtain ⟨text, hside⟩ := htext (by
          rintro rfl
          exact absurd hname Bool.false_ne_true)
        exact ⟨text, hside false, hside true⟩

theorem simulation (hwoven : Woven fork chunks) :
    Simulation turtle marks (Opposite fork chunks) blurred outsidePieces readsPiece
      gapless where
  aligned := aligned hwoven
  tracks name hname hpiece := by
    cases name
    all_goals first
      | exact absurd hname Bool.false_ne_true
      | exact absurd hpiece (by decide)
      | decide
      | rename_i q
        cases q <;> decide
  exact name hname hpiece := by
    cases name
    all_goals first
      | exact absurd hname Bool.false_ne_true
      | exact absurd hpiece (by decide)
      | decide
  hidden name hname hpiece text text' := by
    cases name
    all_goals first
      | rfl
      | exact absurd hname (by decide)
  atoms name hname input input' outcome t := by
    rintro ⟨pos, hpos, rfl, rfl⟩ hrun
    have hsteps : Steps fork chunks name pos := by
      cases name
      all_goals first
        | exact absurd hname Bool.false_ne_true
        | exact steps_ignored hwoven hpos
        | exact steps_anon hwoven hpos
        | exact steps_rule (by decide) hwoven hpos
    exact hsteps.mirrored hrun

end Fork

end RdfParser.Turtle
