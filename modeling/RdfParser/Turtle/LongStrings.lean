/-
  Turtle/LongStrings.lean --- where a long string ends.

  The body of a long string may contain quotation marks, one or two of them before any
  other character.  The repetition that reads it stops exactly at the first three that
  are not escaped, if what looks like an escape before them is one.
-/
import RdfParser.Foundation.Escaping
import RdfParser.Turtle.Portable

set_option autoImplicit false

namespace RdfParser.Turtle

open RdfParser.Foundation RdfParser.Peg RdfParser.Peg.Rule

/-! ## Escapes -/

/-- `ECHAR`: a backslash and one of these characters. -/
def IsEchar (text : Bytes) : Prop :=
  ∃ c ∈ bytes "tbnrf\"'\\", text = [char '\\', c]

/-- `UCHAR`: a backslash, `u` with four hexadecimal digits or `U` with eight. -/
def IsUchar (text : Bytes) : Prop :=
  ∃ digits : Bytes, (∀ d ∈ digits, isHex d = true) ∧
    (digits.length = 4 ∧ text = char '\\' :: char 'u' :: digits ∨
      digits.length = 8 ∧ text = char '\\' :: char 'U' :: digits)

/-- The input starts with an `ECHAR` or a `UCHAR`. -/
def StartsEscape (input : Bytes) : Prop :=
  ∃ text, (IsEchar text ∨ IsUchar text) ∧ text <+: input

section Escapes

variable {input rest : Bytes} {t : Trace RuleName}

theorem echar_iff :
    (∃ t, Run turtle (.ref .echar) input (.ok rest) t) ↔
      ∃ text, IsEchar text ∧ input = text ++ rest := by
  have hletter : ∀ {input}, (∃ t, Run turtle (sorOf (ch 't') ((bytes "bnrf\"'\\").map one)) input
      (.ok rest) t) ↔ ∃ c ∈ bytes "tbnrf\"'\\", input = c :: rest := Run.sorOf_one_iff
  constructor
  · rintro ⟨t, hrun⟩
    obtain ⟨_, hbody, -⟩ := hrun.ref_ok
    obtain ⟨_, _, _, hslash, hmore, -⟩ := hbody.seq_ok
    obtain ⟨b, hb, rfl, -⟩ := hslash.byte_ok
    obtain ⟨c, hc, rfl⟩ := hletter.mp ⟨_, hmore⟩
    exact ⟨_, ⟨c, hc, rfl⟩, by rw [beq_iff_eq.mp hb]; rfl⟩
  · rintro ⟨_, ⟨c, hc, rfl⟩, rfl⟩
    obtain ⟨_, hmore⟩ := hletter.mpr ⟨c, hc, rfl⟩
    exact ⟨_, .ref (.seqNext (ch_matches '\\' _) hmore)⟩

theorem hex_iff :
    (∃ t, Run turtle (.ref .hex) input (.ok rest) t) ↔
      ∃ d, isHex d = true ∧ input = d :: rest := by
  constructor
  · rintro ⟨t, hrun⟩
    obtain ⟨_, hbody, -⟩ := hrun.ref_ok
    obtain ⟨d, hd, rfl, -⟩ := hbody.byte_ok
    exact ⟨d, hd, rfl⟩
  · rintro ⟨d, hd, rfl⟩
    exact ⟨_, .ref (.byteOk hd)⟩

theorem hexDigits_iff {n : Nat} :
    (∃ t, Run turtle (seqOf (List.replicate n (.ref .hex))) input (.ok rest) t) ↔
      ∃ digits : Bytes, digits.length = n ∧ (∀ d ∈ digits, isHex d = true) ∧
        input = digits ++ rest := by
  induction n generalizing input with
  | zero =>
      constructor
      · rintro ⟨t, hrun⟩
        exact ⟨[], rfl, List.forall_mem_nil _, (Run.seqOf_nil_iff.mp hrun).1⟩
      · rintro ⟨digits, hlength, -, rfl⟩
        obtain rfl := List.length_eq_zero_iff.mp hlength
        exact ⟨[], .success⟩
  | succ n ih =>
      rw [List.replicate_succ]
      constructor
      · rintro ⟨t, hrun⟩
        obtain ⟨middle, _, _, hfirst, hmore, -⟩ := Run.seqOf_cons_iff.mp hrun
        obtain ⟨d, hd, rfl⟩ := hex_iff.mp ⟨_, hfirst⟩
        obtain ⟨digits, hlength, hdigits, rfl⟩ := ih.mp ⟨_, hmore⟩
        exact ⟨d :: digits, congrArg (· + 1) hlength, List.forall_mem_cons.mpr ⟨hd, hdigits⟩, rfl⟩
      · rintro ⟨digits, hlength, hdigits, rfl⟩
        cases digits with
        | nil => cases hlength
        | cons d digits =>
            obtain ⟨hd, hdigits⟩ := List.forall_mem_cons.mp hdigits
            obtain ⟨_, hfirst⟩ := hex_iff.mpr ⟨d, hd, rfl⟩
            obtain ⟨_, hmore⟩ := ih.mpr ⟨digits, Nat.succ_inj.mp hlength, hdigits, rfl⟩
            exact ⟨_, Run.seqOf_cons_iff.mpr ⟨_, _, _, hfirst, hmore, rfl⟩⟩

/-- One of the two forms of `UCHAR`. -/
theorem ucharForm_iff {c : Char} {n : Nat} :
    (∃ t, Run turtle (seqOf (ch '\\' :: ch c :: List.replicate n (.ref .hex))) input (.ok rest)
      t) ↔ ∃ digits : Bytes, digits.length = n ∧ (∀ d ∈ digits, isHex d = true) ∧
        input = (char '\\' :: char c :: digits) ++ rest := by
  constructor
  · rintro ⟨t, hrun⟩
    obtain ⟨_, _, _, hslash, hmore, -⟩ := Run.seqOf_cons_iff.mp hrun
    obtain ⟨_, _, _, hletter, hdigits, -⟩ := Run.seqOf_cons_iff.mp hmore
    obtain ⟨a, ha, rfl, -⟩ := hslash.byte_ok
    obtain ⟨b, hb, rfl, -⟩ := hletter.byte_ok
    obtain ⟨digits, hlength, hhex, rfl⟩ := hexDigits_iff.mp ⟨_, hdigits⟩
    exact ⟨digits, hlength, hhex, by rw [beq_iff_eq.mp ha, beq_iff_eq.mp hb]; rfl⟩
  · rintro ⟨digits, hlength, hhex, rfl⟩
    obtain ⟨_, hdigits⟩ := hexDigits_iff.mpr ⟨digits, hlength, hhex, rfl⟩
    exact ⟨_, Run.seqOf_cons_iff.mpr ⟨_, _, _, ch_matches '\\' _,
      Run.seqOf_cons_iff.mpr ⟨_, _, _, ch_matches c _, hdigits, rfl⟩, rfl⟩⟩

theorem uchar_iff :
    (∃ t, Run turtle (.ref .uchar) input (.ok rest) t) ↔
      ∃ text, IsUchar text ∧ input = text ++ rest := by
  constructor
  · rintro ⟨t, hrun⟩
    obtain ⟨_, hbody, -⟩ := hrun.ref_ok
    rcases hbody.sor_ok with hfour | ⟨_, _, -, height, -⟩
    · have hform : ∃ t, Run turtle (seqOf (ch '\\' :: ch 'u' :: List.replicate 4 (.ref .hex)))
        input (.ok rest) t := ⟨_, hfour⟩
      obtain ⟨digits, hlength, hhex, rfl⟩ := ucharForm_iff.mp hform
      exact ⟨_, ⟨digits, hhex, .inl ⟨hlength, rfl⟩⟩, rfl⟩
    · have hform : ∃ t, Run turtle (seqOf (ch '\\' :: ch 'U' :: List.replicate 8 (.ref .hex)))
        input (.ok rest) t := ⟨_, height⟩
      obtain ⟨digits, hlength, hhex, rfl⟩ := ucharForm_iff.mp hform
      exact ⟨_, ⟨digits, hhex, .inr ⟨hlength, rfl⟩⟩, rfl⟩
  · rintro ⟨text, ⟨digits, hhex, ⟨hlength, rfl⟩ | ⟨hlength, rfl⟩⟩, rfl⟩
    · have hform : ∃ t, Run turtle (seqOf (ch '\\' :: ch 'u' :: List.replicate 4 (.ref .hex)))
        _ (.ok rest) t := ucharForm_iff.mpr ⟨digits, hlength, hhex, rfl⟩
      obtain ⟨t, hform⟩ := hform
      exact ⟨_, .ref (.sorStop hform (by simp))⟩
    · have hform : ∃ t, Run turtle (seqOf (ch '\\' :: ch 'U' :: List.replicate 8 (.ref .hex)))
        _ (.ok rest) t := ucharForm_iff.mpr ⟨digits, hlength, hhex, rfl⟩
      obtain ⟨t, hform⟩ := hform
      have hu : Yields (seqOf [ch '\\', ch 'u', .ref .hex, .ref .hex, .ref .hex, .ref .hex])
          (char '\\' :: char 'U' :: digits ++ rest) .fail [] :=
        Yields.seq ⟨[], ch_matches '\\' _, rfl⟩ (ch_fails (by decide) _).stop
      obtain ⟨_, hu, -⟩ := hu
      exact ⟨_, .ref (.sorNext hu hform)⟩

/-- Such a text is matched, and nothing else. -/
theorem escapes_iff :
    (∃ t, Run turtle escapes input (.ok rest) t) ↔
      ∃ text, (IsEchar text ∨ IsUchar text) ∧ input = text ++ rest := by
  constructor
  · rintro ⟨t, hrun⟩
    rcases hrun.sor_ok with hechar | ⟨_, _, -, huchar, -⟩
    · obtain ⟨text, htext, rfl⟩ := echar_iff.mp ⟨_, hechar⟩
      exact ⟨text, .inl htext, rfl⟩
    · obtain ⟨text, htext, rfl⟩ := uchar_iff.mp ⟨_, huchar⟩
      exact ⟨text, .inr htext, rfl⟩
  · rintro ⟨text, htext | htext, rfl⟩
    · obtain ⟨_, hechar⟩ := echar_iff.mpr ⟨text, htext, rfl⟩
      exact ⟨_, .sorStop hechar (by simp)⟩
    · have hechar : Yields (.ref .echar) (text ++ rest) .fail [] := by
        refine unmatched_fails rfl fun after t hrun => ?_
        obtain ⟨_, ⟨c, hc, rfl⟩, hinput⟩ := echar_iff.mp ⟨t, hrun⟩
        rcases htext with ⟨digits, -, ⟨-, rfl⟩ | ⟨-, rfl⟩⟩
        · obtain ⟨rfl, -⟩ := List.cons.inj (List.cons.inj hinput).2
          exact absurd hc (by decide)
        · obtain ⟨rfl, -⟩ := List.cons.inj (List.cons.inj hinput).2
          exact absurd hc (by decide)
      obtain ⟨_, hechar, -⟩ := hechar
      obtain ⟨_, huchar⟩ := uchar_iff.mpr ⟨text, htext, rfl⟩
      exact ⟨_, .sorNext hechar huchar⟩

end Escapes

/-! ## The body -/

section Body

variable {c : Char} {text input middle more rest : Bytes} {b : UInt8} {t : Trace RuleName}

/-- Behind the opening quotation marks of a long string: `rest` is what is left behind the
first three that are not escaped, and what looks like an escape before them is one. -/
abbrev EndsString (c : Char) : Bytes → Bytes → Prop :=
  Closed (char '\\') [char c, char c, char c] StartsEscape

theorem endsString_cons_iff (hslash : b ≠ char '\\') (hmark : b ≠ char c) :
    EndsString c (b :: more) rest ↔ EndsString c more rest :=
  closed_cons_iff hslash fun hprefix => hmark (List.cons_prefix_cons.mp hprefix).1.symm

/-- The quotation marks in front. -/
theorem leading_marks (c : Char) (input : Bytes) :
    ∃ n tail, input = List.replicate n (char c) ++ tail ∧ ∀ b ∈ tail.head?, b ≠ char c := by
  induction input with
  | nil => exact ⟨0, [], rfl, by simp⟩
  | cons b input ih =>
      by_cases hb : b = char c
      · obtain ⟨n, tail, rfl, htail⟩ := ih
        exact ⟨n + 1, tail, by rw [hb]; rfl, htail⟩
      · refine ⟨0, b :: input, rfl, fun d hd => ?_⟩
        obtain rfl := Option.mem_some_iff.mp hd
        exact hb

section Mark

variable (hc : c = '"' ∨ c = '\'')
include hc

theorem mark_ne_slash : char c ≠ char '\\' := by
  rcases hc with rfl | rfl <;> decide

theorem hex_ne {d : UInt8} (hd : isHex d = true) : d ≠ char '\\' ∧ d ≠ char c := by
  constructor
  · rintro rfl
    exact absurd hd (by decide)
  · rintro rfl
    rcases hc with rfl | rfl
    · exact absurd hd (by decide)
    · exact absurd hd (by decide)

/-- One or two quotation marks do not close the string. -/
theorem endsString_marks_iff (hb : b ≠ char c) {n : Nat} (hn : n ≤ 2) :
    EndsString c (List.replicate n (char c) ++ b :: more) rest ↔ EndsString c (b :: more) rest := by
  have hone : EndsString c (char c :: b :: more) rest ↔ EndsString c (b :: more) rest := by
    refine closed_cons_iff (mark_ne_slash hc) fun hprefix => ?_
    exact hb (List.cons_prefix_cons.mp (List.cons_prefix_cons.mp hprefix).2).1.symm
  have hcases : n = 0 ∨ n = 1 ∨ n = 2 := by omega
  rcases hcases with rfl | rfl | rfl
  · exact Iff.rfl
  · exact hone
  · refine Iff.trans (closed_cons_iff (mark_ne_slash hc) fun hprefix => ?_) hone
    have htwo := (List.cons_prefix_cons.mp (List.cons_prefix_cons.mp hprefix).2).2
    exact hb (List.cons_prefix_cons.mp htwo).1.symm

theorem endsString_hex_iff {digits : Bytes} (hdigits : ∀ d ∈ digits, isHex d = true) :
    EndsString c (digits ++ more) rest ↔ EndsString c more rest := by
  induction digits with
  | nil => exact Iff.rfl
  | cons d digits ih =>
      obtain ⟨hd, hdigits⟩ := List.forall_mem_cons.mp hdigits
      obtain ⟨hslash, hmark⟩ := hex_ne hc hd
      exact (endsString_cons_iff hslash hmark).trans (ih hdigits)

theorem endsString_escape_iff (hescape : StartsEscape (char '\\' :: b :: more)) :
    EndsString c (char '\\' :: b :: more) rest ↔ EndsString c more rest :=
  closed_escape_iff hescape fun hprefix =>
    mark_ne_slash hc (List.cons_prefix_cons.mp hprefix).1

theorem stringChar_begins (h : Run turtle (stringChar [char c, char '\\']) input (.ok middle) t) :
    ∃ b more, input = b :: more ∧ b ≠ char c := by
  have hconsumes := h.consumes consuming_closed rfl
  cases input with
  | nil => exact absurd hconsumes (Nat.not_lt_zero _)
  | cons b more =>
      refine ⟨b, more, rfl, ?_⟩
      rintro rfl
      obtain ⟨_, hfail⟩ : ∃ t, Run turtle (stringChar [char c, char '\\']) (char c :: more)
          .fail t :=
        stringChar_fails List.mem_cons_self (mark_ne_slash hc) more
      cases (h.deterministic hfail).1

/-- A character of the string does not close it. -/
theorem endsString_stringChar_iff
    (h : Run turtle (stringChar [char c, char '\\']) input (.ok middle) t) :
    EndsString c input rest ↔ EndsString c middle rest := by
  rcases h.sor_ok with hbyte | ⟨_, _, -, hescape, -⟩
  · obtain ⟨b, hb, rfl, -⟩ := hbyte.byte_ok
    have hne : b ≠ char c ∧ b ≠ char '\\' := by simpa using hb
    exact endsString_cons_iff hne.2 hne.1
  · obtain ⟨text, htext, rfl⟩ := escapes_iff.mp ⟨_, hescape⟩
    have hstarts : StartsEscape (text ++ middle) := ⟨text, htext, List.prefix_append _ _⟩
    rcases htext with ⟨d, -, rfl⟩ | ⟨digits, hdigits, ⟨-, rfl⟩ | ⟨-, rfl⟩⟩
    · exact endsString_escape_iff hc hstarts
    · exact (endsString_escape_iff hc hstarts).trans (endsString_hex_iff hc hdigits)
    · exact (endsString_escape_iff hc hstarts).trans (endsString_hex_iff hc hdigits)

/-- Neither does one with quotation marks before it. -/
theorem endsString_longChar_iff (h : Run turtle (longChar c) input (.ok middle) t) :
    EndsString c input rest ↔ EndsString c middle rest := by
  obtain ⟨_, _, _, hmarks, hchar, -⟩ := h.seq_ok
  obtain ⟨n, hn, rfl⟩ := marks_sound hmarks
  obtain ⟨b, more, rfl, hb⟩ := stringChar_begins hc hchar
  exact (endsString_marks_iff hc hb hn).trans (endsString_stringChar_iff hc hchar)

/-- Neither does the whole body. -/
theorem endsString_body_iff (h : Run turtle (longStringBody c) input (.ok middle) t) :
    EndsString c input rest ↔ EndsString c middle rest := by
  obtain ⟨text, rfl, htext⟩ : ∃ text, input = text ++ middle ∧
      ∀ more, EndsString c (text ++ more) rest ↔ EndsString c more rest := by
    refine Run.star_induction (fun more => Iff.rfl) ?_ h
    intro text middle t more hchar ih tail
    obtain ⟨_, hchar⟩ := portable_longChar (mark_ne_slash hc) _ _ (more ++ tail) _ hchar
    rw [List.append_assoc]
    exact (endsString_longChar_iff hc hchar).trans (ih tail)
  exact htext middle

/-- Three quotation marks end the body. -/
theorem longChar_fails (more : Bytes) :
    ∃ t, Run turtle (longChar c) (char c :: char c :: char c :: more) .fail t := by
  obtain ⟨_, hfail⟩ : ∃ t, Run turtle (stringChar [char c, char '\\']) (char c :: more) .fail t :=
    stringChar_fails List.mem_cons_self (mark_ne_slash hc) more
  exact ⟨_, .seqNext (.sorStop (.sorStop (.seqNext (ch_matches c _) (ch_matches c _)) (by simp))
    (by simp)) hfail⟩

/-- Where the string is going to end, a character of it can be read. -/
theorem stringChar_complete (hb : b ≠ char c) (h : EndsString c (b :: more) rest) :
    ∃ middle t, Run turtle (stringChar [char c, char '\\']) (b :: more) (.ok middle) t := by
  by_cases hslash : b = char '\\'
  · subst hslash
    obtain ⟨i, hi, -⟩ := h
    have hpos : 0 < i := by
      refine Nat.pos_of_ne_zero ?_
      rintro rfl
      exact mark_ne_slash hc (List.cons_prefix_cons.mp hi.closes.2).1
    obtain ⟨text, htext, middle, hinput⟩ : StartsEscape (char '\\' :: more) :=
      hi.valid 0 hpos rfl rfl
    obtain ⟨_, hescape⟩ := escapes_iff.mpr ⟨text, htext, hinput.symm⟩
    refine ⟨middle, _, .sorNext (.byteFail fun d hd => ?_) hescape⟩
    obtain rfl := Option.mem_some_iff.mp hd
    simp
  · exact ⟨more, _, .sorStop (.byteOk (by simp [hb, hslash])) (by simp)⟩

/-- It is closed here, or has another character. -/
theorem longChar_progress (h : EndsString c input rest) :
    (∃ more, input = char c :: char c :: char c :: more) ∨
      ∃ middle t, Run turtle (longChar c) input (.ok middle) t := by
  obtain ⟨n, tail, rfl, htail⟩ := leading_marks c input
  by_cases hn : n ≤ 2
  · cases tail with
    | nil =>
        obtain ⟨i, hi, -⟩ := h
        have hlength := hi.closes.2.length_le
        simp only [List.length_cons, List.length_drop, List.length_append,
          List.length_replicate, List.length_nil] at hlength
        omega
    | cons b more =>
        have hb := htail b rfl
        obtain ⟨_, hmarks⟩ := marks_complete hb more hn
        obtain ⟨middle, _, hchar⟩ :=
          stringChar_complete hc hb ((endsString_marks_iff hc hb hn).mp h)
        exact .inr ⟨middle, _, .seqNext hmarks hchar⟩
  · obtain ⟨m, rfl⟩ : ∃ m, n = m + 3 := ⟨n - 3, by omega⟩
    exact .inl ⟨List.replicate m (char c) ++ tail, rfl⟩

/-- The body with the closing quotation marks. -/
theorem body_iff :
    (∃ t, Run turtle (seqOf [longStringBody c, ch c, ch c, ch c]) input (.ok rest) t) ↔
      EndsString c input rest := by
  constructor
  · rintro ⟨t, hrun⟩
    obtain ⟨middle, _, _, hbody, hclose, -⟩ := hrun.seq_ok
    have hclose : Run turtle (string [char c, char c, char c]) middle (.ok rest) _ := hclose
    obtain ⟨rfl, -⟩ := Run.string_iff.mp hclose
    exact (endsString_body_iff hc hbody).mpr (closed_here _ rest)
  · intro h
    induction hlength : input.length using Nat.strongRecOn generalizing input with
    | ind n ih =>
    rcases longChar_progress hc h with ⟨more, rfl⟩ | ⟨middle, _, hchar⟩
    · obtain rfl : rest = more := h.unique (closed_here [char c, char c, char c] more)
      obtain ⟨_, hfail⟩ := longChar_fails hc rest
      exact ⟨_, .seqNext (.starDone hfail) (.seqNext (ch_matches c _) (.seqNext (ch_matches c _)
        (ch_matches c _)))⟩
    · have hshorter := hchar.consumes consuming_closed rfl
      obtain ⟨_, hmore⟩ := ih middle.length (hlength ▸ hshorter)
        ((endsString_longChar_iff hc hchar).mp h) rfl
      obtain ⟨_, _, _, hbody, hclose, -⟩ := hmore.seq_ok
      exact ⟨_, .seqNext (.starNext hchar hbody) hclose⟩

end Mark

end Body

/-! ## The token -/

theorem QuoteForm.rule_iff {form : QuoteForm} (hlong : form.isLong = true) {text rest : Bytes} :
    (∃ t, Run turtle (.ref form.rule) (form.delimiter ++ text) (.ok rest) t) ↔
      EndsString form.mark text rest := by
  have htoken : ∀ c : Char, c = '"' ∨ c = '\'' →
      ((∃ t, Run turtle (seqOf [ch c, ch c, ch c, longStringBody c, ch c, ch c, ch c])
        ([char c, char c, char c] ++ text) (.ok rest) t) ↔ EndsString c text rest) := by
    intro c hc
    rw [← body_iff hc]
    constructor
    · rintro ⟨t, hrun⟩
      have hparts : Run turtle (seqOf ([ch c, ch c, ch c] ++ [longStringBody c, ch c, ch c,
        ch c])) ([char c, char c, char c] ++ text) (.ok rest) t := hrun
      obtain ⟨middle, _, _, hopen, hmore, -⟩ := Run.seqOf_append_iff.mp hparts
      have hopen : Run turtle (string [char c, char c, char c])
        ([char c, char c, char c] ++ text) (.ok middle) _ := hopen
      obtain rfl := List.append_cancel_left (Run.string_iff.mp hopen).1
      exact ⟨_, hmore⟩
    · rintro ⟨t, hrun⟩
      exact ⟨_, .seqNext (ch_matches c _) (.seqNext (ch_matches c _) (.seqNext (ch_matches c _)
        hrun))⟩
  have href : ∀ {rule : Rule RuleName} {name : RuleName}, turtle name = rule →
      ((∃ t, Run turtle (.ref name) (form.delimiter ++ text) (.ok rest) t) ↔
        ∃ t, Run turtle rule (form.delimiter ++ text) (.ok rest) t) := by
    rintro _ name rfl
    exact ⟨fun ⟨_, h⟩ => ⟨_, h.ref_ok.choose_spec.1⟩, fun ⟨_, h⟩ => ⟨_, .ref h⟩⟩
  cases form with
  | longQuote => exact (href rfl).trans (htoken '"' (.inl rfl))
  | longSingleQuote => exact (href rfl).trans (htoken '\'' (.inr rfl))
  | singleQuote | quote => cases hlong

/-- A long string is matched exactly when three quotation marks close it, before which every
escape is valid, and up to the first such marks. -/
theorem longString_ends {form : QuoteForm} (hlong : form.isLong = true) (text : Bytes) :
    let marks := [char form.mark, char form.mark, char form.mark]
    ((∃ rest t, Run turtle (.ref form.rule) (form.delimiter ++ text) (.ok rest) t) ↔
      ∃ i, FirstClose (char '\\') marks StartsEscape text i) ∧
    ∀ rest t, Run turtle (.ref form.rule) (form.delimiter ++ text) (.ok rest) t →
      ∃ i, FirstClose (char '\\') marks StartsEscape text i ∧ rest = text.drop (i + 3) := by
  intro marks
  refine ⟨⟨?_, ?_⟩, ?_⟩
  · rintro ⟨rest, t, hrun⟩
    obtain ⟨i, hi, -⟩ := (QuoteForm.rule_iff hlong).mp ⟨t, hrun⟩
    exact ⟨i, hi⟩
  · rintro ⟨i, hi⟩
    exact ⟨_, (QuoteForm.rule_iff hlong).mpr ⟨i, hi, rfl⟩⟩
  · intro rest t hrun
    exact (QuoteForm.rule_iff hlong).mp ⟨t, hrun⟩

/-- An escaped quotation mark, three that close the string, and one more. -/
theorem escapedMark_ends :
    ∃ rest t, Run turtle (.ref QuoteForm.longQuote.rule)
      (QuoteForm.longQuote.delimiter ++ bytes "\\\"\"\"\"\"") (.ok rest) t := by
  have hfirst : ∀ j < 2, j = 0 ∨ j = 1 := by
    intro j hj
    omega
  refine (longString_ends rfl _).1.mpr ⟨2, by decide, ?_, ?_⟩
  · intro j hj
    obtain rfl | rfl := hfirst j hj <;> decide
  · intro j hj
    obtain rfl | rfl := hfirst j hj
    · exact fun _ _ => ⟨bytes "\\\"", .inl ⟨char '"', by decide, rfl⟩, by decide⟩
    · exact fun _ hfree => absurd hfree (by decide)

end RdfParser.Turtle
