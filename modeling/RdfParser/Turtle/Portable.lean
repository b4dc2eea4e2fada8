/-
  Turtle/Portable.lean --- tokens that do not depend on what follows them.

  IRIs and strings end with a delimiter, so they are read in the same way in front of any
  text.  There is one exception: the quotation marks of an empty string are the beginning
  of a long string if a third one follows and the long string is closed somewhere.
-/
import RdfParser.Peg.Simulation
import RdfParser.Turtle.Quoting

set_option autoImplicit false

namespace RdfParser.Turtle

open RdfParser.Foundation RdfParser.Peg RdfParser.Peg.Rule

/-! ## Escapes -/

section Escapes

variable {input rest : Bytes} {t : Trace RuleName}

theorem portable_pnLocalEsc : Portable turtle (.ref .pnLocalEsc) :=
  .ref (.seq (.byte _) (.sorOf_byte _ [(· == char '~'), (· == char '.'), (· == char '-'),
    (· == char '!'), (· == char '$'), (· == char '&'), (· == char '\''), (· == char '('),
    (· == char ')'), (· == char '*'), (· == char '+'), (· == char ','), (· == char ';'),
    (· == char '='), (· == char '/'), (· == char '?'), (· == char '#'), (· == char '@'),
    (· == char '%')]))

/-- The characters of `ECHAR` behind its backslash. -/
abbrev echarClasses : List (UInt8 → Bool) :=
  [(· == char 't'), (· == char 'b'), (· == char 'n'), (· == char 'r'), (· == char 'f'),
    (· == char '"'), (· == char '\''), (· == char '\\')]

theorem portable_echar : Portable turtle (.ref .echar) :=
  .ref (.seq (.byte _) (.sorOf_byte _ echarClasses.tail))

/-- `ECHAR` has no `u` behind its backslash. -/
theorem echar_second (h : Run turtle (.ref .echar) input (.ok rest) t) :
    ∃ b, input = char '\\' :: b :: rest ∧ b ≠ char 'u' ∧ b ≠ char 'U' := by
  obtain ⟨_, hbody, -⟩ := h.ref_ok
  obtain ⟨middle, _, _, hslash, hchoice, -⟩ := hbody.seq_ok
  obtain ⟨c, hc, rfl, -⟩ := hslash.byte_ok
  obtain rfl := beq_iff_eq.mp hc
  have hclasses : Run turtle (sorOf (.byte (· == char 't')) (echarClasses.tail.map .byte)) middle
      (.ok rest) _ := hchoice
  obtain ⟨b, rfl, accepts, haccepts, hb⟩ := Run.sorOf_byte_iff.mp ⟨_, hclasses⟩
  have hnone : ∀ accepts ∈ echarClasses, accepts (char 'u') = false ∧
      accepts (char 'U') = false := by
    simp only [echarClasses, List.forall_mem_cons]
    exact ⟨by decide, by decide, by decide, by decide, by decide, by decide, by decide, by decide,
      nofun⟩
  refine ⟨b, rfl, ?_, ?_⟩
  all_goals
    rintro rfl
    have hclass := hnone accepts haccepts
    simp [hb] at hclass

/-- `UCHAR` has one. -/
theorem uchar_second (h : Run turtle (.ref .uchar) input (.ok rest) t) :
    ∃ b more, input = char '\\' :: b :: more ∧ (b = char 'u' ∨ b = char 'U') := by
  have hparts : ∀ {c : Char} {rules : List (Rule RuleName)} {t : Trace RuleName},
      Run turtle (seqOf (ch '\\' :: ch c :: rules)) input (.ok rest) t →
      ∃ more, input = char '\\' :: char c :: more := by
    intro c rules t hrun
    obtain ⟨_, _, _, hslash, hmore, -⟩ := Run.seqOf_cons_iff.mp hrun
    obtain ⟨middle, _, _, hletter, -, -⟩ := Run.seqOf_cons_iff.mp hmore
    obtain ⟨a, ha, rfl, -⟩ := hslash.byte_ok
    obtain ⟨b, hb, rfl, -⟩ := hletter.byte_ok
    exact ⟨middle, by rw [beq_iff_eq.mp ha, beq_iff_eq.mp hb]⟩
  obtain ⟨_, hbody, -⟩ := h.ref_ok
  rcases hbody.sor_ok with hrun | ⟨_, _, -, hrun, -⟩
  · obtain ⟨more, rfl⟩ := hparts hrun
    exact ⟨_, more, rfl, .inl rfl⟩
  · obtain ⟨more, rfl⟩ := hparts hrun
    exact ⟨_, more, rfl, .inr rfl⟩

theorem portable_hexDigits (n : Nat) :
    Portable turtle (seqOf (List.replicate (n + 1) (.ref .hex))) := by
  induction n with
  | zero => exact .ref (.byte _)
  | succ n ih => exact .seq (.ref (.byte _)) ih

theorem portable_uchar : Portable turtle (.ref .uchar) := by
  refine .ref (.sor (.seq (.byte _) (.seq (.byte _) (portable_hexDigits 3)))
    (.seq (.byte _) (.seq (.byte _) (portable_hexDigits 7))) ?_)
  intro text rest rest' t t' _ hrun
  -- the two forms differ in the second character
  obtain ⟨_, _, _, hslash, hmore, -⟩ := hrun.seq_ok
  obtain ⟨_, _, _, hletter, hdigits, -⟩ := hmore.seq_ok
  obtain ⟨a, ha, hinput, -⟩ := hslash.byte_ok
  obtain ⟨b, hb, rfl, -⟩ := hletter.byte_ok
  obtain rfl := beq_iff_eq.mp ha
  obtain rfl := beq_iff_eq.mp hb
  obtain ⟨digits, rfl⟩ := Run.suffix hdigits
  obtain rfl : text = char '\\' :: char 'U' :: digits :=
    List.append_cancel_right (hinput.trans (by simp))
  have hslash : Yields (ch '\\') (char '\\' :: (char 'U' :: digits ++ rest')) (.ok _) [] :=
    ⟨[], .byteOk (beq_self_eq_true _), rfl⟩
  have hletter : Yields (ch 'u') (char 'U' :: (digits ++ rest')) .fail [] :=
    ch_fails (by decide) _
  obtain ⟨t, hfail, -⟩ := hslash.seq hletter.stop
  exact ⟨t, hfail⟩

/-- The escapes of strings. -/
abbrev escapes : Rule RuleName := sorOf (.ref .echar) [.ref .uchar]

theorem escapes_consume (hrun : Run turtle escapes input (.ok rest) t) :
    rest.length < input.length :=
  hrun.consumes consuming_closed (by decide)

theorem portable_escapes : Portable turtle escapes := by
  refine .sor portable_echar portable_uchar ?_
  intro text rest rest' t t' _ huchar
  obtain ⟨_, huchar⟩ := portable_uchar _ _ rest' _ huchar
  obtain ⟨b, more, hinput, hb⟩ := uchar_second huchar
  have hechar : Yields (.ref .echar) (text ++ rest') .fail [] := by
    refine unmatched_fails rfl fun after t hechar => ?_
    obtain ⟨c, hinput', hu, hU⟩ := echar_second hechar
    rw [hinput] at hinput'
    obtain ⟨rfl, -⟩ := List.cons.inj (List.cons.inj hinput').2
    rcases hb with rfl | rfl
    · exact hu rfl
    · exact hU rfl
  obtain ⟨t, hfail, -⟩ := hechar
  exact ⟨t, hfail⟩

/-- A character of a string, plain or escaped. -/
abbrev stringChar (stops : Bytes) : Rule RuleName := .sor (notOneOf stops) escapes

theorem portable_stringChar (stops : Bytes) : Portable turtle (stringChar stops) :=
  portable_escapes.byte_sor fun _ _ hrun => absurd (escapes_consume hrun) (lt_irrefl _)

/-- It is not one of the characters that end the string. -/
theorem stringChar_fails {stops : Bytes} {b : UInt8} (hb : b ∈ stops) (hslash : b ≠ char '\\')
    (more : Bytes) : ∃ t, Run turtle (stringChar stops) (b :: more) .fail t := by
  obtain ⟨_, hescape, -⟩ := echar_refused hslash more
  refine ⟨_, .sorNext (.byteFail fun c hc => ?_) hescape⟩
  obtain rfl := Option.mem_some_iff.mp hc
  simpa using hb

end Escapes

/-! ## IRIs and strings -/

theorem portable_iriref : Portable turtle (.ref .iriref) := by
  refine .ref (.seq (.byte _) (.upTo (portable_uchar.byte_sor ?_) (.byte _) ?_))
  · intro rest t hrun
    have hshorter := hrun.consumes consuming_closed rfl
    exact absurd hshorter (lt_irrefl _)
  · intro text rest t hclose rest'
    obtain ⟨b, hb, htext, -⟩ := hclose.byte_ok
    obtain rfl := beq_iff_eq.mp hb
    obtain rfl : text = [char '>'] := List.append_cancel_right htext
    have huchar : Yields (.ref .uchar) (char '>' :: rest') .fail [] :=
      refused_fails (by decide) .uchar (by decide) rfl rest'
    obtain ⟨t, hfail, -⟩ := huchar
    refine ⟨_, .sorNext (.byteFail fun c hc => ?_) hfail⟩
    obtain rfl := Option.mem_some_iff.mp hc
    decide

/-- What closes a string begins with its quotation mark. -/
theorem mark_closes {c : Char} {stops : Bytes} (hmem : char c ∈ stops)
    (hslash : char c ≠ char '\\') (text rest : Bytes) (t : Trace RuleName)
    (h : Run turtle (ch c) (text ++ rest) (.ok rest) t) (rest' : Bytes) :
    ∃ t, Run turtle (stringChar stops) (text ++ rest') .fail t := by
  obtain ⟨b, hb, htext, -⟩ := h.byte_ok
  obtain rfl := beq_iff_eq.mp hb
  obtain rfl : text = [char c] := List.append_cancel_right htext
  exact stringChar_fails hmem hslash rest'

theorem portable_short {c : Char} (hslash : char c ≠ char '\\') :
    Portable turtle (seqOf [ch c, shortStringBody c, ch c]) :=
  .seq (.byte _) (.upTo (portable_stringChar _) (.byte _)
    (mark_closes List.mem_cons_self hslash))

section Long

variable {c : Char}

/-- What the body of a long string repeats. -/
abbrev longChar (c : Char) : Rule RuleName :=
  .seq (opt (sorOf (.seq (ch c) (ch c)) [ch c])) (stringChar [char c, char '\\'])

theorem ch_matches (c : Char) (more : Bytes) : Run turtle (ch c) (char c :: more) (.ok more) [] :=
  .byteOk (beq_self_eq_true _)

/-- At most two quotation marks, followed by something else. -/
theorem marks_complete {b : UInt8} (hb : b ≠ char c) (more : Bytes) {n : Nat} (hn : n ≤ 2) :
    ∃ t, Run turtle (opt (sorOf (.seq (ch c) (ch c)) [ch c]))
      (List.replicate n (char c) ++ b :: more) (.ok (b :: more)) t := by
  have hfail : ∀ more, Run turtle (ch c) (b :: more) .fail [] := by
    refine fun more => .byteFail fun d hd => ?_
    obtain rfl := Option.mem_some_iff.mp hd
    exact beq_false_of_ne hb
  have hcases : n = 0 ∨ n = 1 ∨ n = 2 := by omega
  rcases hcases with rfl | rfl | rfl
  · exact ⟨_, .sorNext (.sorNext (.seqStop (hfail _) (by simp)) (hfail _)) .success⟩
  · exact ⟨_, .sorStop (.sorNext (.seqNext (ch_matches c _) (hfail _)) (ch_matches c _))
      (by simp)⟩
  · exact ⟨_, .sorStop (.sorStop (.seqNext (ch_matches c _) (ch_matches c _)) (by simp))
      (by simp)⟩

theorem marks_sound {input middle : Bytes} {t : Trace RuleName}
    (h : Run turtle (opt (sorOf (.seq (ch c) (ch c)) [ch c])) input (.ok middle) t) :
    ∃ n ≤ 2, input = List.replicate n (char c) ++ middle := by
  have hch : ∀ {input middle : Bytes} {t : Trace RuleName},
      Run turtle (ch c) input (.ok middle) t → input = char c :: middle := by
    intro input middle t hrun
    obtain ⟨b, hb, rfl, -⟩ := hrun.byte_ok
    rw [beq_iff_eq.mp hb]
  rcases h.sor_ok with hmarks | ⟨_, _, -, hnone, -⟩
  · rcases hmarks.sor_ok with htwo | ⟨_, _, -, hone, -⟩
    · obtain ⟨_, _, _, hfirst, hsecond, -⟩ := htwo.seq_ok
      exact ⟨2, le_rfl, by rw [hch hfirst, hch hsecond]; rfl⟩
    · exact ⟨1, by omega, hch hone⟩
  · obtain ⟨rfl, -⟩ := hnone.success_ok
    exact ⟨0, by omega, rfl⟩

theorem portable_longChar (hslash : char c ≠ char '\\') : Portable turtle (longChar c) := by
  intro text rest rest' t hrun
  obtain ⟨middle, _, _, hmarks, hchar, -⟩ := hrun.seq_ok
  obtain ⟨n, hn, htext⟩ := marks_sound hmarks
  obtain ⟨more, rfl⟩ := hchar.suffix
  obtain rfl : text = List.replicate n (char c) ++ more :=
    List.append_cancel_right (htext.trans (List.append_assoc ..).symm)
  have hconsumes := hchar.consumes consuming_closed rfl
  cases more with
  | nil => exact absurd hconsumes (lt_irrefl _)
  | cons b more =>
      have hb : b ≠ char c := by
        rintro rfl
        have hstop : ∃ t, Run turtle (stringChar [char c, char '\\'])
            (char c :: (more ++ rest)) .fail t := stringChar_fails List.mem_cons_self hslash _
        obtain ⟨_, hfail⟩ := hstop
        cases (hchar.deterministic hfail).1
      obtain ⟨_, hmarks⟩ := marks_complete hb (more ++ rest') hn
      obtain ⟨_, hchar⟩ := portable_stringChar _ _ _ rest' _ hchar
      rw [List.append_assoc]
      exact ⟨_, .seqNext hmarks hchar⟩

theorem portable_long (hslash : char c ≠ char '\\') : Portable turtle
    (seqOf [ch c, ch c, ch c, longStringBody c, ch c, ch c, ch c]) := by
  refine .seq (.byte _) (.seq (.byte _) (.seq (.byte _) (.upTo (portable_longChar hslash)
    (.seq (.byte _) (.seq (.byte _) (.byte _))) ?_)))
  intro text rest t hclose rest'
  have hclose : Run turtle (string [char c, char c, char c]) (text ++ rest) (.ok rest) t := hclose
  obtain rfl : text = [char c, char c, char c] :=
    List.append_cancel_right (Run.string_iff.mp hclose).1
  -- two quotation marks may belong to the body, the third may not follow them
  have hstop : ∃ t, Run turtle (stringChar [char c, char '\\']) (char c :: rest') .fail t :=
    stringChar_fails List.mem_cons_self hslash rest'
  obtain ⟨_, hfail⟩ := hstop
  exact ⟨_, .seqNext (.sorStop (.sorStop (.seqNext (ch_matches c _) (ch_matches c _)) (by simp))
    (by simp)) hfail⟩

end Long

theorem QuoteForm.portable (form : QuoteForm) : Portable turtle (.ref form.rule) := by
  cases form with
  | longQuote | longSingleQuote => exact .ref (portable_long (by decide))
  | singleQuote | quote => exact .ref (portable_short (by decide))

/-- The two quotation marks of an empty string are read as the beginning of a long one. -/
def Overruns (text rest : Bytes) : Prop :=
  ∃ form : QuoteForm, form.isLong = true ∧ text = [char form.mark, char form.mark] ∧
    ∃ after t, Run turtle (.ref form.rule) (text ++ rest) (.ok after) t

/-- No quotation mark comes second in a short string, unless it is the last one. -/
theorem short_second {c : Char} (hslash : char c ≠ char '\\') {text rest : Bytes}
    {t : Trace RuleName}
    (h : Run turtle (seqOf [ch c, shortStringBody c, ch c]) (text ++ rest) (.ok rest) t) :
    text = [char c, char c] ∨ ∃ b more, text = char c :: b :: more ∧ b ≠ char c := by
  obtain ⟨_, _, _, hopen, hmore, -⟩ := h.seq_ok
  obtain ⟨middle, _, _, hbody, hclose, -⟩ := hmore.seq_ok
  obtain ⟨a, ha, hinput, -⟩ := hopen.byte_ok
  obtain ⟨d, hd, rfl, -⟩ := hclose.byte_ok
  obtain rfl := beq_iff_eq.mp ha
  obtain rfl := beq_iff_eq.mp hd
  obtain ⟨body, rfl⟩ := hbody.suffix
  obtain rfl : text = char c :: (body ++ [char c]) :=
    List.append_cancel_right (hinput.trans (by simp))
  cases body with
  | nil => exact .inl rfl
  | cons b body =>
      refine .inr ⟨b, body ++ [char c], rfl, ?_⟩
      rintro rfl
      -- the body would be empty
      obtain ⟨_, hfail⟩ := stringChar_fails (List.mem_cons_self (a := char c)) hslash
        (body ++ char c :: rest)
      have hrest := Outcome.ok.inj ((Run.starDone hfail).deterministic hbody).1
      have hlength := congrArg List.length hrest
      simp only [List.length_cons, List.length_append] at hlength
      omega

/-- The long form is not found where the short one has been read. -/
theorem long_unmatched {short long : QuoteForm} (hshort : short.isLong = false)
    (hlong : long.isLong = true) {text rest rest' after : Bytes} {t t' : Trace RuleName}
    (h : Run turtle (.ref short.rule) (text ++ rest) (.ok rest) t)
    (hstays : ¬ Overruns text rest') :
    ¬ Run turtle (.ref long.rule) (text ++ rest') (.ok after) t' := by
  intro hrun
  obtain ⟨body, hinput⟩ := longString_token hlong hrun
  have hlongs : long.token body ++ after =
      char long.mark :: char long.mark :: (char long.mark :: body ++ long.delimiter ++ after) := by
    simp [QuoteForm.token, QuoteForm.delimiter, hlong, List.replicate]
  rw [hlongs] at hinput
  have hsecond : text = [char short.mark, char short.mark] ∨
      ∃ b more, text = char short.mark :: b :: more ∧ b ≠ char short.mark := by
    obtain ⟨_, hbody, -⟩ := h.ref_ok
    cases short with
    | longQuote | longSingleQuote => cases hshort
    | singleQuote => exact short_second (c := '\'') (by decide) hbody
    | quote => exact short_second (c := '"') (by decide) hbody
  rcases hsecond with rfl | ⟨b, more, rfl, hb⟩
  · have hmark : char short.mark = char long.mark := (List.cons.inj hinput).1
    exact hstays ⟨long, hlong, by rw [hmark], after, t', hrun⟩
  · obtain ⟨hmark, hinput⟩ := List.cons.inj hinput
    exact hb ((List.cons.inj hinput).1.trans hmark.symm)

theorem QuoteForm.begins (form : QuoteForm) {text rest : Bytes} {t : Trace RuleName}
    (h : Run turtle (.ref form.rule) (text ++ rest) (.ok rest) t) :
    ∃ more, text = char form.mark :: more := by
  have htoken : ∃ body, text ++ rest = form.token body ++ rest := by
    cases hlong : form.isLong with
    | true => exact longString_token hlong h
    | false => exact shortString_token hlong h
  obtain ⟨body, htoken⟩ := htoken
  exact ⟨_, (List.append_cancel_right htoken).trans (form.token_eq body)⟩

/-- A form with the other quotation mark fails. -/
theorem QuoteForm.refused (form other : QuoteForm) (hmark : form.mark ≠ other.mark)
    {text rest : Bytes} {t : Trace RuleName}
    (h : Run turtle (.ref form.rule) (text ++ rest) (.ok rest) t) (rest' : Bytes) :
    Yields (.ref other.rule) (text ++ rest') .fail [] := by
  obtain ⟨more, rfl⟩ := form.begins h
  have hrefuses : (char form.mark).toNat < 128 ∧ retracting other.rule = true ∧
      refusesWithin turtle (char form.mark) 8 other.rule = true := by
    cases form <;> cases other <;> first | exact absurd rfl hmark | decide
  obtain ⟨hascii, hretracts, hrefuses⟩ := hrefuses
  exact refused_fails hascii other.rule hrefuses hretracts (more ++ rest')

/-- A string is read in front of any text, unless it is overrun. -/
theorem turtleString_stays {text rest rest' : Bytes} {t : Trace RuleName}
    (h : Run turtle (.ref .turtleString) (text ++ rest) (.ok rest) t)
    (hstays : ¬ Overruns text rest') :
    ∃ t', Run turtle (.ref .turtleString) (text ++ rest') (.ok rest') t' := by
  have hyields : ∀ (form : QuoteForm) {t : Trace RuleName},
      Run turtle (.ref form.rule) (text ++ rest) (.ok rest) t →
      ∃ actions, Yields (.ref form.rule) (text ++ rest') (.ok rest') actions := by
    intro form t hrun
    obtain ⟨t', hrun⟩ := form.portable _ _ rest' _ hrun
    exact ⟨_, t', hrun, rfl⟩
  have hlong : ∀ (short long : QuoteForm) {t : Trace RuleName}, short.isLong = false →
      long.isLong = true → Run turtle (.ref short.rule) (text ++ rest) (.ok rest) t →
      Yields (.ref long.rule) (text ++ rest') .fail [] := by
    intro short long t hshort hlong hrun
    refine unmatched_fails ?_ fun after t' => long_unmatched hshort hlong hrun hstays
    cases long <;> rfl
  -- the alternatives in front of the one that has matched fail again
  have hstring : ∃ actions, Yields (turtle .turtleString) (text ++ rest') (.ok rest') actions := by
    obtain ⟨_, hbody, -⟩ := h.ref_ok
    rcases hbody.sor_ok with hrun | ⟨_, _, -, hmore, -⟩
    · obtain ⟨_, hmatch⟩ := hyields .longQuote hrun
      exact ⟨_, hmatch.choose⟩
    rcases hmore.sor_ok with hrun | ⟨_, _, -, hmore, -⟩
    · obtain ⟨_, hmatch⟩ := hyields .longSingleQuote hrun
      have hfirst := QuoteForm.refused .longSingleQuote .longQuote
        (by decide) hrun rest'
      exact ⟨_, hfirst.skip hmatch.choose⟩
    rcases hmore.sor_ok with hrun | ⟨_, _, -, hrun, -⟩
    · obtain ⟨_, hmatch⟩ := hyields .singleQuote hrun
      have hfirst := QuoteForm.refused .singleQuote .longQuote
        (by decide) hrun rest'
      have hsecond := hlong .singleQuote .longSingleQuote rfl rfl hrun
      exact ⟨_, hfirst.skip (hsecond.skip hmatch.choose)⟩
    · obtain ⟨_, hmatch⟩ := hyields .quote hrun
      have hfirst := hlong .quote .longQuote rfl rfl hrun
      have hsecond := QuoteForm.refused .quote .longSingleQuote
        (by decide) hrun rest'
      have hthird := QuoteForm.refused .quote .singleQuote
        (by decide) hrun rest'
      exact ⟨_, hfirst.skip (hsecond.skip (hthird.skip hmatch))⟩
  obtain ⟨_, hstring⟩ := hstring
  obtain ⟨t', hrun, -⟩ := hstring.ref_ok
  exact ⟨t', hrun⟩

end RdfParser.Turtle
