/-
  Turtle/Delimited.lean --- tokens in front of a delimiter.

  Where a token ends depends in general on what follows it: `1` is the beginning of `1.5`,
  and `p:a` that of `p:a.b`.  In front of white space, a comment, a comma, a semicolon or a
  closing bracket no token goes on, so every well-formed spelling is read as it is written.
-/
import Mathlib.Data.Bool.AllAny
import RdfParser.Turtle.DottedNames
import RdfParser.Turtle.NamePositions
import RdfParser.Turtle.Portable
import RdfParser.Turtle.Printing

set_option autoImplicit false

namespace RdfParser.Turtle

open Computability RdfParser.Foundation RdfParser.Rdf RdfParser.Peg RdfParser.Peg.Rule

/-! ## Delimiters -/

/-- What may follow any token. -/
def delimiters : Bytes := [char '#', char ',', char ';', char ')', char ']'] ++ spaces

/-- A delimiter follows, or nothing. -/
def Delimited (rest : Bytes) : Prop := ∀ b ∈ rest.head?, b ∈ delimiters

theorem delimited_cons {b : UInt8} (hb : b ∈ delimiters) (more : Bytes) :
    Delimited (b :: more) := by
  intro c hc
  obtain rfl := Option.mem_some_iff.mp hc
  exact hb

section Tokens

variable {text rest : Bytes} {t : Trace RuleName}

theorem delimiters_ascii : ∀ b ∈ delimiters, b.toNat < 128 :=
  List.all_iff_forall_prop.mp (by decide)

/-- No delimiter is one of these bytes. -/
theorem not_delimiter (accepts : UInt8 → Bool) (h : (delimiters.all fun b => !accepts b) = true)
    (b : UInt8) (hb : b ∈ delimiters) : ¬ accepts b = true := by
  intro haccepts
  have hrefuse := List.all_eq_true.mp h b hb
  simp [haccepts] at hrefuse

/-- A rule that refuses all delimiters fails. -/
theorem Delimited.fails (h : Delimited rest) (name : RuleName)
    (hname : (delimiters.all fun b => refusesWithin turtle b 12 name) = true)
    (hretracts : retracting name = true) (hconsumes : consuming name = true) :
    Yields (.ref name) rest .fail [] := by
  refine unmatched_fails hretracts fun after t hrun => ?_
  cases rest with
  | nil => exact unmatched_nil hconsumes after t hrun
  | cons b more =>
      have hb : b ∈ delimiters := h b rfl
      exact Run.not_matches (delimiters_ascii b hb) (List.all_eq_true.mp hname b hb) hrun

/-- What a longest-prefix rule matches somewhere, it matches in front of a delimiter. -/
theorem Delimited.munched {name : RuleName} {L : Language UInt8}
    (hmunches : Munches turtle (.ref name) L) (hends : EndsBefore (· ∈ delimiters) L)
    (h : Matches turtle name text) (hrest : Delimited rest) :
    ∃ t, Run turtle (.ref name) (text ++ rest) (.ok rest) t := by
  obtain ⟨rest', t, hrun⟩ := h
  obtain ⟨found, hfound, hinput, -⟩ := (hmunches.reads _ _).mp ⟨t, hrun⟩
  obtain rfl := List.append_cancel_right hinput
  exact (hmunches.reads _ _).mpr (hends.longest hfound hrest)

/-! ## Numbers -/

/-- What numbers are made of. -/
def inNumber (b : UInt8) : Prop := inDecimal b ∨ marksExponent b

theorem over_exponents : Over inNumber exponents := by
  have hmark : Over inNumber (letter 'e' + letter 'E') :=
    (((over_letter 'e').imp fun _ => .inl).add ((over_letter 'E').imp fun _ => .inr)).imp
      fun _ => .inr
  have hsign : Over inNumber signs := over_signs.imp fun _ hb => .inl (.inl (.inr hb))
  have hdigits : Over inNumber digits := over_digits.imp fun _ hb => .inl (.inl (.inl hb))
  exact hmark.mul (hsign.mul hdigits)

theorem NumberKind.over (kind : NumberKind) : Over inNumber kind.language := by
  cases kind with
  | integer => exact over_integer.imp fun _ hb => .inl (.inl hb)
  | decimal => exact over_decimal.imp fun _ => .inl
  | double =>
      have hdigit : Over inNumber (byteOf isDigit) :=
        (over_byteOf isDigit).imp fun _ hb => .inl (.inl (.inl hb))
      have hsign : Over inNumber signs := over_signs.imp fun _ hb => .inl (.inl (.inr hb))
      have hdot : Over inNumber (letter '.') := (over_letter '.').imp fun _ hb => .inl (.inr hb)
      have hdigits := hdigit.mul hdigit.kstar
      have hexponent := over_exponents
      exact hsign.mul ((hdigits.mul (hdot.mul (hdigit.kstar.mul hexponent))).add
        ((hdot.mul (hdigits.mul hexponent)).add (hdigits.mul hexponent)))

theorem inNumber_not_delimiter (b : UInt8) (hb : b ∈ delimiters) : ¬ inNumber b := by
  rintro (((hdigit | rfl | rfl) | rfl) | rfl | rfl)
  · exact not_delimiter isDigit (by decide) b hb hdigit
  all_goals exact absurd hb (by decide)

theorem numericLiteral_delimited {kind : NumberKind} (h : Matches turtle kind.rule text)
    (hrest : Delimited rest) :
    Yields (.ref .numericLiteral) (text ++ rest) (.ok rest)
      [(kind.rule, []), (.numericLiteral, text)] := by
  obtain ⟨rest', t, hrun⟩ := h
  obtain ⟨found, hfound, hinput, -⟩ := (kind.munches.reads _ _).mp ⟨t, hrun⟩
  obtain rfl := List.append_cancel_right hinput
  have hmem : found ∈ NumberKind.double.language +
      (NumberKind.decimal.language + NumberKind.integer.language) := by
    cases kind with
    | double => exact .inl hfound
    | decimal => exact .inr (.inl hfound)
    | integer => exact .inr (.inr hfound)
  have hover := (NumberKind.over .double).add ((NumberKind.over .decimal).add
    (NumberKind.over .integer))
  obtain ⟨t', hrun'⟩ := (munches_numericLiteral.reads _ _).mpr
    ((hover.endsBefore inNumber_not_delimiter).longest hmem hrest)
  obtain ⟨kind', text', hsplit, ⟨rest'', t'', hmatches⟩, hessence⟩ := numericLiteral_kind hrun'
  obtain rfl := List.append_cancel_right hsplit
  obtain ⟨found', hfound', hinput', -⟩ := (kind'.munches.reads _ _).mp ⟨t'', hmatches⟩
  obtain rfl := List.append_cancel_right hinput'
  obtain rfl := NumberKind.unique hfound hfound'
  exact ⟨t', hrun', hessence⟩

/-! ## Names with dots -/

theorem begins_codePoints {p : Nat → Bool} (h : ∀ c, p c = true → 128 ≤ c) :
    Begins (· ∉ delimiters) (codePointOf p) := by
  refine (begins_codePointOf p).imp fun b hb hmem => ?_
  have hlow := delimiters_ascii b hmem
  have hhigh := h _ (hb hlow)
  omega

theorem begins_bytes {accepts : UInt8 → Bool}
    (h : (delimiters.all fun b => !accepts b) = true) :
    Begins (· ∉ delimiters) (byteOf accepts) :=
  (begins_byteOf accepts).imp fun b hb hmem => not_delimiter _ h b hmem hb

theorem begins_pnCharsU : Begins (· ∉ delimiters) Token.pnCharsU := by
  have hbase : Begins (· ∉ delimiters) Token.pnCharsBase :=
    (begins_bytes (by decide)).add ((begins_bytes (by decide +kernel)).add
      (begins_codePoints fun _ hc => inRanges_ge (by decide) hc))
  exact hbase.add (begins_bytes (by decide))

theorem begins_pnChars : Begins (· ∉ delimiters) Token.pnChars := by
  have hmiddle : Begins (· ∉ delimiters) (codePointOf (· == 0x00B7)) :=
    begins_codePoints fun c hc => by rw [beq_iff_eq.mp hc]; decide
  exact begins_pnCharsU.add ((begins_bytes (by decide)).add
    ((begins_bytes (by decide)).add (hmiddle.add
      ((begins_codePoints fun _ hc => inRanges_ge (by decide) hc).add
        (begins_codePoints fun _ hc => inRanges_ge (by decide) hc)))))

theorem begins_plx_undelimited : Begins (· ∉ delimiters) Token.plx :=
  begins_plx.imp fun b hb => by rcases hb with rfl | rfl <;> decide

namespace DottedName

theorem begins_part (name : DottedName) : Begins (· ∉ delimiters) (name.part + letter '.') := by
  have hdot : Begins (· ∉ delimiters) (letter '.') := begins_bytes (by decide)
  cases name with
  | pnPrefix | blankNodeLabel => exact begins_pnChars.add hdot
  | pnLocal =>
      have hcolon : Begins (· ∉ delimiters) (letter ':') := begins_bytes (by decide)
      exact (begins_pnChars.add (hcolon.add begins_plx_undelimited)).add hdot

theorem language_le (name : DottedName) :
    name.language ≤ name.start * (name.part + letter '.')∗ := by
  have hparts : name.part ≤ (name.part + letter '.')∗ := le_self_add.trans le_kstar
  have hmore : 1 + (name.part + letter '.')∗ * name.part ≤ (name.part + letter '.')∗ := by
    refine add_le one_le_kstar ?_
    calc (name.part + letter '.')∗ * name.part
        ≤ (name.part + letter '.')∗ * (name.part + letter '.')∗ := by gcongr
      _ = (name.part + letter '.')∗ := kstar_mul_kstar _
  unfold language
  gcongr

/-- No name goes on with a delimiter. -/
theorem endsBefore (name : DottedName) : EndsBefore (· ∈ delimiters) name.language := by
  have hcode : Code (name.part + letter '.') := code_dotted.mono (by gcongr; exact name.part_le)
  have hseries := EndsBefore.series name.code_start hcode name.begins_part
    fun b hb hnot => hnot hb
  exact fun u hu b more hother =>
    hseries u (name.language_le hu) b more (name.language_le hother)

theorem delimited (name : DottedName) (h : Matches turtle name.rule text)
    (hrest : Delimited rest) : ∃ t, Run turtle (.ref name.rule) (text ++ rest) (.ok rest) t :=
  hrest.munched name.munches name.endsBefore h

end DottedName

/-! ## Names in front of their colon -/

/-- The rules for what stands in front of the colon of a name. -/
def inPnPrefix : RuleName → Bool
  | .pnPrefix | .pnChars | .pnCharsU | .pnCharsBase => true
  | _ => false

theorem inPnPrefix_closed (name : RuleName) (h : inPnPrefix name = true) :
    (turtle name).avoids [char ':'] inPnPrefix = true := by
  cases name <;> first | decide | exact absurd h Bool.false_ne_true

theorem pnPrefix_colon {text : Bytes} (h : text ∈ DottedName.pnPrefix.language) :
    char ':' ∉ text := by
  have hlongest : Longest DottedName.pnPrefix.language text [] :=
    ⟨text, h, List.append_nil _, fun other _ hfront => hfront.length_le⟩
  obtain ⟨t, hrun⟩ := (DottedName.munches .pnPrefix).reads _ _ |>.mpr hlongest
  have hascii : ∀ b ∈ [char ':'], b.toNat < 128 := List.forall_mem_singleton.mpr (by decide)
  obtain ⟨_, hsplit, havoids⟩ := hrun.avoids hascii inPnPrefix_closed rfl
  rw [List.append_nil] at hsplit
  exact fun hmem => havoids _ (hsplit ▸ hmem) (by simp)

/-- What `PNAME_NS` matches. -/
abbrev pnameNsLanguage : Language UInt8 := (DottedName.pnPrefix.language + 1) * letter ':'

theorem pnPrefix_determined : Determined (DottedName.pnPrefix.language + 1) (letter ':') := by
  rintro u hu _ ⟨b, hb, rfl⟩ other hother input huv hfront
  obtain rfl := beq_iff_eq.mp hb
  by_contra hlt
  have hinside : u ++ [char ':'] <+: other :=
    List.prefix_of_prefix_length_le huv hfront (by simp; omega)
  have hmem : char ':' ∈ other := hinside.subset (by simp)
  rcases hother with hother | hother
  · exact pnPrefix_colon hother hmem
  · rw [(Language.mem_one other).mp hother] at hmem
    cases hmem

theorem munches_pnameNs : Munches turtle (.ref .pnameNs) pnameNsLanguage :=
  .ref ((DottedName.munches .pnPrefix).opt.seq (munches_ch ':') pnPrefix_determined)

/-- A name is read up to its colon in front of anything. -/
theorem portable_pnameNs : Portable turtle (.ref .pnameNs) :=
  munches_pnameNs.portable ((code_byteOf _).mul pnPrefix_determined)

/-! ## IRIs -/

theorem readsName_delimited (h : Matches turtle .prefixedName text) (hrest : Delimited rest) :
    ReadsName text rest := by
  have hsplit : ∀ {after middle : Bytes} {t : Trace RuleName},
      Run turtle (.ref .pnameNs) (text ++ after) (.ok middle) t →
      (∃ suffix, middle = suffix ++ after) → ∃ ns suffix, text = ns ++ suffix ∧
        middle = suffix ++ after ∧
        ∃ t, Run turtle (.ref .pnameNs) (ns ++ (suffix ++ rest)) (.ok (suffix ++ rest)) t := by
    rintro after middle t hns ⟨suffix, rfl⟩
    obtain ⟨ns, hinput⟩ := hns.suffix
    rw [hinput] at hns
    rw [← List.append_assoc] at hinput
    exact ⟨ns, suffix, List.append_cancel_right hinput, rfl, portable_pnameNs _ _ _ _ hns⟩
  obtain ⟨after, _, hrun⟩ := h
  obtain ⟨_, hbody, -⟩ := hrun.ref_ok
  rcases hbody.sor_ok with hln | ⟨_, _, -, hns, -⟩
  · obtain ⟨_, hseq, -⟩ := hln.ref_ok
    obtain ⟨middle, _, _, hns, hlocal, -⟩ := hseq.seq_ok
    obtain ⟨ns, suffix, rfl, rfl, _, hns⟩ := hsplit hns hlocal.suffix
    obtain ⟨_, hlocal⟩ := DottedName.delimited .pnLocal ⟨after, _, hlocal⟩ hrest
    have hname : Run turtle (.ref .pnameLn) (ns ++ (suffix ++ rest)) (.ok rest) _ :=
      .ref (.seqNext hns hlocal)
    rw [← List.append_assoc] at hname
    exact ⟨_, .ref (.sorStop hname (by simp))⟩
  · obtain ⟨_, hns⟩ := portable_pnameNs _ _ rest _ hns
    obtain ⟨_, hnone, -⟩ := hrest.fails .pnLocal (by decide) rfl rfl
    exact ⟨_, .ref (.sorNext (.ref (.seqNext hns hnone)) hns)⟩

/-- An IRI in angle brackets is read in front of anything. -/
theorem iriref_token (h : Matches turtle .iriref text) (rest : Bytes) :
    Yields (.ref .iriref) (text ++ rest) (.ok rest) [(.iriref, text)] := by
  obtain ⟨_, _, hrun⟩ := h
  obtain ⟨_, hrun⟩ := portable_iriref _ _ rest _ hrun
  obtain ⟨found, hinput, -, hessence⟩ := token_essence (by decide) hrun
  obtain rfl := List.append_cancel_right hinput
  exact ⟨_, hrun, hessence⟩

theorem IriLeaf.delimited {i : IriLeaf} (h : i.WellFormed) (hrest : Delimited rest) :
    Yields (.ref .iri) (i.text ++ rest) (.ok rest) i.actions := by
  cases i with
  | iriref text => exact .ref rfl (iriref_token h rest).choose
  | prefixedName name => exact (readsName_delimited h hrest).iri_yields

/-! ## Literals -/

/-- What may follow a part of a language tag. -/
def Parted (rest : Bytes) : Prop := ∀ b ∈ rest.head?, b ∈ char '-' :: delimiters

theorem munches_class (accepts : UInt8 → Bool) :
    Munches turtle (plus (.byte accepts)) (byteOf accepts * (byteOf accepts)∗) :=
  (Munches.byte accepts).plus_code (code_byteOf accepts) (begins_byteOf accepts).nil_not_mem

/-- A part of a language tag ends in front of a hyphen as well. -/
theorem part_complete (accepts : UInt8 → Bool)
    (haccepts : ((char '-' :: delimiters).all fun b => !accepts b) = true)
    (htext : text ∈ byteOf accepts * (byteOf accepts)∗) (hrest : Parted rest) :
    ∃ t, Run turtle (plus (.byte accepts)) (text ++ rest) (.ok rest) t := by
  have hover := (over_byteOf accepts).mul (over_byteOf accepts).kstar
  have hends := hover.endsBefore (p := (· ∈ char '-' :: delimiters)) fun b hb hyes => by
    have hrefuse := List.all_eq_true.mp haccepts b hb
    simp [hyes] at hrefuse
  exact ((munches_class accepts).reads _ _).mpr (hends.longest htext hrest)

/-- What a language tag repeats. -/
abbrev langtagPart : Rule RuleName := .seq (ch '-') (plus (.byte isAlnum))

/-- The parts behind the first one. -/
theorem langtagParts_delimited {after : Bytes}
    (h : Run turtle (.star langtagPart) (text ++ after) (.ok after) t) (hrest : Delimited rest) :
    Parted (text ++ rest) ∧ ∃ t, Run turtle (.star langtagPart) (text ++ rest) (.ok rest) t := by
  let Reads (parts : Bytes) : Prop :=
    Parted (parts ++ rest) ∧ ∃ t, Run turtle (.star langtagPart) (parts ++ rest) (.ok rest) t
  have hnil : Reads [] := by
    refine ⟨fun b hb => List.mem_cons_of_mem _ (hrest b hb), ?_⟩
    have hhyphen : Yields (ch '-') rest .fail [] := by
      refine ch_refused fun b hb => ?_
      rintro rfl
      exact absurd (hrest _ hb) (by decide)
    have hstop : Yields langtagPart rest .fail [] := hhyphen.stop
    obtain ⟨t, hdone, -⟩ := hstop.done
    exact ⟨t, hdone⟩
  have hstep : ∀ part middle t more,
      Run turtle langtagPart (part ++ middle) (.ok middle) t → Reads more →
      Reads (part ++ more) := by
    rintro part middle t more hpart ⟨hmore, t', hstar⟩
    obtain ⟨m, _, _, hhyphen, hclass, -⟩ := hpart.seq_ok
    obtain ⟨b, hb, hinput, -⟩ := hhyphen.byte_ok
    obtain rfl := beq_iff_eq.mp hb
    obtain ⟨u, hu, rfl, -⟩ := ((munches_class isAlnum).reads _ _).mp ⟨_, hclass⟩
    obtain rfl : part = char '-' :: u := List.append_cancel_right hinput
    obtain ⟨_, hclass⟩ := part_complete isAlnum (by decide) hu hmore
    rw [← List.append_assoc] at hclass
    refine ⟨fun b hb => ?_, _, .starNext (.seqNext (ch_matches '-' _) hclass) hstar⟩
    obtain rfl := Option.mem_some_iff.mp hb
    exact List.mem_cons_self
  obtain ⟨parts, hinput, hparts⟩ := Run.star_induction hnil hstep h
  obtain rfl := List.append_cancel_right hinput
  exact hparts

theorem langtag_delimited (h : Matches turtle .langtag text) (hrest : Delimited rest) :
    ∃ t, Run turtle (.ref .langtag) (text ++ rest) (.ok rest) t := by
  obtain ⟨after, _, hrun⟩ := h
  obtain ⟨_, hbody, -⟩ := hrun.ref_ok
  obtain ⟨m₁, _, _, hat, hmore, -⟩ := hbody.seq_ok
  obtain ⟨m₂, _, _, hclass, hparts, -⟩ := hmore.seq_ok
  obtain ⟨b, hb, hinput, -⟩ := hat.byte_ok
  obtain rfl := beq_iff_eq.mp hb
  obtain ⟨u, hu, rfl, -⟩ := ((munches_class isAlpha).reads _ _).mp ⟨_, hclass⟩
  obtain ⟨parts, rfl⟩ := Run.suffix hparts
  obtain rfl : text = char '@' :: (u ++ parts) :=
    List.append_cancel_right (hinput.trans (by simp))
  obtain ⟨hparted, _, hparts⟩ := langtagParts_delimited hparts hrest
  obtain ⟨_, hclass⟩ := part_complete isAlpha (by decide) hu hparted
  rw [List.cons_append, List.append_assoc]
  exact ⟨_, .ref (.seqNext (ch_matches '@' _) (.seqNext hclass hparts))⟩

/-- A delimiter is no third quotation mark. -/
theorem not_overruns (hrest : ∀ b ∈ rest.head?, b ≠ char '"' ∧ b ≠ char '\'') :
    ¬ Overruns text rest := by
  rintro ⟨form, hlong, rfl, after, t, hrun⟩
  obtain ⟨body, hinput⟩ := longString_token hlong hrun
  rw [form.token_eq, QuoteForm.kept, QuoteForm.delimiter, if_pos hlong] at hinput
  obtain ⟨more, rfl⟩ : ∃ more, rest = char form.mark :: more := by
    simp only [List.replicate, List.tail_cons, List.cons_append, List.nil_append, List.cons.injEq,
      true_and] at hinput
    exact ⟨_, hinput⟩
  have hmark := hrest _ rfl
  cases form <;> simp [QuoteForm.mark] at hmark

theorem Suffix.delimited {suffix : Suffix} (h : suffix.WellFormed) (hrest : Delimited rest) :
    Yields (opt (sorOf (.ref .langtag) [.ref .rdfLiteralTypeTag])) (suffix.text ++ rest)
      (.ok rest) suffix.actions := by
  cases suffix with
  | plain =>
      have hlang := hrest.fails .langtag (by decide) rfl rfl
      have htype := hrest.fails .rdfLiteralTypeTag (by decide) rfl rfl
      exact (hlang.skip htype).skip ⟨[], .success, rfl⟩
  | langtag text =>
      obtain ⟨_, hrun⟩ := langtag_delimited h hrest
      obtain ⟨found, hinput, -, hessence⟩ := token_essence (by decide) hrun
      obtain rfl := List.append_cancel_right hinput
      have htag : Yields (.ref .langtag) (text ++ rest) (.ok rest) [(.langtag, text)] :=
        ⟨_, hrun, hessence⟩
      exact htag.choose.choose
  | typeTag i =>
      have hlang : Yields (.ref .langtag) (bytes "^^" ++ (i.text ++ rest)) .fail [] :=
        refused_fails (b := char '^') (by decide) .langtag (by decide) rfl _
      have hcarets : Yields (string (bytes "^^")) (bytes "^^" ++ (i.text ++ rest))
          (.ok (i.text ++ rest)) [] := ⟨[], Run.string_iff.mpr ⟨rfl, rfl⟩, rfl⟩
      have hbody : Yields (turtle .rdfLiteralTypeTag) (bytes "^^" ++ (i.text ++ rest)) (.ok rest)
          i.actions := hcarets.seq (i.delimited h hrest)
      have htag : Yields (opt (sorOf (.ref .langtag) [.ref .rdfLiteralTypeTag])) _ _ _ :=
        (hlang.skip hbody.ref_ok).choose
      rw [← List.append_assoc, consumed_append] at htag
      exact htag

/-! ## Terms -/

theorem delimited_unquoted (hrest : Delimited rest) :
    ∀ b ∈ rest.head?, b ≠ char '"' ∧ b ≠ char '\'' := by
  have hplain : ∀ b ∈ delimiters, b ≠ char '"' ∧ b ≠ char '\'' :=
    List.all_iff_forall_prop.mp (by decide)
  exact fun b hb => hplain b (hrest b hb)

theorem rdfLiteral_delimited {suffix : Suffix} (htext : Matches turtle .turtleString text)
    (hsuffix : suffix.WellFormed) (hrest : Delimited rest) :
    Yields (.ref .rdfLiteral) (text ++ (suffix.text ++ rest)) (.ok rest)
      (Leaf.rdfLiteral text suffix).actions := by
  obtain ⟨_, _, hrun⟩ := htext
  have hstays : ¬ Overruns text (suffix.text ++ rest) := by
    refine not_overruns fun b hb => ?_
    have hfirst : ∀ b ∈ suffix.text.head?, b ≠ char '"' ∧ b ≠ char '\'' := by
      cases suffix with
      | plain => intro b hb; cases hb
      | langtag tag =>
          obtain ⟨body, rfl⟩ := langtag_shape hsuffix
          intro b hb
          obtain rfl := Option.mem_some_iff.mp hb
          decide
      | typeTag i =>
          intro b hb
          obtain rfl := Option.mem_some_iff.mp hb
          decide
    cases hcase : suffix.text with
    | nil => rw [hcase] at hb; exact delimited_unquoted hrest b hb
    | cons c more =>
        rw [hcase] at hb hfirst
        exact hfirst b hb
  obtain ⟨_, hrun⟩ := turtleString_stays hrun hstays
  obtain ⟨found, hinput, -, hessence⟩ := token_essence (by decide) hrun
  obtain rfl := List.append_cancel_right hinput
  have hstring : Yields (.ref .turtleString) (text ++ (suffix.text ++ rest))
      (.ok (suffix.text ++ rest)) [(.turtleString, text)] := ⟨_, hrun, hessence⟩
  have hbody : Yields (turtle .rdfLiteral) (text ++ (suffix.text ++ rest)) (.ok rest)
      ([(.turtleString, text)] ++ suffix.actions) := hstring.seq (Suffix.delimited hsuffix hrest)
  exact hbody.ref_ok

/-- A name that begins like a Boolean literal is read as one where a term is expected. -/
def Leaf.Unmistakable : Leaf → Prop
  | .iri (.prefixedName name) => ¬ BeginsBoolean name
  | _ => True

/-- Behind the layout of `ANON` comes its closing bracket, whatever follows. -/
theorem portable_anon (h : Matches turtle .anon text) (rest : Bytes) :
    Yields (.ref .blankNode) (text ++ rest) (.ok rest) [(.anon, []), (.blankNode, [])] := by
  obtain ⟨after, _, hrun⟩ := h
  obtain ⟨_, hparts, -⟩ := id hrun.ref_ok
  obtain ⟨more, hinput⟩ := ch_begins hparts
  rw [hinput] at hrun
  obtain ⟨blanks, rfl, hblanks⟩ := anon_iff.mp ⟨_, hrun⟩
  obtain rfl : text = char '[' :: (blanks ++ [char ']']) :=
    List.append_cancel_right (hinput.trans (by simp))
  obtain ⟨_, hrun⟩ := anon_iff.mpr ⟨blanks, rfl, hblanks⟩
  obtain ⟨_, hinput, -, hessence⟩ := token_essence (by decide) hrun
  have hlabel : Yields (.ref .blankNodeLabel) (char '[' :: (blanks ++ char ']' :: rest)) .fail [] :=
    refused_fails (by decide) .blankNodeLabel (by decide) rfl _
  have hanon : Yields (.ref .anon) (char '[' :: (blanks ++ char ']' :: rest)) (.ok rest)
      [(.anon, [])] := ⟨_, hrun, hessence⟩
  have hbody : Yields (turtle .blankNode) (char '[' :: (blanks ++ char ']' :: rest)) (.ok rest)
      [(.anon, [])] := hlabel.skip hanon
  have hblank : Yields (.ref .blankNode) (char '[' :: (blanks ++ char ']' :: rest)) (.ok rest)
      [(.anon, []), (.blankNode, [])] := hbody.ref_ok
  simpa using hblank

theorem blankNodeLabel_delimited (h : Matches turtle .blankNodeLabel text)
    (hrest : Delimited rest) :
    Yields (.ref .blankNode) (text ++ rest) (.ok rest)
      [(.blankNodeLabel, text), (.blankNode, [])] := by
  obtain ⟨_, hrun⟩ := DottedName.delimited .blankNodeLabel h hrest
  obtain ⟨found, hinput, -, hessence⟩ := token_essence (by decide) hrun
  obtain rfl := List.append_cancel_right hinput
  have hlabel : Yields (.ref .blankNodeLabel) (text ++ rest) (.ok rest)
      [(.blankNodeLabel, text)] := ⟨_, hrun, hessence⟩
  have hbody : Yields (turtle .blankNode) (text ++ rest) (.ok rest)
      [(.blankNodeLabel, text)] := hlabel.choose
  exact hbody.ref_ok

theorem booleanLiteral_delimited (h : Matches turtle .booleanLiteral text) (rest : Bytes) :
    Yields (.ref .literal) (text ++ rest) (.ok rest) [(.booleanLiteral, text)] := by
  have hword : ∀ word : Bytes, Yields (string word) (word ++ rest) (.ok rest) [] :=
    fun word => ⟨[], Run.string_iff.mpr ⟨rfl, rfl⟩, rfl⟩
  have hbody : Yields (turtle .booleanLiteral) (text ++ rest) (.ok rest) [] ∧
      ∃ b more, (b = char 't' ∨ b = char 'f') ∧ text = b :: more := by
    obtain ⟨_, _, hrun⟩ := h
    obtain ⟨_, hwords, -⟩ := hrun.ref_ok
    rcases hwords.sor_ok with htrue | ⟨_, _, -, hfalse, -⟩
    · obtain rfl := List.append_cancel_right (Run.string_iff.mp htrue).1
      exact ⟨(hword _).choose, _, _, .inl rfl, rfl⟩
    · obtain rfl := List.append_cancel_right (Run.string_iff.mp hfalse).1
      have hother : Yields (ch 't') (bytes "false" ++ rest) .fail [] := ch_fails (by decide) _
      exact ⟨hother.stop.skip (hword _), _, _, .inr rfl, rfl⟩
  obtain ⟨hbody, b, more, hb, rfl⟩ := hbody
  have hrefused : ∀ name : RuleName, retracting name = true →
      refusesWithin turtle (char 't') 8 name = true →
      refusesWithin turtle (char 'f') 8 name = true →
      Yields (.ref name) (b :: more ++ rest) .fail [] := by
    intro name hretracts ht hf
    rcases hb with rfl | rfl
    · exact refused_fails (by decide) name ht hretracts (more ++ rest)
    · exact refused_fails (by decide) name hf hretracts (more ++ rest)
  have hliteral : Yields (.ref .booleanLiteral) (b :: more ++ rest) (.ok rest) _ := hbody.ref_ok
  rw [consumed_append] at hliteral
  exact .ref rfl ((hrefused .rdfLiteral rfl (by decide) (by decide)).skip
    ((hrefused .numericLiteral rfl (by decide) (by decide)).skip hliteral))

theorem rdfLiteral_fails {input : Bytes}
    (h : Run turtle (.ref .numericLiteral) input (.ok rest) t) :
    Yields (.ref .rdfLiteral) input .fail [] := by
  refine unmatched_fails rfl fun after t' hrun => ?_
  obtain ⟨_, hbody, -⟩ := hrun.ref_ok
  obtain ⟨_, _, _, hstring, -, -⟩ := hbody.seq_ok
  obtain ⟨b, more, hb, rfl⟩ := turtleString_begins hstring
  refine Run.not_matches (n := 8) ?_ ?_ h
  all_goals rcases hb with rfl | rfl <;> decide

/-- A term is read as it is written. -/
theorem Leaf.delimited {leaf : Leaf} (hwell : leaf.WellFormed) (hvar : leaf.isVar = false)
    (hplain : leaf.Unmistakable) (hrest : Delimited rest) :
    Yields (.ref .term) (leaf.text ++ rest) (.ok rest) leaf.actions := by
  cases leaf with
  | iri i =>
      cases i with
      | prefixedName name =>
          exact (readsName_delimited hwell hrest).term_yields (colon_mem_of_matches hwell) hplain
      | iriref text =>
          have htoken := iriref_token hwell rest
          obtain ⟨iri, rfl⟩ := iriref_shape hwell
          exact term_of_iriref htoken
  | blankNodeLabel text =>
      have hblank := blankNodeLabel_delimited hwell hrest
      obtain ⟨label, rfl⟩ := blankNodeLabel_shape hwell
      exact term_of_blankNode hblank
  | anon text =>
      have hblank := portable_anon hwell rest
      obtain ⟨_, hrun, -⟩ := id hblank
      obtain ⟨b, more, hb, hinput⟩ := blankNode_begins hrun
      have hliteral : Yields (.ref .literal) (text ++ rest) .fail [] := by
        rw [hinput]
        rcases hb with rfl | rfl <;> exact refused_fails (by decide) .literal (by decide) rfl more
      exact .ref rfl (hliteral.skip hblank.choose)
  | booleanLiteral text =>
      exact .ref rfl (booleanLiteral_delimited hwell rest).choose
  | numericLiteral kind text =>
      have hnumber := numericLiteral_delimited hwell hrest
      obtain ⟨_, hrun, -⟩ := id hnumber
      have hliteral : Yields (.ref .literal) (text ++ rest) (.ok rest) _ :=
        .ref rfl ((rdfLiteral_fails hrun).skip hnumber.choose)
      exact .ref rfl hliteral.choose
  | rdfLiteral text suffix =>
      have hliteral := rdfLiteral_delimited hwell.1 hwell.2 hrest
      have hboth : Yields (.ref .literal) (text ++ (suffix.text ++ rest)) (.ok rest) _ :=
        .ref rfl hliteral.choose
      rw [Leaf.text, List.append_assoc]
      exact .ref rfl hboth.choose
  | var text => cases hvar

end Tokens

end RdfParser.Turtle
