/-
  Turtle/Numbers.lean --- numbers are read as far as they go.

  A number of one kind often begins with one of another.  The alternatives of
  `NumericLiteral` are ordered so that the first that matches matches most: only doubles
  have an exponent, and only integers have no dot.
-/
import RdfParser.Peg.Munch
import RdfParser.Turtle.Identifiers

set_option autoImplicit false

namespace RdfParser.Turtle

open Computability RdfParser.Foundation RdfParser.Rdf RdfParser.Peg RdfParser.Peg.Rule

/-! ## Token languages -/

/-- The text of one character. -/
def letter (c : Char) : Language UInt8 := byteOf (· == char c)

/-- `[0-9]+`. -/
def digits : Language UInt8 := byteOf isDigit * (byteOf isDigit)∗

/-- `[+-]?`. -/
def signs : Language UInt8 := letter '+' + letter '-' + 1

/-- `[eE][+-]?[0-9]+`. -/
def exponents : Language UInt8 := (letter 'e' + letter 'E') * (signs * digits)

/-- The texts of a kind of numbers. -/
def NumberKind.language : NumberKind → Language UInt8
  | .double =>
      signs * (digits * (letter '.' * ((byteOf isDigit)∗ * exponents)) +
        (letter '.' * (digits * exponents) + digits * exponents))
  | .decimal => signs * ((byteOf isDigit)∗ * (letter '.' * digits))
  | .integer => signs * digits

/-! ## Letters of numbers -/

theorem begins_letter (c : Char) : Begins (· = char c) (letter c) :=
  (begins_byteOf _).imp fun _ hb => beq_iff_eq.mp hb

theorem over_letter (c : Char) : Over (· = char c) (letter c) :=
  (over_byteOf _).imp fun _ hb => beq_iff_eq.mp hb

theorem apart_letter {c d : Char} (h : char c ≠ char d) : Apart (letter c) (letter d) :=
  (begins_letter c).apart (begins_letter d) fun _ hc hd => h (hc.symm.trans hd)

theorem begins_digits : Begins (isDigit · = true) digits := (begins_byteOf isDigit).mul _

theorem over_digits : Over (isDigit · = true) digits :=
  (over_byteOf isDigit).mul (over_byteOf isDigit).kstar

theorem over_signs : Over (fun b => b = char '+' ∨ b = char '-') signs :=
  (((over_letter '+').imp fun _ => .inl).add ((over_letter '-').imp fun _ => .inr)).add over_one

/-- The marks of an exponent. -/
def marksExponent (b : UInt8) : Prop := b = char 'e' ∨ b = char 'E'

theorem begins_exponents : Begins marksExponent exponents :=
  (((begins_letter 'e').imp fun _ => .inl).add ((begins_letter 'E').imp fun _ => .inr)).mul _

/-! ## Where the parts end -/

/-- A byte that a number without sign begins with. -/
def beginsUnsigned (b : UInt8) : Prop := isDigit b = true ∨ b = char '.'

theorem signs_determined {L : Language UInt8} (h : Begins beginsUnsigned L) :
    Determined signs L := by
  refine over_signs.determined h ?_
  rintro _ hb (rfl | rfl) <;> rcases hb with hb | hb <;> exact absurd hb (by decide)

theorem dot_not_digit (b : UInt8) (h : b = char '.') : ¬ isDigit b = true := by
  subst h
  decide

theorem mark_not_digit (b : UInt8) (h : marksExponent b) : ¬ isDigit b = true := by
  rcases h with rfl | rfl <;> decide

theorem digits_determined {L : Language UInt8} {p : UInt8 → Prop} (h : Begins p L)
    (hp : ∀ b, p b → ¬ isDigit b = true) :
    Determined (byteOf isDigit)∗ L ∧ Determined digits L :=
  ⟨(over_byteOf isDigit).kstar.determined h hp, over_digits.determined h hp⟩

theorem begins_unsigned_digits : Begins beginsUnsigned digits :=
  begins_digits.imp fun _ => .inl

theorem begins_unsigned_dot (L : Language UInt8) : Begins beginsUnsigned (letter '.' * L) :=
  ((begins_letter '.').imp fun _ => .inr).mul L

/-! ## The rules -/

theorem munches_ch (c : Char) : Munches turtle (ch c) (letter c) := .byte _

theorem munches_digits : Munches turtle (plus digit) digits :=
  (Munches.byte isDigit).plus_code (code_byteOf isDigit) (begins_byteOf isDigit).nil_not_mem

theorem munches_moreDigits : Munches turtle (.star digit) (byteOf isDigit)∗ :=
  (Munches.byte isDigit).star_code (code_byteOf isDigit) (begins_byteOf isDigit).nil_not_mem

theorem munches_sign : Munches turtle sign signs :=
  ((munches_ch '+').sor_apart (munches_ch '-') (apart_letter (by decide))).opt

theorem munches_integer : Munches turtle (.ref .integer) NumberKind.integer.language :=
  .ref (munches_sign.seq munches_digits (signs_determined begins_unsigned_digits))

theorem munches_decimal : Munches turtle (.ref .decimal) NumberKind.decimal.language := by
  have hfraction : Munches turtle (.seq (ch '.') (plus digit)) (letter '.' * digits) :=
    (munches_ch '.').seq munches_digits ((code_byteOf _).determined _)
  have hmagnitude := munches_moreDigits.seq hfraction
    (digits_determined ((begins_letter '.').mul digits) dot_not_digit).1
  refine .ref (munches_sign.seq hmagnitude (signs_determined ?_))
  exact ((begins_byteOf isDigit).imp fun _ => .inl).kstar_mul (begins_unsigned_dot digits)

theorem munches_exponent : Munches turtle (.ref .exponent) exponents := by
  have hapart : Apart (letter 'e') (letter 'E') := apart_letter (by decide)
  have hmark := (munches_ch 'e').sor_apart (munches_ch 'E') hapart
  have hcode : Code (letter 'e' + letter 'E') := (code_byteOf _).add (code_byteOf _) hapart
  have hpower := munches_sign.seq munches_digits (signs_determined begins_unsigned_digits)
  exact .ref (hmark.seq hpower (hcode.determined _))

theorem munches_double : Munches turtle (.ref .double) NumberKind.double.language := by
  have hexponent := digits_determined begins_exponents mark_not_digit
  have hscaled := munches_digits.seq munches_exponent hexponent.2
  have hdot := digits_determined ((begins_letter '.').mul ((byteOf isDigit)∗ * exponents))
    dot_not_digit
  have hfirst := munches_digits.seq ((munches_ch '.').seq
    (munches_moreDigits.seq munches_exponent hexponent.1) ((code_byteOf _).determined _)) hdot.2
  have hsecond := (munches_ch '.').seq hscaled ((code_byteOf _).determined _)
  have hstart : ∀ L M, Apart (digits * L) (letter '.' * M) := fun L M =>
    (begins_digits.mul L).apart ((begins_letter '.').mul M) fun b hb hd => dot_not_digit b hd hb
  have hmore := hsecond.sor_apart hscaled (hstart _ _).symm
  -- the first alternative and the third have digits in front, the dot comes after them
  have hmiddle : Apart (letter '.' * ((byteOf isDigit)∗ * exponents)) exponents := by
    refine ((begins_letter '.').mul _).apart begins_exponents ?_
    rintro _ rfl (hmark | hmark) <;> exact absurd hmark (by decide)
  have hapart := (hstart ((letter '.') * ((byteOf isDigit)∗ * exponents)) (digits * exponents)).add
    (hdot.2.apart hexponent.2 hmiddle)
  refine .ref (munches_sign.seq (hfirst.sor_apart hmore hapart) (signs_determined ?_))
  exact (begins_unsigned_digits.mul _).add ((begins_unsigned_dot _).add
    (begins_unsigned_digits.mul _))

/-! ## Kinds exclude each other -/

/-- What decimals and integers are made of. -/
def inDecimal (b : UInt8) : Prop := (isDigit b = true ∨ b = char '+' ∨ b = char '-') ∨ b = char '.'

theorem over_integer :
    Over (fun b => isDigit b = true ∨ b = char '+' ∨ b = char '-') NumberKind.integer.language :=
  (over_signs.imp fun _ => .inr).mul (over_digits.imp fun _ => .inl)

theorem over_decimal : Over inDecimal NumberKind.decimal.language := by
  have hdigit : Over inDecimal (byteOf isDigit) :=
    (over_byteOf isDigit).imp fun _ hb => .inl (.inl hb)
  have hsign : Over inDecimal signs := over_signs.imp fun _ hb => .inl (.inr hb)
  have hdot : Over inDecimal (letter '.') := (over_letter '.').imp fun _ => .inr
  exact hsign.mul (hdigit.kstar.mul (hdot.mul (hdigit.mul hdigit.kstar)))

theorem dot_not_in_integer (b : UInt8) (h : b = char '.') :
    ¬ (isDigit b = true ∨ b = char '+' ∨ b = char '-') := by
  subst h
  decide

theorem mark_not_in_decimal (b : UInt8) (h : marksExponent b) : ¬ inDecimal b := by
  rcases h with rfl | rfl <;> (unfold inDecimal; decide)

/-- Doubles have an exponent. -/
theorem has_exponent : Has marksExponent NumberKind.double.language := by
  have hexponent := begins_exponents.has
  refine Has.right (Has.add ?_ (Has.add ?_ ?_)) signs
  · exact ((hexponent.right _).right _).right _
  · exact (hexponent.right _).right _
  · exact hexponent.right _

/-- Decimals have a dot. -/
theorem has_dot : Has (· = char '.') NumberKind.decimal.language :=
  (((begins_letter '.').has.left digits).right _).right signs

theorem munches_numericLiteral :
    Munches turtle (.ref .numericLiteral) (NumberKind.double.language +
      (NumberKind.decimal.language + NumberKind.integer.language)) := by
  have hdecimal := munches_decimal.sor munches_integer fun u hu v hv _ hu' hv' =>
    ⟨u, hu, hu', has_dot.longer over_integer dot_not_in_integer hu hv hu' hv'⟩
  have hover := over_decimal.add (over_integer.imp fun _ => .inl)
  exact .ref (munches_double.sor hdecimal fun u hu v hv _ hu' hv' =>
    ⟨u, hu, hu', has_exponent.longer hover mark_not_in_decimal hu hv hu' hv'⟩)

/-- No text is of two kinds. -/
theorem NumberKind.unique {kind kind' : NumberKind} {text : Bytes} (h : text ∈ kind.language)
    (h' : text ∈ kind'.language) : kind = kind' := by
  have hinteger := over_integer.imp (q := inDecimal) fun _ => .inl
  have hdecimal : text ∈ NumberKind.decimal.language → text ∉ NumberKind.integer.language :=
    has_dot.not_mem over_integer dot_not_in_integer
  have hdouble : text ∈ NumberKind.double.language →
      text ∉ NumberKind.decimal.language ∧ text ∉ NumberKind.integer.language := fun hd =>
    ⟨has_exponent.not_mem over_decimal mark_not_in_decimal hd,
      has_exponent.not_mem hinteger mark_not_in_decimal hd⟩
  cases kind with
  | double =>
      cases kind' with
      | double => rfl
      | decimal => exact absurd h' (hdouble h).1
      | integer => exact absurd h' (hdouble h).2
  | decimal =>
      cases kind' with
      | double => exact absurd h (hdouble h').1
      | decimal => rfl
      | integer => exact absurd h' (hdecimal h)
  | integer =>
      cases kind' with
      | double => exact absurd h (hdouble h').2
      | decimal => exact absurd h (hdecimal h')
      | integer => rfl

theorem NumberKind.munches (kind : NumberKind) :
    Munches turtle (.ref kind.rule) kind.language := by
  cases kind with
  | double => exact munches_double
  | decimal => exact munches_decimal
  | integer => exact munches_integer

/-! ## Literals -/

/-- The literal made of a number. -/
def NumberKind.literal (kind : NumberKind) (text : Bytes) : Term :=
  Rdf.literal text none (some kind.datatype)

theorem NumberKind.literal_nodeType (kind : NumberKind) (text : Bytes) :
    (kind.literal text).nodeType = .literal := by
  cases kind <;> rfl

theorem NumberKind.literal_dataType (kind : NumberKind) (text : Bytes) :
    termDataType (kind.literal text) = kind.datatype := by
  have hstring : kind.datatype ≠ xsdString := by cases kind <;> decide
  rw [NumberKind.literal, Turtle.literal_dataType, Components.dataType, if_neg hstring]

/-- The actions of a number make that literal, whatever has been read before. -/
theorem NumberKind.runActions (kind : NumberKind) (text : Bytes) {q : Bool} (s : State q) :
    ∃ s', Turtle.runActions [(kind.rule, []), (.numericLiteral, text)] s = (s', none) ∧
      s'.element = Element.ofTerm q (kind.literal text) := by
  cases kind <;> exact ⟨_, rfl, rfl⟩

/-- `NumericLiteral` matches the longest prefix that is a number.  The text is of one kind
only, and the literal has the text as its value and the datatype of the kind. -/
theorem numericLiteral_longest (input : Bytes) :
    ((∃ rest t, Run turtle (.ref .numericLiteral) input (.ok rest) t) ↔
      ∃ kind : NumberKind, ∃ text ∈ kind.language, text <+: input) ∧
    ∀ rest t, Run turtle (.ref .numericLiteral) input (.ok rest) t →
      ∃ text, text ++ rest = input ∧
        (∀ kind : NumberKind, ∀ other ∈ kind.language, other <+: input →
          other.length ≤ text.length) ∧
        ∃ kind : NumberKind, (∀ kind' : NumberKind, text ∈ kind'.language ↔ kind' = kind) ∧
          ∃ literal : Term, literal.nodeType = .literal ∧ termValue literal = text ∧
            termLang literal = [] ∧ termDataType literal = kind.datatype ∧
            ∀ q (s : State q), ∃ s', runActions t s = (s', none) ∧
              s'.element = Element.ofTerm q literal := by
  have hkinds : ∀ text, text ∈ NumberKind.double.language + (NumberKind.decimal.language +
      NumberKind.integer.language) ↔ ∃ kind : NumberKind, text ∈ kind.language := by
    intro text
    constructor
    · rintro (h | h | h)
      · exact ⟨.double, h⟩
      · exact ⟨.decimal, h⟩
      · exact ⟨.integer, h⟩
    · rintro ⟨kind, h⟩
      cases kind with
      | double => exact .inl h
      | decimal => exact .inr (.inl h)
      | integer => exact .inr (.inr h)
  constructor
  · rw [munches_numericLiteral.matches_iff]
    constructor
    · rintro ⟨text, htext, hfront⟩
      obtain ⟨kind, hkind⟩ := (hkinds text).mp htext
      exact ⟨kind, text, hkind, hfront⟩
    · rintro ⟨kind, text, hkind, hfront⟩
      exact ⟨text, (hkinds text).mpr ⟨kind, hkind⟩, hfront⟩
  · intro rest t hrun
    obtain ⟨text, -, rfl, hlongest⟩ := (munches_numericLiteral.reads _ _).mp ⟨t, hrun⟩
    refine ⟨text, rfl, fun kind other hother => hlongest other ((hkinds other).mpr ⟨kind, hother⟩),
      ?_⟩
    obtain ⟨kind, text', hinput, ⟨rest', t', hmatches⟩, hessence⟩ := numericLiteral_kind hrun
    obtain rfl : text = text' := List.append_cancel_right hinput
    obtain ⟨text', hkind, hinput', -⟩ := (kind.munches.reads _ _).mp ⟨t', hmatches⟩
    obtain rfl : text' = text := List.append_cancel_right hinput'
    refine ⟨kind, fun kind' => ⟨fun hkind' => NumberKind.unique hkind' hkind, ?_⟩,
      kind.literal text', kind.literal_nodeType text', literal_value _ _ _, literal_lang _ _ _,
      kind.literal_dataType text', fun q s => ?_⟩
    · rintro rfl
      exact hkind
    · rw [runActions_eq_essence, hessence]
      exact kind.runActions text' s

/-- An exponent without digits is left to the rest. -/
theorem decimal_before_mark :
    ∃ t, Run turtle (.ref .numericLiteral) (bytes "-1.5e") (.ok (bytes "e")) t ∧
      ∀ q (s : State q), ∃ s' literal, runActions t s = (s', none) ∧
        s'.element = Element.ofTerm q literal ∧ termValue literal = bytes "-1.5" ∧
        termDataType literal = xsdDecimal := by
  obtain ⟨t, hrun⟩ :
      ∃ t, Run turtle (.ref .numericLiteral) (bytes "-1.5e") (.ok (bytes "e")) t :=
    ⟨_, exec_sound 30 rfl⟩
  obtain ⟨text, hinput, -, kind, hkind, literal, -, hvalue, -, hdatatype, hactions⟩ :=
    (numericLiteral_longest (bytes "-1.5e")).2 _ t hrun
  obtain rfl : text = bytes "-1.5" :=
    List.append_cancel_right (hinput : _ = bytes "-1.5" ++ bytes "e")
  have hdigit : ∀ b, isDigit b = true → [b] ∈ byteOf isDigit := fun b hb => ⟨b, hb, rfl⟩
  have hone : byteOf isDigit ≤ (byteOf isDigit)∗ := le_kstar
  have hdecimal : bytes "-1.5" ∈ NumberKind.decimal.language := by
    refine Language.append_mem_mul (a := [char '-']) (.inl (.inr ⟨_, rfl, rfl⟩)) ?_
    refine Language.append_mem_mul (a := [char '1']) (hone (hdigit _ (by decide))) ?_
    refine Language.append_mem_mul (a := [char '.']) ⟨_, rfl, rfl⟩ ?_
    exact Language.append_mem_mul (a := [char '5']) (hdigit _ (by decide))
      (Language.nil_mem_kstar _)
  obtain rfl := (hkind .decimal).mp hdecimal
  refine ⟨t, hrun, fun q s => ?_⟩
  obtain ⟨s', hs', helement⟩ := hactions q s
  exact ⟨s', literal, hs', helement, hvalue, hdatatype⟩

end RdfParser.Turtle
