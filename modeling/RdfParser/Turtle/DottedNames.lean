/-
  Turtle/DottedNames.lean --- names with dots inside.

  Dots belong to a name only if something else of the name follows them.  The rules take
  a run of dots together with what follows it, and go back over the run where nothing
  does.  The characters of a name, the escapes and the dot make up a code, so this finds
  the longest name.
-/
import RdfParser.Turtle.Numbers

set_option autoImplicit false

namespace RdfParser.Turtle

open Computability RdfParser.Foundation RdfParser.Peg RdfParser.Peg.Rule

/-! ## Token languages -/

/-- `PERCENT`. -/
def Token.percent : Language UInt8 := letter '%' * (byteOf isHex * byteOf isHex)

/-- The characters that `PN_LOCAL_ESC` escapes. -/
def escapable : Bytes := ['_', '~', '.', '-', '!', '$', '&', '\'', '(', ')', '*', '+', ',', ';',
  '=', '/', '?', '#', '@', '%'].map char

/-- `PN_LOCAL_ESC`. -/
def Token.pnLocalEsc : Language UInt8 := letter '\\' * byteOf escapable.contains

/-- `PLX`. -/
def Token.plx : Language UInt8 := Token.percent + Token.pnLocalEsc

/-- `PN_CHARS_BASE`. -/
def Token.pnCharsBase : Language UInt8 :=
  byteOf isLower + (byteOf isUpper + codePointOf (inRanges pnCharsBaseRanges))

/-- `PN_CHARS_U`. -/
def Token.pnCharsU : Language UInt8 := Token.pnCharsBase + letter '_'

/-- `PN_CHARS`. -/
def Token.pnChars : Language UInt8 :=
  Token.pnCharsU + (letter '-' + (byteOf isDigit + (codePointOf (· == 0x00B7) +
    (codePointOf (inRanges [(0x0300, 0x036F)]) + codePointOf (inRanges [(0x203F, 0x2040)])))))

/-- The rules for names with dots. -/
inductive DottedName where
  | pnPrefix | pnLocal | blankNodeLabel
  deriving DecidableEq, Repr

namespace DottedName

def rule : DottedName → RuleName
  | .pnPrefix => .pnPrefix
  | .pnLocal => .pnLocal
  | .blankNodeLabel => .blankNodeLabel

/-- What such a name begins with. -/
def start : DottedName → Language UInt8
  | .pnPrefix => Token.pnCharsBase
  | .pnLocal => Token.pnCharsU + (letter ':' + (byteOf isDigit + Token.plx))
  | .blankNodeLabel => letter '_' * (letter ':' * (Token.pnCharsU + byteOf isDigit))

/-- What it goes on with, dots apart. -/
def part : DottedName → Language UInt8
  | .pnPrefix | .blankNodeLabel => Token.pnChars
  | .pnLocal => Token.pnChars + (letter ':' + Token.plx)

/-- The token language: dots may be anywhere but at the end. -/
def language (name : DottedName) : Language UInt8 :=
  name.start * (1 + (name.part + letter '.')∗ * name.part)

end DottedName

/-! ## Characters of names -/

/-- Neither an escape nor a dot. -/
def isPlain (c : Nat) : Bool := c != (char '%').toNat && c != (char '\\').toNat &&
  c != (char '.').toNat

/-- The characters of all names. -/
def nameParts : Language UInt8 := codePointOf isPlain + Token.plx

theorem begins_plx : Begins (fun b => b = char '%' ∨ b = char '\\') Token.plx :=
  (((begins_letter '%').imp fun _ => .inl).mul _).add
    (((begins_letter '\\').imp fun _ => .inr).mul _)

theorem code_percent : Code Token.percent := by
  have hhex := code_byteOf isHex
  exact (hhex.mul (hhex.determined _)).mul ((code_byteOf _).determined _)

theorem code_pnLocalEsc : Code Token.pnLocalEsc :=
  (code_byteOf _).mul ((code_byteOf _).determined _)

theorem apart_percent : Apart Token.percent Token.pnLocalEsc :=
  (apart_letter (by decide)).mul _ _

theorem code_plx : Code Token.plx := code_percent.add code_pnLocalEsc apart_percent

theorem not_plain {b : UInt8} (hb : b = char '%' ∨ b = char '\\' ∨ b = char '.') :
    ¬ (b.toNat < 128 → isPlain b.toNat = true) := by
  rcases hb with rfl | rfl | rfl <;> decide

theorem code_nameParts : Code nameParts := by
  refine (code_codePointOf isPlain).add code_plx ?_
  refine (begins_codePointOf isPlain).apart begins_plx fun b hplain hb => not_plain ?_ hplain
  exact hb.imp_right .inl

theorem begins_nameParts : Begins (· ≠ char '.') nameParts := by
  refine ((begins_codePointOf isPlain).imp fun b hplain hb => ?_).add (begins_plx.imp ?_)
  · exact not_plain (.inr (.inr hb)) hplain
  · rintro _ (rfl | rfl) <;> decide

theorem code_dotted : Code (nameParts + letter '.') :=
  code_nameParts.add (code_byteOf _) (begins_nameParts.apart (begins_letter '.') fun _ h => h)

/-! ### The languages are made of them -/

theorem byteOf_le_nameParts {accepts : UInt8 → Bool}
    (h : ∀ b, accepts b = true → b.toNat < 128 ∧ isPlain b.toNat = true) :
    byteOf accepts ≤ nameParts :=
  (byteOf_le h).trans le_self_add

theorem letter_le_nameParts {c : Char}
    (h : (char c).toNat < 128 ∧ isPlain (char c).toNat = true) : letter c ≤ nameParts := by
  refine byteOf_le_nameParts fun b hb => ?_
  rw [beq_iff_eq.mp hb]
  exact h

theorem codePointOf_le_nameParts {p : Nat → Bool} (h : ∀ c, p c = true → 128 ≤ c) :
    codePointOf p ≤ nameParts := by
  refine (codePointOf_le fun c hc => ?_).trans le_self_add
  have hge := h c hc
  have hlow : ∀ d : Char, (char d).toNat < 128 → (c != (char d).toNat) = true := by
    intro d hd
    rw [bne_iff_ne]
    omega
  rw [isPlain, hlow '%' (by decide), hlow '\\' (by decide), hlow '.' (by decide)]
  rfl

theorem inRanges_ge {ranges : List (Nat × Nat)} {n c : Nat} (hlow : ∀ r ∈ ranges, n ≤ r.1)
    (h : inRanges ranges c = true) : n ≤ c := by
  obtain ⟨r, hr, hin⟩ := List.any_eq_true.mp h
  have hle : r.1 ≤ c := by simpa using (Bool.and_eq_true_iff.mp hin).1
  exact (hlow r hr).trans hle

theorem isAlnum_plain (b : UInt8) (h : isAlnum b = true) :
    b.toNat < 128 ∧ isPlain b.toNat = true := by
  simp only [isAlnum, isAlpha, isLower, isUpper, isDigit, inRange, Bool.or_eq_true,
    Bool.and_eq_true, decide_eq_true_eq, UInt8.le_iff_toNat_le] at h
  simp only [isPlain, Bool.and_eq_true, bne_iff_ne]
  simp [char] at h ⊢
  omega

/-! ## Rules for characters of names -/

/-- The rule matches the texts of the language, which are characters of names. -/
structure MatchesParts (rule : Rule RuleName) (L : Language UInt8) : Prop where
  munches : Munches turtle rule L
  le : L ≤ nameParts

namespace MatchesParts

variable {first second : Rule RuleName} {L M : Language UInt8}

theorem code (h : MatchesParts first L) : Code L := code_nameParts.mono h.le

theorem sor (h₁ : MatchesParts first L) (h₂ : MatchesParts second M) :
    MatchesParts (.sor first second) (L + M) where
  munches := h₁.munches.sor_code h₂.munches (code_nameParts.mono (add_le h₁.le h₂.le))
  le := add_le h₁.le h₂.le

theorem ref {name : RuleName} (h : MatchesParts (turtle name) L) : MatchesParts (.ref name) L :=
  ⟨.ref h.munches, h.le⟩

theorem ch {c : Char} (h : (char c).toNat < 128 ∧ isPlain (char c).toNat = true) :
    MatchesParts (Turtle.ch c) (letter c) :=
  ⟨munches_ch c, letter_le_nameParts h⟩

theorem alnum {accepts : UInt8 → Bool} (h : ∀ b, accepts b = true → isAlnum b = true) :
    MatchesParts (.byte accepts) (byteOf accepts) :=
  ⟨.byte accepts, byteOf_le_nameParts fun b hb => isAlnum_plain b (h b hb)⟩

theorem ranges {ranges : List (Nat × Nat)} (h : ∀ r ∈ ranges, 128 ≤ r.1) :
    MatchesParts (.codePoint (inRanges ranges)) (codePointOf (inRanges ranges)) :=
  ⟨.codePoint _, codePointOf_le_nameParts fun _ hc => inRanges_ge h hc⟩

theorem digit : MatchesParts Turtle.digit (byteOf isDigit) :=
  alnum fun b hb => by simp [isAlnum, hb]

theorem pnCharsBase : MatchesParts (.ref .pnCharsBase) Token.pnCharsBase := by
  have hlower : MatchesParts (.byte isLower) (byteOf isLower) :=
    alnum fun b hb => by simp [isAlnum, isAlpha, hb]
  have hupper : MatchesParts (.byte isUpper) (byteOf isUpper) :=
    alnum fun b hb => by simp [isAlnum, isAlpha, hb]
  exact .ref (hlower.sor (hupper.sor (ranges (by decide))))

theorem pnCharsU : MatchesParts (.ref .pnCharsU) Token.pnCharsU :=
  .ref (pnCharsBase.sor (ch (by decide)))

theorem pnChars : MatchesParts (.ref .pnChars) Token.pnChars := by
  have hmiddle : MatchesParts (.codePoint (· == 0x00B7)) (codePointOf (· == 0x00B7)) := by
    refine ⟨.codePoint _, codePointOf_le_nameParts fun c hc => ?_⟩
    rw [beq_iff_eq.mp hc]
    decide
  exact .ref (pnCharsU.sor ((ch (by decide)).sor (digit.sor (hmiddle.sor
    ((ranges (by decide)).sor (ranges (by decide)))))))

theorem plx : MatchesParts (.ref .plx) Token.plx := by
  have hhex : Munches turtle (.ref .hex) (byteOf isHex) := .ref (.byte isHex)
  have hpercent := (munches_ch '%').seq (hhex.seq hhex ((code_byteOf _).determined _))
    ((code_byteOf _).determined _)
  have hescape := (munches_ch '\\').seq
    (Munches.sorOf_one (char '_') (escapable.drop 1)) ((code_byteOf _).determined _)
  exact ⟨.ref (hpercent.ref.sor_apart hescape.ref apart_percent), le_add_self⟩

theorem colon : MatchesParts (Turtle.ch ':') (letter ':') := ch (by decide)

end MatchesParts

/-! ## Dots -/

/-- A series of dots and parts that ends in a part. -/
theorem munches_parts {body : Rule RuleName} {L P : Language UInt8} (hbody : Munches turtle body L)
    (hle : P ≤ nameParts) (hsingle : P ≤ L) (hseries : L ≤ P * P∗) :
    Munches turtle (.star (.seq (.star (ch '.')) body)) (1 + (P + letter '.')∗ * P) := by
  have hbegins : Begins (· ≠ char '.') P := begins_nameParts.mono hle
  refine (munches_ch '.').star_separated hbody (code_byteOf _) (code_nameParts.mono hle) ?_ hsingle
    hseries (begins_letter '.').nil_not_mem hbegins.nil_not_mem
  exact (over_letter '.').kstar.determined hbegins fun _ h => h

namespace DottedName

/-- What follows the start. -/
def more (name : DottedName) : Rule RuleName :=
  match name with
  | .pnPrefix | .blankNodeLabel => .star (.seq (.star (ch '.')) (.ref .pnChars))
  | .pnLocal =>
      .star (.seq (.star (ch '.')) (plus (sorOf (.ref .pnChars) [ch ':', .ref .plx])))

theorem munches_more (name : DottedName) : Munches turtle name.more
    (1 + (name.part + letter '.')∗ * name.part) := by
  have hchars := MatchesParts.pnChars
  have hone : ∀ P : Language UInt8, P ≤ P * P∗ := fun P => by
    calc P = P * 1 := (mul_one P).symm
      _ ≤ P * P∗ := by
        gcongr
        exact one_le_kstar
  cases name with
  | pnPrefix => exact munches_parts hchars.munches hchars.le le_rfl (hone _)
  | pnLocal =>
      have hpart := hchars.sor (MatchesParts.colon.sor MatchesParts.plx)
      have hnil := (begins_nameParts.mono hpart.le).nil_not_mem
      exact munches_parts (hpart.munches.plus_code hpart.code hnil) hpart.le (hone _) le_rfl
  | blankNodeLabel => exact munches_parts hchars.munches hchars.le le_rfl (hone _)

theorem munches (name : DottedName) : Munches turtle (.ref name.rule) name.language := by
  cases name with
  | pnPrefix =>
      have hstart := MatchesParts.pnCharsBase
      exact .ref (hstart.munches.seq (munches_more .pnPrefix) (hstart.code.determined _))
  | pnLocal =>
      have hstart := MatchesParts.pnCharsU.sor
        (MatchesParts.colon.sor (MatchesParts.digit.sor MatchesParts.plx))
      exact .ref (hstart.munches.seq (munches_more .pnLocal) (hstart.code.determined _))
  | blankNodeLabel =>
      have hstart := MatchesParts.pnCharsU.sor MatchesParts.digit
      have hmore := hstart.munches.seq (munches_more .blankNodeLabel) (hstart.code.determined _)
      have hcolon := (munches_ch ':').seq hmore ((code_byteOf _).determined _)
      refine (Munches.ref ((munches_ch '_').seq hcolon ((code_byteOf _).determined _))).congr ?_
      rw [language, start, mul_assoc, mul_assoc]

/-! ### Runs of dots -/

theorem part_le (name : DottedName) : name.part ≤ nameParts := by
  have hchars := MatchesParts.pnChars
  cases name with
  | pnPrefix => exact hchars.le
  | pnLocal => exact (hchars.sor (MatchesParts.colon.sor MatchesParts.plx)).le
  | blankNodeLabel => exact hchars.le

theorem code_start (name : DottedName) : Code name.start := by
  cases name with
  | pnPrefix => exact MatchesParts.pnCharsBase.code
  | pnLocal =>
      exact (MatchesParts.pnCharsU.sor
        (MatchesParts.colon.sor (MatchesParts.digit.sor MatchesParts.plx))).code
  | blankNodeLabel =>
      have hfirst := (MatchesParts.pnCharsU.sor MatchesParts.digit).code
      exact (hfirst.mul ((code_byteOf _).determined _)).mul ((code_byteOf _).determined _)

/-- No name ends in a dot. -/
theorem no_final_dot {name : DottedName} {text : Bytes} (h : text ∈ name.language) :
    text ∉ name.start * ((name.part + letter '.')∗ * letter '.') := by
  intro hdot
  obtain ⟨first, hfirst, w, hw, rfl⟩ := Language.mem_mul.mp h
  obtain ⟨first', hfirst', _, ⟨v, hv, d, hd, rfl⟩, heq⟩ := Language.mem_mul.mp hdot
  obtain rfl := (code_start name).eq hfirst hfirst' (List.prefix_append first w)
    ⟨v ++ d, heq⟩
  have heq : v ++ d = w := List.append_cancel_left heq
  rcases hw with hnil | ⟨u, hu, c, hc, rfl⟩
  · rw [(Language.mem_one w).mp hnil, List.append_eq_nil_iff] at heq
    exact (begins_letter '.').nil_not_mem (heq.2 ▸ hd)
  · have hbegins := begins_nameParts.mono name.part_le
    have hcode : Code (name.part + letter '.') := code_dotted.mono (by gcongr; exact name.part_le)
    have hnil : [] ∉ name.part + letter '.' := by
      rintro (hnil | hnil)
      · exact hbegins.nil_not_mem hnil
      · exact (begins_letter '.').nil_not_mem hnil
    -- the last part would be the dot
    obtain rfl := hcode.last_eq hnil hv hu (.inr hd) (.inl hc) heq
    obtain ⟨b, more, rfl, hb⟩ := hbegins _ hc
    obtain ⟨b', more', heq', hb'⟩ := begins_letter '.' _ hd
    exact hb ((List.cons.inj heq').1.trans hb')

/-- Dots with a part behind them can go on a name. -/
theorem dots_mem {name : DottedName} {u dots part : Bytes}
    (hu : u ∈ name.start * (name.part + letter '.')∗) (hdots : dots ∈ (letter '.')∗)
    (hpart : part ∈ name.part) : u ++ dots ++ part ∈ name.language := by
  obtain ⟨first, hfirst, w, hw, rfl⟩ := Language.mem_mul.mp hu
  have hmono : (letter '.')∗ ≤ (name.part + letter '.')∗ := kstar_mono le_add_self
  have hends := Language.append_mem_mul (append_mem_kstar hw (hmono hdots)) hpart
  have hmore : w ++ dots ++ part ∈ 1 + (name.part + letter '.')∗ * name.part := .inr hends
  have hmem := Language.append_mem_mul hfirst hmore
  rwa [← List.append_assoc, ← List.append_assoc] at hmem

end DottedName

/-- The rules for names with dots match the longest prefix in their token language: dots at
the end are left to the rest, dots before another part are taken. -/
theorem dottedName_longest (name : DottedName) (input : Bytes) :
    ((∃ rest t, Run turtle (.ref name.rule) input (.ok rest) t) ↔
      ∃ text ∈ name.language, text <+: input) ∧
    ∀ rest t, Run turtle (.ref name.rule) input (.ok rest) t →
      ∃ text ∈ name.language, text ++ rest = input ∧
        (∀ other ∈ name.language, other <+: input → other.length ≤ text.length) ∧
        text ∉ name.start * ((name.part + letter '.')∗ * letter '.') ∧
        ∀ u ∈ name.start * (name.part + letter '.')∗, ∀ dots ∈ (letter '.')∗,
          ∀ part ∈ name.part, u ++ dots ++ part <+: input → u ++ dots ++ part <+: text := by
  refine ⟨name.munches.matches_iff input, fun rest t hrun => ?_⟩
  obtain ⟨text, htext, hinput, hlongest⟩ := (name.munches.reads _ _).mp ⟨t, hrun⟩
  refine ⟨text, htext, hinput, hlongest, DottedName.no_final_dot htext, ?_⟩
  intro u hu dots hdots part hpart hfront
  exact List.prefix_of_prefix_length_le hfront ⟨rest, hinput⟩
    (hlongest _ (DottedName.dots_mem hu hdots hpart) hfront)

/-- Two dots inside, an escaped dot, and a percent triple that breaks off. -/
theorem escapedDot_ends_name :
    ∃ t, Run turtle (.ref .pnLocal) (bytes "a..b\\.%4.") (.ok (bytes "%4.")) t ∧
      bytes "a..b\\." ∈ DottedName.pnLocal.language := by
  obtain ⟨t, hrun⟩ :
      ∃ t, Run turtle (.ref .pnLocal) (bytes "a..b\\.%4.") (.ok (bytes "%4.")) t :=
    ⟨_, exec_sound 40 rfl⟩
  obtain ⟨text, htext, hinput, -⟩ :=
    (dottedName_longest .pnLocal (bytes "a..b\\.%4.")).2 _ t hrun
  obtain rfl : text = bytes "a..b\\." :=
    List.append_cancel_right (hinput : _ = bytes "a..b\\." ++ bytes "%4.")
  exact ⟨t, hrun, htext⟩

end RdfParser.Turtle
