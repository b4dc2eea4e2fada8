/-
  Foundation/StdString.lean --- `std::string` and `std::stringstream`, as far as
  byte surgery on matched text needs them.

  A `std::string` is a finite byte sequence.  The operations below follow the
  documented behaviour of the standard library: a position past the end raises
  `std::out_of_range`, a count is cut off at the end of the string, and
  `size_t` subtraction wraps around instead of going below zero.
-/
import Mathlib.Data.List.Basic
import Mathlib.Data.List.TakeWhile

set_option autoImplicit false

namespace RdfParser.Foundation

/-! ## Byte strings -/

/-- The contents of a `std::string`. -/
abbrev Bytes : Type := List UInt8

/-- The bytes of an ASCII literal. -/
def bytes (literal : String) : Bytes :=
  literal.toList.map fun c => c.toNat.toUInt8

/-- Why a computation stops without a value. -/
inductive Fault where
  /-- `std::out_of_range` of a string operation -/
  | outOfRange
  /-- `std::runtime_error` raised by the program itself -/
  | runtimeError (what : Bytes)
  /-- `top()` or `pop()` on an empty `std::stack`, which C++ leaves undefined -/
  | emptyStack
  deriving DecidableEq, Repr

/-! ## Position arithmetic and the three editing operations -/

/-- `left - right` on `size_t`. -/
def sizeSub (left right : Nat) : Nat :=
  if right ≤ left then left - right else UInt64.size - (right - left)

@[simp] theorem sizeSub_of_le {left right : Nat} (h : right ≤ left) :
    sizeSub left right = left - right := by
  simp [sizeSub, h]

/-- `s.substr(pos, count)`. -/
def substr (s : Bytes) (pos count : Nat) : Except Fault Bytes :=
  if s.length < pos then .error .outOfRange else .ok ((s.drop pos).take count)

/-- All that follows a front of known length. -/
theorem substr_rest (front rest : Bytes) {count : Nat} (h : rest.length ≤ count) :
    substr (front ++ rest) front.length count = .ok rest := by
  simp [substr, List.take_of_length_le h]

/-- `s.erase(pos, count)`. -/
def erase (s : Bytes) (pos count : Nat) : Except Fault Bytes :=
  if s.length < pos then .error .outOfRange
  else .ok (s.take pos ++ s.drop (pos + count))

/-- `s.insert(pos, str)`. -/
def insert (s : Bytes) (pos : Nat) (str : Bytes) : Except Fault Bytes :=
  if s.length < pos then .error .outOfRange
  else .ok (s.take pos ++ str ++ s.drop pos)

@[simp] theorem erase_zero_one (s : Bytes) : erase s 0 1 = .ok s.tail := by
  simp [erase]

/-- The idiom `value.erase(value.length() - 1, 1)`: it drops the last byte, and
on the empty string the wrapped position is out of range. -/
theorem erase_last (s : Bytes) :
    erase s (sizeSub s.length 1) 1 =
      if s = [] then .error .outOfRange else .ok s.dropLast := by
  cases s with
  | nil => simp [erase, sizeSub]
  | cons b rest =>
      have hle : 1 ≤ (b :: rest).length := by simp
      rw [sizeSub_of_le hle]
      simp [erase, List.dropLast_eq_take]

/-! ## Word extraction

`stream >> word` skips leading white space and reads up to the next white space
byte.  On an exhausted stream it leaves `word` as it was, which for the fresh
strings of this program is the empty string. -/

/-- `isspace` in the classic locale. -/
def isSpace (b : UInt8) : Bool :=
  b == 32 || (9 ≤ b && b ≤ 13)

/-- The white space bytes. -/
def spaces : Bytes := [9, 10, 11, 12, 13, 32]

theorem mem_spaces {b : UInt8} : b ∈ spaces ↔ isSpace b = true := by
  unfold spaces isSpace
  constructor
  · intro h
    simp only [List.mem_cons, List.not_mem_nil, or_false] at h
    rcases h with rfl | rfl | rfl | rfl | rfl | rfl <;> decide
  · intro h
    simp only [Bool.or_eq_true, beq_iff_eq, Bool.and_eq_true, decide_eq_true_eq,
      UInt8.le_iff_toNat_le] at h
    simp only [List.mem_cons, List.not_mem_nil, or_false, ← UInt8.toNat_inj] at h ⊢
    simp at h ⊢
    omega

theorem spaces_ascii {b : UInt8} (h : b ∈ spaces) : b.toNat < 128 := by
  have hall : (spaces.all fun b => b.toNat < 128) = true := by decide
  exact of_decide_eq_true (List.all_eq_true.mp hall b h)

/-- One `stream >> word`: the word and the unread rest of the stream. -/
def extractWord (stream : Bytes) : Bytes × Bytes :=
  ((stream.dropWhile isSpace).takeWhile fun b => !isSpace b,
    (stream.dropWhile isSpace).dropWhile fun b => !isSpace b)

/-- No byte of the string is white space. -/
def Solid (s : Bytes) : Prop := ∀ b ∈ s, isSpace b = false

/-- Every byte of the string is white space. -/
def Blank (s : Bytes) : Prop := ∀ b ∈ s, isSpace b = true

instance (s : Bytes) : Decidable (Solid s) :=
  List.decidableBAll (fun b => isSpace b = false) s

instance (s : Bytes) : Decidable (Blank s) :=
  List.decidableBAll (fun b => isSpace b = true) s

/-- The stream stands at a word boundary: it is exhausted or white space comes
next. -/
def AtBoundary (s : Bytes) : Prop := ∀ b ∈ s.head?, isSpace b = true

instance (s : Bytes) : Decidable (AtBoundary s) := Option.decidableForallMem s.head?

theorem atBoundary_nil : AtBoundary [] := by simp [AtBoundary]

theorem Solid.append {left right : Bytes} (hl : Solid left) (hr : Solid right) :
    Solid (left ++ right) := by
  intro b hb
  rcases List.mem_append.mp hb with h | h
  · exact hl b h
  · exact hr b h

theorem dropWhile_blank {gap rest : Bytes} (hgap : Blank gap) :
    (gap ++ rest).dropWhile isSpace = rest.dropWhile isSpace :=
  List.dropWhile_append_of_pos (by simpa [Blank] using hgap)

/-- Leading white space is skipped. -/
theorem extractWord_blank {gap rest : Bytes} (hgap : Blank gap) :
    extractWord (gap ++ rest) = extractWord rest := by
  unfold extractWord
  rw [dropWhile_blank hgap]

theorem dropWhile_of_solid_head {b : UInt8} {tail : Bytes} (hb : isSpace b = false) :
    (b :: tail).dropWhile isSpace = b :: tail := by
  simp [hb]

/-- A nonempty solid text is read up to the next white space after it. -/
theorem extractWord_append {word : Bytes} (rest : Bytes) (hne : word ≠ []) (hword : Solid word) :
    extractWord (word ++ rest) =
      (word ++ rest.takeWhile fun b => !isSpace b, rest.dropWhile fun b => !isSpace b) := by
  obtain ⟨b, tail, rfl⟩ := List.exists_cons_of_ne_nil hne
  have hb : isSpace b = false := hword b (by simp)
  have hskip : (b :: tail ++ rest).dropWhile isSpace = b :: tail ++ rest := by
    rw [List.cons_append, dropWhile_of_solid_head hb]
  have hall : ∀ c ∈ b :: tail, (!isSpace c) = true := by
    intro c hc
    rw [hword c hc]
    rfl
  unfold extractWord
  rw [hskip, List.takeWhile_append_of_pos hall, List.dropWhile_append_of_pos hall]

theorem takeWhile_eq_nil_iff {rest : Bytes} :
    (rest.takeWhile fun b => !isSpace b) = [] ↔ AtBoundary rest := by
  cases rest with
  | nil => simp [AtBoundary]
  | cons b rest => cases hb : isSpace b <;> simp [AtBoundary, hb]

theorem AtBoundary.dropWhile {rest : Bytes} (h : AtBoundary rest) :
    (rest.dropWhile fun b => !isSpace b) = rest := by
  have hsplit := List.takeWhile_append_dropWhile (p := fun b => !isSpace b) (l := rest)
  rw [takeWhile_eq_nil_iff.mpr h] at hsplit
  exact hsplit

/-- White space begins at a boundary. -/
theorem Blank.atBoundary {gap : Bytes} (h : Blank gap) (hne : gap ≠ []) (rest : Bytes) :
    AtBoundary (gap ++ rest) := by
  obtain ⟨b, tail, rfl⟩ := List.exists_cons_of_ne_nil hne
  simpa [AtBoundary] using h b List.mem_cons_self

/-- A nonempty solid word that ends at a boundary is read exactly. -/
theorem extractWord_solid {word rest : Bytes} (hne : word ≠ []) (hword : Solid word)
    (hrest : AtBoundary rest) : extractWord (word ++ rest) = (word, rest) := by
  rw [extractWord_append rest hne hword, takeWhile_eq_nil_iff.mpr hrest, hrest.dropWhile,
    List.append_nil]

/-- A stream that is a single word. -/
theorem extractWord_word {word : Bytes} (hword : Solid word) : extractWord word = (word, []) := by
  cases word with
  | nil => rfl
  | cons b tail =>
      have h := extractWord_solid (List.cons_ne_nil b tail) hword atBoundary_nil
      rw [List.append_nil] at h
      exact h

/-- What a gap in front of a text does to the word read: white space is skipped;
otherwise the word comes from the gap alone, or the gap is glued to the text. -/
theorem extractWord_gap (gap : Bytes) :
    Blank gap ∨ (∃ word, ∀ rest, (extractWord (gap ++ rest)).1 = word) ∨
      ∃ glued, glued ≠ [] ∧ ∀ token rest, Solid token →
        (extractWord (gap ++ (token ++ rest))).1 =
          glued ++ (token ++ rest.takeWhile fun b => !isSpace b) := by
  have hgap := List.takeWhile_append_dropWhile (p := isSpace) (l := gap)
  have hblank : Blank (gap.takeWhile isSpace) := fun b hb => List.mem_takeWhile_imp hb
  have hskip : ∀ rest, extractWord (gap ++ rest) = extractWord (gap.dropWhile isSpace ++ rest) := by
    intro rest
    calc extractWord (gap ++ rest)
        = extractWord (gap.takeWhile isSpace ++ gap.dropWhile isSpace ++ rest) := by rw [hgap]
      _ = extractWord (gap.dropWhile isSpace ++ rest) := by
          rw [List.append_assoc, extractWord_blank hblank]
  cases hstart : gap.dropWhile isSpace with
  | nil =>
      rw [hstart, List.append_nil] at hgap
      exact .inl (hgap ▸ hblank)
  | cons b tail =>
      have hhead := List.head_dropWhile_not (p := isSpace) (l := gap) (by simp [hstart])
      have hb : isSpace b = false := by
        simpa [hstart] using hhead
      have hword := List.takeWhile_append_dropWhile (p := fun b => !isSpace b) (l := b :: tail)
      have hsolid : Solid ((b :: tail).takeWhile fun b => !isSpace b) := by
        intro c hc
        simpa using List.mem_takeWhile_imp hc
      have hne : ((b :: tail).takeWhile fun b => !isSpace b) ≠ [] := by simp [hb]
      refine .inr ?_
      cases hend : (b :: tail).dropWhile fun b => !isSpace b with
      | nil =>
          rw [hend, List.append_nil] at hword
          rw [hword] at hsolid
          refine .inr ⟨b :: tail, List.cons_ne_nil b tail, fun token rest htoken => ?_⟩
          rw [hskip, hstart, ← List.append_assoc,
            extractWord_append rest (by simp) (hsolid.append htoken), List.append_assoc]
      | cons c more =>
          -- the word ends inside the gap
          have hc : isSpace c = true := by
            have hlast := List.head_dropWhile_not (p := fun b => !isSpace b) (l := b :: tail)
              (by simp [hend])
            simpa [hend] using hlast
          rw [hend] at hword
          generalize (b :: tail).takeWhile (fun b => !isSpace b) = word at hword hsolid hne
          refine .inl ⟨word, fun rest => ?_⟩
          rw [hskip, hstart, ← hword, List.append_assoc,
            extractWord_solid hne hsolid (by simp [AtBoundary, hc])]

/-! ## Decimal numbers -/

/-- `fmt::format("{}", n)` of a natural number. -/
def decimal (n : Nat) : Bytes :=
  (Nat.toDigits 10 n).map fun c => c.toNat.toUInt8

/-- The printed digits, read back as characters. -/
theorem decimal_map_ofNat (n : Nat) :
    (decimal n).map (fun b => Char.ofNat b.toNat) = Nat.toDigits 10 n := by
  unfold decimal
  rw [List.map_map]
  refine (List.map_congr_left ?_).trans (List.map_id _)
  intro c hc
  have hdigit : c.isDigit := Nat.isDigit_of_mem_toDigits (by omega) (by omega) hc
  have hsmall : c.toNat < 256 := by
    have hle : c.val ≤ 57 := by
      simp only [Char.isDigit, Bool.and_eq_true, decide_eq_true_eq] at hdigit
      exact hdigit.2
    have : c.val.toNat ≤ 57 := hle
    show c.val.toNat < 256
    omega
  simp [Nat.mod_eq_of_lt hsmall]

/-- Distinct numbers are printed differently. -/
theorem decimal_injective : Function.Injective decimal := by
  intro m n h
  have hdigits : Nat.toDigits 10 m = Nat.toDigits 10 n := by
    rw [← decimal_map_ofNat, ← decimal_map_ofNat, h]
  calc m = Nat.ofDigitChars 10 (Nat.toDigits 10 m) 0 := Nat.ofDigitChars_ten_toDigits.symm
    _ = Nat.ofDigitChars 10 (Nat.toDigits 10 n) 0 := by rw [hdigits]
    _ = n := Nat.ofDigitChars_ten_toDigits

end RdfParser.Foundation
