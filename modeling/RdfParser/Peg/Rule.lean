/-
  Peg/Rule.lean --- parsing expressions over byte strings.

  The combinators are those of a PEG library in the style of PEGTL: byte and
  UTF-8 classes, sequences, ordered choice, greedy repetition, and `must`, which
  turns a local failure into a global one.  Named rules are references into a
  grammar `ν → Rule ν`; only named rules can carry an action.
-/
import RdfParser.Foundation.StdString

set_option autoImplicit false

namespace RdfParser.Peg

open RdfParser.Foundation

/-- A parsing expression over the rule names `ν`. -/
inductive Rule (ν : Type) where
  /-- one byte of a class: `one`, `not_one`, `range`, `ranges`, `any` -/
  | byte (accepts : UInt8 → Bool)
  /-- one UTF-8 encoded code point of a class: `utf8::one`, `utf8::ranges` -/
  | codePoint (accepts : Nat → Bool)
  /-- the end of the input -/
  | eof
  /-- the empty match -/
  | success
  | seq (first second : Rule ν)
  /-- ordered choice -/
  | sor (first second : Rule ν)
  /-- greedy repetition, zero or more times -/
  | star (body : Rule ν)
  /-- a local failure of the body becomes a global error -/
  | must (body : Rule ν)
  /-- a named rule -/
  | ref (name : ν)

namespace Rule

variable {ν : Type}

/-! ## Derived combinators -/

/-- `seq<R, ...>`. -/
def seqOf : List (Rule ν) → Rule ν
  | [] => .success
  | [rule] => rule
  | rule :: rules => .seq rule (seqOf rules)

/-- `sor<R, ...>`, for at least one alternative. -/
def sorOf (rule : Rule ν) : List (Rule ν) → Rule ν
  | [] => rule
  | next :: rules => .sor rule (sorOf next rules)

/-- `plus<R>`. -/
def plus (rule : Rule ν) : Rule ν := .seq rule (.star rule)

/-- `opt<R>`. -/
def opt (rule : Rule ν) : Rule ν := .sor rule .success

/-- `one<C>`. -/
def one (b : UInt8) : Rule ν := .byte (· == b)

/-- `one<C, ...>`. -/
def oneOf (bs : Bytes) : Rule ν := .byte bs.contains

/-- `not_one<C, ...>`. -/
def notOneOf (bs : Bytes) : Rule ν := .byte fun b => !bs.contains b

/-- `string<C, ...>`. -/
def string (bs : Bytes) : Rule ν := seqOf (bs.map one)

/-- The rules that match single characters or nothing. -/
def isToken : Rule ν → Bool
  | .byte _ | .codePoint _ | .eof | .success => true
  | _ => false

/-- The names a rule refers to. -/
def names : Rule ν → List ν
  | .byte _ | .codePoint _ | .eof | .success => []
  | .seq first second | .sor first second => first.names ++ second.names
  | .star body | .must body => body.names
  | .ref name => [name]

end Rule

/-! ## UTF-8 -/

/-- `10xxxxxx`. -/
def isContinuation (b : UInt8) : Bool := 128 ≤ b && b < 192

/-- The code point at the front of the input with the number of bytes it
occupies, or nothing if the front is not well-formed UTF-8. -/
def peekUtf8 : Bytes → Option (Nat × Nat)
  | [] => none
  | b0 :: rest =>
      let c0 := b0.toNat
      if c0 < 128 then some (c0, 1)
      else if 192 ≤ c0 ∧ c0 < 224 then
        match rest with
        | b1 :: _ =>
            let c := (c0 - 192) * 64 + (b1.toNat - 128)
            if isContinuation b1 ∧ 0x80 ≤ c then some (c, 2) else none
        | _ => none
      else if 224 ≤ c0 ∧ c0 < 240 then
        match rest with
        | b1 :: b2 :: _ =>
            let c := ((c0 - 224) * 64 + (b1.toNat - 128)) * 64 + (b2.toNat - 128)
            if isContinuation b1 ∧ isContinuation b2 ∧ 0x800 ≤ c ∧
                ¬ (0xD800 ≤ c ∧ c ≤ 0xDFFF) then some (c, 3) else none
        | _ => none
      else if 240 ≤ c0 ∧ c0 < 248 then
        match rest with
        | b1 :: b2 :: b3 :: _ =>
            let c := (((c0 - 240) * 64 + (b1.toNat - 128)) * 64 + (b2.toNat - 128)) * 64 +
              (b3.toNat - 128)
            if isContinuation b1 ∧ isContinuation b2 ∧ isContinuation b3 ∧
                0x10000 ≤ c ∧ c ≤ 0x10FFFF then some (c, 4) else none
        | _ => none
      else none

end RdfParser.Peg
