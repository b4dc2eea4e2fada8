/-
  Turtle/Grammar.lean --- the Turtle grammar, rule by rule.

  Source: `internal/Turtle/Grammar.hpp`.  Every named struct of the source is one
  `RuleName`; the templates carry their `sparqlQuery` argument.  Anonymous
  character classes of the PEG library (`digit`, `space`, ...) are written out.
-/
import RdfParser.Peg.Run

set_option autoImplicit false

namespace RdfParser.Turtle

open RdfParser.Foundation RdfParser.Peg RdfParser.Peg.Rule

/-- The named rules. -/
inductive RuleName where
  -- terminals
  | pnLocalEsc | hex | percent | plx
  | pnCharsBase | pnCharsU | pnChars | pnLocal | pnPrefix
  | anonWs | anon | uchar | echar
  | stringLiteralLongQuote | stringLiteralQuote
  | stringLiteralSingleQuote | stringLiteralLongSingleQuote
  | integer | decimal | exponent | double
  | langtag | blankNodeLabel | pnameNs | pnameLn | iriref | comment
  -- terms and directives
  | ignored | numericLiteral | turtleString | blankNode | prefixedName | iri
  | prefixID | sparqlPrefix | base | sparqlBase | directive
  | rdfLiteralTypeTag | rdfLiteral | booleanLiteral | literal | term
  | varname | var1 | var2 | var | varOrTerm
  -- triples
  | collection (sparqlQuery : Bool) | blankNodePropertyList (sparqlQuery : Bool)
  | object (sparqlQuery : Bool) | objectList (sparqlQuery : Bool)
  | predicate | collectionBegin | verbA | verb (sparqlQuery : Bool)
  | predicateObjectListInner (sparqlQuery : Bool) | predicateObjectList (sparqlQuery : Bool)
  | blankNodePropertyListBegin | subject (sparqlQuery : Bool)
  | tripleSeq1 (sparqlQuery : Bool) | tripleSeq2 (sparqlQuery : Bool)
  | triple (sparqlQuery : Bool) | tripleExtended (sparqlQuery : Bool)
  -- documents
  | statement | turtleDoc | triplesBlock | grammar (sparqlQuery : Bool)
  deriving DecidableEq, Repr

/-! ## Character classes -/

/-- The byte of an ASCII character. -/
def char (c : Char) : UInt8 := c.toNat.toUInt8

/-- `range<Lo, Hi>` and the rules built from it. -/
def inRange (low high : Char) (b : UInt8) : Bool := char low ≤ b && b ≤ char high

/-- `utf8::ranges<Lo, Hi, ...>`. -/
def inRanges (ranges : List (Nat × Nat)) (c : Nat) : Bool :=
  ranges.any fun r => r.1 ≤ c && c ≤ r.2

/-- `digit`. -/
def isDigit (b : UInt8) : Bool := inRange '0' '9' b

/-- `lower`. -/
def isLower (b : UInt8) : Bool := inRange 'a' 'z' b

/-- `upper`. -/
def isUpper (b : UInt8) : Bool := inRange 'A' 'Z' b

/-- `alpha`. -/
def isAlpha (b : UInt8) : Bool := isLower b || isUpper b

/-- `alnum`. -/
def isAlnum (b : UInt8) : Bool := isAlpha b || isDigit b

/-- `HEX`. -/
def isHex (b : UInt8) : Bool := inRange 'a' 'f' b || inRange 'A' 'F' b || isDigit b

/-- The code points above ASCII in `PN_CHARS_BASE`. -/
def pnCharsBaseRanges : List (Nat × Nat) :=
  [(0x00C0, 0x00D6), (0x00D8, 0x00F6), (0x00F8, 0x02FF), (0x0370, 0x037D), (0x037F, 0x1FFF),
    (0x200C, 0x200D), (0x2070, 0x218F), (0x2C00, 0x2FEF), (0x3001, 0xD7FF), (0xF900, 0xFDCF),
    (0xFDF0, 0xFFFD), (0x10000, 0xEFFFF)]

/-- What `IRIREF` takes unescaped: any byte but `<>"` and curly braces, `|^` and
backquote, the backslash, and the bytes from `0x00` to `0x20`. -/
def isIriByte (b : UInt8) : Bool :=
  !([60, 62, 34, 123, 125, 124, 94, 96, 92].contains b) && !(b ≤ 0x20)

/-- `one<c>` for an ASCII character. -/
def ch (c : Char) : Rule RuleName := one (char c)

/-- `one<'X', 'x'>`: a letter in either case. -/
def anyCase (upper lower : Char) : Rule RuleName := oneOf [char upper, char lower]

/-- `opt<sor<one<'+'>, one<'-'>>>`. -/
def sign : Rule RuleName := opt (sorOf (ch '+') [ch '-'])

/-- `digit` as a rule. -/
def digit : Rule RuleName := .byte isDigit

/-- The body of a string literal that must stay on one line. -/
def shortStringBody (quote : Char) : Rule RuleName :=
  .star (sorOf (notOneOf [char quote, char '\\', char '\r', char '\n'])
    [.ref .echar, .ref .uchar])

/-- The body of a long string literal: runs of at most two quotes, each followed
by something else. -/
def longStringBody (quote : Char) : Rule RuleName :=
  .star (.seq (opt (sorOf (.seq (ch quote) (ch quote)) [ch quote]))
    (sorOf (notOneOf [char quote, char '\\']) [.ref .echar, .ref .uchar]))

/-! ## The rules -/

/-- The definition of each named rule. -/
def turtle : RuleName → Rule RuleName
  | .pnLocalEsc =>
      .seq (ch '\\') (sorOf (ch '_') [ch '~', ch '.', ch '-', ch '!', ch '$', ch '&', ch '\'',
        ch '(', ch ')', ch '*', ch '+', ch ',', ch ';', ch '=', ch '/', ch '?', ch '#', ch '@',
        ch '%'])
  | .hex => .byte isHex
  | .percent => seqOf [ch '%', .ref .hex, .ref .hex]
  | .plx => sorOf (.ref .percent) [.ref .pnLocalEsc]
  | .pnCharsBase =>
      sorOf (.byte isLower) [.byte isUpper, .codePoint (inRanges pnCharsBaseRanges)]
  | .pnCharsU => sorOf (.ref .pnCharsBase) [ch '_']
  | .pnChars =>
      sorOf (.ref .pnCharsU) [ch '-', digit, .codePoint (· == 0x00B7),
        .codePoint (inRanges [(0x0300, 0x036F)]), .codePoint (inRanges [(0x203F, 0x2040)])]
  | .pnLocal =>
      .seq (sorOf (.ref .pnCharsU) [ch ':', digit, .ref .plx])
        (.star (.seq (.star (ch '.'))
          (plus (sorOf (.ref .pnChars) [ch ':', .ref .plx]))))
  | .pnPrefix =>
      .seq (.ref .pnCharsBase) (.star (.seq (.star (ch '.')) (.ref .pnChars)))
  | .anonWs => oneOf [char ' ', char '\t', char '\r', char '\n']
  | .anon => seqOf [ch '[', .star (.ref .anonWs), ch ']']
  | .uchar =>
      sorOf (seqOf [ch '\\', ch 'u', .ref .hex, .ref .hex, .ref .hex, .ref .hex])
        [seqOf [ch '\\', ch 'U', .ref .hex, .ref .hex, .ref .hex, .ref .hex,
          .ref .hex, .ref .hex, .ref .hex, .ref .hex]]
  | .echar =>
      .seq (ch '\\') (sorOf (ch 't') [ch 'b', ch 'n', ch 'r', ch 'f', ch '"', ch '\'', ch '\\'])
  | .stringLiteralLongQuote =>
      seqOf [ch '"', ch '"', ch '"', longStringBody '"', ch '"', ch '"', ch '"']
  | .stringLiteralQuote => seqOf [ch '"', shortStringBody '"', ch '"']
  | .stringLiteralSingleQuote => seqOf [ch '\'', shortStringBody '\'', ch '\'']
  | .stringLiteralLongSingleQuote =>
      seqOf [ch '\'', ch '\'', ch '\'', longStringBody '\'', ch '\'', ch '\'', ch '\'']
  | .integer => .seq sign (plus digit)
  | .decimal => seqOf [sign, .star digit, ch '.', plus digit]
  | .exponent => seqOf [sorOf (ch 'e') [ch 'E'], sign, plus digit]
  | .double =>
      .seq sign (sorOf (seqOf [plus digit, ch '.', .star digit, .ref .exponent])
        [seqOf [ch '.', plus digit, .ref .exponent], seqOf [plus digit, .ref .exponent]])
  | .langtag =>
      seqOf [ch '@', plus (.byte isAlpha), .star (.seq (ch '-') (plus (.byte isAlnum)))]
  | .blankNodeLabel =>
      seqOf [ch '_', ch ':', sorOf (.ref .pnCharsU) [digit],
        .star (.seq (.star (ch '.')) (.ref .pnChars))]
  | .pnameNs => .seq (opt (.ref .pnPrefix)) (ch ':')
  | .pnameLn => .seq (.ref .pnameNs) (.ref .pnLocal)
  | .iriref => seqOf [ch '<', .star (sorOf (.byte isIriByte) [.ref .uchar]), ch '>']
  | .comment =>
      seqOf [ch '#', .star (notOneOf [char '\n', char '\r', 0x0C]), oneOf [char '\n', char '\r']]
  | .ignored => .star (sorOf (.byte isSpace) [.ref .comment])
  | .numericLiteral => sorOf (.ref .double) [.ref .decimal, .ref .integer]
  | .turtleString =>
      sorOf (.ref .stringLiteralLongQuote) [.ref .stringLiteralLongSingleQuote,
        .ref .stringLiteralSingleQuote, .ref .stringLiteralQuote]
  | .blankNode => sorOf (.ref .blankNodeLabel) [.ref .anon]
  | .prefixedName => sorOf (.ref .pnameLn) [.ref .pnameNs]
  | .iri => sorOf (.ref .iriref) [.ref .prefixedName]
  | .prefixID =>
      seqOf [string (bytes "@prefix"), .ref .ignored, .ref .pnameNs, .ref .ignored,
        .ref .iriref, .ref .ignored, ch '.']
  | .sparqlPrefix =>
      seqOf [anyCase 'P' 'p', anyCase 'R' 'r', anyCase 'E' 'e', anyCase 'F' 'f', anyCase 'I' 'i',
        anyCase 'X' 'x', .ref .ignored, .ref .pnameNs, .ref .ignored, .ref .iriref]
  | .base =>
      seqOf [string (bytes "@base"), .ref .ignored, .ref .iriref, .ref .ignored, ch '.']
  | .sparqlBase =>
      seqOf [anyCase 'B' 'b', anyCase 'A' 'a', anyCase 'S' 's', anyCase 'E' 'e',
        .ref .ignored, .ref .iriref]
  | .directive =>
      sorOf (.ref .prefixID) [.ref .base, .ref .sparqlBase, .ref .sparqlPrefix]
  | .rdfLiteralTypeTag => .seq (string (bytes "^^")) (.ref .iri)
  | .rdfLiteral =>
      .seq (.ref .turtleString) (opt (sorOf (.ref .langtag) [.ref .rdfLiteralTypeTag]))
  | .booleanLiteral => sorOf (string (bytes "true")) [string (bytes "false")]
  | .literal => sorOf (.ref .rdfLiteral) [.ref .numericLiteral, .ref .booleanLiteral]
  | .term => sorOf (.ref .literal) [.ref .blankNode, .ref .iri]
  | .varname =>
      .seq (sorOf (.ref .pnCharsU) [digit])
        (.star (sorOf (.ref .pnCharsU) [digit, .codePoint (· == 0x00B7),
          .codePoint (inRanges [(0x0300, 0x036F)]), .codePoint (inRanges [(0x203F, 0x2040)])]))
  | .var1 => .seq (ch '?') (.ref .varname)
  | .var2 => .seq (ch '$') (.ref .varname)
  | .var => sorOf (.ref .var1) [.ref .var2]
  | .varOrTerm => sorOf (.ref .var) [.ref .term]
  | .object q =>
      sorOf (.ref (if q then .varOrTerm else .term))
        [.ref (.collection q), .ref (.blankNodePropertyList q)]
  | .objectList q =>
      .seq (.ref (.object q))
        (.star (seqOf [.ref .ignored, ch ',', .ref .ignored, .ref (.object q)]))
  | .predicate => sorOf (.ref .iriref) [.ref .prefixedName]
  | .collectionBegin => ch '('
  | .collection q =>
      seqOf [.ref .collectionBegin, .star (.seq (.ref .ignored) (.ref (.object q))),
        .ref .ignored, ch ')']
  | .verbA => ch 'a'
  | .verb q =>
      sorOf (if q then sorOf (.ref .var) [.ref .predicate] else .ref .predicate) [.ref .verbA]
  | .predicateObjectListInner q =>
      seqOf [.ref (.verb q), .ref .ignored, .ref (.objectList q)]
  | .predicateObjectList q =>
      .seq (.ref (.predicateObjectListInner q))
        (.star (seqOf [.ref .ignored, ch ';',
          opt (.seq (.ref .ignored) (.ref (.predicateObjectListInner q)))]))
  | .blankNodePropertyListBegin => ch '['
  | .blankNodePropertyList q =>
      seqOf [.ref .blankNodePropertyListBegin, .ref .ignored, .ref (.predicateObjectList q),
        .ref .ignored, ch ']']
  | .subject q =>
      if q then sorOf (.ref .var) [.ref .term]
      else sorOf (.ref .iri) [.ref .blankNode, .ref (.collection false)]
  | .tripleSeq1 q =>
      seqOf [.ref (.subject q), .ref .ignored, .ref (.predicateObjectList q)]
  | .tripleSeq2 q =>
      seqOf [.ref (.blankNodePropertyList q), .ref .ignored, opt (.ref (.predicateObjectList q))]
  | .triple q => sorOf (.ref (.tripleSeq1 q)) [.ref (.tripleSeq2 q)]
  | .tripleExtended q => seqOf [.ref (.triple q), .ref .ignored, ch '.']
  | .statement => sorOf (.ref (.tripleExtended false)) [.ref .directive]
  | .turtleDoc => .seq (plus (.seq (.ref .ignored) (.ref .statement))) (.ref .ignored)
  | .triplesBlock =>
      .seq (plus (.seq (.ref .ignored) (.ref (.tripleExtended true)))) (.ref .ignored)
  | .grammar q =>
      if q then .seq (.must (.ref .triplesBlock)) (.must .eof)
      else sorOf (.seq (.must (.ref .turtleDoc)) (.must .eof)) [.seq (.ref .ignored) .eof]

end RdfParser.Turtle
