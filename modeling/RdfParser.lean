import RdfParser.Turtle.Grammar
import RdfParser.Rdf.Term
import RdfParser.Turtle.BasicActions
import RdfParser.Turtle.Actions
import RdfParser.Turtle.PairBook
import RdfParser.Turtle.Nesting
import RdfParser.Turtle.Misnesting
import RdfParser.Concurrent.ConcurrentState
import RdfParser.Concurrent.TurtleFileParser
import RdfParser.Concurrent.Invariants
import RdfParser.Turtle.Document
import RdfParser.Concurrent.EndOfStream
import RdfParser.Concurrent.Wakeup
import RdfParser.Concurrent.Handshake
import RdfParser.Concurrent.Malformed
import RdfParser.Concurrent.Overflow
import RdfParser.Turtle.Frame
import RdfParser.Peg.Consumed
import RdfParser.Turtle.Tokens
import RdfParser.Turtle.PrefixScope
import RdfParser.Turtle.BaseResolution
import RdfParser.Peg.Sequence
import RdfParser.Turtle.Layout
import RdfParser.Turtle.Directives
import RdfParser.Turtle.BlankNodes
import RdfParser.Peg.Failure
import RdfParser.Peg.Moment
import RdfParser.Peg.Total
import RdfParser.Turtle.Elements
import RdfParser.Turtle.Essence
import RdfParser.Turtle.History
import RdfParser.Turtle.ParseTerm
import RdfParser.Turtle.Printing
import RdfParser.Turtle.Stacks
import RdfParser.Turtle.Validity
import RdfParser.Turtle.Image
import RdfParser.Turtle.Capture
import RdfParser.Peg.Stream
import RdfParser.Turtle.FileInput
import RdfParser.Turtle.FileParsing
import RdfParser.Peg.Kept
import RdfParser.Turtle.Balance
import RdfParser.Turtle.Keywords
import RdfParser.Turtle.Abandoned
import RdfParser.Concurrent.Teardown
import RdfParser.Concurrent.Throttle
import RdfParser.Turtle.Collections
import RdfParser.Turtle.Datatypes
import RdfParser.Turtle.Iterator
import RdfParser.Turtle.NamePositions
import RdfParser.Peg.Occurs
import RdfParser.Peg.Simulation
import RdfParser.Turtle.Chunks
import RdfParser.Turtle.Exchange
import RdfParser.Turtle.Relayout
import RdfParser.Foundation.Escaping
import RdfParser.Foundation.Longest
import RdfParser.Foundation.UnorderedSet
import RdfParser.Peg.Munch
import RdfParser.Peg.Progress
import RdfParser.Rdf.Hash
import RdfParser.Turtle.DottedNames
import RdfParser.Turtle.LongStrings
import RdfParser.Turtle.Termination
import RdfParser.Turtle.Brackets
import RdfParser.Turtle.TwoModes
import RdfParser.Concurrent.Completion
import RdfParser.Turtle.Agreement
import RdfParser.Turtle.Blocks
import RdfParser.Turtle.Lines
import RdfParser.Turtle.Unambiguous
import RdfParser.Foundation.Renaming
import RdfParser.Turtle.Isomorphism
