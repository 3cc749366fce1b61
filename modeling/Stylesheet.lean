import Stylesheet.Listeners
import Stylesheet.Main
import Stylesheet.Record
import Stylesheet.Stream
import Stylesheet.Token.Json
import Stylesheet.Proofs.EventWords
import Stylesheet.Proofs.Reading
import Stylesheet.Proofs.Syntax
import Stylesheet.Proofs.Tiling
import Stylesheet.Proofs.Tracing
import Stylesheet.Proofs.Tracks
import Stylesheet.Proofs.Selectors
import Stylesheet.Proofs.Recursion
import Stylesheet.Proofs.Values
import Stylesheet.Proofs.Statements
import Stylesheet.Proofs.Parsing
import Stylesheet.Proofs.EventOrder
import Stylesheet.Proofs.Leaves
import Stylesheet.Proofs.AcceptedSelectors
import Stylesheet.Proofs.Nesting
import Stylesheet.Proofs.AcceptedValues
import Stylesheet.Proofs.AcceptedStatements
import Stylesheet.Proofs.Acceptance
import Stylesheet.Proofs.EarliestFailure
import Stylesheet.Proofs.Characters
import Stylesheet.Proofs.Blur
import Stylesheet.Proofs.Likeness
import Stylesheet.Proofs.AlikeSelectors
import Stylesheet.Proofs.AlikeValues
import Stylesheet.Proofs.AlikeStatements
import Stylesheet.Proofs.Spacing
import Stylesheet.Proofs.Lexical
import Stylesheet.Proofs.LongestNames
import Stylesheet.Proofs.LongestStrings
import Stylesheet.Proofs.Scanning
import Stylesheet.Proofs.Runs
import Stylesheet.Proofs.PlainTokens
import Stylesheet.Proofs.SelectorTexts
import Stylesheet.Proofs.WrittenSelectors
import Stylesheet.Proofs.Appending
import Stylesheet.Proofs.Seams
import Stylesheet.Proofs.Enclosed
import Stylesheet.Proofs.Rounds
import Stylesheet.Proofs.Concatenation
import Stylesheet.Proofs.StrayTokens
import Stylesheet.Proofs.AppendedTexts
import Stylesheet.Proofs.Yields
import Stylesheet.Proofs.EventData
import Stylesheet.Proofs.ProperEvents
import Stylesheet.Proofs.BlurredScans
import Stylesheet.Proofs.LetterCase
import Stylesheet.Proofs.LineEnds
import Stylesheet.Proofs.LineEndings
import Stylesheet.Proofs.TermTexts
import Stylesheet.Proofs.Spelling
import Stylesheet.Proofs.LegibleValues
import Stylesheet.Proofs.LegibleCalls
import Stylesheet.Proofs.SpelledTerms
import Stylesheet.Proofs.RenderedDeclarations
import Stylesheet.Proofs.Cropping
import Stylesheet.Proofs.SelfDelimiting
import Stylesheet.Proofs.Deliveries
import Stylesheet.Proofs.Unterminated
import Stylesheet.Proofs.Tape
import Stylesheet.Proofs.Consumption
import Stylesheet.Proofs.Addresses
import Stylesheet.Proofs.GrammarAddresses
import Stylesheet.Proofs.LineBreaks
import Stylesheet.Proofs.ClosedCalls
import Stylesheet.Proofs.LegibleDeclarations
import Stylesheet.Proofs.Places
import Stylesheet.Proofs.Warnings
import Stylesheet.Proofs.Recording
import Stylesheet.Proofs.Sessions
import Stylesheet.Proofs.JsonReading
import Stylesheet.Proofs.JsonLines
import Stylesheet.Proofs.EventLines
import Stylesheet.Proofs.CommandLines
import Stylesheet.Proofs.Lookahead
import Stylesheet.Proofs.Pushback
import Stylesheet.Proofs.GrammarProgress
import Stylesheet.Proofs.TermPlaces
import Stylesheet.Proofs.Importance
import Stylesheet.Proofs.StringContents
import Stylesheet.Proofs.ImportTargets
import Stylesheet.Proofs.ListedLines
import Stylesheet.Proofs.Rewrapping
