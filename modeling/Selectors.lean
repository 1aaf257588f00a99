import Selectors.Tree.Element
import Selectors.Text
import Selectors.Token
import Selectors.Selector.Reader
import Selectors.Specificity
import Selectors.Nth
import Selectors.Selector.Basic
import Selectors.Selector.Parser
import Selectors.Test.Accepts
import Selectors.Test.Basic
import Selectors.Query
import Selectors.Index
import Selectors.Warnings
import Selectors.Selector.Parser.Equations
import Selectors.Proofs.Chains
import Selectors.Proofs.Index.Buckets
import Selectors.Proofs.Index.LinearScan
import Selectors.Proofs.Index.Dispatch
import Selectors.Proofs.Tree.Forest
import Selectors.Proofs.Tree.Walks
import Selectors.Proofs.Tree.Siblings
import Selectors.Proofs.Tree.Edits
import Selectors.Proofs.Tree.Traversal
import Selectors.Proofs.Satisfaction
import Selectors.Proofs.Queries
import Selectors.Proofs.Grammar.Basic
import Selectors.Proofs.Grammar.Conditions
import Selectors.Proofs.Grammar.Compounds
import Selectors.Proofs.Grammar.Lists
import Selectors.Proofs.Grammar.Answers
import Selectors.Proofs.Grammar.Breaks
import Selectors.Proofs.RoundTrip.Escapes
import Selectors.Proofs.RoundTrip.Spelling
import Selectors.Proofs.RoundTrip.Positions
import Selectors.Proofs.Grammar.Balance
import Selectors.Proofs.RoundTrip.Canonical
import Selectors.Proofs.RoundTrip.Lexing
import Selectors.Proofs.RoundTrip.Reread
import Selectors.Proofs.RoundTrip.Names
import Selectors.Proofs.RoundTrip.Writable
import Selectors.Proofs.Folding
import Selectors.Proofs.LetterCase
import Selectors.Proofs.Tree.Hidden
import Selectors.Proofs.View
import Selectors.Proofs.HiddenNodes
import Selectors.Proofs.NeutralParts
import Selectors.Proofs.Weights.Parts
import Selectors.Proofs.Weights.Expansions
import Selectors.Proofs.Weights.Overflow
import Selectors.Proofs.Nth.Steps
import Selectors.Proofs.Tree.Places
import Selectors.Proofs.Nth.Spellings
import Selectors.Proofs.RoundTrip.Joining
import Selectors.Proofs.Nth.Productions
import Selectors.Proofs.Nth.Legality
import Selectors.Proofs.AttributeScopes
import Selectors.Proofs.Languages
import Selectors.Proofs.Grammar.Signs
import Selectors.Proofs.Grammar.Spacing
import Selectors.Proofs.Grammar.Wrapping
import Selectors.Proofs.Grammar.Commas
import Selectors.Proofs.Comparisons
import Selectors.Proofs.Classes
import Selectors.Proofs.LanguageRanges
import Selectors.Proofs.LeftOut
import Selectors.Proofs.Reports
import Selectors.Proofs.Repeats
import Selectors.Proofs.Reading.Boundaries
import Selectors.Proofs.Reading.Unquoted
import Selectors.Proofs.Reading.LineFeeds
import Selectors.Proofs.Reading.LineEnds
import Selectors.Proofs.Tree.Reattached
