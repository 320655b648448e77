import SqlAtlas.Text.Bytes
import SqlAtlas.Text.Blank
import SqlAtlas.Text.Upper
import SqlAtlas.Span
import SqlAtlas.SpanIndex
import SqlAtlas.Keyword
import SqlAtlas.Kind
import SqlAtlas.Token
import SqlAtlas.Identifier
import SqlAtlas.Lexeme
import SqlAtlas.Word
import SqlAtlas.Node
import SqlAtlas.Candidates
import SqlAtlas.Grammar.Rule
import SqlAtlas.Grammar.Phrase
import SqlAtlas.Grammar.Expression
import SqlAtlas.Grammar.Query
import SqlAtlas.Grammar.Script
import SqlAtlas.Reading
import SqlAtlas.Tree
import SqlAtlas.Source
import SqlAtlas.Table
import SqlAtlas.Draft
import SqlAtlas.Query
import SqlAtlas.Atlas
import SqlAtlas.Caret
import SqlAtlas.Suggestion
import SqlAtlas.Dialect.Basic
import SqlAtlas.Dialect.Generic
import SqlAtlas.Completion
import SqlAtlas.Listing
import SqlAtlas.Command.Arguments
import SqlAtlas.Command.Run
import SqlAtlas.Main
import SqlAtlas.Proofs.Run
import SqlAtlas.Proofs.Agreement
import SqlAtlas.Proofs.Quiet
import SqlAtlas.Proofs.Acceptance
import SqlAtlas.Proofs.DerivedTrees
import SqlAtlas.Proofs.CandidateCompleteness
import SqlAtlas.Proofs.CandidateSoundness
import SqlAtlas.Proofs.Hidden
import SqlAtlas.Proofs.TreeShape
import SqlAtlas.Proofs.TokenShares
import SqlAtlas.Proofs.FaultShares
import SqlAtlas.Proofs.Coverage
import SqlAtlas.Proofs.Passes
import SqlAtlas.Proofs.Cutoff
import SqlAtlas.Proofs.TypedKeyword
import SqlAtlas.Proofs.Composition
import SqlAtlas.Proofs.DraftRows
import SqlAtlas.Proofs.QueryChain
import SqlAtlas.Proofs.Rejoining
import SqlAtlas.Proofs.NestingLimit
import SqlAtlas.Proofs.WordList
import SqlAtlas.Proofs.CaretPlacement
import SqlAtlas.Proofs.TokenFates
import SqlAtlas.Proofs.QuotedNames
import SqlAtlas.Proofs.TableMerging
import SqlAtlas.Proofs.TokenChain
import SqlAtlas.Proofs.Supersession
import SqlAtlas.Proofs.CandidateFilters
import SqlAtlas.Proofs.QueryOrder
import SqlAtlas.Proofs.ListingOrder
