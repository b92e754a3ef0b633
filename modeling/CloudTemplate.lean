import CloudTemplate.Shorthand.Normalize
import CloudTemplate.Specification.Cache
import CloudTemplate.Template.Read
import CloudTemplate.Validation.Pipeline
import CloudTemplate.Proofs.Shorthand.Reading
import CloudTemplate.Proofs.Text.Trim
import CloudTemplate.Proofs.Shorthand.Node
import CloudTemplate.Proofs.Shorthand.NodeReading
import CloudTemplate.Proofs.Shorthand.BlockTree
import CloudTemplate.Proofs.Shorthand.LayoutParts
import CloudTemplate.Proofs.Shorthand.Lines
import CloudTemplate.Proofs.Shorthand.BlockBody
import CloudTemplate.Proofs.Shorthand.Words
import CloudTemplate.Proofs.Shorthand.BlockPrint
import CloudTemplate.Proofs.Shorthand.BlockRewrite
import CloudTemplate.Proofs.Validation.Judgement
import CloudTemplate.Proofs.Validation.Deferral
import CloudTemplate.Proofs.Shorthand.FlowText
import CloudTemplate.Proofs.Number.Numeral
import CloudTemplate.Proofs.Shorthand.Reads
import CloudTemplate.Proofs.Shorthand.Written
import CloudTemplate.Proofs.Shorthand.Places
import CloudTemplate.Proofs.Shorthand.Standing
import CloudTemplate.Proofs.Shorthand.Leads
import CloudTemplate.Proofs.Shorthand.Trailing
import CloudTemplate.Proofs.Shorthand.Tidy
import CloudTemplate.Proofs.Shorthand.HeaderLines
import CloudTemplate.Proofs.Shorthand.Soundness
import CloudTemplate.Proofs.Shorthand.Inert
import CloudTemplate.Proofs.Shorthand.ReadBack
import CloudTemplate.Proofs.Shorthand.Replacing
import CloudTemplate.Proofs.Shorthand.FixedLines
import CloudTemplate.Proofs.Shorthand.RemainingTags
import CloudTemplate.Proofs.Shorthand.StableLines
import CloudTemplate.Proofs.Shorthand.Idempotence
import CloudTemplate.Proofs.Validation.Calls
import CloudTemplate.Proofs.Validation.DeadData
import CloudTemplate.Proofs.Validation.CallErrors
import CloudTemplate.Proofs.Validation.Additions
import CloudTemplate.Proofs.Validation.Disputes
import CloudTemplate.Proofs.Shorthand.Renumbering
import CloudTemplate.Proofs.Shorthand.ApartRuns
import CloudTemplate.Proofs.Shorthand.Sections
import CloudTemplate.Proofs.Shorthand.OpaqueScalars
import CloudTemplate.Proofs.Shorthand.MovedScalars
import CloudTemplate.Proofs.Shorthand.Comments
import CloudTemplate.Proofs.Shorthand.Pieces
import CloudTemplate.Proofs.Shorthand.BrokenLines
import CloudTemplate.Proofs.Shorthand.TightFlow
import CloudTemplate.Proofs.Shorthand.Untagged
import CloudTemplate.Proofs.Shorthand.Quotes
import CloudTemplate.Proofs.Shorthand.LongForms
import CloudTemplate.Proofs.Shorthand.StrayBrackets
import CloudTemplate.Proofs.Shorthand.NeverClosed
import CloudTemplate.Proofs.Shorthand.Continued
import CloudTemplate.Proofs.Shorthand.BrokenLongForms
import CloudTemplate.Proofs.Shorthand.LineByLine
import CloudTemplate.Proofs.Shorthand.ScalarArguments
import CloudTemplate.Proofs.Shorthand.MalformedTags
import CloudTemplate.Proofs.Shorthand.FixedValues
import CloudTemplate.Proofs.Outcome
import CloudTemplate.Proofs.Tree.Parts
import CloudTemplate.Proofs.Tree.Entries
import CloudTemplate.Proofs.Template.Strays
import CloudTemplate.Proofs.Template.Reconciliation
import CloudTemplate.Proofs.Template.Losses
import CloudTemplate.Proofs.Template.WellFormed
import CloudTemplate.Proofs.Template.RoundTrip
import CloudTemplate.Proofs.Template.Decoding
import CloudTemplate.Proofs.Template.Acceptance
import CloudTemplate.Proofs.Validation.Mirroring
import CloudTemplate.Proofs.Specification.CacheRuns
import CloudTemplate.Proofs.Json.Compact
import CloudTemplate.Proofs.Json.Records
import CloudTemplate.Proofs.Specification.Codec
import CloudTemplate.Proofs.Validation.CallDepth
import CloudTemplate.Proofs.Validation.AddressBlocks
import CloudTemplate.Proofs.Shorthand.AttributeTexts
import CloudTemplate.Proofs.Validation.AttributeSpellings
import CloudTemplate.Proofs.Text.Positions
import CloudTemplate.Proofs.Shorthand.Provenance
import CloudTemplate.Proofs.Template.FaultPlaces
import CloudTemplate.Proofs.Text.LineStarts
import CloudTemplate.Proofs.Shorthand.LineParts
import CloudTemplate.Proofs.Shorthand.Stages
import CloudTemplate.Proofs.Octets.Slices
import CloudTemplate.Proofs.Octets.Walks
import CloudTemplate.Proofs.Octets.LineCuts
import CloudTemplate.Proofs.Octets.Scanning
import CloudTemplate.Proofs.Octets.Flows
import CloudTemplate.Proofs.Octets.Queues
import CloudTemplate.Proofs.Octets.Documents
