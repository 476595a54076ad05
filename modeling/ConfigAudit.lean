import ConfigAudit.Engine.Versioning
import ConfigAudit.Main
import ConfigAudit.Proofs.Extraction
import ConfigAudit.Proofs.Documents
import ConfigAudit.Proofs.Merging
import ConfigAudit.Proofs.SourceOrder
import ConfigAudit.Proofs.Isolation
import ConfigAudit.Proofs.Pruning
import ConfigAudit.Proofs.NestingTables
import ConfigAudit.Proofs.Resolution
import ConfigAudit.Proofs.Reordering
import ConfigAudit.Proofs.Previews
import ConfigAudit.Proofs.PipeRuns
import ConfigAudit.Proofs.References
import ConfigAudit.Proofs.Scores
import ConfigAudit.Proofs.DocumentTexts
import ConfigAudit.Proofs.Findings
import ConfigAudit.Proofs.DocumentContents
import ConfigAudit.Proofs.PathTexts
import ConfigAudit.Proofs.DirectoryLoading
import ConfigAudit.Proofs.LenientReading
import ConfigAudit.Proofs.LiteralTexts
import ConfigAudit.Proofs.AttributeNames
import ConfigAudit.Proofs.IndexSpellings
import ConfigAudit.Proofs.OutputAttributes
import ConfigAudit.Proofs.KeyOrder
import ConfigAudit.Proofs.FindingDecoders
import ConfigAudit.Proofs.ScoreRange
import ConfigAudit.Proofs.SortedTexts
import ConfigAudit.Proofs.Addresses
import ConfigAudit.Proofs.KeyQuotes
import ConfigAudit.Proofs.SourceLines
