import ProofSheet.Main
import ProofSheet.Selector
import ProofSheet.Worksheet.Edit
import ProofSheet.Proofs.Calls
import ProofSheet.Proofs.Contents
import ProofSheet.Proofs.Edits
import ProofSheet.Proofs.StatementParts
import ProofSheet.Proofs.Saying
import ProofSheet.Proofs.Admission
import ProofSheet.Proofs.Reading
import ProofSheet.Proofs.Loading
import ProofSheet.Proofs.Phase
import ProofSheet.Proofs.Changes
import ProofSheet.Proofs.Renumbering
import ProofSheet.Proofs.Shape
import ProofSheet.Proofs.LoadedShape
import ProofSheet.Proofs.WellShaped
import ProofSheet.Proofs.Citations
import ProofSheet.Proofs.StepIds
import ProofSheet.Proofs.Reload
import ProofSheet.Proofs.Codes
import ProofSheet.Proofs.Grammar
import ProofSheet.Proofs.Sequence
import ProofSheet.Proofs.StatementIds
import ProofSheet.Proofs.Targets
import ProofSheet.Proofs.Acceptance
import ProofSheet.Proofs.Splicing
import ProofSheet.Proofs.Margins
import ProofSheet.Proofs.Compression
import ProofSheet.Proofs.Output
import ProofSheet.Proofs.Insertion
import ProofSheet.Proofs.Reports
import ProofSheet.Proofs.Findings
import ProofSheet.Proofs.Lossless
import ProofSheet.Proofs.Tiling
import ProofSheet.Proofs.LineBreaks
import ProofSheet.Proofs.Atomicity
import ProofSheet.Proofs.DistinctVars
import ProofSheet.Proofs.Relabelling
import ProofSheet.Proofs.Underlines
import ProofSheet.Proofs.ExitStatus
import ProofSheet.Proofs.Respelling
import ProofSheet.Proofs.Likeness
import ProofSheet.Proofs.LikeLoads
import ProofSheet.Proofs.CarriageReturns
import ProofSheet.Proofs.CaretReading
import ProofSheet.Proofs.CursorPlacement
import ProofSheet.Proofs.CursorBinding
import ProofSheet.Proofs.RenumberLimit
import ProofSheet.Proofs.Stages
import ProofSheet.Proofs.FailedReferences
import ProofSheet.Proofs.NewTheorems
import ProofSheet.Proofs.SkeletonText
import ProofSheet.Proofs.Skeletons
import ProofSheet.Proofs.LineLengths
import ProofSheet.Proofs.LongestPaths
import ProofSheet.Proofs.DistinctVarsIndex
import ProofSheet.Proofs.OpenSteps
import ProofSheet.Proofs.Frames
import ProofSheet.Proofs.CursorOffsets
import ProofSheet.Proofs.StepSearch
import ProofSheet.Proofs.ReferenceSpans
import ProofSheet.Proofs.Commuting
import ProofSheet.Proofs.TheoremIndex
import ProofSheet.Proofs.Rereading
import ProofSheet.Proofs.FieldOffsets
import ProofSheet.Proofs.Selection
import ProofSheet.Proofs.MaximalRuns
