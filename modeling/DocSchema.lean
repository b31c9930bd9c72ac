import DocSchema.Document.Json
import DocSchema.Extraction
import DocSchema.Path.Parser
import DocSchema.Proofs.Conforming
import DocSchema.Proofs.Equivalent
import DocSchema.Proofs.FloatMultiple
import DocSchema.Schema.Equivalence
import DocSchema.Schema.TypeExpression
import DocSchema.Validation
import DocSchema.Proofs.Explained
import DocSchema.Proofs.Failures
import DocSchema.Proofs.Declared
import DocSchema.Proofs.Tables
import DocSchema.Proofs.Extracted
import DocSchema.Proofs.Calls
import DocSchema.Proofs.RequiredHoles
import DocSchema.Proofs.Completeness
import DocSchema.Proofs.Positions
import DocSchema.Proofs.Deeper
import DocSchema.Proofs.Attaching
import DocSchema.Proofs.Building
import DocSchema.Proofs.Navigation
import DocSchema.Proofs.Runs
import DocSchema.Proofs.Growth
import DocSchema.Proofs.Trees
import DocSchema.Proofs.Ensuring
import DocSchema.Proofs.Projection
import DocSchema.Proofs.Regrouping
import DocSchema.Proofs.Rebuilding
import DocSchema.Proofs.Acceptance
import DocSchema.Proofs.Places
import DocSchema.Proofs.Located
import DocSchema.Proofs.Deprecations
import DocSchema.Proofs.SameType
import DocSchema.Proofs.Bisimilarity
import DocSchema.Proofs.Independence
import DocSchema.Proofs.SelfValidation
import DocSchema.Proofs.ReorderedDocuments
import DocSchema.Proofs.Inference
import DocSchema.Proofs.Metadata
import DocSchema.Proofs.LaidOut
import DocSchema.Proofs.Reflexive
import DocSchema.Proofs.Retabled
import DocSchema.Proofs.TypeOrder
import DocSchema.Proofs.NodeExtraction
import DocSchema.Proofs.PathGrammar
import DocSchema.Proofs.WrittenPaths
import DocSchema.Proofs.JsonRoundTrip
import DocSchema.Proofs.Relocation
import DocSchema.Proofs.Aliases
import DocSchema.Proofs.FailedCalls
import DocSchema.Proofs.ExactRanges
import DocSchema.Proofs.ClosedRecords
import DocSchema.Proofs.DefectPlaces
import DocSchema.Proofs.Dispatch
import DocSchema.Proofs.InferredVariants
import DocSchema.Proofs.PermutedVariants
import DocSchema.Proofs.Shifting
import DocSchema.Proofs.TagPlaces
import DocSchema.Proofs.Punching
import DocSchema.Proofs.PunchedHoles
import DocSchema.Proofs.Registering
import DocSchema.Proofs.Rearranged
import DocSchema.Proofs.RecordFields
import DocSchema.Proofs.ExtensionOrder
import DocSchema.Proofs.Elsewhere
import DocSchema.Proofs.Annotations
import DocSchema.Proofs.VariantEntries
import DocSchema.Proofs.FieldVariants
import DocSchema.Proofs.ItemDeclarations
import DocSchema.Proofs.SizeBounds
import DocSchema.Proofs.ReferenceChains
import DocSchema.Proofs.CheckedDivisibility
import DocSchema.Proofs.Duplicates
import DocSchema.Proofs.Prefixes
import DocSchema.Proofs.FirstFaults
import DocSchema.Proofs.TextLengths
