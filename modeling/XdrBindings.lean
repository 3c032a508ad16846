import XdrBindings.Files.Merged
import XdrBindings.Files.Parsed
import XdrBindings.Dependency.Plan
import XdrBindings.Proofs.Code.Reading
import XdrBindings.Proofs.Code.Segmentation
import XdrBindings.Proofs.Code.Closed
import XdrBindings.Proofs.Code.ClassBody
import XdrBindings.Proofs.Merge.Section
import XdrBindings.Proofs.Merge.Splice
import XdrBindings.Proofs.Code.Renamed
import XdrBindings.Proofs.Merge.Blocks
import XdrBindings.Proofs.Merge.Carried
import XdrBindings.Proofs.Merge.SpliceAll
import XdrBindings.Proofs.Merge.Survival
import XdrBindings.Proofs.Merge.Again
import XdrBindings.Proofs.Merge.Growth
import XdrBindings.Proofs.Graph.Order
import XdrBindings.Proofs.Dependency.Plan
import XdrBindings.Proofs.Idl.Resolution
import XdrBindings.Proofs.Idl.Acceptance
import XdrBindings.Proofs.Idl.Derivation
import XdrBindings.Proofs.Dependency.Cyclic
import XdrBindings.Proofs.Dependency.Imports
import XdrBindings.Proofs.Code.Classes
import XdrBindings.Proofs.Idl.RoundTrip
import XdrBindings.Proofs.Code.ClassParts
import XdrBindings.Proofs.Code.CodeLines
import XdrBindings.Proofs.Merge.SplicedParts
import XdrBindings.Proofs.Code.Outline
import XdrBindings.Proofs.Merge.GeneratedCode
import XdrBindings.Proofs.Merge.ClassNames
import XdrBindings.Proofs.Merge.Regenerated
import XdrBindings.Proofs.Code.CodeRenamed
import XdrBindings.Proofs.Code.OutlineRenamed
import XdrBindings.Proofs.Merge.Layout
import XdrBindings.Proofs.Merge.WrittenSections
import XdrBindings.Proofs.Merge.ReadSections
import XdrBindings.Proofs.Code.ClassBodies
import XdrBindings.Proofs.Code.ClassSources
import XdrBindings.Proofs.Merge.RenamedTwice
import XdrBindings.Proofs.Merge.SplicedAgain
import XdrBindings.Proofs.Merge.KeptRecognised
import XdrBindings.Proofs.Merge.SectionLines
import XdrBindings.Proofs.Merge.JoinedSections
import XdrBindings.Proofs.Merge.SplicedSections
import XdrBindings.Proofs.Merge.KeptReadBack
import XdrBindings.Proofs.Idl.Gaps
import XdrBindings.Proofs.Idl.Places
import XdrBindings.Proofs.Idl.Shifted
import XdrBindings.Proofs.Idl.Concatenated
import XdrBindings.Proofs.Idl.Entries
import XdrBindings.Proofs.Idl.Stepwise
import XdrBindings.Proofs.Idl.Rendering
import XdrBindings.Proofs.Merge.Extraction
import XdrBindings.Proofs.Files.Isolation
import XdrBindings.Proofs.Graph.LeastOrder
import XdrBindings.Proofs.Code.WordRuns
import XdrBindings.Proofs.Code.RenamedPieces
import XdrBindings.Proofs.Merge.Substitution
import XdrBindings.Proofs.Code.Views
import XdrBindings.Proofs.Code.Balance
import XdrBindings.Proofs.Merge.Reach
import XdrBindings.Proofs.Merge.SoleMethods
import XdrBindings.Proofs.Idl.Numerals
import XdrBindings.Proofs.Code.DeclarationLines
import XdrBindings.Proofs.Merge.ImportList
import XdrBindings.Proofs.Merge.SteadySections
import XdrBindings.Proofs.Idl.WellFormed
import XdrBindings.Proofs.Dependency.TypeGraph
import XdrBindings.Proofs.Idl.Settled
import XdrBindings.Proofs.Graph.Operations
import XdrBindings.Proofs.Code.Scans
import XdrBindings.Proofs.Code.ScannedRegion
import XdrBindings.Proofs.Idl.Lookahead
import XdrBindings.Proofs.Idl.Excerpts
