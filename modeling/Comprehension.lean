import Comprehension.Config.Json
import Comprehension.Expr.Same
import Comprehension.Lower
import Comprehension.NameTable.Json
import Comprehension.Proofs.Induction
import Comprehension.Proofs.Plain
import Comprehension.Proofs.JoinedRows
import Comprehension.Proofs.LetElimination
import Comprehension.Proofs.BindingModes
import Comprehension.Proofs.Hygiene
import Comprehension.Proofs.Dangling
import Comprehension.Proofs.Defects
import Comprehension.Proofs.GroupKeys
import Comprehension.Proofs.LambdaUses
import Comprehension.Proofs.LambdaParameters
import Comprehension.Proofs.Renaming
import Comprehension.Proofs.RenamedImages
import Comprehension.Proofs.NestedThunks
import Comprehension.Proofs.ContextIndependence
import Comprehension.Run
import Comprehension.Proofs.Runs
import Comprehension.Proofs.Faults
import Comprehension.Proofs.GroupFunctions
import Comprehension.Proofs.NameFates
import Comprehension.Proofs.Parts
import Comprehension.Proofs.FetchedNames
import Comprehension.Proofs.GroupNames
import Comprehension.Proofs.OwnParts
import Comprehension.Proofs.Arguments
import Comprehension.Proofs.NameTables
import Comprehension.Proofs.RowCounters
import Comprehension.Proofs.RowNumbers
import Comprehension.Proofs.GroupNavigation
import Comprehension.Proofs.GroupReductions
import Comprehension.Proofs.Calls
import Comprehension.Proofs.RepeatedRuns
import Comprehension.Proofs.RowClauses
import Comprehension.Proofs.Accesses
import Comprehension.Proofs.RuntimeNames
import Comprehension.Proofs.GroupSubstitution
import Comprehension.Proofs.OffGroups
import Comprehension.Proofs.Inlining
import Comprehension.Proofs.KeyAccesses
import Comprehension.Proofs.AliasPaths
import Comprehension.Proofs.GivenNames
import Comprehension.Proofs.MinimalBindings
import Comprehension.Proofs.UnshadowedAliases
import Comprehension.Proofs.FormulaTexts
import Comprehension.Proofs.QuotedText
import Comprehension.Proofs.TableTexts
import Comprehension.Proofs.PartialConfigs
import Comprehension.Proofs.ReservedNames
