import Outline.Main
import Outline.Proofs.Captures
import Outline.Proofs.Collecting
import Outline.Proofs.Comments
import Outline.Proofs.CursorMaps
import Outline.Proofs.DeclaredNames
import Outline.Proofs.ExportAgreement
import Outline.Proofs.ExportRecords
import Outline.Proofs.FileRecords
import Outline.Proofs.Gathering
import Outline.Proofs.Layout
import Outline.Proofs.Locality
import Outline.Proofs.MatchMaps
import Outline.Proofs.PoolRuns
import Outline.Proofs.RegularTrees
import Outline.Proofs.Rehanging
import Outline.Proofs.StrippedMatches
import Outline.Proofs.Stripping
import Outline.Proofs.SymbolNames
import Outline.Proofs.Thinning
import Outline.Proofs.Borrowers
import Outline.Proofs.Lending
import Outline.Proofs.LoanBounds
import Outline.Proofs.QueryRequests
import Outline.Proofs.SharedQueries
import Outline.Proofs.RestingParsers
import Outline.Proofs.SessionStates
import Outline.Proofs.Jobs
import Outline.Proofs.JobRuns
import Outline.Proofs.BatchRuns
import Outline.Proofs.BatchCounts
import Outline.Proofs.BatchReports
import Outline.Proofs.MatchLists
import Outline.Proofs.Specifiers
import Outline.Proofs.ImportStatements
import Outline.Proofs.CommandRuns
import Outline.Proofs.ExportClauses
import Outline.Proofs.RecordShapes
import Outline.Proofs.ClosingPools
import Outline.Proofs.RecordReading
import Outline.Proofs.SymbolSpans
import Outline.Proofs.ExportFlags
import Outline.Proofs.SymbolShapes
import Outline.Proofs.BoundNames
import Outline.Proofs.RouteTexts
import Outline.Proofs.NormalRoutes
import Outline.Proofs.Resolution
import Outline.Proofs.MemberNames
import Outline.Proofs.RegularWords
import Outline.Proofs.AssignedExports
import Outline.Proofs.Slices
import Outline.Proofs.TypePriorities
import Outline.Proofs.BoundTypes
import Outline.Proofs.JoinedPaths
import Outline.Proofs.Exclusions
import Outline.Proofs.WalkedPaths
import Outline.Proofs.Coordinates
import Outline.Proofs.ConfigLayers
