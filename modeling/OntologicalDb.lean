import OntologicalDb.ReachabilityEquivalence
import OntologicalDb.LabelSets
import OntologicalDb.IntegerArithmetic
import OntologicalDb.ClauseOrder
import OntologicalDb.SortedProjections
import OntologicalDb.MultiplicityBlind
import OntologicalDb.WriteReturn
import OntologicalDb.WritePrefix
import OntologicalDb.PredicateAgreement
import OntologicalDb.TemporalReads
import OntologicalDb.LabelCurrency
import OntologicalDb.SchemaDrops
import OntologicalDb.PlanCache
import OntologicalDb.ShadowWrite
import OntologicalDb.HistoryLookups
import OntologicalDb.PresentReads
import OntologicalDb.RoleChanges
import OntologicalDb.SchemaEvolution
import OntologicalDb.ColumnAgreement
import OntologicalDb.AncestorSearch
import OntologicalDb.FacilityColumns
import OntologicalDb.GraphFrames
import OntologicalDb.InheritedProperties
import OntologicalDb.SchemaVersions
import OntologicalDb.Timeline
import OntologicalDb.InheritedFacilities
import OntologicalDb.UnionViews
import OntologicalDb.PackStreamSafety
import OntologicalDb.BoltScoping
import OntologicalDb.DisjointSets
import OntologicalDb.TypeqlSimulation
import OntologicalDb.TypeqlPipelineOrder
import OntologicalDb.TypeqlOwnership
import OntologicalDb.Relabelling
import OntologicalDb.ReachEngines
import OntologicalDb.ShortestHops
import OntologicalDb.IntegrityExactness
import OntologicalDb.Reorganization
import OntologicalDb.HousekeepingWrites
import OntologicalDb.PropertyMaps
import OntologicalDb.ListMembership
import OntologicalDb.UndirectedHops
import OntologicalDb.VirtualHops
import OntologicalDb.WriteCounters
import OntologicalDb.DeleteOrder
import OntologicalDb.GatewayPlace
import OntologicalDb.WideningWrites
import OntologicalDb.OwnWrites
import OntologicalDb.StringPredicates
import OntologicalDb.SqlLiterals
import OntologicalDb.StringTokens
import OntologicalDb.VarLengthBounds
import OntologicalDb.LabelAlternatives
import OntologicalDb.ProjectionColumns
import OntologicalDb.WriteIntegers
import OntologicalDb.DeleteRecursion
import OntologicalDb.TypeqlLexer
import OntologicalDb.TokenPrinting
import OntologicalDb.StoredFunctions
import OntologicalDb.BatchLoops
import OntologicalDb.MigrationBatches
import OntologicalDb.PlanPrefix
import OntologicalDb.DollarQuotes
import OntologicalDb.TurtleTerms
import OntologicalDb.TurtleReader
import OntologicalDb.IdFreshness
import OntologicalDb.ViewQueries
import OntologicalDb.EntityProperties
import OntologicalDb.StatementRedaction
import OntologicalDb.ParameterBlocks
import OntologicalDb.StatementOpenings
import OntologicalDb.LocalActions
import OntologicalDb.TypeqlComponents
import OntologicalDb.TypeqlGroups
import OntologicalDb.TypeqlReordering
import OntologicalDb.EditDistance
import OntologicalDb.NearestNames
import OntologicalDb.WriteGrants
import OntologicalDb.TimelineReads
import OntologicalDb.Releases
import OntologicalDb.Actions
import OntologicalDb.TypeqlPreservation
