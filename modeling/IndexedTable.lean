import IndexedTable.Filter.Estimate
import IndexedTable.Plan.Cache
import IndexedTable.Record.Book
import IndexedTable.Scan.Basic
import IndexedTable.Value.Hashing
import IndexedTable.Proofs.ByteOrder
import IndexedTable.Proofs.Coercion
import IndexedTable.Proofs.SegmentOrder
import IndexedTable.Proofs.KeyOrder
import IndexedTable.Proofs.KeyLimits
import IndexedTable.Proofs.IndexEntries
import IndexedTable.Proofs.StoreRuns
import IndexedTable.Proofs.StoreAgreement
import IndexedTable.Proofs.CursorPath
import IndexedTable.Proofs.ScanEntries
import IndexedTable.Proofs.Declarations
import IndexedTable.Proofs.RowKeys
import IndexedTable.Proofs.Satisfaction
import IndexedTable.Proofs.PlanRange
import IndexedTable.Proofs.PlanBinding
import IndexedTable.Proofs.ScanAnswers
import IndexedTable.Proofs.StoreFailures
import IndexedTable.Proofs.EntryKeys
import IndexedTable.Proofs.ScanRange
import IndexedTable.Proofs.RecordEntries
import IndexedTable.Proofs.ScanResume
import IndexedTable.Proofs.SuffixKeys
import IndexedTable.Proofs.Containment
import IndexedTable.Proofs.PlanReuse
import IndexedTable.Proofs.IndexChoice
import IndexedTable.Proofs.RecordSearch
import IndexedTable.Proofs.PrimaryKeys
import IndexedTable.Proofs.CursorRuns
import IndexedTable.Proofs.FilterReuse
import IndexedTable.Proofs.WholeIndex
import IndexedTable.Proofs.PlanSources
import IndexedTable.Proofs.PlanFailures
import IndexedTable.Proofs.PlanRecency
import IndexedTable.Proofs.ValueOrder
import IndexedTable.Proofs.Conjuncts
import IndexedTable.Proofs.FingerprintBytes
import IndexedTable.Proofs.IgnoredConditions
import IndexedTable.Proofs.StoreUndo
import IndexedTable.Proofs.InsertionOrder
import IndexedTable.Proofs.ConditionOrder
import IndexedTable.Proofs.ValuePreorder
import IndexedTable.Proofs.DeclaredTables
import IndexedTable.Proofs.SizeEstimate
import IndexedTable.Proofs.FloatKeys
import IndexedTable.Proofs.ValueAgreement
import IndexedTable.Proofs.Conversions
import IndexedTable.Proofs.IndexPositions
import IndexedTable.Proofs.IndexRuns
import IndexedTable.Proofs.CursorSteps
