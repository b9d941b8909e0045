import Cctally.Dict
import Cctally.Except
import Cctally.Json
import Cctally.Journal
import Cctally.JournalFold
import Cctally.JournalBatch
import Cctally.JournalResolve
import Cctally.JournalSound
import Cctally.JournalCandidates
import Cctally.Election
import Cctally.JournalSelect
import Cctally.JournalWinners
import Cctally.JournalPlaces
import Cctally.JournalAtomic
import Cctally.JournalAttempts
import Cctally.DecodedStream
import Cctally.DecodedStreamPlain
import Cctally.Bisect
import Cctally.Lineage
import Cctally.LineageAssess
import Cctally.LineageDemand
import Cctally.UnionFind
import Cctally.ResetAnchor
import Cctally.ResetAnchorSound
import Cctally.ResetAnchorAdd
import Cctally.ResetAnchorConverge
import Cctally.ResetAnchorTolerance
import Cctally.AccountProtocol
import Cctally.AccountFence
import Cctally.CodexSegments
import Cctally.Blocks
import Cctally.PrefixHash
import Cctally.PrefixHashSound
import Cctally.PySeq
import Cctally.Retained
import Cctally.RetainedCoordinates
import Cctally.RetainedPlain
import Cctally.RetainedSound
import Cctally.JsonEq
import Cctally.FiveHourLineage
import Cctally.FiveHourTables
import Cctally.FiveHourTimeline
import Cctally.FiveHourWalk
import Cctally.FiveHourHistory
import Cctally.FiveHourBatch
import Cctally.FiveHourClear
import Cctally.FiveHourSettles
import Cctally.Record
import Cctally.Preserve
import Cctally.ClosedMilestones
import Cctally.Completion
import Cctally.CompletionPlan
import Cctally.Rewrites
import Cctally.CompletionOwned
import Cctally.CompletionContained
import Cctally.Barrier
import Cctally.Drain
import Cctally.DrainSound
import Cctally.Statusline
import Cctally.StatuslineDrop
import Cctally.StatuslineRun
import Cctally.StatuslineGeneration
import Cctally.StatuslineExpiry
import Cctally.StatuslineStretch
import Cctally.Pieces
import Cctally.SubWeeks
import Cctally.SubWeeksCut
import Cctally.SubWeeksCycles
import Cctally.QuotaLedger
import Cctally.QuotaLedgerUnits
import Cctally.QuotaLedgerGroups
import Cctally.CodexIter
import Cctally.LineReader
import Cctally.CodexIterSound
import Cctally.Doubles
import Cctally.TokenBucket
import Cctally.MaintenanceLedger
import Cctally.MaintenanceLedgerSound
import Cctally.Pacing
import Cctally.PacingAccrual
import Cctally.PacingRun
import Cctally.Quarantine
import Cctally.QuarantineFold
import Cctally.QuarantineTables
import Cctally.QuarantineStep
import Cctally.Since
import Cctally.QuarantineRecovery
import Cctally.QuarantineChange
import Cctally.QuarantineAgree
import Cctally.WriteBehind
import Cctally.QuarantineMarks
import Cctally.QuarantineStored
import Cctally.QuarantineCycles
import Cctally.Artifacts
import Cctally.Reach
import Cctally.ArtifactsRooted
import Cctally.ArtifactsPlan
import Cctally.ArtifactsSelection
import Cctally.ArtifactsTracks
import Cctally.ArtifactsPhases
import Cctally.ArtifactsRun
import Cctally.ArtifactsDeletes
import Cctally.Topological
import Cctally.ArtifactsSound
import Cctally.ArtifactsDangling
import Cctally.ArtifactsSafe
import Cctally.Activity
import Cctally.ActivityMonotone
import Cctally.ActivityRun
import Cctally.AttributionJournal
import Cctally.Attribution
import Cctally.AttributionRun
import Cctally.Snapshots
import Cctally.SnapshotConverge
import Cctally.GroupA
import Cctally.GroupAAccumulator
import Cctally.GroupABuckets
import Cctally.GroupARollover
import Cctally.Segments
import Cctally.SegmentsRepair
import Cctally.SegmentsOrder
import Cctally.QuotaAccounts
import Cctally.QuotaAccountsReplay
import Cctally.DurableDir
import Cctally.QuotaIndex
import Cctally.QuotaIndexRun
import Cctally.QuotaIndexSteps
import Cctally.QuotaIndexTracks
import Cctally.QuotaIndexPublish
import Cctally.QuotaIndexDurable
import Cctally.Quota
import Cctally.QuotaAdoption
import Cctally.QuotaMilestones
import Cctally.QuotaBlocks
import Cctally.Least
import Cctally.Ownership
import Cctally.LineAnchors
import Cctally.ResetAnchorIndex
import Cctally.ResetAnchorAlike
import Cctally.ResetAnchorEvidence
import Cctally.Maxima
import Cctally.SegmentSummaries
import Cctally.LastSeenJoin
import Cctally.SegmentReading
import Cctally.SegmentSummariesSound
import Cctally.SessionCache
import Cctally.SessionCacheSound
import Cctally.AccountingLedger
import Cctally.AccountingCache
import Cctally.AccountingCacheSound
import Cctally.AccountingCacheRuns
import Cctally.CodexSegmentsTile
import Cctally.LastSeenResolve
import Cctally.WeeklyUsage
import Cctally.UsageDedupe
import Cctally.BoundaryCodec
import Cctally.BoundaryCodecSound
import Cctally.RecordStamps
import Cctally.CodexGap
import Cctally.CodexTotals
import Cctally.QuarantineBounds
import Cctally.CausalClosures
import Cctally.Settling
import Cctally.CausalDelta
import Cctally.CausalSettles
import Cctally.ReclaimGeometry
import Cctally.ReclaimFreelist
import Cctally.ReclaimFreelistExact
import Cctally.ReclaimPlan
import Cctally.ReclaimReservation
import Cctally.ReclaimLongest
import Cctally.Calls
import Cctally.WalSnapshot
import Cctally.WalSnapshotSound
import Cctally.MeterRate
import Cctally.MeterRateSound
import Cctally.StaleProof
import Cctally.StaleProofView
import Cctally.StaleProofCompact
import Cctally.StaleProofSame
import Cctally.WalPolicy
import Cctally.FrontierClosure
import Cctally.StatuslineOrder
import Cctally.MeterRateDetect
import Cctally.ActivityScan
import Cctally.TimelineNeighbours
import Cctally.CanonicalText
import Cctally.Packing
import Cctally.CostBatches
import Cctally.CostBatchesSound
import Cctally.WeekrefCost
import Cctally.SegmentElision
import Cctally.QuotaRefill
