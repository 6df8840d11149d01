import Codexon.Tracking.Segments
import Codexon.TrackingStore.Resume
import Codexon.Backlog.Delivery
import Codexon.Session.Transparency
import Codexon.Session.LateContext
import Codexon.EventStream.Positions
import Codexon.ModeScan.Evidence
import Codexon.CacheHealth.History
import Codexon.CallElection
import Codexon.CollectionAppend.Combined
import Codexon.ReportRows.Fresh
import Codexon.LedgerSync.Cohorts
import Codexon.SpeedHealth.Results
import Codexon.ResponseStream.Delivery
import Codexon.ActivityPages.Lossless
import Codexon.RelayBudget.Retirement
import Codexon.CollectionChannel.Agreement
import Codexon.CatalogPages.Interleaving
import Codexon.LiveDelta.Agreement
import Codexon.MismatchArchive.Lossless
import Codexon.EvidenceWriter.Closing
import Codexon.ResponseTracker.Observations
import Codexon.PreparedCheckpoint.Runs
import Codexon.PreparedStore.Runs
import Codexon.UpdateState.Journal
import Codexon.UpdateState.Shown
import Codexon.SnapshotDelivery.Runs
import Codexon.ObservationImport.Runs
import Codexon.AlertDelivery.Runs
import Codexon.GraphTransfer.Lossless
import Codexon.OverlaySummaries.History
import Codexon.QueryActor.Requests
import Codexon.SplitCycles.Partition
import Codexon.JsonLexical.Admission
import Codexon.QuotaPeriods.Runs
import Codexon.ObserverControl.Recovery
import Codexon.ProxyUpdate.Runs
import Codexon.Pricing.Explained
import Codexon.TransportMatch.Agreement
import Codexon.UsageGroups.Grouping
import Codexon.CoverageParts
import Codexon.QuotaExclusions
import Codexon.QuotaSeries.Agreement
import Codexon.RequestIntervals.Conserved
import Codexon.Trends.Causal
import Codexon.EvidenceJoin.Summary
import Codexon.Metadata.Streaming
import Codexon.RequestModes.Quoted
import Codexon.CatalogLineage.Required
import Codexon.TrendStream.Points
import Codexon.Membership
import Codexon.QuotaArchive
