import DepGraph.Prune
import DepGraph.Resolution.Queries
import DepGraph.Json.Reader
import DepGraph.Json.Writer
import DepGraph.Toml.Text
import DepGraph.Toml.Reader
import DepGraph.Manifest.Format
import DepGraph.Main
import DepGraph.Proofs.Counting
import DepGraph.Proofs.Order
import DepGraph.Proofs.Declarations
import DepGraph.Proofs.Adding
import DepGraph.Proofs.Histories
import DepGraph.Proofs.Manifests
import DepGraph.Proofs.Walks
import DepGraph.Proofs.Drawing
import DepGraph.Proofs.Building
import DepGraph.Proofs.Writes
import DepGraph.Proofs.Splitting
import DepGraph.Proofs.ComponentSearch
import DepGraph.Proofs.Components
import DepGraph.Proofs.Rotation
import DepGraph.Proofs.CycleSearch
import DepGraph.Proofs.CycleDetection
import DepGraph.Proofs.ClusterSearch
import DepGraph.Proofs.ClusterClasses
import DepGraph.Proofs.Collapsing
import DepGraph.Proofs.Waves
import DepGraph.Proofs.Ranking
import DepGraph.Proofs.Clusters
import DepGraph.Proofs.Resolving
import DepGraph.Proofs.Outcomes
import DepGraph.Proofs.ClusterListing
import DepGraph.Proofs.ClusterPolicies
import DepGraph.Proofs.EntityRanks
import DepGraph.Proofs.Connectivity
import DepGraph.Proofs.BreadthFirst
import DepGraph.Proofs.Tallies
import DepGraph.Proofs.CycleStages
import DepGraph.Proofs.ClusterStages
import DepGraph.Proofs.DetectorAgreement
import DepGraph.Proofs.Layers
import DepGraph.Proofs.Cohorts
import DepGraph.Proofs.Pruning
import DepGraph.Proofs.Reachability
import DepGraph.Proofs.Statistics
import DepGraph.Proofs.Reordering
import DepGraph.Proofs.CycleReports
import DepGraph.Proofs.Traces
import DepGraph.Proofs.Ranges
import DepGraph.Proofs.Faults
import DepGraph.Proofs.Construction
import DepGraph.Proofs.Freezing
import DepGraph.Proofs.Stalling
import DepGraph.Proofs.Settling
import DepGraph.Proofs.Widths
import DepGraph.Proofs.TwoLevels
import DepGraph.Proofs.Reuse
import DepGraph.Proofs.Requests
import DepGraph.Proofs.Bookkeeping
import DepGraph.Proofs.PruneListings
import DepGraph.Proofs.SelfReferences
import DepGraph.Proofs.JsonText
import DepGraph.Proofs.ManifestText
