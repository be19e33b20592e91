import PrSentinel.Clusters
import PrSentinel.Table
import PrSentinel.Ranking
import PrSentinel.RoundRobin
import PrSentinel.Windows
import PrSentinel.Binning
import PrSentinel.Regex
import PrSentinel.Crash
import PrSentinel.Runs
import PrSentinel.Reserve
import PrSentinel.Swaps
import PrSentinel.Rounding
import PrSentinel.PythonText
import PrSentinel.Comprehensions
import PrSentinel.Numerals
import PrSentinel.PythonJson
import PrSentinel.PythonLines
import PrSentinel.Enums
import PrSentinel.Models
import PrSentinel.Matching
import PrSentinel.Scoring
import PrSentinel.Rescore
import PrSentinel.Calibration
import PrSentinel.FullPanel
import PrSentinel.Diff
import PrSentinel.DiffLines
import PrSentinel.Aggregator
import PrSentinel.Merging
import PrSentinel.Confidence
import PrSentinel.Gate
import PrSentinel.SecurityMark
import PrSentinel.ReportOrder
import PrSentinel.Consolidation
import PrSentinel.Attribution
import PrSentinel.Llm
import PrSentinel.Specialist
import PrSentinel.Engines
import PrSentinel.Unreadable
import PrSentinel.GitHub
import PrSentinel.Anchoring
import PrSentinel.Malformed
import PrSentinel.Grounding
import PrSentinel.Prompt
import PrSentinel.Rendering
import PrSentinel.Disclosure
import PrSentinel.Terms
import PrSentinel.Chunking
import PrSentinel.HybridSearch
import PrSentinel.Context
import PrSentinel.Splitter
import PrSentinel.SqlLexer
import PrSentinel.Migrations
import PrSentinel.Storage
import PrSentinel.Act
import PrSentinel.Resume
import PrSentinel.Rerun
import PrSentinel.Pipeline
import PrSentinel.Worker
import PrSentinel.ReviewRows
import PrSentinel.Ingress
import PrSentinel.Webhook
import PrSentinel.Decisions
import PrSentinel.Retry
import PrSentinel.Requests
import PrSentinel.Circuit
import PrSentinel.Budget
import PrSentinel.Calls
import PrSentinel.Spine
import PrSentinel.Indexer
import PrSentinel.EvalRuns
import PrSentinel.Baselines
import PrSentinel.Arms
import PrSentinel.Fixtures
import PrSentinel.Echo
import PrSentinel.Guarded
import PrSentinel.AuditTrail
import PrSentinel.Lagging
import PrSentinel.DailyBudget
import PrSentinel.Fusion
import PrSentinel.SavedFindings
import PrSentinel.Grouping
import PrSentinel.CostViews
