import OpenCargo.Access.Authorize
import OpenCargo.Access.Globs
import OpenCargo.Access.Scope
import OpenCargo.Backup.Complete
import OpenCargo.Backup.Snapshot
import OpenCargo.Cargo.Imported
import OpenCargo.Cargo.Line
import OpenCargo.Cargo.Publish
import OpenCargo.Cleanup.Prereleases
import OpenCargo.Domain
import OpenCargo.Durable.Completion
import OpenCargo.Durable.Reached
import OpenCargo.Fs.Listing
import OpenCargo.Fs.Store
import OpenCargo.Fs.Tree
import OpenCargo.Go.Escape
import OpenCargo.Governance
import OpenCargo.Groups.Calls
import OpenCargo.Groups.Depth
import OpenCargo.Groups.Integrity
import OpenCargo.Groups.Nesting
import OpenCargo.Groups.Spec
import OpenCargo.Groups.Walks
import OpenCargo.HighWater.Calls
import OpenCargo.HighWater.Safety
import OpenCargo.Identity.Authenticate
import OpenCargo.Identity.Bought
import OpenCargo.Identity.Clock
import OpenCargo.Identity.Gate
import OpenCargo.Identity.Grants
import OpenCargo.Identity.Issue
import OpenCargo.Identity.Lookup
import OpenCargo.Identity.Roles
import OpenCargo.Identity.Sessions
import OpenCargo.Identity.Store
import OpenCargo.Identity.System
import OpenCargo.Import.Fence
import OpenCargo.Import.Globs
import OpenCargo.Import.Journal
import OpenCargo.Import.Plan
import OpenCargo.Import.Ports
import OpenCargo.Import.Scopes
import OpenCargo.Import.Spool
import OpenCargo.Layout
import OpenCargo.Lease.Holder
import OpenCargo.Lease.Store
import OpenCargo.Lib.Address
import OpenCargo.Lib.Edits
import OpenCargo.Lib.Entries
import OpenCargo.Lib.Fallible
import OpenCargo.Lib.FirstVisit
import OpenCargo.Lib.Framing
import OpenCargo.Lib.Glob
import OpenCargo.Lib.JsonText
import OpenCargo.Lib.Lines
import OpenCargo.Lib.Merging
import OpenCargo.Lib.Nesting
import OpenCargo.Lib.Numerals
import OpenCargo.Lib.Orders
import OpenCargo.Lib.Paging
import OpenCargo.Lib.Printing
import OpenCargo.Lib.Prog
import OpenCargo.Lib.Ranked
import OpenCargo.Lib.Recency
import OpenCargo.Lib.Rows
import OpenCargo.Lib.Run
import OpenCargo.Lib.Runs
import OpenCargo.Lib.Script
import OpenCargo.Lib.Search
import OpenCargo.Lib.Segments
import OpenCargo.Lib.Sliding
import OpenCargo.Lib.Sorted
import OpenCargo.Lib.Spans
import OpenCargo.Lib.Tiling
import OpenCargo.Lib.Utf8
import OpenCargo.Lib.Worklist
import OpenCargo.Limits.Attempts
import OpenCargo.Limits.Guessing
import OpenCargo.Limits.Meter
import OpenCargo.Limits.Sweep
import OpenCargo.Maven.Carried
import OpenCargo.Maven.Cycles
import OpenCargo.Maven.Gated
import OpenCargo.Maven.Guarantee
import OpenCargo.Maven.Metadata
import OpenCargo.Maven.Nulls
import OpenCargo.Maven.Order
import OpenCargo.Maven.Path
import OpenCargo.Maven.Rules
import OpenCargo.Maven.Safety
import OpenCargo.Maven.Scans
import OpenCargo.Maven.Server
import OpenCargo.Maven.Snapshots
import OpenCargo.Maven.Store
import OpenCargo.Maven.UseCases
import OpenCargo.Maven.Validators
import OpenCargo.Maven.Version
import OpenCargo.Mcp.Canonical
import OpenCargo.Mcp.Catalog
import OpenCargo.Mcp.CatchUp
import OpenCargo.Mcp.Counts
import OpenCargo.Mcp.Floors
import OpenCargo.Mcp.Gates
import OpenCargo.Mcp.Listing
import OpenCargo.Mcp.Pages
import OpenCargo.Mcp.Prefilter
import OpenCargo.Mcp.Refresh
import OpenCargo.Mcp.Surface
import OpenCargo.Mcp.Sync
import OpenCargo.Mcp.Tables
import OpenCargo.Mcp.Verdicts
import OpenCargo.Mcp.Writes
import OpenCargo.Npm.Attachments
import OpenCargo.Npm.Names
import OpenCargo.Npm.Publish
import OpenCargo.Npm.Registry
import OpenCargo.Npm.Render
import OpenCargo.Nuget.Current
import OpenCargo.Nuget.Documents
import OpenCargo.Nuget.Keys
import OpenCargo.Nuget.Merged
import OpenCargo.Nuget.Model
import OpenCargo.Nuget.Rows
import OpenCargo.Nuget.Search
import OpenCargo.Nuget.Windows
import OpenCargo.Oci.Integrity
import OpenCargo.Oci.Names
import OpenCargo.Oci.Nested
import OpenCargo.Oci.Resume
import OpenCargo.Oci.Retry
import OpenCargo.Oci.Session
import OpenCargo.Oci.Store
import OpenCargo.Oci.Tiling
import OpenCargo.Oci.UseCases
import OpenCargo.Place
import OpenCargo.Place.Residue
import OpenCargo.Place.World
import OpenCargo.Policy.Age
import OpenCargo.Policy.Children
import OpenCargo.Policy.Distance
import OpenCargo.Policy.Forgotten
import OpenCargo.Policy.Memo
import OpenCargo.Policy.Pulls
import OpenCargo.Policy.Totals
import OpenCargo.Policy.Typosquat
import OpenCargo.Policy.Writer
import OpenCargo.Proxy.Guard
import OpenCargo.Proxy.Singleflight
import OpenCargo.Proxy.Strategy
import OpenCargo.Proxy.Tokens
import OpenCargo.Pypi.Canonical
import OpenCargo.Pypi.Filenames
import OpenCargo.Pypi.Grammar
import OpenCargo.Pypi.Multipart
import OpenCargo.Pypi.Order
import OpenCargo.Pypi.Version
import OpenCargo.Raw.Paths
import OpenCargo.Reclaim.Facts
import OpenCargo.Reclaim.Fate
import OpenCargo.Reclaim.Invariant
import OpenCargo.Reclaim.Prefix
import OpenCargo.Reclaim.Queue
import OpenCargo.Reclaim.Reuse
import OpenCargo.Reclaim.Safety
import OpenCargo.Reclaim.Store
import OpenCargo.Reclaim.System
import OpenCargo.Repository
import OpenCargo.Resolve.Agreement
import OpenCargo.Resolve.Probe
import OpenCargo.Resolve.Walk
import OpenCargo.Restore.Detection
import OpenCargo.Restore.System
import OpenCargo.Routing.Decide
import OpenCargo.Routing.Escape
import OpenCargo.Routing.Formats
import OpenCargo.Routing.Registry
import OpenCargo.Routing.Store
import OpenCargo.Routing.Versions
import OpenCargo.S3.Backend
import OpenCargo.S3.Cache
import OpenCargo.S3.Existence
import OpenCargo.S3.Landed
import OpenCargo.S3.Mistaken
import OpenCargo.S3.Writer
import OpenCargo.Storage
import OpenCargo.Telemetry.GoMod
