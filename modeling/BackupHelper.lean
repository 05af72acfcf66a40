import BackupHelper.Lib.Prog
import BackupHelper.Lib.Keep
import BackupHelper.Archive.Manifest
import BackupHelper.Snapshots
import BackupHelper.Retention.Policies
import BackupHelper.Retention.Select
import BackupHelper.Lib.Glob
import BackupHelper.Destinations.Store
import BackupHelper.Runner
import BackupHelper.Destinations.Rules
import BackupHelper.Runner.Rules
import BackupHelper.Runner.Keeps
import BackupHelper.LastCopy
import BackupHelper.OffsitePending
import BackupHelper.RetentionPasses
import BackupHelper.SmartLast
import BackupHelper.JobIsolation
import BackupHelper.Lib.Lines
import BackupHelper.Sources.Postgres
import BackupHelper.Archive.Bundle
import BackupHelper.Sources.Replacement
import BackupHelper.Sources.Base
import BackupHelper.Sources.S3Bucket
import BackupHelper.Sources.S3Mirror
import BackupHelper.Sources.S3RoundTrip
import BackupHelper.State
import BackupHelper.Ownership
import BackupHelper.Runner.Ends
import BackupHelper.Alerts
import BackupHelper.PruneCompletion
import BackupHelper.Restore
import BackupHelper.CompleteOffsite
import BackupHelper.Lib.Python
import BackupHelper.Runner.Produce
import BackupHelper.Success
import BackupHelper.Runner.Tells
import BackupHelper.SourceFailures
import BackupHelper.Healthcheck
import BackupHelper.Lib.Weave
import BackupHelper.Concurrency.Zones
import BackupHelper.Concurrency.Runs
import BackupHelper.AgeLimit
import BackupHelper.Snapshots.Unambiguous
import BackupHelper.Sources.Filesystem
import BackupHelper.Sources.PlainPath
import BackupHelper.Sources.Toc
import BackupHelper.Hydrate
import BackupHelper.Lib.Trees
import BackupHelper.PruneAgrees
import BackupHelper.Config.Overrides
import BackupHelper.Sources.FilesRoundTrip
import BackupHelper.Sources.Builtin
import BackupHelper.ManifestPromise
import BackupHelper.Pairing
import BackupHelper.Lib.KeyStore
import BackupHelper.Destinations.Local
import BackupHelper.Destinations.S3Destination
import BackupHelper.Destinations.Refine
import BackupHelper.Destinations.Agree
import BackupHelper.Lib.Reorder
import BackupHelper.Lib.TreesOrder
import BackupHelper.Config.OverrideOrder
import BackupHelper.Redaction
import BackupHelper.Redaction.Scan
import BackupHelper.Redaction.Standing
import BackupHelper.Redaction.Dsns
import BackupHelper.Redaction.Marks
import BackupHelper.Redaction.Pairs
import BackupHelper.Redaction.Urls
import BackupHelper.Lib.Urlsplit
import BackupHelper.Redaction.Data
import BackupHelper.Destinations.S3Upload
import BackupHelper.Destinations.S3Stored
import BackupHelper.Snapshots.Foreign
import BackupHelper.Lib.Json
import BackupHelper.Lib.Query
import BackupHelper.Sources.S3Metadata
import BackupHelper.Sources.S3Attributes
import BackupHelper.Sources.S3Tags
import BackupHelper.Lib.Utf8
import BackupHelper.Sources.CatalogRows
import BackupHelper.Concurrency.Apart
import BackupHelper.Runner.Asks
import BackupHelper.Lib.Sql
import BackupHelper.Sources.PreludeText
import BackupHelper.Sources.PgRestore
import BackupHelper.Lib.TreesMerge
import BackupHelper.Lib.Base64
import BackupHelper.Config.Loader
import BackupHelper.Verify
import BackupHelper.Recovery
