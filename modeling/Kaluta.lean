import Kaluta.Lib.Fallible
import Kaluta.Lib.Table
import Kaluta.Lib.Tally
import Kaluta.Store.Basic
import Kaluta.Store.Write
import Kaluta.Store.Recompute
import Kaluta.Store.WellFormed
import Kaluta.Store.Labels
import Kaluta.Store.Settled
import Kaluta.Store.Consistent
import Kaluta.Store.Transaction
import Kaluta.Store.Recomputed
import Kaluta.Store.Checked
import Kaluta.Lib.Overwrite
import Kaluta.Store.Mailbox
import Kaluta.Store.Reachable
import Kaluta.Store.Db
import Kaluta.Store.Outbox
import Kaluta.Store.Undo
import Kaluta.Store.Rollback
import Kaluta.Sync.LocalChange
import Kaluta.Sync.Exact
import Kaluta.Sync.Changed
import Kaluta.Sync.Rollback
import Kaluta.Sync.Performed
import Kaluta.Sync.Delivered
import Kaluta.Sync.Alternate
import Kaluta.Sync.LaterChanges
import Kaluta.Lib.Execution
import Kaluta.Store.Fetched
import Kaluta.Store.Flags
import Kaluta.Core.Events
import Kaluta.Search.Parse
import Kaluta.Search.Lexical
import Kaluta.Search.Grammar
import Kaluta.Search.Printed
import Kaluta.Server.Seal
import Kaluta.Server.Db
import Kaluta.Server.OAuth
import Kaluta.Server.Rest
import Kaluta.Server.System
import Kaluta.Server.Encryption
import Kaluta.Server.Standing
import Kaluta.Server.Grants
import Kaluta.Server.Revocation
import Kaluta.Server.Keys
import Kaluta.Server.KeyChain
import Kaluta.Server.OneKey
import Kaluta.Publish.Host
import Kaluta.Publish.App
import Kaluta.Publish.Ordered
import Kaluta.Publish.Settled
import Kaluta.Publish.Converges
import Kaluta.Review.Db
import Kaluta.Review.System
import Kaluta.Review.OneRun
import Kaluta.Review.Health
import Kaluta.Review.Kept
import Kaluta.Review.Learning
import Kaluta.Review.Stopped
import Kaluta.Review.Glean
import Kaluta.Review.Gleaned
import Kaluta.Guide.Db
import Kaluta.Guide.Change
import Kaluta.Guide.Versions
import Kaluta.Guide.Decide
import Kaluta.Guide.Numbered
import Kaluta.Guide.Decided
import Kaluta.Guide.Backing
import Kaluta.Guide.Reviews
import Kaluta.Guide.Accepted
import Kaluta.Guide.Groups
import Kaluta.Guide.Rescoped
import Kaluta.Guide.Merged
import Kaluta.Guide.Audiences
import Kaluta.Facts.Change
import Kaluta.Facts.System
import Kaluta.Facts.Apart
import Kaluta.Facts.Conserved
import Kaluta.Facts.NothingLost
import Kaluta.Provider.Http
import Kaluta.Provider.SentOnce
import Kaluta.AgentMail.Poll
import Kaluta.AgentMail.Agree
import Kaluta.Routines.Due
import Kaluta.Agents.Meta
import Kaluta.Agents.Kept
import Kaluta.Agents.SignUp
import Kaluta.Agents.Rotated
import Kaluta.Agents.Release
import Kaluta.Agents.KeyKept
import Kaluta.Agents.Routing
import Kaluta.Agents.Routed
import Kaluta.Agents.Powers
import Kaluta.AgentMail.Found
import Kaluta.AgentMail.Polled
import Kaluta.AgentMail.Socket
import Kaluta.AgentMail.Woken
import Kaluta.Migrations.Exclusive
import Kaluta.Mbox.RoundTrip
import Kaluta.Outbox.Reported
import Kaluta.Cleanup.OneClick
import Kaluta.Tasks.InLine
import Kaluta.RoutineRuns.Accounts
import Kaluta.Download.Kept
import Kaluta.Resync.CaughtUp
import Kaluta.Permissions.Guard
import Kaluta.Permissions.Limits
import Kaluta.Search.Panics
import Kaluta.Search.Exec
import Kaluta.Search.Searched
import Kaluta.WritingGuide.Hashed
import Kaluta.Consent.Locked
import Kaluta.Reports.Delivered
import Kaluta.Dates.Parsed
import Kaluta.RateLimit.ClientKey
import Kaluta.RateLimit.Limit
import Kaluta.Mime.Headers
import Kaluta.Backfill.Headers
import Kaluta.Outbox.Labels
import Kaluta.GuideMerge.Partition
import Kaluta.Store.Paged
import Kaluta.Matching.Matched
import Kaluta.Quotes.Folded
import Kaluta.PlainText.ToHtml
import Kaluta.PlainText.Linked
import Kaluta.Provider.RateLimiter
import Kaluta.Provider.Limited
import Kaluta.Wire.Payload
import Kaluta.Wire.Walked
import Kaluta.CloudReports.Match
import Kaluta.CloudReports.Matched
import Kaluta.Logging.Scrub
import Kaluta.Logging.Found
import Kaluta.Logging.Clean
import Kaluta.Logging.Restores
import Kaluta.Logging.Restored
import Kaluta.Categories.Engine
import Kaluta.Categories.Sorted
import Kaluta.OwnChanges.Engine
import Kaluta.OwnChanges.Told
import Kaluta.Outside.Whole
import Kaluta.Outside.Answered
import Kaluta.Lib.Attempt
import Kaluta.Imap.Returned
import Kaluta.Matching.Distance
import Kaluta.Transport.Breaker
import Kaluta.Lib.Fields
import Kaluta.Server.Context
import Kaluta.NewLabels.Created
import Kaluta.Archive.Imports
import Kaluta.Facts.Tidy
import Kaluta.Facts.Merge
import Kaluta.Facts.Added
import Kaluta.Facts.Merged
import Kaluta.Lib.Cron
import Kaluta.Routines.Schedule
import Kaluta.Routines.Scheduled
import Kaluta.Outbox.Claims
