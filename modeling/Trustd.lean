import Trustd.General.Lists
import Trustd.General.Spacing
import Trustd.General.Results
import Trustd.General.Fallible
import Trustd.General.Runs
import Trustd.General.Revisions
import Trustd.General.Positions
import Trustd.General.Numbering
import Trustd.General.Phases
import Trustd.General.Broadcast
import Trustd.General.Entries
import Trustd.General.Splitting
import Trustd.General.Firsts
import Trustd.General.Passing
import Trustd.General.Scripts
import Trustd.General.Heap
import Trustd.Core.Text
import Trustd.Core.Pem
import Trustd.Core.Documents
import Trustd.Core.Der
import Trustd.Core.Walker
import Trustd.Core.SubjectHash
import Trustd.Core.OpenSsl
import Trustd.Core.Cert
import Trustd.Core.Store
import Trustd.Core.Reference
import Trustd.Core.Accounting
import Trustd.Core.Spellings
import Trustd.Core.Wire
import Trustd.Core.MessagePack
import Trustd.Core.Slots
import Trustd.Core.Framing
import Trustd.Daemon.Disk
import Trustd.Daemon.Render
import Trustd.Daemon.Staging
import Trustd.Daemon.Hashed
import Trustd.Daemon.Install
import Trustd.Daemon.Config
import Trustd.Daemon.Bundle
import Trustd.Daemon.Rendered
import Trustd.Daemon.Control
import Trustd.Daemon.State
import Trustd.Daemon.Exact
import Trustd.Daemon.Identity
import Trustd.Daemon.Refresh
import Trustd.Daemon.Health
import Trustd.Daemon.Generations
import Trustd.Daemon.Journal
import Trustd.Daemon.Reading
import Trustd.Daemon.Loop
import Trustd.Daemon.Watch
import Trustd.Daemon.Upgrades
import Trustd.Daemon.Contents
import Trustd.Daemon.Fingerprints
import Trustd.Daemon.Audit
import Trustd.Daemon.Inputs
import Trustd.Daemon.Quiet
import Trustd.Daemon.Reads
import Trustd.Client.Registry
import Trustd.Client.Commands
import Trustd.Client.Access
import Trustd.Client.Distrusts
import Trustd.Client.Agreement
import Trustd.Client.Resolvers
import Trustd.Client.Additions
import Trustd.Client.Phases
import Trustd.Client.Watched
import Trustd.Client.Torn
import Trustd.Client.Certificate
import Trustd.Client.Reload
import Trustd.Client.Decisions
import Trustd.Client.Refinement
import Trustd.Client.Moments
import Trustd.Client.System
import Trustd.Client.Enforced
import Trustd.Core.RoundTrip
import Trustd.Core.Sizes
import Trustd.Core.Rearranged
import Trustd.Shared.Channel
import Trustd.Shared.Snapshot
import Trustd.Shared.Delivery
import Trustd.Daemon.Subscribers
import Trustd.Daemon.Sweep
import Trustd.Daemon.Limit
import Trustd.Daemon.Frames
import Trustd.Daemon.Connections
import Trustd.Shared.Subscription
import Trustd.Core.Describe
import Trustd.Library.Views
import Trustd.Library.Inputs
import Trustd.Library.Results
import Trustd.Library.Exports
import Trustd.Library.Clients
import Trustd.Library.Transparent
import Trustd.Library.Managed
import Trustd.Library.Wired
