import TaskMgtApp.Lib.Program
import TaskMgtApp.Lib.ExpiringStore
import TaskMgtApp.Lib.Interleaving
import TaskMgtApp.Lib.Failing
import TaskMgtApp.Lib.Like
import TaskMgtApp.Lib.Substring
import TaskMgtApp.Lib.Listing
import TaskMgtApp.Lib.Paging
import TaskMgtApp.Lib.Rows
import TaskMgtApp.Lib.Record
import TaskMgtApp.Lib.Merge
import TaskMgtApp.Lib.Json
import TaskMgtApp.Common
import TaskMgtApp.Auth.Model
import TaskMgtApp.Auth.Service
import TaskMgtApp.Auth.Serial
import TaskMgtApp.Auth.Instance
import TaskMgtApp.Auth.History
import TaskMgtApp.Auth.RefreshLifetime
import TaskMgtApp.Auth.Lockout
import TaskMgtApp.Auth.Concurrent
import TaskMgtApp.Auth.TokenIndex
import TaskMgtApp.Auth.RefreshRace
import TaskMgtApp.Auth.ResetRace
import TaskMgtApp.Auth.ResetTokenRace
import TaskMgtApp.Auth.LoginMoves
import TaskMgtApp.Auth.LockoutRace
import TaskMgtApp.Auth.Failures
import TaskMgtApp.Auth.Accounts
import TaskMgtApp.Auth.Footprints
import TaskMgtApp.Auth.Credentials
import TaskMgtApp.Auth.OneTimeLinks
import TaskMgtApp.Auth.LoginHistory
import TaskMgtApp.Auth.Eligibility
import TaskMgtApp.Auth.Recovery
import TaskMgtApp.Auth.Http
import TaskMgtApp.Auth.RegisterRace
import TaskMgtApp.Auth.Enumeration
import TaskMgtApp.Work.Model
import TaskMgtApp.Work.Service
import TaskMgtApp.Work.Http
import TaskMgtApp.Work.Serial
import TaskMgtApp.Work.Effects
import TaskMgtApp.Work.HardDelete
import TaskMgtApp.Work.Updates
import TaskMgtApp.Work.Refinement
import TaskMgtApp.Work.Tenants
import TaskMgtApp.Work.Concurrent
import TaskMgtApp.Work.Sessions
import TaskMgtApp.Work.Cascade
import TaskMgtApp.Log.Redaction
import TaskMgtApp.Auth.Locality
import TaskMgtApp.Auth.Commutation
import TaskMgtApp.Log.Middleware
import TaskMgtApp.Auth.RegisterLog
import TaskMgtApp.Work.Pages
import TaskMgtApp.Work.Search
import TaskMgtApp.Work.Patches
import TaskMgtApp.Work.RoundTrip
import TaskMgtApp.Work.ListRequests
import TaskMgtApp.Work.ListSnapshot
import TaskMgtApp.Work.DeleteOnce
import TaskMgtApp.Auth.DeadEntries
import TaskMgtApp.Work.RowWrites
import TaskMgtApp.Work.Merges
import TaskMgtApp.Auth.Merges
import TaskMgtApp.LostUpdates
import TaskMgtApp.Work.NotNull
import TaskMgtApp.Work.PageRange
import TaskMgtApp.Lib.Noninterference
import TaskMgtApp.Work.Ownership
import TaskMgtApp.Work.Confinement
import TaskMgtApp.Work.Isolation
import TaskMgtApp.Work.Histories
import TaskMgtApp.Auth.AccessLifetime
import TaskMgtApp.Auth.ResetSessions
import TaskMgtApp.Lib.Lockstep
import TaskMgtApp.Auth.Secrecy
import TaskMgtApp.Auth.Mail
import TaskMgtApp.App.Model
import TaskMgtApp.App.Authority
import TaskMgtApp.Auth.Isolation
import TaskMgtApp.App.Isolation
import TaskMgtApp.Lib.Rely
import TaskMgtApp.Work.Lingering
import TaskMgtApp.Work.Atomicity
import TaskMgtApp.Work.Outcomes
import TaskMgtApp.Lib.Parts
import TaskMgtApp.Lib.Warrant
import TaskMgtApp.Auth.Warrants
import TaskMgtApp.App.Concurrent
import TaskMgtApp.App.Alone
import TaskMgtApp.App.Origins
import TaskMgtApp.App.Mediation
import TaskMgtApp.App.Changes
