import Soloist.Doc.LostUpdate
import Soloist.Todo.Completion
import Soloist.Supervisor.Monitoring
import Soloist.Supervisor.RestartDelivered
import Soloist.Mailbox.Retention
import Soloist.Mailbox.Broadcast
import Soloist.Todo.Transfer
import Soloist.Mailbox.Notices
import Soloist.Supervisor.CrashWindow
import Soloist.Process.WorkingDir
import Soloist.Config.CommandRuns
import Soloist.Template.Render
import Soloist.Template.Coherence
import Soloist.Config.Comments
import Soloist.Projects.Reload
import Soloist.Projects.Order
import Soloist.Projects.Removals
import Soloist.Timer.Agreement
import Soloist.Timer.Pausing
import Soloist.Watch.Prefix
import Soloist.Watch.Honesty
import Soloist.Trust.Decisions
import Soloist.Todo.Association
import Soloist.Terminal.Renderer
import Soloist.Terminal.Notification
import Soloist.Git.StatusReport
import Soloist.Support.IntegrationFile
import Soloist.Settings.ThemeLibrary
import Soloist.Agents.Tool
import Soloist.Agents.Activity
import Soloist.Agents.Sampling
import Soloist.Ipc.Frame
import Soloist.Git.CommitPrompt
import Soloist.Git.Freshness
import Soloist.Supervisor.ShutdownDrains
import Soloist.Supervisor.Leftovers
import Soloist.Supervisor.OrphanRuns
import Soloist.Git.Remembered
import Soloist.Facade.Delegation
import Soloist.Facade.SpawnRuns
import Soloist.Ui.Orchestration
import Soloist.Ui.AppearanceQueue
import Soloist.Ui.ChangesTree
import Soloist.Ui.DiagramTheme
import Soloist.Ui.TerminalPool
import Soloist.Mcp.Client
import Soloist.Exec.Containment
import Soloist.Exec.Watching
import Soloist.Doc.TableRevisions
import Soloist.Ui.DocumentGuards
import Soloist.Notify.Unread
import Soloist.Notify.CrashHealing
