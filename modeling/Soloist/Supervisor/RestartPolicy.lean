import Soloist.Ids
import Soloist.Slots

/-! The crash auto-restart policy: a sliding window of recent restarts per process and a shutdown
latch. -/
namespace Soloist

/-- A monotonic clock reading in nanoseconds. -/
abbrev Instant := Nat

def maxRestarts : Nat := 10

/-- `WINDOW`, over which automatic restarts are counted. -/
def restartWindow : Nat := 60 * 1000000000

inductive RestartDecision
  | restart (attempt : Nat)
  | exhaust
  deriving DecidableEq, Repr

inductive RestartOutcome
  | notEligible
  | restarted (attempt : Nat)
  | exhausted
  deriving DecidableEq, Repr

/-- Recent automatic restarts, oldest first. -/
abbrev RestartWindow := List Instant

def RestartWindow.onCrash (w : RestartWindow) (now : Instant) : RestartWindow × RestartDecision :=
  let kept := if restartWindow ≤ now then w.dropWhile (· < now - restartWindow) else w
  if maxRestarts ≤ kept.length then (kept, .exhaust)
  else (kept ++ [now], .restart (kept.length + 1))

structure RestartPolicy where
  windows : Slots ProcessId RestartWindow
  shuttingDown : Bool

namespace RestartPolicy

def new : RestartPolicy := ⟨Slots.empty, false⟩

def onCrash (p : RestartPolicy) (id : ProcessId) (now : Instant) :
    RestartPolicy × RestartDecision :=
  let decided := RestartWindow.onCrash ((p.windows id).getD []) now
  ({ p with windows := p.windows.put id decided.1 }, decided.2)

def forget (p : RestartPolicy) (id : ProcessId) : RestartPolicy :=
  { p with windows := p.windows.erase id }

def beginShutdown (p : RestartPolicy) : RestartPolicy := { p with shuttingDown := true }

end RestartPolicy
end Soloist
