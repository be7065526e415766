import SysProg.StackWakeups
import SysProg.StackInit
import SysProg.Tellers
import SysProg.Movers
import SysProg.ProcMutex
import SysProg.ConvertEnds
import SysProg.IndexedLookup
import SysProg.Interchange
import SysProg.RoundTrip
import SysProg.ShmAnswers
import SysProg.Lifetime
import SysProg.Reap
import SysProg.ReapSettles
import SysProg.Malformed
import SysProg.Redirections
import SysProg.Sock
import SysProg.Fifo
import SysProg.MsgqDeadlock
import SysProg.Udp
import SysProg.SorterKeeps
import SysProg.MainLoop
import SysProg.Foreground
import SysProg.Prompt
import SysProg.LostServer
import SysProg.Attach
import SysProg.Dialogue
import SysProg.Parse
import SysProg.Release
import SysProg.RedirectVersions
import SysProg.Background
import SysProg.Builtins
import SysProg.Parallel
import SysProg.Dataflow
import SysProg.Counter
import SysProg.Tasks
import SysProg.ReadersWriters
import SysProg.ProcRw
import SysProg.AcceptAnswers
import SysProg.Output
import SysProg.Session
import SysProg.Environ
