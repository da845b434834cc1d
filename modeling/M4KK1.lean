import M4KK1.Lib.CheckedArray
import M4KK1.Yafs.Btree
import M4KK1.Yafs.TreeInvariant
import M4KK1.Yafs.Insert
import M4KK1.Yafs.LookupDelete
import M4KK1.Lib.Run
import M4KK1.Yafs.BtreeRuns
import M4KK1.Lib.RingBuffer
import M4KK1.Copland.Events
import M4KK1.Mm.PageRuns
import M4KK1.Mm.HeapRuns
import M4KK1.Kernel.NoneLost
import M4KK1.Kernel.QueueSound
import M4KK1.Vfs.TreeShape
import M4KK1.Vfs.Atomic
import M4KK1.Vfs.Files
import M4KK1.Copland.MessageRing
import M4KK1.Copland.Codec
import M4KK1.Copland.Isolation
import M4KK1.Copland.BlitBounds
import M4KK1.Copland.Dispatch
import M4KK1.Vfs.PipeFifo
import M4KK1.Vfs.PipeLifetime
import M4KK1.Vfs.Numbers
import M4KK1.Vfs.Protected
import M4KK1.Timer.Alarms
import M4KK1.Kernel.Execve
import M4KK1.Kernel.TimerWaiters
import M4KK1.Kernel.StoppedProcesses
import M4KK1.Kernel.ZombieCount
import M4KK1.Kernel.ExitStatus
import M4KK1.Mm.Seeding
import M4KK1.Copland.Commits
import M4KK1.Copland.ObjectTables
import M4KK1.Vfs.Collisions
import M4KK1.Libc.Qsort
import M4KK1.Libc.ReallocContents
import M4KK1.Net.SendStream
import M4KK1.Net.Frames
import M4KK1.Net.Checksum
import M4KK1.Net.ReceiveStream
import M4KK1.Pcc.ExpressionCorrect
import M4KK1.Kernel.Identity
import M4KK1.Shell.Lists
import M4KK1.Terminal.GridBounds
import M4KK1.Terminal.Sgr
import M4KK1.Shell.RestoredIff
import M4KK1.Copland.Reaping
import M4KK1.Copland.Turnover
import M4KK1.Shell.Passwd
import M4KK1.Shell.PasswordVerify
import M4KK1.Shell.PasswdGrammar
import M4KK1.Shell.Groups
import M4KK1.Copland.CompositeAgree
import M4KK1.Regex.Search
import M4KK1.Vfs.Resolution
import M4KK1.Vfs.Readdir
import M4KK1.Yafs.FreeSpace
import M4KK1.Vfs.NewFile
import M4KK1.Vfs.Truncation
import M4KK1.Vfs.EndOfFile
import M4KK1.Net.ResponseBody
import M4KK1.Terminal.Shown
import M4KK1.Vfs.PipeCreation
import M4KK1.Vfs.RamfsContents
import M4KK1.Mm.Accounting
import M4KK1.Kernel.Harvest
import M4KK1.Kernel.ForkOutcome
import M4KK1.Kernel.ExecFailure
import M4KK1.Kernel.Chdir
import M4KK1.Kernel.Clock
import M4KK1.Kernel.NumberParsing
import M4KK1.Kernel.NamespaceResolve
import M4KK1.Devfs.Partitions
import M4KK1.Devfs.Privilege
import M4KK1.Procfs.Describes
import M4KK1.Procfs.Bounds
import M4KK1.Copland.Resync
import M4KK1.Copland.Regions
import M4KK1.Copland.CallbackRuns
import M4KK1.Copland.HostileConn
import M4KK1.Calc.Division
import M4KK1.Calc.Expressions
import M4KK1.Calc.Returns
import M4KK1.Calc.Trees
import M4KK1.Date.Calendar
import M4KK1.Libc.Memmove
import M4KK1.Copland.Slots
import M4KK1.Libc.Printf
import M4KK1.Shell.Quoting
