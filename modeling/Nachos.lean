import Nachos.Userprog.Join
import Nachos.Userprog.Deadlock
import Nachos.Userprog.Fairness
import Nachos.Userprog.SwapFiles
import Nachos.Userprog.UserState
import Nachos.Userprog.Fifo
import Nachos.Userprog.Reload
import Nachos.Userprog.Isolation
import Nachos.Userprog.ExecCall
import Nachos.Userprog.UserCode
import Nachos.Userprog.Virtual
import Nachos.Userprog.ConsoleTest
import Nachos.Machine.Restart
import Nachos.Machine.Safety
import Nachos.Machine.Multiply
import Nachos.Machine.Alu
import Nachos.Machine.Coherence
import Nachos.Machine.Interrupt
import Nachos.Machine.Console
import Nachos.Machine.Latency
import Nachos.Machine.Timer
import Nachos.Threads.Semaphores
import Nachos.Filesys.SynchDisk
import Nachos.Network.Delivery
import Nachos.Network.MailTest
import Nachos.Filesys.Handles
import Nachos.Filesys.Bounds
import Nachos.Filesys.Create
import Nachos.Filesys.Fstest
import Nachos.Threads.Reaping
import Nachos.Threads.Queue
import Nachos.Threads.Context
import Nachos.Userprog.ActiveThreads
import Nachos.Userprog.Resolved
import Nachos.Userprog.Taken
import Nachos.Userprog.CopyBounds
import Nachos.Userprog.LoadSlot
import Nachos.Userprog.BitSet
import Nachos.Bin.Conversion
