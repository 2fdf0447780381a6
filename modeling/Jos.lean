import Jos.Kern.Frames
import Jos.Fs.OpenIds
import Jos.Fs.ServeAgree
import Jos.Fs.ServeAlive
import Jos.Kern.EnvIds
import Jos.Kern.FreeList
import Jos.Kern.SchedOrder
import Jos.Kern.Cputs
import Jos.Kern.Tlb
import Jos.Kern.Detect
import Jos.User.Utf
import Jos.User.PipeCount
import Jos.Kern.StabBounds
import Jos.Kern.Mmio
import Jos.User.MallocPlaces
import Jos.User.Dup
import Jos.User.ForkFail
import Jos.User.InitStack
import Jos.User.Runcmd
import Jos.User.PrintfmtScan
import Jos.User.Printnum
import Jos.Kern.Console
import Jos.Kern.Time
import Jos.Kern.Mpconfig
import Jos.User.Memmove
import Jos.User.Printf
import Jos.User.Httpd
import Jos.Net.Pools
import Jos.Net.Mbox
import Jos.Net.Serv
import Jos.Kern.Spinlock
