import Lithos.Lpc.MappingSum
import Lithos.Lpc.Save.Malformed
import Lithos.Lpc.Save.ObjectRoundTrip
import Lithos.Lpc.RefCount
import Lithos.Lpc.Division
import Lithos.Lpc.Explode
import Lithos.Lpc.Range
import Lithos.Lpc.Gc
import Lithos.Lpc.Include
import Lithos.Lpc.Fiber
import Lithos.Lpc.Program.Optimizer
import Lithos.Lpc.Program.SwitchTables
import Lithos.Lpc.Program.FunctionCompress
import Lithos.Lpc.Program.BranchTargets
import Lithos.Driver.Outbuf
import Lithos.Misc.Qsort
import Lithos.Misc.Wildcard
import Lithos.Driver.Net.TcpTransport
import Lithos.Async.AsyncQueue
import Lithos.Spatial.Spatial
import Lithos.Driver.Aoi
import Lithos.Driver.Catch
import Lithos.Driver.SafeApply
import Lithos.Driver.ApplyCache
import Lithos.Driver.Inventory
import Lithos.Driver.Telnet
import Lithos.Driver.Resolver
import Lithos.Driver.Snoop
import Lithos.Socket.MudFrame
import Lithos.Socket.SocketClose
import Lithos.Driver.CallOutQueries
import Lithos.Lpc.Otable
import Lithos.Lpc.RepeatString
import Lithos.Driver.Index
import Lithos.Driver.ArgStack
import Lithos.Driver.CallOther
import Lithos.Driver.AsciiPort
import Lithos.Driver.UserOutput
import Lithos.Driver.ConsoleInput
import Lithos.Lpc.Foreach
