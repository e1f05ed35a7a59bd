import Sydn.Found.Interaction
import Sydn.Found.History
import Sydn.Found.CString
import Sydn.Found.Ownership
import Sydn.Found.Partial
import Sydn.Found.Inclusion
import Sydn.Found.Likeness
import Sydn.Found.Threads
import Sydn.Found.Transition
import Sydn.Found.Chain
import Sydn.Found.DottedDecimal
import Sydn.Found.Objects
import Sydn.Found.Shared
import Sydn.Mem.Heap
import Sydn.Mem.Sdo
import Sydn.Mem.Owned
import Sydn.Mem.Refinement
import Sydn.Mem.Simulation
import Sydn.Mem.Account
import Sydn.Mem.Copies
import Sydn.Mem.DynamicArray
import Sydn.Net.Kernel
import Sydn.Net.Address
import Sydn.Net.Bodies
import Sydn.Net.ConnectedSocket
import Sydn.Net.ListenSocket
import Sydn.Net.PosixSocketBuffer
import Sydn.Net.Descriptors
import Sydn.Net.Programs
import Sydn.Net.Effects
import Sydn.Net.Accepting
import Sydn.Net.Lengths
import Sydn.Net.Connecting
import Sydn.Net.PeerAddress
import Sydn.Net.FailedAccept
import Sydn.Net.Filling
import Sydn.Net.LocalAddress
import Sydn.Net.BoundAddress
import Sydn.Net.Printing
import Sydn.Net.AddressObjects
import Sydn.Net.AddressMembers
import Sydn.Net.Accounts
import Sydn.Net.Streams
import Sydn.Net.Status
import Sydn.Net.Transfers
import Sydn.Net.AddressInfoList
import Sydn.Net.Lookups
import Sydn.Net.SharedLists
import Sydn.Net.Ipv4Address
import Sydn.Net.Ipv4Text
import Sydn.Net.UnixAddress
import Sydn.Net.UnixObjects
import Sydn.Examples.EchoServer
import Sydn.Examples.Server
import Sydn.Examples.Isolation
import Sydn.Examples.ServerAccount
import Sydn.Examples.Sessions
import Sydn.Examples.Turns
import Sydn.Examples.OpenDescriptors
import Sydn.Examples.Survival
import Sydn.Examples.Output
