import FabricRs.Lib.Wire
import FabricRs.Lib.Lts
import FabricRs.Lib.Mailbox
import FabricRs.Lib.MailboxProofs
import FabricRs.Lib.Liveness
import FabricRs.Lib.MailboxLive
import FabricRs.Lib.Schedule
import FabricRs.Lib.Walks
import FabricRs.Lib.Text
import FabricRs.Basic
import FabricRs.Display
import FabricRs.Startup
import FabricRs.Lib.Lpm
import FabricRs.State.Tables
import FabricRs.State.Contract
import FabricRs.State.Actor
import FabricRs.State.Linearizable
import FabricRs.State.Progress
import FabricRs.State.Refused
import FabricRs.State.Listing
import FabricRs.Lib.Records
import FabricRs.Packets
import FabricRs.Disco.RouteHdrs
import FabricRs.Disco.Display
import FabricRs.UserSpace.Handler
import FabricRs.Disco.RoundTrip
import FabricRs.UserSpace.Atomicity
import FabricRs.UserSpace.Receiver
import FabricRs.UserSpace.Discovery
import FabricRs.UserSpace.Heard
import FabricRs.Ebpf.Xdp
import FabricRs.Ebpf.Lookup
import FabricRs.Lib.Memory
import FabricRs.Ebpf.Access
import FabricRs.SendReceive.Client
import FabricRs.SendReceive.Sender
import FabricRs.SendReceive.Pipeline
import FabricRs.SendReceive.Relay
import FabricRs.Network.Tasks
import FabricRs.Network.Workers
import FabricRs.Network.Forwarding
import FabricRs.Network.Delivery
import FabricRs.Network.Liveness
import FabricRs.Network.Hellos
import FabricRs.Fabric.Nodes
import FabricRs.Fabric.Convergence
import FabricRs.Fabric.Paths
import FabricRs.Cli.Prompt
import FabricRs.Cli.Neighbors
