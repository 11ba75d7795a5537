import Psmq.Lib.Prog
import Psmq.Lib.CMem
import Psmq.Lib.Lts
import Psmq.Lib.Protocol
import Psmq.Lib.PrioQueue
import Psmq.Lib.Channel
import Psmq.Lib.Relay
import Psmq.Lib.Tokens
import Psmq.Lib.LinkedList
import Psmq.Lib.Text
import Psmq.Lib.CInt
import Psmq.Lib.Numerals
import Psmq.Lib.PubSub
import Psmq.Msg
import Psmq.Utils
import Psmq.Topic
import Psmq.Topic.Parts
import Psmq.Topic.Nodes
import Psmq.Broker
import Psmq.Broker.Reply
import Psmq.Broker.Handlers
import Psmq.Broker.Run
import Psmq.Broker.Bounds
import Psmq.Broker.Slots
import Psmq.Broker.Fresh
import Psmq.Broker.Requests
import Psmq.Broker.Publish
import Psmq.Broker.Matching
import Psmq.Broker.Subscriptions
import Psmq.Broker.Misses
import Psmq.Broker.Isolation
import Psmq.Broker.Losses
import Psmq.Broker.Grammar
import Psmq.Broker.Evictions
import Psmq.Lib.Lockstep
import Psmq.Lib.Heaps
import Psmq.Topic.Frames
import Psmq.Broker.Heap
import Psmq.Broker.Refinement
import Psmq.Broker.Memory
import Psmq.Cfg
import Psmq.Daemon
import Psmq.Daemon.Sessions
import Psmq.Daemon.Waiting
import Psmq.Library
import Psmq.Utils.Deadlines
import Psmq.Library.Handles
import Psmq.Descriptors
import Psmq.Library.Descriptors
import Psmq.Sub
import Psmq.Sub.Startup
import Psmq.Wire
import Psmq.Sub.Receiving
import Psmq.Broker.Service
import Psmq.Library.Numbers
import Psmq.Library.Opening
import Psmq.Pub
import Psmq.Pub.Lines
import Psmq.Pub.Indices
import Psmq.Pub.Binary
import Psmq.System
import Psmq.System.Turns
import Psmq.System.Clients
import Psmq.Sub.Program
import Psmq.Pub.Program
import Psmq.Pub.Printing
import Psmq.System.Slots
import Psmq.Daemon.Descriptors
import Psmq.System.Accounts
import Psmq.System.Ownership
import Psmq.System.Descriptors
import Psmq.System.Connecting
import Psmq.System.Wiring
import Psmq.System.Traffic
import Psmq.System.Atomicity
import Psmq.System.Contents
import Psmq.System.Mail
import Psmq.System.Order
import Psmq.System.Late
import Psmq.System.Evictions
import Psmq.System.Delivery
import Psmq.System.Names
import Psmq.System.Undoing
