import DBMesh.Pool.ConnectionPool
import DBMesh.Pool.Invariant
import DBMesh.Pool.Capacity
import DBMesh.Pool.Drain
import DBMesh.Lib.Chunk
import DBMesh.Lib.Loop
import DBMesh.Protocol.Codec
import DBMesh.Protocol.PacketFramer
import DBMesh.Protocol.Framing
import DBMesh.Protocol.Packets
import DBMesh.Protocol.ProxyResult
import DBMesh.Core.Types
import DBMesh.Routing.QueryClassifier
import DBMesh.Routing.Lexing
import DBMesh.Routing.ReadWriteRouter
import DBMesh.Routing.Pieces
import DBMesh.Routing.Cte
import DBMesh.Protocol.Session
import DBMesh.Protocol.Acknowledged
import DBMesh.Protocol.Transaction
import DBMesh.Core.Config
import DBMesh.Pool.Waiting
import DBMesh.Routing.BackendRegistry
import DBMesh.Routing.RoutingPolicies
import DBMesh.Routing.BackendSelector
import DBMesh.Lib.Rounds
import DBMesh.Routing.RoundRobin
import DBMesh.Routing.SchemaExtractor
import DBMesh.Routing.SchemaRegistry
import DBMesh.Routing.RoutingEngine
import DBMesh.Routing.SchemaScan
import DBMesh.Routing.CommentBlind
import DBMesh.Routing.CommentedSchema
import DBMesh.Routing.CommentedStatements
import DBMesh.Protocol.PayloadReader
import DBMesh.Protocol.Handshake
import DBMesh.Pool.Calls
import DBMesh.Protocol.RouteAndForward
import DBMesh.Protocol.Checkout
import DBMesh.Pool.HandOver
import DBMesh.Pool.IdleReaper
import DBMesh.Protocol.HandshakeV10
import DBMesh.Core.ConfigLoader
import DBMesh.Lib.Emplace
import DBMesh.Core.Application
import DBMesh.Lib.RefCount
import DBMesh.Routing.RcuRegistry
import DBMesh.Routing.PlanReads
import DBMesh.Protocol.Progress
import DBMesh.Protocol.ComQuery
import DBMesh.Protocol.SequenceIds
import DBMesh.Routing.Stripping
import DBMesh.Routing.LetterCase
import DBMesh.Routing.WholeWords
import DBMesh.Routing.QuotedText
import DBMesh.Routing.MySqlComments
import DBMesh.Routing.TableReferences
import DBMesh.Protocol.HandshakeResponse
import DBMesh.Protocol.HandshakeBounds
import DBMesh.Routing.FailoverOrder
import DBMesh.Routing.PolicyChoice
import DBMesh.Routing.QuotedNames
import DBMesh.Routing.ReplicaLag
import DBMesh.Core.ConfigFile
import DBMesh.Protocol.SessionVariables
import DBMesh.Core.LogFormat
import DBMesh.Core.LogDispatcher
import DBMesh.Core.RotatingFile
import DBMesh.Protocol.BackendConnector
import DBMesh.Protocol.Frontend
import DBMesh.Pool.Fairness
import DBMesh.Pool.Managed
import DBMesh.Routing.Linearizable
import DBMesh.Core.Lifecycle
import DBMesh.Pool.Lives
import DBMesh.Protocol.Isolation
import DBMesh.Routing.Selecting
import DBMesh.Routing.SelectorTurns
import DBMesh.Routing.Columns
