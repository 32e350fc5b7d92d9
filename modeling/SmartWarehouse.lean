import SmartWarehouse.Server.Interlock
import SmartWarehouse.Server.Concurrency
import SmartWarehouse.Server.Telemetry
import SmartWarehouse.Server.LastCommand
import SmartWarehouse.Server.PortServer
import SmartWarehouse.Server.Position
import SmartWarehouse.Server.ExactValues
import SmartWarehouse.Server.Posts
import SmartWarehouse.Kbase.Delivery
import SmartWarehouse.Kbase.StateStore
import SmartWarehouse.Kbase.NestedStates
import SmartWarehouse.Kbase.RtxMirror
import SmartWarehouse.Kbase.Ask
import SmartWarehouse.Kbase.LeastModel
import SmartWarehouse.Kbase.ForwardOnce
import SmartWarehouse.Kbase.BackwardGuards
import SmartWarehouse.Kbase.BackwardComplete
import SmartWarehouse.Kbase.BackwardLoops
import SmartWarehouse.Kbase.PlannerSound
import SmartWarehouse.Kbase.PlannerFinite
import SmartWarehouse.Kbase.SequentialSound
import SmartWarehouse.Kbase.PlannerLoops
import SmartWarehouse.Kbase.FactPlanner
import SmartWarehouse.Kbase.Spellings
import SmartWarehouse.Kbase.SpellingsAgree
import SmartWarehouse.Kbase.MixedUpdates
import SmartWarehouse.Kbase.RepeatedNames
import SmartWarehouse.Kbase.ScratchFrame
import SmartWarehouse.Kbase.ScratchPlanner
import SmartWarehouse.Server.Payload
import SmartWarehouse.Server.Presence
import SmartWarehouse.Kbase.PreConditions
import SmartWarehouse.Server.MqttClient
import SmartWarehouse.Lib.Skeleton
import SmartWarehouse.Kbase.GenericTerms
import SmartWarehouse.Kbase.ContradictoryStates
import SmartWarehouse.Kbase.ClientCreation
import SmartWarehouse.Kbase.PlannerComplete
import SmartWarehouse.Kbase.EnginesAgree
import SmartWarehouse.Kbase.CommandsArrive
import SmartWarehouse.Server.Chunks
import SmartWarehouse.Server.MovingAxes
import SmartWarehouse.Server.Requests
import SmartWarehouse.Server.Startup
import SmartWarehouse.Server.Heartbeat
import SmartWarehouse.Server.MessageContexts
import SmartWarehouse.Lib.Framing
import SmartWarehouse.Server.HttpParse
import SmartWarehouse.Server.HttpStream
import SmartWarehouse.Server.HttpRequests
import SmartWarehouse.Server.RequestStreams
import SmartWarehouse.Kbase.Rounds
import SmartWarehouse.Kbase.SequentialComplete
import SmartWarehouse.Kbase.ClosedLoop
import SmartWarehouse.Kbase.StateHistory
import SmartWarehouse.Server.FileConnection
