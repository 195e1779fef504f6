import MrLib.Core.Failure
import MrLib.Lib.Guarded
import MrLib.Lib.WorkLedger
import MrLib.Lib.LittleEndian
import MrLib.Queue.Linearizable
import MrLib.Protocol.PairStream
import MrLib.Reducer.Grouping
import MrLib.Log.Jobs
import MrLib.Core.Descriptors
import MrLib.Protocol.LineStream
import MrLib.Protocol.ResultStream
import MrLib.Protocol.TornEmit
import MrLib.Protocol.Truncated
import MrLib.Process.MapperPool
import MrLib.Process.Reducer
import MrLib.Protocol.Transfer
import MrLib.Process.Sizes
import MrLib.Queue.Audit
import MrLib.Core.Resources
import MrLib.Core.Children
import MrLib.Process.MapperOutput
import MrLib.Process.ReducerOutput
import MrLib.Process.Received
import MrLib.Protocol.Directory
import MrLib.Pipeline.Main
import MrLib.Pipeline.System
import MrLib.Api
import MrLib.Lib.Pieces
import MrLib.Pipeline.Flow
import MrLib.Pipeline.Output
import MrLib.WordCount.Output
import MrLib.Pipeline.Propagation
import MrLib.Process.Collection
