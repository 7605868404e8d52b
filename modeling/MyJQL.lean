import MyJQL.Library.Program
import MyJQL.Library.Linked
import MyJQL.Storage.PageMap
import MyJQL.Storage.HashMap
import MyJQL.Storage.HashMapShape
import MyJQL.Storage.HashMapItems
import MyJQL.Storage.HashMapSpec
import MyJQL.Storage.HashMapRuns
import MyJQL.Storage.BufferPool
import MyJQL.Storage.BufferPoolSim
import MyJQL.Storage.BufferPoolRuns
import MyJQL.Storage.PoolPrograms
import MyJQL.Storage.HashMapPool
import MyJQL.Storage.Block
import MyJQL.Storage.BlockItems
import MyJQL.Storage.BlockSpec
import MyJQL.Library.Signature
import MyJQL.Storage.Table
import MyJQL.Storage.TableSpec
import MyJQL.Storage.TableRuns
import MyJQL.Storage.HashMapPages
import MyJQL.Storage.TableHeap
import MyJQL.Strings.Str
import MyJQL.Strings.ChunkSpec
import MyJQL.Strings.StringSpec
import MyJQL.Strings.StringRuns
import MyJQL.Engine.RecordSpec
import MyJQL.Engine.RecordRuns
import MyJQL.Server.Wire
import MyJQL.Server.Disconnect
import MyJQL.Server.BrokenRequest
import MyJQL.Library.Duplex
import MyJQL.Server.Client
import MyJQL.Server.Shutdown
import MyJQL.Server.ClientSpec
import MyJQL.Index.Node
import MyJQL.Index.NodeSpec
import MyJQL.Index.BTree
import MyJQL.Index.Layout
import MyJQL.Index.TreeLogic
import MyJQL.Index.SearchSpec
import MyJQL.Index.InsertSpec
import MyJQL.Storage.BlockRuns
import MyJQL.Storage.BufferPoolMisses
import MyJQL.Index.Family
import MyJQL.Server.HostileLengths
import MyJQL.Index.DeleteSpec
import MyJQL.Index.TreeSpec
import MyJQL.Index.TreeRuns
import MyJQL.Index.TreePages
import MyJQL.Index.AbsentDelete
import MyJQL.Index.SplitRuns
import MyJQL.Index.RepairRuns
import MyJQL.Engine.EngineRuns
import MyJQL.Engine.LiveItems
import MyJQL.Library.CriticalSection
import MyJQL.System.ClientRuns
import MyJQL.System.Shell
import MyJQL.System.ShellRuns
import MyJQL.Index.TreeCost
import MyJQL.Index.TreePool
import MyJQL.Engine.EnginePool
import MyJQL.Engine.ReadOnly
import MyJQL.Index.FileSize
