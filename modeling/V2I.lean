import V2I.Utils.FifoBuffer.Cursor
import V2I.Utils.Evloop.Resync
import V2I.Utils.Evloop.ClientWrite
import V2I.Utils.Timer.Refines
import V2I.Utils.Uri.Digest
import V2I.Utils.Uri.Objects
import V2I.Fusion.Fuser.Reports
import V2I.Fusion.Fuser.ObsTraj
import V2I.Fusion.CombineNewResource
import V2I.Fusion.Km.Optimal
import V2I.MapCore.TileCache.Counts
import V2I.Snapshot.Vehicle.Replan
import V2I.Snapshot.FusionImprover.Missing
import V2I.Snapshot.FusionImprover.Lanes
import V2I.Snapshot.VehFrame.Window
import V2I.Snapshot.LightMgr.Board
import V2I.Snapshot.JunctionLists.Kept
import V2I.MapCore.TileMesh.Drawn
import V2I.Indexing.Lifetime
import V2I.Indexing.ForwardToService
import V2I.Indexing.Vehicles
import V2I.Webcore.ZeromqMsg
import V2I.Rpcc.Agreement
import V2I.Utils.Datapool.Shared
import V2I.OsmParser.Planning.RoundTrip
import V2I.Mware.RpcServer.Hosts
import V2I.Mware.RpcServer.Replies
import V2I.Mware.ServiceMgr.Restored
import V2I.Ota.Merge.Delta
import V2I.MapCore.LaneTransitions.Forms
import V2I.MapCore.LaneTransitions.Neighbours
import V2I.Hmm.Curves
import V2I.Hmm.HmmLoc.InRange
import V2I.Hmm.HmmLoc.OwnMap.Separate
import V2I.Snapshot.VssSnapshot
import V2I.MapCore.AdcPoint.Heading
import V2I.MapCore.LaneNetwork
import V2I.MapCore.StoredMap.OneCopy
import V2I.MapCore.TileCache.Roadobjects
import V2I.MapCore.TileCache.RoadHeight
import V2I.MapCore.Hdmap.CentralLines
import V2I.MapCore.Polygons.Intersected
import V2I.MapCore.Sdmap.NearestLinks
import V2I.Rpcc.Typedef
import V2I.Rpcc.ConvertResult
import V2I.OsmParser.Planning.Road
import V2I.OsmParser.Planning.Edges
import V2I.OsmParser.Planning.Dijgraph.Shortest
import V2I.OsmParser.Levels.Allowed
import V2I.Rpcc.Lexer.Cuts
import V2I.Rpcc.Imports.Once
import V2I.Utils.Listnode
import V2I.Mware.Version
import V2I.Utils.AsyncEvent
import V2I.Ota.CompressPackage
import V2I.Mware.RpcObservable.Transport
import V2I.Ota.OtaPackage
import V2I.Utils.Evpoller.Exchange
import V2I.Utils.Evloop.Delivery
