import Okm.Lib.LexOrder
import Okm.Lib.SortedMap
import Okm.Lib.Overlay
import Okm.Lib.ByteCodec
import Okm.Engine.Storage
import Okm.Wire.Frame
import Okm.Engine.Nest
import Okm.Engine.ScanBounds
import Okm.Engine.RemoteScan
import Okm.Engine.Isolation
import Okm.Model.Slot
import Okm.Model.Vocab
import Okm.Engine.Lawful
import Okm.Model.VocabLog
import Okm.Model.VocabRun
import Okm.Model.Dynamic
import Okm.Model.DynamicInt
import Okm.Model.DynamicRoundTrip
import Okm.Model.Document
import Okm.Model.ScanRange
import Okm.Lib.Run
import Okm.Model.Collection
import Okm.Model.RowWrites
import Okm.Model.SideWrites
import Okm.Model.VerbSteps
import Okm.Model.Ledger
import Okm.Model.Labels
import Okm.Model.Faces
import Okm.Model.FaceRun
import Okm.Lib.Frames
import Okm.Lib.Keyed
import Okm.Lib.Trace
import Okm.Series.Body
import Okm.Series.DirInv
import Okm.Series.Fidelity
import Okm.Series.LogInv
import Okm.Series.LogRead
import Okm.Series.LogReopen
import Okm.Series.Follow
import Okm.Series.Saturation
import Okm.Engine.Answers
import Okm.Engine.LocalStorage
import Okm.Engine.RemoteEnds
import Okm.Lib.BeamSearch
import Okm.Lib.Delimited
import Okm.Model.Fingerprint
import Okm.Model.RuntimeFaces
import Okm.Vector.Hnsw
import Okm.Vector.HnswInv
import Okm.Vector.HnswVerbs
import Okm.Vector.Index
import Okm.Graph.DynEdge
import Okm.Graph.EdgeInv
import Okm.Graph.EdgeReads
import Okm.Graph.Twin
import Okm.Graph.TwinReads
import Okm.Lib.Cursor
import Okm.Vector.LoadBound
import Okm.Vector.Reload
import Okm.Vector.SnapshotTrust
import Okm.Changelog.Bounded
import Okm.Engine.Traffic
import Okm.Model.BatchRuns
import Okm.Model.Schema
import Okm.Model.VarInt
import Okm.Engine.Flaky
import Okm.Graph.AttrScan
import Okm.Model.Bridge
import Okm.Model.BridgeSound
import Okm.Model.Rebuild
import Okm.Model.RebuildSound
import Okm.Model.RebuildRuns
import Okm.Model.EmbedPass
import Okm.Model.EmbedRun
import Okm.Dynamic.Path
import Okm.Engine.SlatedbIter
import Okm.Lib.Grammar
import Okm.Lib.Json
import Okm.Lib.Positions
import Okm.Lib.Union
import Okm.Model.DocumentRun
import Okm.Model.SchemaJson
import Okm.Series.Fault
import Okm.Series.FaultRun
import Okm.Series.Retain
import Okm.Series.TimeOrder
import Okm.Wire.Codec
import Okm.Dynamic.Codec
import Okm.Dynamic.CodecEnds
import Okm.Model.SegmentGrammar
import Okm.Model.SegmentWalk
import Okm.Dynamic.AccessMethod
import Okm.Dynamic.AccessScan
import Okm.Bridge.Iceberg
import Okm.Lib.Hops
import Okm.Lib.Peekable
import Okm.Model.KeyAddress
import Okm.Model.Lengths
import Okm.Model.MetaCodec
import Okm.Query.MergeJoin
import Okm.Query.Walk
import Okm.Model.PayloadCodec
import Okm.Model.PayloadFields
import Okm.Model.PayloadTrip
import Okm.Series.LiveRun
import Okm.Dynamic.Groups
import Okm.Dynamic.Healed
import Okm.Dynamic.Columns
import Okm.Drain.Watermark
