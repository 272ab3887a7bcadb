import InstantMirror.Lib.Bytes
import InstantMirror.Lib.Path
import InstantMirror.Lib.Recv
import InstantMirror.Lib.Decimal
import InstantMirror.Lib.Calendar
import InstantMirror.Lib.Collapse
import InstantMirror.Lib.Html
import InstantMirror.Lib.Acyclic
import InstantMirror.Lib.Run
import InstantMirror.Lib.Search
import InstantMirror.Lib.Halving
import InstantMirror.Lib.HttpMessage
import InstantMirror.Lib.Segments
import InstantMirror.Lib.Sha1
import InstantMirror.Torrent
import InstantMirror.TorrentStatus
import InstantMirror.FailedMigration
import InstantMirror.TorrentIndex
import InstantMirror.Rendering
import InstantMirror.Disk
import InstantMirror.Symlink
import InstantMirror.GetTorrent
import InstantMirror.CallChain
import InstantMirror.Request
import InstantMirror.Route
import InstantMirror.Main
import InstantMirror.CallRule
import InstantMirror.History
import InstantMirror.Cache
import InstantMirror.Representation
import InstantMirror.Reply
import InstantMirror.Indices
import InstantMirror.Effects
import InstantMirror.Intact
import InstantMirror.Leak
import InstantMirror.Lighttpd.Plugin
import InstantMirror.Wire
import InstantMirror.Lighttpd.Buffer
import InstantMirror.Lighttpd.Response
import InstantMirror.SecondPass
import InstantMirror.Lighttpd.Connection
import InstantMirror.Lighttpd.ReadQueue
import InstantMirror.Lighttpd.Framing
import InstantMirror.Lighttpd.WriteQueue
import InstantMirror.Lighttpd.Range
import InstantMirror.Lighttpd.Array
import InstantMirror.Lighttpd.HttpChunk
import InstantMirror.Lighttpd.Answer
import InstantMirror.Lighttpd.AnswerFraming
import InstantMirror.Lighttpd.StaticFile
import InstantMirror.OneRewrite
import InstantMirror.Sockets
import InstantMirror.Readers
import InstantMirror.IndexRows
import InstantMirror.IndexLinks
import InstantMirror.RowText
import InstantMirror.LinkWalk
import InstantMirror.Resolution
import InstantMirror.Chain
import InstantMirror.Confined
import InstantMirror.Survival
import InstantMirror.Libtorrent.Bencode
import InstantMirror.Libtorrent.LazyEntry
import InstantMirror.Libtorrent.Codec
import InstantMirror.Libtorrent.TorrentInfo
import InstantMirror.Libtorrent.CreateTorrent
import InstantMirror.Libtorrent.Metainfo
import InstantMirror.Libtorrent.MakeTorrent
import InstantMirror.Libtorrent.Scan
import InstantMirror.Libtorrent.PiecePicker
import InstantMirror.Libtorrent.TorrentState
import InstantMirror.Libtorrent.TorrentInvariant
import InstantMirror.DownloadWait
import InstantMirror.Libtorrent.FileStorage
import InstantMirror.Libtorrent.Storage
import InstantMirror.Libtorrent.Hasher
import InstantMirror.Libtorrent.PieceManager
import InstantMirror.Download
import InstantMirror.Mirror
import InstantMirror.RoundTrip
import InstantMirror.Im0.Checks
import InstantMirror.Im0.MiniHttpd
import InstantMirror.Im0.FreshFile
import InstantMirror.Im0.GetTorrent
import InstantMirror.Im0.OpenedFile
