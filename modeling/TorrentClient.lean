import TorrentClient.AnyOrder
import TorrentClient.BitBounds
import TorrentClient.BufferBounds
import TorrentClient.Client
import TorrentClient.CompactBounds
import TorrentClient.Confinement
import TorrentClient.Delivery
import TorrentClient.DiskSwarm
import TorrentClient.Download
import TorrentClient.DownloadManager
import TorrentClient.MessageFrames
import TorrentClient.PieceAgreement
import TorrentClient.PieceSafety
import TorrentClient.ReadBack
import TorrentClient.SearchEnds
import TorrentClient.Starvation
import TorrentClient.TorrentReading
import TorrentClient.TrackerEvents
import TorrentClient.Unregistered
