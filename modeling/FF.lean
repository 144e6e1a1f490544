import FF.Rbtree.SiblingRun
import FF.Ring.Sequential
import FF.Ring.Concurrent
import FF.Ring.Ringbuf
import FF.Json.Literals
import FF.Conf.Balance
import FF.Http.Filters
import FF.Path.Bounds
import FF.Path.Relative
import FF.Path.Lexical
import FF.Url.Decode
import FF.Url.Components
import FF.Dns.Question
import FF.Dns.Ledger
import FF.Websocket.Messages
import FF.Tls.Safe
import FF.Http.Lines
import FF.Tar.RoundTrip
import FF.Ogg.Stream
import FF.Gz.Fragments
import FF.Taskqueue
import FF.Timer
import FF.Icy.Meta
import FF.Mp4.SeekTable
import FF.Fileread.Cache
import FF.Adts.Stream
import FF.Cue
import FF.Pcm.Mono
import FF.Pcm.Seek
import FF.Mtags.Apetag
import FF.Mtags.VorbistagCook
import FF.Flac.Meta
import FF.Pic.BmpFile
import FF.Str.Escape
import FF.Str.RegexRun
import FF.Pack.SevenZip
import FF.Pack.Xz
import FF.Http.ChunkSize
import FF.Conf.Comments
import FF.Mkv.Vorbis
import FF.Str.Wildcard
import FF.Utf8.Encode
import FF.Playlist.M3uRoundTrip
import FF.Time.StrRoundTrip
import FF.Ffbuf.Add
import FF.Str.Crop
import FF.Http.Range
import FF.Ffarr.Elems
import FF.Ffbuf.Gather
import FF.Str.Find
import FF.Str.Vercmp
import FF.Str.Sorted
import FF.Path.Compare
import FF.Dns.ServAdd
import FF.Conf.Required
import FF.Conf.Intval
import FF.Net.IpSplit
import FF.Rbtree.Walk
