import LibShare.Base
import LibShare.Lib.Buckets
import LibShare.Mem.Map
import LibShare.Lib.Circular
import LibShare.Mem.MapRefine
import LibShare.Sys.Msg
import LibShare.Sys.MsgFifo
import LibShare.Sys.MsgRoom
import LibShare.Mem.Crypto
import LibShare.Net.Esl
import LibShare.Net.EslStream
import LibShare.Fs.Inode
import LibShare.Lib.Chain
import LibShare.Fs.Alloc
import LibShare.Fs.Content
import LibShare.Fs.Write
import LibShare.Fs.Roundtrip
import LibShare.Fs.Links
import LibShare.Fs.Shrink
import LibShare.Fs.Runs
import LibShare.Fs.Clear
import LibShare.Fs.File
import LibShare.Fs.Resize
import LibShare.Fs.FileRuns
import LibShare.Fs.FileResize
import LibShare.Lib.Memory
import LibShare.Lib.Prog
import LibShare.Shz.Page
import LibShare.Shz.Archive
import LibShare.Shz.Invariant
import LibShare.Shz.Steps
import LibShare.Shz.Open
import LibShare.Shz.Members
import LibShare.Shz.Reopen
import LibShare.Shz.Sessions
import LibShare.Mem.Pool
import LibShare.Lib.Blocks
import LibShare.Mem.Alg
import LibShare.Mem.Encrypt
import LibShare.Sys.Auth
import LibShare.Sys.Shadow
import LibShare.Sys.Accounts
import LibShare.Fs.Rev
import LibShare.Fs.RevHistory
import LibShare.Fs.RevChain
import LibShare.Sys.MsgFailed
import LibShare.Sys.MsgPeers
import LibShare.Net.EslAuth
import LibShare.Net.EslTable
import LibShare.Net.EslKeys
import LibShare.Lib.Transfer
import LibShare.Sys.Proc
import LibShare.Sys.ProcPairs
import LibShare.Fs.Handles
import LibShare.Fs.Clients
import LibShare.Fs.Names
import LibShare.Shz.Content
import LibShare.Shz.Index
import LibShare.Lib.Probe
import LibShare.Shz.Table
import LibShare.Shz.FileTable
import LibShare.Mem.Lock
import LibShare.Sys.Records
import LibShare.Sys.Passwords
import LibShare.Fs.Stream
import LibShare.Fs.StreamRuns
import LibShare.Fs.Listing
import LibShare.Fs.FileRemove
import LibShare.Fs.Entries
import LibShare.Fs.Unlink
import LibShare.Fs.Attr
import LibShare.Fs.Locks
import LibShare.Fs.Roots
import LibShare.Mem.MapPrint
import LibShare.Fs.Entity
import LibShare.Fs.Objects
import LibShare.Fs.Refs
import LibShare.Shz.Others
import LibShare.Lib.Walk
import LibShare.Fs.Growth
import LibShare.Fs.Pread
import LibShare.Shz.Checksum
import LibShare.Shz.Untrusted
import LibShare.Shz.TreeAdd
import LibShare.Mem.KeyText
import LibShare.Mem.KeyShr160
import LibShare.Mem.KeyNum
import LibShare.Fs.Pipe
import LibShare.Fs.JournalMap
import LibShare.Fs.JournalCache
import LibShare.Fs.StreamTruncate
import LibShare.Net.EslReturn
import LibShare.Mem.Codec
import LibShare.Mem.DecodeBounds
import LibShare.Mem.Base64
import LibShare.Mem.Shr56
import LibShare.Mem.TextCodec
import LibShare.Mem.AlgSha
import LibShare.Mem.Shrink
import LibShare.Mem.Shcr224
import LibShare.Sys.Pins
import LibShare.Sys.Esig
import LibShare.Sys.EsigVerify
import LibShare.Sys.EsigFailed
import LibShare.Sys.Geo
import LibShare.Mem.Tree
import LibShare.Mem.Crc
import LibShare.Mem.MapAttr
import LibShare.Mem.MapIter
import LibShare.Mem.MapLoad
import LibShare.Lib.Links
import LibShare.Lib.Runs
import LibShare.Lib.Keyed
import LibShare.Mem.BufKinds
import LibShare.Mem.BufPos
import LibShare.Mem.Json
import LibShare.Lib.Reader
import LibShare.Sexe.Module
import LibShare.Sexe.Undump
import LibShare.Sexe.Reads
import LibShare.Sexe.RoundTrip
import LibShare.Mem.MapMask
import LibShare.Shz.PageBounds
import LibShare.Net.PeerText
import LibShare.Sexe.Scan
import LibShare.Sexe.Table
import LibShare.Lib.Paths
import LibShare.Shz.Extract
import LibShare.Lib.Sql
import LibShare.Lib.SqlTable
import LibShare.Fs.Db
import LibShare.Fs.DbRows
import LibShare.Fs.DbJson
import LibShare.Net.Track
import LibShare.Net.TrackBook
import LibShare.Lib.Separated
import LibShare.Mem.JsonText
import LibShare.Mem.JsonGrammar
import LibShare.Mem.JsonPrint
import LibShare.Mem.JsonAccept
import LibShare.Mem.JsonMinify
