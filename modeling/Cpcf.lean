import Cpcf.Lib.Memory
import Cpcf.Lib.BitPack
import Cpcf.Lib.AssocMap
import Cpcf.Lib.Word
import Cpcf.Lib.Run
import Cpcf.Rt.Chars
import Cpcf.Rt.Number
import Cpcf.Os.Base64
import Cpcf.Os.Base32
import Cpcf.Os.Url
import Cpcf.Json.Dialect
import Cpcf.Json.Scan
import Cpcf.Json.ScanValue
import Cpcf.Json.RoundTrip
import Cpcf.Json.Reader
import Cpcf.Json.Stream
import Cpcf.Json.Override
import Cpcf.Json.Items
import Cpcf.Json.Beautify
import Cpcf.Json.Preserve
import Cpcf.Json.ReaderSound
import Cpcf.Json.Tokens
import Cpcf.Json.SingleLine
import Cpcf.Os.Utf8
import Cpcf.Os.DroppableQueue
import Cpcf.Lib.Threads
import Cpcf.Os.DoubleBuffer
import Cpcf.Os.ProducerConsumerQueue
import Cpcf.Os.ThreadFence
import Cpcf.Rt.CircularBuffer
import Cpcf.Lib.Extent
import Cpcf.Lib.Cells
import Cpcf.Rt.BufferEx
import Cpcf.Rt.BufferExCapacity
import Cpcf.Rt.BufferExList
import Cpcf.Os.ParallelWriter
import Cpcf.Rt.StringRef
import Cpcf.Rt.StringOwned
import Cpcf.Json.Unescape
import Cpcf.Rt.StringTerminated
import Cpcf.Os.Date32
import Cpcf.Os.FileZipSpace
import Cpcf.Os.FileZipAdding
import Cpcf.Os.FileZipLookup
import Cpcf.Os.FileZipStream
import Cpcf.Os.FileGzip
import Cpcf.Os.FileReadLine
import Cpcf.Os.ResolvePath
import Cpcf.Os.FileZipSaved
import Cpcf.Os.FileWriteLine
import Cpcf.Os.FilePacked
import Cpcf.Os.CopyPathTree
import Cpcf.Os.PrecompilerNesting
import Cpcf.Os.PrecompilerLines
import Cpcf.Os.PrecompilerUnbalanced
import Cpcf.Os.PrecompilerIndent
import Cpcf.Os.PrecompilerLoops
import Cpcf.Rt.XmlComposer
import Cpcf.Rt.XmlParser
import Cpcf.Rt.XmlScan
import Cpcf.Rt.XmlTraverse
import Cpcf.Rt.XmlAttributes
import Cpcf.Rt.XmlText
import Cpcf.Rt.XmlRtfHtml
import Cpcf.Rt.XPath
import Cpcf.Rt.XPathHistory
import Cpcf.Inet.SocketEvent
import Cpcf.Pylon.Scheduler
import Cpcf.Pylon.Reload
import Cpcf.Lib.Search
import Cpcf.Inet.CString
import Cpcf.Inet.Request
import Cpcf.Inet.RequestAssembly
import Cpcf.Lib.Segments
import Cpcf.Inet.VirtualPath
import Cpcf.Inet.QueryParam
import Cpcf.Inet.ResponseHeader
import Cpcf.Inet.HttpSession
import Cpcf.Inet.ResponseFields
import Cpcf.Inet.Receive
import Cpcf.Inet.RecvHead
import Cpcf.Inet.ChunkedBody
import Cpcf.Inet.WaitResponse
import Cpcf.Inet.TruncatedBody
import Cpcf.Inet.HttpResponse
import Cpcf.Inet.KeptAlive
import Cpcf.Lib.Strides
import Cpcf.Os.Utf8Walk
import Cpcf.Os.UrlMalformed
import Cpcf.Os.Base64Room
import Cpcf.Os.Base32Canonical
import Cpcf.Json.Escape
import Cpcf.Json.Cooked
import Cpcf.Json.Lookup
import Cpcf.Json.PathText
import Cpcf.Json.LookupPath
import Cpcf.Rt.SplitFields
import Cpcf.Rt.RelativePath
import Cpcf.Rt.NextLine
import Cpcf.Rt.NextToken
import Cpcf.Lib.Written
import Cpcf.Rt.UrlDecoded
import Cpcf.Rt.Utf8Regular
import Cpcf.Rt.StringBuffers
import Cpcf.Rt.EscapeRoundTrip
import Cpcf.Rt.NumberText
import Cpcf.Lib.Occurrences
import Cpcf.Rt.ReplaceText
import Cpcf.Rt.CodeComments
import Cpcf.Lib.WeakOrder
import Cpcf.Rt.FindTopKth
import Cpcf.Rt.SortedPush
import Cpcf.Rt.BooleanArray
import Cpcf.Rt.BooleanArrayShift
import Cpcf.Lib.BitCount
import Cpcf.Rt.PopCount
import Cpcf.Rt.BooleanArrayViews
import Cpcf.Rt.TopFrequentValues
import Cpcf.Lib.MajorityVote
import Cpcf.Lib.PartialCells
import Cpcf.Rt.MemoryStream
import Cpcf.Os.ClaimWriting
import Cpcf.Lib.Clock
import Cpcf.Os.Timestamp
import Cpcf.Os.DateDifference
import Cpcf.Os.DayOfWeek
import Cpcf.Os.UtcFields
import Cpcf.Os.FieldsText
import Cpcf.Os.FieldsSound
import Cpcf.Os.FieldsFormat
import Cpcf.Os.FieldsCompact
import Cpcf.Lib.Gate
import Cpcf.Inet.RequestLoop
import Cpcf.Os.AtomicLock
import Cpcf.Os.GarbageCollection
import Cpcf.Os.ThreadSafeMutable
import Cpcf.Os.LaunchProcess
import Cpcf.Inet.ChunckedXMLWriter
import Cpcf.Inet.RequestRange
import Cpcf.Pylon.SearchItem
import Cpcf.Inet.RelativeURL
