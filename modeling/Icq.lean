import Icq.Lib.Backlinks
import Icq.Lib.Blocks
import Icq.Lib.Borders
import Icq.Lib.Contest
import Icq.Lib.EventLog
import Icq.Lib.Scalar
import Icq.Lib.FileStream
import Icq.Lib.FirstMatch
import Icq.Lib.Greatest
import Icq.Lib.JsonText
import Icq.Lib.KeyMap
import Icq.Lib.KeyMapRange
import Icq.Lib.KeyMapWeight
import Icq.Lib.LastOf
import Icq.Lib.Linked
import Icq.Lib.Matching
import Icq.Lib.OrderedChoice
import Icq.Lib.Page
import Icq.Lib.Parser
import Icq.Lib.Pieces
import Icq.Lib.Piecewise
import Icq.Lib.Places
import Icq.Lib.Punycode
import Icq.Lib.Resumable
import Icq.Lib.Route
import Icq.Lib.Run
import Icq.Lib.Words
import Icq.Lib.Scan
import Icq.Lib.Slots
import Icq.Lib.Sorting
import Icq.Lib.Tally
import Icq.Lib.WeakOrder
import Icq.Common.CaseFolding
import Icq.Common.ImStatistics
import Icq.Common.RkSearcher
import Icq.Common.UriScheme
import Icq.Common.UriMatcher
import Icq.Common.IpAddress
import Icq.Archive.MessageFields
import Icq.Tools.Tlv
import Icq.Archive.MessageParts
import Icq.Tools.Json
import Icq.Archive.Formats
import Icq.Common.MessageTokenizer
import Icq.Common.RkSearcherComplete
import Icq.Common.RkSearcherSsetComplete
import Icq.Common.RkSearcherProgress
import Icq.Common.UriMatcherPlaces
import Icq.Common.UriMatcherEnds
import Icq.Common.MessageTokenizerRanges
import Icq.Archive.FormatsSorted
import Icq.Common.RkSearcherFiled
import Icq.Common.MessageTokenizerWhole
import Icq.Common.PatchVersion
import Icq.Common.UriView
import Icq.Common.UriViewAgree
import Icq.Common.UriFormat
import Icq.Tools.BinaryStream
import Icq.Tools.Contains
import Icq.Tools.Strings
import Icq.Tools.ThreadPool
import Icq.Tools.ThreadPoolRuns
import Icq.Tools.TlvPack
import Icq.Core.Scheduler
import Icq.Core.SchedulerRuns
import Icq.Archive.MessageHeader
import Icq.Archive.Storage
import Icq.Archive.ArchiveIndex
import Icq.Archive.StorageRoundTrip
import Icq.Archive.FastRead
import Icq.Archive.ChatEvent
import Icq.Archive.PartsRoundTrip
import Icq.Archive.ChatEventRoundTrip
import Icq.Archive.HistoryMessage
import Icq.Archive.MessageRoundTrip
import Icq.Archive.FieldScan
import Icq.Archive.TermSearch
import Icq.Archive.ArchiveSearch
import Icq.Archive.HeaderCodec
import Icq.Archive.IndexFile
import Icq.Archive.BlockReads
import Icq.Archive.Persisted
import Icq.Archive.Compaction
import Icq.Archive.DlgState
import Icq.Archive.MessagesData
import Icq.Archive.ContactArchive
import Icq.Archive.Holes
import Icq.Archive.NextHole
import Icq.Archive.HoleRequest
import Icq.Archive.ErasedHistory
import Icq.Archive.TruthfulIndex
import Icq.Archive.TruthfulArchive
import Icq.Archive.CoveredHistory
import Icq.Archive.DeletedRange
import Icq.Archive.Drafts
import Icq.Archive.FormatsJson
import Icq.Archive.FrameFile
import Icq.Archive.Gallery
import Icq.Archive.GallerySorted
import Icq.Archive.GalleryBounded
import Icq.Archive.GalleryPages
import Icq.Archive.HoleInRange
import Icq.Archive.Lossless
import Icq.Archive.MessageCopies
import Icq.Archive.MessagePages
import Icq.Archive.MessagesApart
import Icq.Archive.ModificationsApart
import Icq.Archive.NotSentMessages
import Icq.Archive.OutgoingCount
import Icq.Archive.RecordStorage
import Icq.Archive.RecordKinds
import Icq.Archive.PaddedRecords
import Icq.Archive.PartsStorable
import Icq.Archive.PendingDeletes
import Icq.Archive.PendingEdits
import Icq.Archive.PendingFiles
import Icq.Archive.PendingWellFormed
import Icq.Archive.RecordBlocks
import Icq.Archive.RecordDataFile
import Icq.Archive.RecordIndexFile
import Icq.Archive.RecordRuns
import Icq.Archive.Replay
import Icq.Archive.ServerEvents
import Icq.Wim.FileDownload
import Icq.Wim.AsyncLoader
import Icq.Wim.AsyncLoaderCancel
import Icq.Wim.ContactList
import Icq.Wim.ContactListIndex
import Icq.Wim.ContactSearch
import Icq.Wim.ContactSearchSpec
import Icq.Wim.ContactsKept
import Icq.Wim.ContactSearchReuse
import Icq.Wim.ContactCaches
import Icq.Wim.HistoryPatches
import Icq.Wim.PacketQueue
import Icq.Wim.SendThread
import Icq.Wim.DownloadHoles
import Icq.Wim.DeletesSending
import Icq.Wim.DeletesSendingRuns
import Icq.Wim.DeletesSendingEnd
import Icq.Wim.DownloadHolesRuns
import Icq.Wim.DownloadHolesEnd
import Icq.Wim.UploadTask
import Icq.Wim.LoaderUploads
import Icq.Wim.LoaderUploadsRuns
import Icq.Wim.LoaderUploadsExact
import Icq.Wim.LogReplaceFunctor
import Icq.Wim.LogMasking
import Icq.Wim.LogArrays
import Icq.Wim.LogArraysHidden
import Icq.Wim.LogArrayRuns
import Icq.Wim.LogStrings
import Icq.Wim.LogStringsHidden
import Icq.Wim.PacketQueueRuns
import Icq.Wim.PollRanges
import Icq.Wim.SendAccounting
import Icq.Stats.EventParams
import Icq.Stats.ImStats
import Icq.Stats.ImStatsRuns
import Icq.Stats.Statistics
import Icq.Stats.StatisticsRuns
import Icq.Gui.EscapeShell
import Icq.Gui.FString
import Icq.Gui.FStringJoin
import Icq.Gui.FStringBuilder
import Icq.Gui.FStringChop
import Icq.Gui.FileSharingLink
import Icq.Gui.MessageKey
import Icq.Gui.History
import Icq.Gui.HistoryActions
import Icq.Gui.HistoryById
import Icq.Gui.HistoryConfirmed
import Icq.Gui.HistoryHoles
import Icq.Gui.MessageKeyOrder
import Icq.Gui.HistoryPaging
import Icq.Gui.HistoryPages
import Icq.Gui.HistoryPendings
import Icq.Gui.HistoryScroll
import Icq.Gui.HistoryTwins
import Icq.Gui.HistoryVersions
import Icq.Gui.HistoryView
import Icq.Gui.HistoryViewKept
import Icq.Gui.MessageReader
import Icq.Gui.Punyencode
import Icq.Gui.PunycodedHost
import Icq.Tasks.TaskStorage
import Icq.Archive.MessageLossless
