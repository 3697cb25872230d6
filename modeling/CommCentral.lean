import CommCentral.TreeSelection.Refinement
import CommCentral.Threading.Tree
import CommCentral.Mork.Yarn
import CommCentral.Mork.Files
import CommCentral.Base.LineStream
import CommCentral.Mork.Row
import CommCentral.Mime.QpEncoder
import CommCentral.Mork.TableUses
import CommCentral.Mork.ProbeRefinement
import CommCentral.Calendar.NextOccurrence
import CommCentral.Calendar.SeriesMove
import CommCentral.JsMime.HeaderMargins
import CommCentral.JsMime.HeaderFolding
import CommCentral.JsMime.ParserEvents
import CommCentral.Calendar.BatchedArray
import CommCentral.Bayes.FileRoundTrip
import CommCentral.Calendar.EventColumns
import CommCentral.Search.Online
import CommCentral.Filters.ConditionRoundTrip
import CommCentral.Subscribe.Folders
import CommCentral.Addrbook.LdifRecordsOnce
import CommCentral.Mailstore.RoundTrip
import CommCentral.Mime.DecodedSize
import CommCentral.Mork.MapIter
import CommCentral.Calendar.Transactions
import CommCentral.Search.SearchConjunction
import CommCentral.MsgView.XFViewThreadRuns
import CommCentral.Imap.AutoSyncAccount
import CommCentral.KeySet.MissingRanges
import CommCentral.KeySet.FirstNonMember
import CommCentral.Imap.UidRanges
import CommCentral.Threading.FirstUnread
import CommCentral.Imap.ParenGroup
import CommCentral.Calendar.BinaryInsert
import CommCentral.Gloda.CollectionManager
import CommCentral.Irc.Formatting
import CommCentral.Irc.Splitting
import CommCentral.Irc.ModeFollows
import CommCentral.MsgView.LevelLookup
import CommCentral.MsgView.ThreadMove
import CommCentral.Irc.NickRetry
import CommCentral.Irc.OnlinePolling
import CommCentral.Addrbook.QueryString
import CommCentral.Search.NegativeTerms
import CommCentral.Base.Keywords
import CommCentral.Filters.ActionOrder
import CommCentral.Imap.NamespaceMatch
import CommCentral.Imap.SlashEscapes
import CommCentral.Base.FolderPath
import CommCentral.Base.FromLines
import CommCentral.Base.SubjectPrefix
import CommCentral.Addrbook.LdapFilter
import CommCentral.Irc.Delivery
import CommCentral.Mork.StoredHits
import CommCentral.KeySet.Restarts
import CommCentral.JsMime.SentBodies
