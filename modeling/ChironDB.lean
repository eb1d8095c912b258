import ChironDB.Relational.Equality
import ChironDB.Relational.Indexable
import ChironDB.Relational.RowReaders
import ChironDB.Relational.Reclaim
import ChironDB.Relational.Table
import ChironDB.Relational.Having
import ChironDB.Relational.Intents
import ChironDB.Relational.History
import ChironDB.Relational.Memory
import ChironDB.Wal.Truncation
import ChironDB.Wal.Failure
import ChironDB.Wal.Crash
import ChironDB.Wal.ArchiveReplay
import ChironDB.Raft.LogMatching
import ChironDB.Security.Barrier
import ChironDB.Filter.Candidates
import ChironDB.Security.SecurityFilter
import ChironDB.Security.PayloadChange
import ChironDB.Security.Authorization
import ChironDB.Security.LiveReplay
import ChironDB.Security.Groups
import ChironDB.Security.Administration
import ChironDB.Graph.Sessions
import ChironDB.Encryption.Ranges
import ChironDB.Encryption.Resumable
import ChironDB.Overlay.Versions
