import PostgresRaw.Auxiliary.Arena
import PostgresRaw.Cache.Cells
import PostgresRaw.Cache.Deletion
import PostgresRaw.Csv.Navigation
import PostgresRaw.Csv.StoredPairs
import PostgresRaw.Csv.Values
import PostgresRaw.Executor.CacheOnly
import PostgresRaw.Executor.Chunks
import PostgresRaw.Executor.PlanTree
import PostgresRaw.Executor.Quals
import PostgresRaw.Executor.Release
import PostgresRaw.Reader.EolReread
import PostgresRaw.Reader.LastLine
import PostgresRaw.Reader.Quotes
import PostgresRaw.Scan.Cursor
import PostgresRaw.Scan.Growth
import PostgresRaw.Scan.Lengths
import PostgresRaw.Scan.Locks
import PostgresRaw.Scan.NodeRows
import PostgresRaw.Scan.Reached
import PostgresRaw.Scan.RowPosition
import PostgresRaw.Scan.Running
import PostgresRaw.Scan.SelfJoin
import PostgresRaw.Scan.Transcoding
import PostgresRaw.Scan.Written
import PostgresRaw.Session.Aborted
import PostgresRaw.Session.Appended
import PostgresRaw.Session.Interleaved
import PostgresRaw.Session.Limited
import PostgresRaw.Snooping.AttributeSets
import PostgresRaw.Snooping.CopyCommand
import PostgresRaw.Snooping.Configuration
import PostgresRaw.Snooping.SnoopConf
import PostgresRaw.Strategy.ColVector
import PostgresRaw.Strategy.Covering
import PostgresRaw.Strategy.FirstNode
import PostgresRaw.Strategy.Room
import PostgresRaw.Strategy.Slots
import PostgresRaw.Strategy.Sources
import PostgresRaw.Strategy.Tiling
