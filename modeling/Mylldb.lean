import Mylldb.Lib.ThreeWay
import Mylldb.Lib.LinkedChain
import Mylldb.Lib.Run
import Mylldb.Lib.Cursor
import Mylldb.Lib.History
import Mylldb.Lib.LittleEndian
import Mylldb.Lib.Base128
import Mylldb.Lib.Crc
import Mylldb.Lib.CrcErrors
import Mylldb.Lib.SparseIndex
import Mylldb.Lib.Regions
import Mylldb.Lib.Lehmer
import Mylldb.Lib.Versions
import Mylldb.Lib.Batches
import Mylldb.Lib.Ownership
import Mylldb.Exec
import Mylldb.Status
import Mylldb.Status.State
import Mylldb.Status.Values
import Mylldb.Status.Ownership
import Mylldb.Iterator
import Mylldb.Iterator.Theorems
import Mylldb.Options
import Mylldb.Env
import Mylldb.Coding
import Mylldb.Coding.Theorems
import Mylldb.Coding.Varints
import Mylldb.Crc32c
import Mylldb.Crc32c.Theorems
import Mylldb.Random
import Mylldb.Random.Theorems
import Mylldb.Random.Period
import Mylldb.Arena
import Mylldb.Arena.Theorems
import Mylldb.Arena.Waste
import Mylldb.Comparator
import Mylldb.Comparator.Theorems
import Mylldb.Comparator.Separators
import Mylldb.DbFormat
import Mylldb.DbFormat.Theorems
import Mylldb.DbFormat.Separators
import Mylldb.SkipList
import Mylldb.SkipList.Search
import Mylldb.SkipList.Represents
import Mylldb.SkipList.Insert
import Mylldb.SkipList.Theorems
import Mylldb.SkipList.RandomHeight
import Mylldb.SkipList.Iterator
import Mylldb.SkipList.Traversal
import Mylldb.SkipList.Searches
import Mylldb.SkipList.Interleaving
import Mylldb.SkipList.Concurrent
import Mylldb.SkipList.Readers
import Mylldb.SkipList.Writer
import Mylldb.SkipList.Linearizable
import Mylldb.SkipList.Scanning
import Mylldb.MemTable
import Mylldb.MemTable.Represents
import Mylldb.MemTable.Encoding
import Mylldb.MemTable.Theorems
import Mylldb.MemTable.Ordering
import Mylldb.MemTable.Iterator
import Mylldb.MemTable.Cursor
import Mylldb.MemTable.Snapshots
import Mylldb.MemTable.Concurrent
import Mylldb.MemTable.Scanning
import Mylldb.MemTable.Placement
import Mylldb.MemTable.Usage
import Mylldb.BlockBuilder
import Mylldb.BlockBuilder.Theorems
import Mylldb.BlockBuilder.Restarts
import Mylldb.Block
import Mylldb.Block.Layout
import Mylldb.Block.Cursor
import Mylldb.Block.RoundTrip
import Mylldb.Block.Seek
import Mylldb.Block.Parse
import Mylldb.Block.Safety
import Mylldb.Block.SafeRuns
import Mylldb.Block.Progress
import Mylldb.Format
import Mylldb.Format.Safety
import Mylldb.Format.Checksum
import Mylldb.Format.BitErrors
import Mylldb.TableBuilder
import Mylldb.TableBuilder.Steps
import Mylldb.TableBuilder.Errors
import Mylldb.TableBuilder.Checksum
import Mylldb.TableBuilder.ReadBack
import Mylldb.TableBuilder.Draft
import Mylldb.Block.Reader
import Mylldb.TableBuilder.Index
import Mylldb.TableBuilder.Filter
import Mylldb.TableBuilder.Ends
import Mylldb.TableBuilder.Plan
import Mylldb.TableBuilder.Stored
import Mylldb.TableBuilder.Complete
import Mylldb.TableBuilder.Blocks
import Mylldb.Comparator.Singleton
import Mylldb.Table
import Mylldb.Table.Footer
import Mylldb.Table.Theorems
import Mylldb.Table.Reading
import Mylldb.Table.Tolerance
import Mylldb.Table.Dump
import Mylldb.Table.Damage
import Mylldb.Table.Ownership
import Mylldb.Table.Cleanup
