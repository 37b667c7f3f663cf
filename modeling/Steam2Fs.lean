import Steam2Fs.Lib.Outcome
import Steam2Fs.Lib.Text
import Steam2Fs.Lib.Utf16
import Steam2Fs.Lib.Layout
import Steam2Fs.Lib.Walk
import Steam2Fs.Lib.Rooted
import Steam2Fs.Lib.Search
import Steam2Fs.Lib.Lru
import Steam2Fs.Lib.Threads
import Steam2Fs.Lib.Duties
import Steam2Fs.Lib.Changes
import Steam2Fs.Lib.Accounts
import Steam2Fs.Lib.Workers
import Steam2Fs.Lib.Guarded
import Steam2Fs.Lib.Machine
import Steam2Fs.Lib.Exclusive
import Steam2Fs.Format
import Steam2Fs.Codec
import Steam2Fs.Blob
import Steam2Fs.Manifest
import Steam2Fs.ChecksumTable
import Steam2Fs.Chunk
import Steam2Fs.VersionBlob
import Steam2Fs.Encode
import Steam2Fs.Words
import Steam2Fs.BlobFormat
import Steam2Fs.VersionFormat
import Steam2Fs.ManifestFormat
import Steam2Fs.ChecksumFormat
import Steam2Fs.ParseSafety
import Steam2Fs.ManifestPath
import Steam2Fs.ManifestTree
import Steam2Fs.ManifestLookup
import Steam2Fs.Index
import Steam2Fs.IndexNames
import Steam2Fs.Keys
import Steam2Fs.Store
import Steam2Fs.StoreBlobs
import Steam2Fs.StoreTables
import Steam2Fs.Memory
import Steam2Fs.StoreBlocks
import Steam2Fs.StoreRead
import Steam2Fs.StoreCalls
import Steam2Fs.StoreCache
import Steam2Fs.StoreHistory
import Steam2Fs.StoreChanges
import Steam2Fs.StoreBounds
import Steam2Fs.StoreSharing
import Steam2Fs.StoreFlights
import Steam2Fs.StoreTops
import Steam2Fs.StoreSequence
import Steam2Fs.ErrorClasses
import Steam2Fs.Tree
import Steam2Fs.TreeLookup
import Steam2Fs.TreeParent
import Steam2Fs.TreeExact
import Steam2Fs.TreeRead
import Steam2Fs.Verify
import Steam2Fs.VerifySound
import Steam2Fs.VerifyParallel
import Steam2Fs.SingleFlight
import Steam2Fs.SingleFlightRuns
import Steam2Fs.Backend
import Steam2Fs.SftpHandles
import Steam2Fs.SftpRuns
import Steam2Fs.ByteCache
import Steam2Fs.BlockArithmetic
import Steam2Fs.StoreWindows
import Steam2Fs.Fuse
import Steam2Fs.FusePaging
import Steam2Fs.TreeLinks
import Steam2Fs.WinPaths
import Steam2Fs.IndexOrder
import Steam2Fs.IndexDats
import Steam2Fs.StoreCycles
import Steam2Fs.StoreHeal
import Steam2Fs.Dates
import Steam2Fs.DateParse
import Steam2Fs.DateOrder
import Steam2Fs.StoreChains
import Steam2Fs.FuseInodes
import Steam2Fs.KeyFile
import Steam2Fs.Audit
import Steam2Fs.AuditFindings
import Steam2Fs.AuditRuns
import Steam2Fs.AuditAgain
import Steam2Fs.Archive
import Steam2Fs.ArchiveReads
import Steam2Fs.ArchiveRuns
import Steam2Fs.SftpListing
import Steam2Fs.FuseData
import Steam2Fs.TreeArchive
import Steam2Fs.FuseArchive
import Steam2Fs.WinVolume
import Steam2Fs.WinArchive
import Steam2Fs.Inspect
import Steam2Fs.InspectVerify
