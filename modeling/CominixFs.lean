import CominixFs.HashtableMap
import CominixFs.LinkedList
import CominixFs.ChunkLoop
import CominixFs.Itree
import CominixFs.InodeBlocks
import CominixFs.Concurrent
import CominixFs.ConcurrentAlloc
import CominixFs.CdcCut
import CominixFs.CdcLocal
import CominixFs.ReadLoop
import CominixFs.UnrolledList
import CominixFs.MountLayout
import CominixFs.File
import CominixFs.Dir
import CominixFs.DirEntries
import CominixFs.Lib.LinkTree
import CominixFs.NameOps
import CominixFs.Rename
import CominixFs.NameRun
import CominixFs.DirMap
import CominixFs.Storage
import CominixFs.FreeCount
import CominixFs.BlockPath
import CominixFs.BlockMap
import CominixFs.FileEnd
import CominixFs.ChunkRoom
import CominixFs.Dedup
import CominixFs.BlockCount
import CominixFs.Fs
import CominixFs.FsOps
import CominixFs.FsRun
import CominixFs.Marks
import CominixFs.FsSteps
import CominixFs.FsRemount
import CominixFs.FsMount
import CominixFs.FsZones
import CominixFs.FsStore
import CominixFs.GetSteps
import CominixFs.ConcurrentBlocks
import CominixFs.CallAlone
import CominixFs.InodeCount
