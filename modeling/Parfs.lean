import Parfs.Lib.Machine
import Parfs.Lib.Run
import Parfs.Lib.RbTree
import Parfs.Lib.Bytes
import Parfs.Lib.Memory
import Parfs.Lib.Striping
import Parfs.Lib.Undo
import Parfs.Lib.Field
import Parfs.Lib.LastRun
import Parfs.Lib.Radix
import Parfs.Lib.Keyed
import Parfs.Lib.Late
import Parfs.Balloc
import Parfs.InodeMap
import Parfs.Layout
import Parfs.LogEntry
import Parfs.Journal
import Parfs.Inplace
import Parfs.Dir
import Parfs.Readdir
import Parfs.FileTree
import Parfs.FileWrite
import Parfs.Log
import Parfs.FileHoles
import Parfs.FileRead
import Parfs.FileCopy
import Parfs.Delegation
import Parfs.LogScan
import Parfs.LogPages
import Parfs.Recovery
import Parfs.Rebuild
import Parfs.InodeRecover
import Parfs.Ckpt
import Parfs.Proofs.FileTree
import Parfs.Proofs.Balloc
import Parfs.Proofs.BallocRun
import Parfs.Proofs.InodeMap
import Parfs.Proofs.InodeRecover
import Parfs.Proofs.Dir
import Parfs.Proofs.Layout
import Parfs.Proofs.Journal
import Parfs.Proofs.Inplace
import Parfs.Proofs.Log
import Parfs.Proofs.LogExtend
import Parfs.Proofs.LogAppend
import Parfs.Proofs.LogScan
import Parfs.Proofs.LogMirror
import Parfs.Proofs.LogPages
import Parfs.Proofs.Ckpt
import Parfs.Proofs.Recovery
import Parfs.Proofs.RecoverTransaction
import Parfs.Proofs.Rebuild
import Parfs.Proofs.RebuildMap
import Parfs.Proofs.RebuildPass
import Parfs.Proofs.RebuildFree
import Parfs.Proofs.FileFlag
import Parfs.Proofs.FileSnapshot
import Parfs.Proofs.FileWriteFail
import Parfs.Proofs.Rename
import Parfs.Proofs.RenameDirs
import Parfs.Proofs.Readdir
import Parfs.Proofs.ReaddirResume
import Parfs.Proofs.FileHoles
import Parfs.Proofs.FileRead
import Parfs.Proofs.FileCopy
import Parfs.Proofs.CowWrite
import Parfs.Proofs.InplaceWrite
import Parfs.Proofs.Delegation
import Parfs.Proofs.DelegationCalls
import Parfs.Proofs.DelegationFail
import Parfs.Lib.Crc
import Parfs.Checksum
import Parfs.Proofs.Checksum
import Parfs.CsumSlots
import Parfs.Proofs.CsumSlots
import Parfs.Seek
import Parfs.Proofs.Seek
import Parfs.Proofs.BallocFree
import Parfs.Proofs.BallocFail
import Parfs.Fallocate
import Parfs.Proofs.Fallocate
import Parfs.Setsize
import Parfs.Proofs.Setsize
import Parfs.BlockCount
import Parfs.Proofs.BlockCount
import Parfs.RingIndex
import Parfs.Proofs.RingIndex
import Parfs.Proofs.Rollback
import Parfs.UserPages
import Parfs.Proofs.UserPages
import Parfs.InodeTable
import Parfs.Proofs.InodeTable
import Parfs.Proofs.InodeTable
import Parfs.Proofs.NewInode
import Parfs.LogFree
import Parfs.Proofs.LogFree
import Parfs.Snapshot
import Parfs.Proofs.Snapshot
import Parfs.Proofs.SnapshotSave
import Parfs.Parity
import Parfs.Proofs.Parity
import Parfs.Proofs.Restore
import Parfs.EntryRepair
import Parfs.Proofs.EntryRepair
import Parfs.Proofs.InplaceWrite
import Parfs.DirRebuild
import Parfs.Lib.Replay
import Parfs.Proofs.DirRebuild
import Parfs.Proofs.DirLive
import Parfs.Lib.Circular
import Parfs.Solros
import Parfs.Proofs.Solros
import Parfs.Proofs.SolrosRun
import Parfs.Combining
import Parfs.Proofs.Combining
import Parfs.Proofs.CombiningDrains
import Parfs.SolrosCalls
import Parfs.Proofs.SolrosCalls
import Parfs.Gc
