import Gpos.LostSleeper
import Gpos.BufferSoundness
import Gpos.BufferLayout
import Gpos.BlockStore
import Gpos.Fork
import Gpos.PageSharing
import Gpos.SuperBlock
import Gpos.BlockTrees
import Gpos.CallBalance
import Gpos.SetupCounts
import Gpos.RequestSoundness
import Gpos.ConsoleScroll
import Gpos.TruncationRuns
import Gpos.CookedLines
import Gpos.TtyWrite
import Gpos.EntrySearch
import Gpos.BootLoad
import Gpos.BootLookup
import Gpos.HardDisk
import Gpos.DriverSafety
import Gpos.RetryRuns
import Gpos.Answers
import Gpos.Creation
import Gpos.InodeRuns
import Gpos.ZoneFull
import Gpos.InodeRecords
import Gpos.InodeAllocator
import Gpos.Elevator
import Gpos.Retries
import Gpos.Volume
import Gpos.DirOps
import Gpos.EntryInsertion
import Gpos.PathOps
import Gpos.PathWalk
import Gpos.FileZones
import Gpos.Schedule
import Gpos.Pids
import Gpos.CharDev
import Gpos.PutQueue
import Gpos.Keyboard
import Gpos.ReadSuper
import Gpos.SavedCursor
import Gpos.LineEditing
import Gpos.PendingOutput
import Gpos.UnlinkedFile
import Gpos.SuperLocks
import Gpos.ReadBlocks
import Gpos.FormatOutput
import Gpos.WriteBack
import Gpos.ScheduleRuns
import Gpos.ElevatorWaits
import Gpos.FloppyLoad
import Gpos.StorageRuns
import Gpos.DirectoryRuns
import Gpos.Typing
import Gpos.DisplayRuns
import Gpos.BlockDevice
import Gpos.Output
import Gpos.SpaceRuns
import Gpos.Descriptions
