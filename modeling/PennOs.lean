import PennOs.Lib.RoundRobin
import PennOs.Kernel.Definitions
import PennOs.Kernel.Queues
import PennOs.Kernel.Syscalls
import PennOs.Kernel.Scheduler
import PennOs.Kernel.QueueFrames
import PennOs.Kernel.QueueLists
import PennOs.Kernel.QueueTable
import PennOs.Kernel.QueueIntegrity
import PennOs.Kernel.Lifecycle
import PennOs.Lib.Prog
import PennOs.Lib.LittleEndian
import PennOs.Fat.Definitions
import PennOs.Lib.LinkedChain
import PennOs.Lib.Search
import PennOs.Fat.Blocks
import PennOs.Fat.Directories
import PennOs.Fat.DirentBytes
import PennOs.Fat.BlockBytes
import PennOs.Fat.BlockRuns
import PennOs.Fat.ChainRuns
import PennOs.Fat.ChainContents
import PennOs.Fat.Paths
import PennOs.Fat.Files
import PennOs.Fat.Names
import PennOs.Fat.Volumes
import PennOs.Fat.MountRuns
import PennOs.Fat.RegionOverlap
import PennOs.Fat.ReadSlices
import PennOs.Fat.WriteSplice
import PennOs.Lib.LinkedForest
import PennOs.Lib.Hierarchy
import PennOs.Fat.Image
import PennOs.Fat.ImageEdits
import PennOs.Fat.ImageRules
import PennOs.Fat.ImageRuns
import PennOs.Fat.DirectoryRuns
import PennOs.Fat.Lookups
import PennOs.Fat.DirectoryMaps
import PennOs.Fat.PathRuns
import PennOs.Fat.ImageFiles
import PennOs.Fat.CreateRuns
import PennOs.Fat.CreatedPaths
import PennOs.Fat.RemoveRuns
import PennOs.Fat.RenameRuns
import PennOs.Fat.Calls
import PennOs.Fat.TableRuns
import PennOs.Fat.BoundCalls
import PennOs.Fat.OpenAccounting
import PennOs.Fat.OpenRuns
import PennOs.Fat.WriteRuns
import PennOs.Fat.MountStates
import PennOs.Kernel.FreedPcbs
import PennOs.Kernel.QueueShares
import PennOs.Kernel.ProcessFrames
import PennOs.Kernel.Roster
import PennOs.Kernel.StoppedProcesses
import PennOs.Kernel.ReapedChildren
import PennOs.Kernel.ProcessCreation
import PennOs.Kernel.CreationFrames
import PennOs.Kernel.PidUniqueness
import PennOs.Fat.VolumeRuns
import PennOs.Fat.Trees
import PennOs.Fat.HostFrames
import PennOs.Fat.HostImages
import PennOs.Fat.GuardedCalls
import PennOs.Fat.TreeRuns
import PennOs.Shell.Numbers
import PennOs.Shell.KillCommand
import PennOs.Kernel.Families
import PennOs.Kernel.ChildLists
import PennOs.Kernel.Reparenting
import PennOs.Fat.ReadOnly
import PennOs.Fat.HostAnswers
import PennOs.Fat.AppendOpens
import PennOs.Fat.LiveDirectories
import PennOs.Fat.WorkingDirectory
import PennOs.Lib.PathWalk
import PennOs.Fat.DirTrees
import PennOs.Fat.PathWalks
import PennOs.Fat.RemovedDirectories
import PennOs.Fat.Unlinks
import PennOs.Fat.Metadata
import PennOs.Fat.CurrentPath
import PennOs.Fat.SeekWrites
import PennOs.Fat.FailedCreations
import PennOs.Fat.AtomicCreations
import PennOs.Lib.Fifo
import PennOs.Kernel.QueueFifo
import PennOs.Kernel.InterruptMasks
import PennOs.Kernel.MaintenancePass
import PennOs.Kernel.FailedSpawns
import PennOs.Kernel.SleepTicks
import PennOs.User.Jobs
import PennOs.User.JobTable
import PennOs.Lib.CutStrings
import PennOs.Util.Parser
import PennOs.Util.CommandGrammar
import PennOs.Util.FirstPass
import PennOs.Util.AcceptedLines
import PennOs.Util.SecondPass
import PennOs.Util.ParserGrammar
import PennOs.Util.PrintedCommands
import PennOs.User.Redirections
import PennOs.User.DescriptorRuns
import PennOs.Shell.ShellLoop
import PennOs.Lib.ErasingWalk
import PennOs.Fat.FatLoops
import PennOs.Kernel.FreePids
import PennOs.Kernel.QuantumEnds
import PennOs.Shell.Numerals
import PennOs.Shell.NiceCommands
import PennOs.Lib.Cells
import PennOs.Util.SecondPassBlock
import PennOs.Util.SecondPassBounds
import PennOs.Lib.DynArray
import PennOs.Kernel.PcbVec
import PennOs.Kernel.PcbVecContents
import PennOs.Util.Vec
import PennOs.Util.VecContents
import PennOs.Util.VecDestruction
import PennOs.Lib.SharedFile
import PennOs.Fat.SharedFiles
import PennOs.Fat.Listings
import PennOs.Lib.StatePart
import PennOs.Fat.DescriptorUse
import PennOs.Pennfat.Commands
import PennOs.Pennfat.Descriptors
import PennOs.Fat.WholeReads
import PennOs.Fat.LookupFrames
import PennOs.Fat.SearchedPaths
import PennOs.Fat.NewEntries
import PennOs.Fat.FoundAgain
import PennOs.Fat.CreationSteps
import PennOs.Fat.CreationPlaces
import PennOs.Fat.PlacedEntries
import PennOs.Fat.SymlinkTargets
import PennOs.Pennfat.CatFiles
import PennOs.Fat.FilledFiles
import PennOs.Kernel.BoundedWaiting
import PennOs.Pennfat.HostCopies
