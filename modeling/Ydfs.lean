import Ydfs.Transition.Run
import Ydfs.Transition.Recursion
import Ydfs.Transition.Fallible
import Ydfs.Text.Lines
import Ydfs.Text.Search
import Ydfs.Text.Split
import Ydfs.Text.Templates
import Ydfs.Text.CommandLine
import Ydfs.Text.Optparse
import Ydfs.Arithmetic.Rounding
import Ydfs.TaskList.Machine
import Ydfs.TaskList.Progress
import Ydfs.TaskList.Starts
import Ydfs.TaskList.Terminal
import Ydfs.TaskList.Completion
import Ydfs.TaskList.RootError
import Ydfs.TaskList.Script
import Ydfs.TaskList.Adequacy
import Ydfs.TaskList.Live
import Ydfs.TaskList.Percent
import Ydfs.Wubi.Distro
import Ydfs.Wubi.Caches
import Ydfs.Wubi.Backend
import Ydfs.Wubi.GetIso
import Ydfs.Wubi.CheckIso
import Ydfs.Wubi.HashCache
import Ydfs.Wubi.Sources
import Ydfs.Wubi.Fallback
import Ydfs.Wubi.Architecture
import Ydfs.Wubi.OwnCd
import Ydfs.Wubi.DiskInfoLine
import Ydfs.Wubi.Probes
import Ydfs.Wubi.Cycle
import Ydfs.Wubi.Bcd
import Ydfs.Wubi.TargetDir
import Ydfs.Wubi.BootIni
import Ydfs.Wubi.BootIniEntry
import Ydfs.Wubi.ConfigSys
import Ydfs.Wubi.DiskSizes
import Ydfs.Wubi.InstallationPage
import Ydfs.Wubi.Metalink
import Ydfs.Wubi.MetalinkDocument
import Ydfs.Wubi.MetalinkParts
import Ydfs.Wubi.MetalinkRoundTrip
import Ydfs.Wubi.MetalinkTrees
import Ydfs.Wubi.MetalinkPieces
import Ydfs.MakeIso.Md5sums
import Ydfs.Build.Steps
import Ydfs.Build.ChildPkg
import Ydfs.Build.Termination
import Ydfs.Build.Resolution
import Ydfs.Build.Download
import Ydfs.Files.Tree
import Ydfs.Build.Extraction
import Ydfs.Build.SourceTrees
import Ydfs.Files.Moves
import Ydfs.Files.Stream
import Ydfs.Files.Chunks
import Ydfs.Files.Disk
import Ydfs.Boot.RootDisk
import Ydfs.Boot.Backup
import Ydfs.Autobuild.AlreadyBuilt
import Ydfs.Autobuild.MakeOpkg
import Ydfs.Autobuild.InstallPackage
import Ydfs.Pylauncher.Unpack
import Ydfs.Pylauncher.Extract
import Ydfs.Pylauncher.Arguments
import Ydfs.Pylauncher.DeleteDirectory
import Ydfs.AptGet.Depends
import Ydfs.AptGet.Install
import Ydfs.Build.Uninstall
import Ydfs.Autobuild.Headers
import Ydfs.Wubi.Utils
import Ydfs.Wubi.Md5Password
import Ydfs.Wubi.CheckFile
import Ydfs.Wubi.ArchSwitch
import Ydfs.Wubi.VirtualDisk
import Ydfs.Wubi.Preseed
import Ydfs.Wubi.Paths
import Ydfs.Wubi.IsoFileNames
import Ydfs.Wubi.DiskImage
import Ydfs.TaskList.ProgressRange
import Ydfs.Text.Slices
import Ydfs.Files.Seek
import Ydfs.Files.Places
import Ydfs.BitTorrent.Bencode
import Ydfs.BitTorrent.Storage
import Ydfs.BitTorrent.StorageWrapper
import Ydfs.BitTorrent.PiecePlaces
import Ydfs.BitTorrent.PieceRequests
import Ydfs.BitTorrent.PieceRuns
import Ydfs.BitTorrent.PieceScan
import Ydfs.BitTorrent.PieceSafety
import Ydfs.Text.Bytes
import Ydfs.Text.Feed
import Ydfs.BitTorrent.Encrypter
import Ydfs.BitTorrent.Handshake
import Ydfs.Arithmetic.Bits
import Ydfs.BitTorrent.Bitfield
import Ydfs.BitTorrent.Messages
import Ydfs.Lists.Indexed
import Ydfs.BitTorrent.PiecePicker
import Ydfs.Lists.Shuffle
import Ydfs.BitTorrent.Downloader
import Ydfs.BitTorrent.Downloads
import Ydfs.BitTorrent.DownloadRuns
import Ydfs.BitTorrent.DownloadSafety
