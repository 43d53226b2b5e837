import FirmwareTools.Order.PadLex
import FirmwareTools.Opkg.Depends
import FirmwareTools.System.Trace
import FirmwareTools.Opkg.ResolveSound
import FirmwareTools.Opkg.InstallCmd
import FirmwareTools.Opkg.LocalPackages
import FirmwareTools.Opkg.Providers
import FirmwareTools.Opkg.OfflineRoot
import FirmwareTools.Opkg.OneInstalled
import FirmwareTools.Opkg.ConfigureOrder
import FirmwareTools.Opkg.Conffiles
import FirmwareTools.Opkg.Commands
import FirmwareTools.Opkg.Satisfied
import FirmwareTools.Bytes.Blocks
import FirmwareTools.Opkg.FileSum
import FirmwareTools.Bytes.Record
import FirmwareTools.Squashfs.DirScan
import FirmwareTools.Squashfs.XattrIds
import FirmwareTools.Squashfs.DirRoundTrip
import FirmwareTools.Squashfs.PendingFragments
import FirmwareTools.Squashfs.Queue
import FirmwareTools.Squashfs.OutputRanges
import FirmwareTools.Squashfs.WriterCache
import FirmwareTools.Padjffs2.PadImage
import FirmwareTools.Squashfs.FileRead
import FirmwareTools.Squashfs.FileRoundTrip
import FirmwareTools.Squashfs.BufferCache
import FirmwareTools.Squashfs.BlockOrder
import FirmwareTools.Squashfs.MetadataBuffers
import FirmwareTools.Squashfs.TableBounds
import FirmwareTools.Squashfs.FileOrder
import FirmwareTools.Squashfs.FragmentLookup
import FirmwareTools.Squashfs.FragmentStore
import FirmwareTools.Squashfs.IdTable
import FirmwareTools.Squashfs.InodeNumbers
import FirmwareTools.Squashfs.InodeScan
import FirmwareTools.Squashfs.ScanDepth
import FirmwareTools.Opkg.ConflictFree
import FirmwareTools.Opkg.ResolveInstalled
import FirmwareTools.Opkg.ResolveWalk
import FirmwareTools.Squashfs.DirNames
import FirmwareTools.Squashfs.PathBuffers
import FirmwareTools.Opkg.FeedLoad
import FirmwareTools.Opkg.ReleaseParse
import FirmwareTools.Opkg.ReleaseDownload
import FirmwareTools.Opkg.DependEntry
import FirmwareTools.Opkg.VersionStr
import FirmwareTools.Opkg.StatusFile
import FirmwareTools.Bytes.Scan
import FirmwareTools.Opkg.ControlBounds
import FirmwareTools.Opkg.ReleaseTotal
import FirmwareTools.Squashfs.XattrBounds
import FirmwareTools.Opkg.Autoremove
import FirmwareTools.Opkg.BackupUnwind
import FirmwareTools.Opkg.FailedInstall
import FirmwareTools.Opkg.FileClash
import FirmwareTools.Opkg.FileOwners
import FirmwareTools.Opkg.BestCandidate
import FirmwareTools.Opkg.FieldNames
import FirmwareTools.Opkg.UpgradeList
import FirmwareTools.Opkg.WhatDepends
import FirmwareTools.Bytes.SparseFile
import FirmwareTools.Squashfs.FileWriter
import FirmwareTools.Squashfs.ListFiles
import FirmwareTools.Squashfs.DirSize
import FirmwareTools.Hexof.Hexof
import FirmwareTools.Opkg.ActiveForest
import FirmwareTools.Opkg.ActiveSort
import FirmwareTools.Opkg.DownloadCache
import FirmwareTools.Opkg.HashTable
import FirmwareTools.Squashfs.LzmaOptions
import FirmwareTools.Squashfs.LzmaUncompress
import FirmwareTools.Squashfs.SortFile
import FirmwareTools.Squashfs.FileCache
import FirmwareTools.Opkg.ForcedRemoval
import FirmwareTools.Squashfs.ExtractCache
import FirmwareTools.Squashfs.Extraction
import FirmwareTools.Squashfs.XzFilters
