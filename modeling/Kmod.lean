import Kmod.Lib.Digraph
import Kmod.Lib.Lists
import Kmod.Lib.Bytes
import Kmod.Lib.Memory
import Kmod.Lib.Ranking
import Kmod.Lib.ByteScan
import Kmod.Lib.Traced
import Kmod.Lib.Segments
import Kmod.Lib.Replace
import Kmod.Lib.Sorting
import Kmod.Lib.SortedTable
import Kmod.Lib.Explore
import Kmod.Lib.Fuel
import Kmod.Lib.Fnmatch
import Kmod.Lib.Rings
import Kmod.Base
import Kmod.Depmod.Modules
import Kmod.Depmod.Calculate
import Kmod.Depmod.TopoSort
import Kmod.Depmod.Search
import Kmod.Depmod.SearchStack
import Kmod.Depmod.Cycles
import Kmod.Depmod.CycleReports
import Kmod.Index.Node
import Kmod.Index.Read
import Kmod.Index.Termination
import Kmod.Index.Bounds
import Kmod.Index.Trie
import Kmod.Index.Canonical
import Kmod.Index.Layout
import Kmod.Index.ReadBack
import Kmod.Index.Search
import Kmod.Index.Contents
import Kmod.Index.Wild
import Kmod.Depmod.Output
import Kmod.Depmod.Publish
import Kmod.Depmod.Priority
import Kmod.Depmod.UpToDate
import Kmod.Depmod.SearchOrder
import Kmod.Depmod.Comparison
import Kmod.Depmod.Selection
import Kmod.Libkmod.Indexes
import Kmod.Index.Agree
import Kmod.Shared.Strbuf
import Kmod.Shared.Strcmp
import Kmod.Shared.Backoff
import Kmod.Shared.ReadLine
import Kmod.Shared.Mkdir
import Kmod.Shared.Hash
import Kmod.Shared.HashOps
import Kmod.Shared.StrbufOps
import Kmod.Shared.HashMap
import Kmod.Index.Dump
import Kmod.Depmod.Symbols
import Kmod.Depmod.Register
import Kmod.Depmod.ModulesOrder
import Kmod.Libkmod.ProbeList
import Kmod.Libkmod.ProbeInsert
import Kmod.Libkmod.ProbeOutcome
import Kmod.Libkmod.Depline
import Kmod.Libkmod.Refcounts
import Kmod.Libkmod.LinkedList
import Kmod.Libkmod.ListOps
import Kmod.Libkmod.ConfFiles
import Kmod.Depmod.CfgFiles
import Kmod.Depmod.CfgPath
import Kmod.Libkmod.Config
import Kmod.Libkmod.Aliases
import Kmod.Depmod.BuiltinAlias
import Kmod.Libkmod.WildQueries
import Kmod.Libkmod.ConfigWords
import Kmod.Libkmod.DepScan
import Kmod.Libkmod.SoftdepText
import Kmod.Libkmod.Normalize
import Kmod.Libkmod.Kcmdline
import Kmod.Libkmod.KcmdlineTokens
import Kmod.Libkmod.Blacklist
import Kmod.Libkmod.Elf
import Kmod.Libkmod.ElfNew
import Kmod.Libkmod.ElfSymbols
import Kmod.Libkmod.ElfSafety
import Kmod.Libkmod.ElfAccessors
import Kmod.Libkmod.Modinfo
import Kmod.Libkmod.ElfStrip
import Kmod.Libkmod.SectionCache
import Kmod.Libkmod.NeededSymbols
import Kmod.Libkmod.Signature
import Kmod.ModulesDep
import Kmod.Modprobe.Rmmod
import Kmod.Modprobe.RmmodSoftdeps
import Kmod.Modprobe.RmmodWait
import Kmod.Modprobe.OptionsEnv
import Kmod.Modprobe.OptionsPieces
import Kmod.Modprobe.CmdlineOpts
import Kmod.Libkmod.BuiltinInfo
import Kmod.Depmod.SymbolNames
import Kmod.Depmod.StackSize
import Kmod.ModulesLoad
import Kmod.Index.Served
import Kmod.Depmod.IndexOutput
import Kmod.Libkmod.Lookup
import Kmod.ModulesFound
import Kmod.ModulePool
import Kmod.Shared.PtrArray
import Kmod.Shared.ReadSafe
import Kmod.Libkmod.Resources
import Kmod.Libkmod.StoredConfig
import Kmod.Modprobe.ShowConfig
import Kmod.Shared.Numbers
import Kmod.Libkmod.Loaded
import Kmod.Shared.Scanf
import Kmod.Depmod.DeviceNodes
import Kmod.Modprobe.DryRun
import Kmod.Depmod.KernelSymbols
