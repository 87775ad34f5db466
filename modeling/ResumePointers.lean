import ResumePointers.Cow.Refcount
import ResumePointers.Cow.Refinement
import ResumePointers.Cow.Faults
import ResumePointers.Lazy.Ownership
import ResumePointers.Lazy.Bound
import ResumePointers.Lazy.Fork
import ResumePointers.Lazy.Serve
import ResumePointers.Lazy.OnlyFault
import ResumePointers.Alloc.Blocks
import ResumePointers.Alloc.Growth
import ResumePointers.Alloc.Groups
import ResumePointers.Alloc.BestFit
import ResumePointers.Alloc.Policy
import ResumePointers.Alloc.Requests
import ResumePointers.Sync.ReaderPref
import ResumePointers.Sync.WriterPref
import ResumePointers.Sync.Preference
import ResumePointers.Sync.Zemaphore
import ResumePointers.Sync.Wakeups
import ResumePointers.Shell.Jobs
import ResumePointers.Shell.Splitting
import ResumePointers.Dsa.RedBlackInsert
import ResumePointers.Dsa.CircularQueue
import ResumePointers.Dsa.Dictionary
import ResumePointers.Dsa.ProbeChains
import ResumePointers.Dsa.LinearGrowth
import ResumePointers.Dsa.HeapSort
import ResumePointers.Dsa.BinarySearch
import ResumePointers.Notakto.AlphaBeta
import ResumePointers.Notakto.Maxmin
import ResumePointers.Networks.Lab2
import ResumePointers.Networks.Delivery
import ResumePointers.Spreadsheet.Edits
import ResumePointers.Spreadsheet.Formula
import ResumePointers.Daa.Outline
import ResumePointers.Lib.Envelope
import ResumePointers.Daa.Area
import ResumePointers.Asm.Machine
import ResumePointers.Asm.Vector
import ResumePointers.Asm.Heap
import ResumePointers.Asm.HeapRun
import ResumePointers.Lib.FirstMax
import ResumePointers.Voting.Ballots
import ResumePointers.Voting.Plurality
import ResumePointers.Lib.MixedRadix
import ResumePointers.NormalForm.Payoffs
import ResumePointers.Asm.Convention
import ResumePointers.Asm.Calls
import ResumePointers.Asm.HeapAgreement
import ResumePointers.Ml.DecisionTree
import ResumePointers.Xv6.Demand
import ResumePointers.Cow.FailedFork
import ResumePointers.Cow.Fork
import ResumePointers.Cow.Distinct
import ResumePointers.Cow.Copyout
import ResumePointers.Mips.Machine
import ResumePointers.Mips.Cells
import ResumePointers.Mips.Merge
import ResumePointers.Mips.Scratch
import ResumePointers.Mips.Mergesort
import ResumePointers.Lib.Bisect
import ResumePointers.Mips.BinarySearch
import ResumePointers.Notakto.Positions
import ResumePointers.NormalForm.Game
import ResumePointers.NormalForm.Strong
import ResumePointers.NormalForm.Weak
import ResumePointers.NormalForm.PureNash
import ResumePointers.NormalForm.MixedNash
import ResumePointers.Voting.Stv
import ResumePointers.Voting.Copeland
import ResumePointers.Lib.CrcPolynomial
import ResumePointers.Networks.Division
import ResumePointers.Spreadsheet.FormulaBounds
import ResumePointers.Lib.Rounding
import ResumePointers.Lib.BijectiveBase
import ResumePointers.Spreadsheet.Columns
import ResumePointers.Spreadsheet.Export
import ResumePointers.Lib.GroupSums
import ResumePointers.Spreadsheet.Pivot
import ResumePointers.Shell.Chain
import ResumePointers.Daa.MergeSafety
import ResumePointers.Daa.Length
import ResumePointers.Ml.DepthLimit
import ResumePointers.Lib.Tableau
import ResumePointers.Ml.Simplex
import ResumePointers.Lib.Clustering
import ResumePointers.Ml.KMeans
import ResumePointers.Lib.MergeSort
import ResumePointers.Daa.MergeSort
import ResumePointers.Lib.Framed
import ResumePointers.Dsa.RedBlackRotation
import ResumePointers.Lib.Simulation
import ResumePointers.Lib.AtomicStore
import ResumePointers.Fs.Log
import ResumePointers.Fs.LogSpace
import ResumePointers.Fs.LogCrash
import ResumePointers.Lib.Letters
import ResumePointers.User.Grep
import ResumePointers.User.Sh
import ResumePointers.User.ShGrammar
import ResumePointers.User.ShRun
import ResumePointers.Fs.Pipe
import ResumePointers.Lib.Plans
import ResumePointers.TicTacToe.History
import ResumePointers.TicTacToe.Game
import ResumePointers.TicTacToe.Equilibrium
import ResumePointers.Lib.Corrections
import ResumePointers.Ml.Perceptron
import ResumePointers.Lib.Counted
import ResumePointers.Fs.Files
import ResumePointers.Fs.FilesSafe
import ResumePointers.Lib.LockedStore
import ResumePointers.Lib.LineEditor
import ResumePointers.Xv6.Console
import ResumePointers.Xv6.ConsoleLine
import ResumePointers.Xv6.ProcTable
import ResumePointers.Xv6.ProcFamily
import ResumePointers.Xv6.ProcSafe
import ResumePointers.Fs.Bcache
import ResumePointers.Fs.BcacheStore
