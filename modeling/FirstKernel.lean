import FirstKernel.Lib.ByteMem
import FirstKernel.Lib.Cells
import FirstKernel.Lib.Tiling
import FirstKernel.Lib.Run
import FirstKernel.Lib.Numeral
import FirstKernel.Lib.InPlace
import FirstKernel.Lib.Words
import FirstKernel.Lib.Bitmap
import FirstKernel.Lib.SetAlloc
import FirstKernel.Lib.Chunks
import FirstKernel.Lib.Arbor
import FirstKernel.Lib.Alternate
import FirstKernel.Lib.Split
import FirstKernel.Lib.Tokens
import FirstKernel.Lib.Outcome
import FirstKernel.Lib.Page
import FirstKernel.Lib.Walk
import FirstKernel.Lib.Ia32
import FirstKernel.Lib.Ia32List
import FirstKernel.Lib.Descriptor
import FirstKernel.Lib.I8259
import FirstKernel.Lib.I8253
import FirstKernel.Lib.Ports
import FirstKernel.Machine
import FirstKernel.Heap.Model
import FirstKernel.Heap.Header
import FirstKernel.Heap.Spec
import FirstKernel.Heap.Client
import FirstKernel.Heap.Run
import FirstKernel.Heap.Align
import FirstKernel.Heap.Coalesce
import FirstKernel.Heap.Stack
import FirstKernel.Heap.FirstFit
import FirstKernel.Heap.Realloc
import FirstKernel.Heap.Reuse
import FirstKernel.Heap.Twin
import FirstKernel.Frames.Model
import FirstKernel.Frames.Spec
import FirstKernel.Frames.Exact
import FirstKernel.Frames.Run
import FirstKernel.Frames.Tests
import FirstKernel.Frames.Overlap
import FirstKernel.Paging.Cpu
import FirstKernel.Paging.Screen
import FirstKernel.Paging.Model
import FirstKernel.Paging.Tables
import FirstKernel.Paging.Translation
import FirstKernel.Paging.Start
import FirstKernel.Console.Terminal
import FirstKernel.Console.Window
import FirstKernel.Console.Stdio
import FirstKernel.Console.Itoa
import FirstKernel.Console.ItoaBuffer
import FirstKernel.Console.IntToString
import FirstKernel.Console.Format
import FirstKernel.Console.Strtok
import FirstKernel.Console.StrtokRun
import FirstKernel.Console.Shell
import FirstKernel.Console.Prompt
import FirstKernel.Console.Editor
import FirstKernel.Console.ShiftKeys
import FirstKernel.Fs.Model
import FirstKernel.Libc.Memmove
import FirstKernel.Fs.Path
import FirstKernel.Fs.Commands
import FirstKernel.Fs.Spec
import FirstKernel.Fs.File
import FirstKernel.Fs.FileRun
import FirstKernel.Fs.Cat
import FirstKernel.Console.Calls
import FirstKernel.Fs.Transfer
import FirstKernel.Fs.Shelf
import FirstKernel.Fs.TwoRuns
import FirstKernel.Fs.Descriptor
import FirstKernel.Fs.Tree
import FirstKernel.Fs.Create
import FirstKernel.Fs.Lookup
import FirstKernel.Libc.Strcmp
import FirstKernel.Fs.Dispatch
import FirstKernel.Fs.Remove
import FirstKernel.Fs.TreeRun
import FirstKernel.Fs.Dismantle
import FirstKernel.Fs.ComponentWalk
import FirstKernel.Fs.Resolve
import FirstKernel.Fs.AllOrNothing
import FirstKernel.Fs.Buffers
import FirstKernel.Fs.MakeAt
import FirstKernel.Fs.Table
import FirstKernel.Fs.Census
import FirstKernel.Fs.Effect
import FirstKernel.Fs.Disk
import FirstKernel.Fs.DiskRun
import FirstKernel.Fs.Total
import FirstKernel.Fs.Messages
import FirstKernel.Fs.Stock
import FirstKernel.Fs.Names
import FirstKernel.Fs.Naming
import FirstKernel.Fs.Leak
import FirstKernel.Interrupt.Stub
import FirstKernel.Interrupt.Tables
import FirstKernel.Interrupt.Pic
import FirstKernel.Lib.Rose
import FirstKernel.Lib.Arena
import FirstKernel.Fs.Volume
import FirstKernel.Fs.Depict
import FirstKernel.Fs.DepictCommands
import FirstKernel.Session.Model
import FirstKernel.Session.Run
import FirstKernel.Session.Repl
import FirstKernel.Session.TreeShell
import FirstKernel.Session.Budget
import FirstKernel.Interrupt.Irq
import FirstKernel.Interrupt.Transcript
import FirstKernel.Interrupt.Install
