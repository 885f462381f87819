import AdamOS.Kernel.KmallocSafety
import AdamOS.Kernel.KmallocReuse
import AdamOS.Kernel.Lifecycle
import AdamOS.Kernel.ProcessList
import AdamOS.Kernel.Entries
import AdamOS.Kernel.Waiting
import AdamOS.Kernel.Kill
import AdamOS.Kernel.Waitpid
import AdamOS.Kernel.Zombie
import AdamOS.Kernel.StdinQueue
import AdamOS.Kernel.WakeReasons
import AdamOS.Kernel.Frame
import AdamOS.Kernel.PageTable
import AdamOS.Kernel.AddressSpace
import AdamOS.Kernel.Mapping
import AdamOS.Kernel.PageWalk
import AdamOS.Kernel.RunQueue
import AdamOS.Kernel.QueueIntact
import AdamOS.Kernel.Contexts
import AdamOS.Files.Fat16
import AdamOS.Files.Volume
import AdamOS.Files.Chain
import AdamOS.Files.RoundTrip
import AdamOS.Files.Descriptors
import AdamOS.Files.ReadBounds
import AdamOS.Files.FormatName
import AdamOS.Files.Listing
import AdamOS.Files.Insertion
import AdamOS.Files.Allocation
import AdamOS.Files.ReadWrite
import AdamOS.Files.Creation
import AdamOS.Files.AnyFat
import AdamOS.Display.DirtyRegion
import AdamOS.Kernel.CopyOut
import AdamOS.Kernel.Copying
import AdamOS.Kernel.Spaces
import AdamOS.Kernel.Boot
import AdamOS.Kernel.SpaceRun
import AdamOS.Kernel.ForkCopy
import AdamOS.Display.Line
import AdamOS.Display.Vga
import AdamOS.Display.Window
import AdamOS.Display.WindowList
import AdamOS.Display.Compositing
import AdamOS.Display.Pixels
import AdamOS.Display.DrawWindow
import AdamOS.Display.TopWindow
import AdamOS.Display.Desktop
import AdamOS.Display.TerminalWindow
import AdamOS.Display.WindowOwner
import AdamOS.Display.KeyRouting
import AdamOS.Display.MouseInput
import AdamOS.Display.Canvas
import AdamOS.Display.EventQueue
import AdamOS.Display.FastRect
import AdamOS.Display.TextTerminal
import AdamOS.Display.AnsiEscape
import AdamOS.Kernel.Handout
import AdamOS.Kernel.ExecImage
import AdamOS.Kernel.CleanImage
import AdamOS.Kernel.IdentityTables
import AdamOS.Kernel.UserIsolation
import AdamOS.Kernel.Exhaustion
import AdamOS.Kernel.HeapBreak
import AdamOS.Kernel.FrameLeak
import AdamOS.Kernel.SharedKernel
import AdamOS.Programs.Bf
import AdamOS.Programs.Tetris
import AdamOS.Programs.TetrisGame
import AdamOS.Programs.Malloc
import AdamOS.Programs.Obj
import AdamOS.Programs.Ls
import AdamOS.Programs.LsDirectory
import AdamOS.Programs.ShellProcesses
import AdamOS.Kernel.ParentForest
import AdamOS.Kernel.StdinFifo
import AdamOS.Kernel.OneRunning
import AdamOS.Kernel.SleepTicks
import AdamOS.Display.Dragging
import AdamOS.Display.LineReads
import AdamOS.Kernel.HeapBalance
import AdamOS.Display.Blit
import AdamOS.Display.LineWalk
import AdamOS.Programs.TetrisRows
import AdamOS.Programs.BfScans
import AdamOS.Programs.ObjIndices
import AdamOS.Programs.Strings
import AdamOS.Programs.Calculator
import AdamOS.Programs.CalculatorClicks
import AdamOS.Kernel.Coalesce
import AdamOS.Kernel.FrameBitmap
import AdamOS.Programs.Hexadecimal
import AdamOS.Programs.Strtok
import AdamOS.Cpu.Descriptors
import AdamOS.Cpu.Preemption
import AdamOS.Cpu.SystemCalls
import AdamOS.Display.MouseStream
import AdamOS.Files.AtaDisk
import AdamOS.Kernel.Turns
import AdamOS.Kernel.HeapMemory
import AdamOS.Files.Catalogue
import AdamOS.Cpu.Bootstrap
