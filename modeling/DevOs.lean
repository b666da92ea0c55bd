import DevOs.Sched.Linked
import DevOs.Sched.Rotation
import DevOs.Sched.Context
import DevOs.Sched.Irq
import DevOs.Boot.EarlyTables
import DevOs.Mm.Vmm.Identity
import DevOs.Elf.Rights
import DevOs.Syscall.Munmap
import DevOs.Syscall.Dispatch
import DevOs.Syscall.Nanosleep
import DevOs.Mm.Heap.Realloc
import DevOs.Mm.Heap.FreeList
import DevOs.Mm.Heap.Backed
import DevOs.Elf.Failure
import DevOs.Elf.Writes
import DevOs.Printf.Bounded
import DevOs.Printf.Standard
import DevOs.Fs.Components
import DevOs.Fs.Mounts
import DevOs.Fs.Names
import DevOs.Fs.Append
import DevOs.Net.Bounds
import DevOs.Proc.Reap
import DevOs.Proc.Table
import DevOs.Acpi.Madt
import DevOs.Acpi.Bounds
import DevOs.Acpi.Root
import DevOs.Arch.Ioapic
import DevOs.Arch.Pic
import DevOs.Net.Cache
import DevOs.Drivers.Ata.Sectors
import DevOs.Drivers.Prp
import DevOs.Drivers.Waits
import DevOs.Drivers.Keyboard
import DevOs.Drivers.Rtc
import DevOs.Drivers.Vga
import DevOs.Net.Refinement
import DevOs.Drivers.Gfx
import DevOs.Shell
import DevOs.Drivers.Mouse
