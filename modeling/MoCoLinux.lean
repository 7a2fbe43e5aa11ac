import MoCoLinux.Arch.Theorems
import MoCoLinux.Arch.Theorems.Destroy
import MoCoLinux.Arch.Theorems.Extable
import MoCoLinux.Arch.Theorems.IdleWait
import MoCoLinux.Arch.Theorems.Passage
import MoCoLinux.Arch.Theorems.RunGate
import MoCoLinux.Arch.Theorems.Stubs
import MoCoLinux.Arch.Theorems.Tick
import MoCoLinux.Cobd.Theorems.Boot
import MoCoLinux.Cobd.Theorems.Request
import MoCoLinux.Cogpu.Theorems.Adoption
import MoCoLinux.Cogpu.Theorems.Blob
import MoCoLinux.Cogpu.Theorems.Chain
import MoCoLinux.Cogpu.Theorems.Fences
import MoCoLinux.Cogpu.Theorems.Hints
import MoCoLinux.Cogpu.Theorems.Iovec
import MoCoLinux.Cogpu.Theorems.Rings
import MoCoLinux.Cogpu.Theorems.Screen
import MoCoLinux.Cogpu.Theorems.Serve
import MoCoLinux.Cogpu.Theorems.Slices
import MoCoLinux.Cogpu.Theorems.Vring
import MoCoLinux.Console.Theorems
import MoCoLinux.Copresent.Theorems.Broker
import MoCoLinux.Copresent.Theorems.Channel
import MoCoLinux.Copresent.Theorems.Rings
import MoCoLinux.Guest.Theorems
import MoCoLinux.Guest.Theorems.Ipi
import MoCoLinux.Guest.Theorems.Tables
import MoCoLinux.Guest.Theorems.Ticks
import MoCoLinux.Kload.Theorems.Begin
import MoCoLinux.Kload.Theorems.Grow
import MoCoLinux.Kload.Theorems.Ram
import MoCoLinux.Kload.Theorems.Translation
import MoCoLinux.Kload.Theorems.Window
import MoCoLinux.Manager.Theorems.Kmap
import MoCoLinux.Manager.Theorems.Windows
import MoCoLinux.Net.Theorems.Batch
import MoCoLinux.Net.Theorems.Rx
import MoCoLinux.Net.Theorems.Tx
import MoCoLinux.Net.Theorems.Walk
import MoCoLinux.Xwire.Theorems
import MoCoLinux.Xwire.Theorems.Chan
