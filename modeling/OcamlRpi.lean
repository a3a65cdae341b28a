import OcamlRpi.Boot.Abort
import OcamlRpi.Boot.Heap
import OcamlRpi.Console.Input
import OcamlRpi.Console.Output
import OcamlRpi.Entry.Dump
import OcamlRpi.Entry.Irq
import OcamlRpi.Framebuffer.Draw
import OcamlRpi.Framebuffer.Picture
import OcamlRpi.Framebuffer.Polling
import OcamlRpi.Lists.Iterator
import OcamlRpi.Memory.Bins
import OcamlRpi.Memory.Calloc
import OcamlRpi.Memory.Coalescing
import OcamlRpi.Memory.Isolation
import OcamlRpi.Memory.Selftest
import OcamlRpi.Printf.Fortify
import OcamlRpi.Printf.Hex
import OcamlRpi.Printf.Readable
import OcamlRpi.Printf.Reads
import OcamlRpi.Stdlib.Grammar
import OcamlRpi.Stdlib.Memcmp
import OcamlRpi.Stdlib.Memmove
import OcamlRpi.Stdlib.RoundTrip
import OcamlRpi.Stdlib.Strcmp
import OcamlRpi.Stdlib.Strcpy
import OcamlRpi.Thread.Contexts
import OcamlRpi.Thread.Fairness
import OcamlRpi.Thread.Roots
import OcamlRpi.Thread.Unlock
import OcamlRpi.Time.Clock
import OcamlRpi.Time.Tock
