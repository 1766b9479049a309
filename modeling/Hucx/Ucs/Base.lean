/-
Hucx.Ucs.Base — what every layer of the library takes from UCS.

`src/ucs/type/status.h`: the status codes the modelled functions return.
-/
import Mathlib

namespace Hucx

/-- The values of `ucs_status_t` that occur in the model. -/
inductive Status where
  | ok | inprogress | errNoMemory | errInvalidParam | errInvalidAddr | errNoResource | errBusy
  | errMessageTruncated | errNoElem | errUnsupported | errCanceled | errAlreadyExists
  deriving DecidableEq

end Hucx
