import Pegastore.Core.Types
import Pegastore.Lib.WriteOnce

/-!
# What a backend is for

The purpose of a backend, without devices, pools, queues, locks or threads: a store of objects whose
slots are written once. A put creates the object if there is none and lands bytes in slots that hold
none. Only `Cache` objects lose bytes on their own. A get answers with the bytes that were in the
slot when it looked. `slotStore` is the library's write-once store at the types of this repository.
-/

set_option autoImplicit false
set_option relaxedAutoImplicit false

namespace Pegastore

open Transition

/-- Only `Cache` objects may be evicted, and a slot takes bytes of its length. -/
def slotPolicy : WriteOnce.Policy ObjectSpec (List UInt8) where
  mayGo := fun spec ↦ spec.retention = .cache
  fits := fun spec i bytes ↦ ∃ slotSpec, spec.slots[i]? = some slotSpec ∧
    bytes.length = slotSpec.len

abbrev SlotStore := WriteOnce.Store Key ObjectSpec (List UInt8)

abbrev SlotMove := WriteOnce.Move Key ObjectSpec (List UInt8)

def slotStore : System SlotStore SlotMove := WriteOnce.store slotPolicy

end Pegastore
