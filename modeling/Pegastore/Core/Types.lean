import Mathlib.Algebra.Order.BigOperators.Group.List
import Mathlib.Algebra.Order.Ring.Nat
import Mathlib.Data.List.Dedup
import Mathlib.Data.List.Lex
import Mathlib.Data.List.MinMax
import Mathlib.Data.List.Nodup
import Mathlib.Data.Prod.Lex
import Mathlib.Tactic.Common

/-!
# Vocabulary of the store

Keys, devices, placements, retention classes and specifications of `types.rs`, and the errors of
`error.rs`. Keys are byte strings in lexicographic order, the order of the index. Lengths, byte
counts and node ids are natural numbers; the functions that add them carry the 64-bit checks of the
source.

An error keeps its kind, status, message and context. A context value is kept as the value handed
to `with_context`, before it is rendered as text.
-/

set_option autoImplicit false
set_option relaxedAutoImplicit false

namespace Pegastore

/-- Bytes are ordered by value, and byte strings lexicographically. -/
instance byteLinearOrder : LinearOrder UInt8 where
  le_refl := UInt8.le_refl
  le_trans := fun _ _ _ ↦ UInt8.le_trans
  le_antisymm := fun _ _ ↦ UInt8.le_antisymm
  le_total := UInt8.le_total
  lt_iff_le_not_ge := by
    intro a b
    rw [UInt8.lt_iff_le_and_ne]
    constructor
    · rintro ⟨hle, hne⟩
      exact ⟨hle, fun hge ↦ hne (UInt8.le_antisymm hle hge)⟩
    · rintro ⟨hle, hnge⟩
      exact ⟨hle, fun heq ↦ hnge (heq ▸ UInt8.le_refl a)⟩
  toDecidableLE := inferInstance
  toDecidableLT := inferInstance
  toDecidableEq := inferInstance

/-- Opaque object key. -/
abbrev Key := List UInt8

/-- Physical position coordinate. -/
inductive Device
  | cpu (numa : UInt16)
  | gpu (index : UInt16)
deriving DecidableEq, Repr

def Device.isGpu : Device → Bool
  | .gpu _ => true
  | .cpu _ => false

/-- Who owns the bytes of a replica. -/
inductive Tier
  | dram
  | ssd
  | external
deriving DecidableEq, Repr

structure Location where
  node : ℕ
  device : Device
  tier : Tier
deriving DecidableEq, Repr

/-- Where the bytes of a slot should land. -/
inductive Placement
  | strict (device : Device)
  | prefer (device : Device)
  | each (devices : List Device)
  | anywhere
deriving DecidableEq, Repr

/-- Eviction class of an object. -/
inductive Retention
  | cache
  | explicit
deriving DecidableEq, Repr

structure SlotSpec where
  len : ℕ
  placement : Placement
deriving DecidableEq, Repr

structure ObjectSpec where
  retention : Retention
  slots : List SlotSpec
deriving DecidableEq, Repr

structure Replica where
  location : Location
  misplaced : Bool
deriving DecidableEq, Repr

structure SlotInfo where
  len : ℕ
  replicas : List Replica
deriving DecidableEq, Repr

structure ObjectInfo where
  retention : Retention
  slots : List SlotInfo
deriving DecidableEq, Repr

/-! ### Errors -/

inductive ErrorKind
  | notFound
  | evicted
  | alreadyExists
  | specMismatch
  | noSpace
  | unsupported
  | invalidInput
  | unavailable
  | unexpected
deriving DecidableEq, Repr

inductive ErrorStatus
  | permanent
  | temporary
deriving DecidableEq, Repr

def ErrorKind.defaultStatus : ErrorKind → ErrorStatus
  | .noSpace => .temporary
  | .unavailable => .temporary
  | _ => .permanent

/-- What `with_context` records, before it is rendered. -/
inductive ContextValue
  | num (n : ℕ)
  | device (d : Device)
  | key (k : Key)
deriving DecidableEq, Repr

structure Error where
  kind : ErrorKind
  status : ErrorStatus
  message : String
  context : List (String × ContextValue)
deriving DecidableEq, Repr

def Error.new (kind : ErrorKind) (message : String) : Error :=
  ⟨kind, kind.defaultStatus, message, []⟩

def Error.withContext (e : Error) (name : String) (value : ContextValue) : Error :=
  { e with context := e.context ++ [(name, value)] }

@[simp] theorem Error.withContext_kind (e : Error) (name : String) (value : ContextValue) :
    (e.withContext name value).kind = e.kind := rfl

@[simp] theorem Error.new_kind (kind : ErrorKind) (message : String) :
    (Error.new kind message).kind = kind := rfl

/-- The result of a fallible operation. -/
abbrev Result (α : Type) := Except Error α

end Pegastore
