import Pegastore.Lib.Buckets
import Pegastore.Lib.FinMap
import Pegastore.Rdma.MemoryMap

/-!
# The backend: NICs, state and registration

`RcBackend` with its state: the NICs with their NUMA nodes, the round-robin over the NICs of a node,
the sessions and connections, and the registered memory. Memory is registered with every NIC, so an
entry of the map has one key pair per NIC, in the order of the NICs; `Complete` is this together
with the invariant of the map, and every sequence of calls keeps it.

A round-robin counter is shared by all threads. `NicGroup.next` takes the value that its `fetch_add`
returns, and the results hold for every value, so also across a wrap-around.
-/

set_option autoImplicit false
set_option relaxedAutoImplicit false

namespace Pegastore.Rdma

open Outcome Transition

inductive LinkLayer
  | infiniBand
  | ethernet
  | unspecified
deriving DecidableEq, Repr

/-- An opened NIC. -/
structure RcRuntime where
  nicName : String
  numaNode : NumaNode
  linkLayer : LinkLayer
  localGid : List ℕ
  localLid : ℕ
deriving DecidableEq, Repr

/-- The backend: `RcBackend::new` refuses an empty list of NICs and zero queue pairs per peer. -/
structure RcBackend where
  runtimes : List RcRuntime
  qpsPerPeer : ℕ
  runtimes_ne_nil : runtimes ≠ []
  qpsPerPeer_pos : 0 < qpsPerPeer

def RcBackend.nicCount (backend : RcBackend) : ℕ := backend.runtimes.length

theorem RcBackend.nicCount_pos (backend : RcBackend) : 0 < backend.nicCount :=
  List.length_pos_iff.mpr backend.runtimes_ne_nil

/-! ### State -/

/-- What the peer must know of a queue pair. -/
structure RcEndpoint where
  gid : List ℕ
  lid : ℕ
  qpNum : ℕ
  psn : ℕ
deriving DecidableEq, Repr, Inhabited

/-- The endpoints of one NIC. -/
structure NicHandshake where
  endpoints : List RcEndpoint
deriving DecidableEq, Repr

/-- A session. The handshake that created it, its NIC and its position on the NIC tell it from every
other session; they exist only in the model. -/
structure RcSession where
  handshake : ℕ
  nic : ℕ
  position : ℕ
  localEndpoint : RcEndpoint
deriving DecidableEq, Repr, Inhabited

/-- The sessions of a NIC that wait for their handshake, in order. -/
abbrev PerNicState := List RcSession

/-- The sessions of a connection on one NIC, with their round-robin counter. -/
structure ConnNic where
  sessions : List RcSession
  rrCounter : ℕ
deriving DecidableEq, Repr

/-- An established connection, with the metadata that the peer was given. -/
structure AddrConnection where
  nics : List ConnNic
  localNics : List NicHandshake
deriving DecidableEq, Repr

/-- What the backend keeps under its lock. -/
structure RcBackendState where
  registered : LocalMemoryMap
  nics : List PerNicState
  addrConnections : FinMap String AddrConnection
  connecting : List String

def RcBackendState.new (nicCount : ℕ) : RcBackendState :=
  ⟨LocalMemoryMap.empty, List.replicate nicCount [], FinMap.empty, []⟩

/-! ### NIC selection -/

/-- NICs that are used in turn. -/
structure NicGroup where
  nicIndices : List ℕ
deriving DecidableEq, Repr

/-- The NIC for the counter value `idx`. -/
def NicGroup.next (group : NicGroup) (idx : ℕ) : Exec ℕ := do
  let i ← remU64 idx group.nicIndices.length
  index group.nicIndices i

/-- The NICs of each node, under the number of the node, and all NICs. -/
structure NumaRoundRobin where
  groups : SortedMap ℕ NicGroup
  fallback : NicGroup

/-- `map.entry(node).or_default().push(i)`. -/
def addToGroup (groups : SortedMap ℕ NicGroup) (node : NumaNode) (i : ℕ) : SortedMap ℕ NicGroup :=
  groups.insert node.id ⟨((groups.find? node.id).elim [] NicGroup.nicIndices) ++ [i]⟩

/-- The loop over the NICs. -/
def groupByNode (nics : List (RcRuntime × ℕ)) : SortedMap ℕ NicGroup :=
  nics.foldl (fun groups e ↦
    if e.1.numaNode.isValid then addToGroup groups e.1.numaNode e.2 else groups) SortedMap.empty

def NumaRoundRobin.fromRuntimes (runtimes : List RcRuntime) : NumaRoundRobin where
  groups := groupByNode runtimes.zipIdx
  fallback := ⟨List.range runtimes.length⟩

/-- The NIC for a region on a node, for the counter value `idx`. -/
def NumaRoundRobin.pick (rr : NumaRoundRobin) (numa : NumaNode) (idx : ℕ) : Exec ℕ :=
  match if numa.isValid then rr.groups.find? numa.id else none with
  | some group => group.next idx
  | none => rr.fallback.next idx

/-- A group that is not empty has a NIC for every counter value. -/
theorem NicGroup.exists_next {group : NicGroup} (h : group.nicIndices ≠ []) (idx : ℕ) :
    ∃ nic ∈ group.nicIndices, group.next idx = .ok nic := by
  have hlength : 0 < group.nicIndices.length := List.length_pos_iff.mpr h
  have hlt : idx % group.nicIndices.length < group.nicIndices.length := Nat.mod_lt _ hlength
  refine ⟨_, List.getElem_mem hlt, ?_⟩
  unfold NicGroup.next remU64 index
  rw [if_neg hlength.ne', ok_bind, List.getElem?_eq_getElem hlt]

/-- The NICs on a node. -/
def nicsOn (nics : List (RcRuntime × ℕ)) (node : NumaNode) : List ℕ :=
  (nics.filter fun e ↦ e.1.numaNode = node).map Prod.snd

/-- After the loop every valid node with a NIC has the group of its NICs. -/
theorem find?_groupByNode (nics : List (RcRuntime × ℕ)) {node : NumaNode}
    (hvalid : node.isValid = true) : (groupByNode nics).find? node.id =
      if nicsOn nics node = [] then none else some ⟨nicsOn nics node⟩ := by
  induction nics using List.reverseRecOn with
  | nil => rfl
  | append_singleton nics e ih =>
    have hstep : groupByNode (nics ++ [e]) = if e.1.numaNode.isValid then
        addToGroup (groupByNode nics) e.1.numaNode e.2 else groupByNode nics := by
      unfold groupByNode
      rw [List.foldl_append, List.foldl_cons, List.foldl_nil]
    rw [hstep]
    have hnics : nicsOn (nics ++ [e]) node =
        nicsOn nics node ++ if e.1.numaNode = node then [e.2] else [] := by
      unfold nicsOn
      rw [List.filter_append, List.map_append]
      by_cases heq : e.1.numaNode = node
      · simp [heq]
      · simp [heq]
    rw [hnics]
    by_cases heq : e.1.numaNode = node
    · subst heq
      have hold : ((groupByNode nics).find? e.1.numaNode.id).elim [] NicGroup.nicIndices =
          nicsOn nics e.1.numaNode := by
        rw [ih]
        split_ifs with hnil
        · exact hnil.symm
        · rfl
      rw [if_pos hvalid, addToGroup, SortedMap.find?_insert_self, hold, if_pos rfl, if_neg]
      exact List.append_ne_nil_of_right_ne_nil _ (List.cons_ne_nil _ _)
    · rw [if_neg heq, List.append_nil, ← ih]
      split_ifs
      · refine SortedMap.find?_insert_of_ne _ _ fun hid ↦ heq ?_
        cases hnode : e.1.numaNode
        cases node
        rw [hnode] at hid
        exact congrArg NumaNode.mk hid
      · rfl

theorem mem_nicsOn_zipIdx {runtimes : List RcRuntime} {node : NumaNode} {nic : ℕ} :
    nic ∈ nicsOn runtimes.zipIdx node ↔
      ∃ runtime, runtimes[nic]? = some runtime ∧ runtime.numaNode = node := by
  unfold nicsOn
  constructor
  · intro h
    obtain ⟨⟨runtime, i⟩, hmem, rfl⟩ := List.mem_map.mp h
    obtain ⟨hzip, hnode⟩ := List.mem_filter.mp hmem
    exact ⟨runtime, List.mem_zipIdx_iff_getElem?.mp hzip, of_decide_eq_true hnode⟩
  · rintro ⟨runtime, hget, hnode⟩
    exact List.mem_map.mpr ⟨(runtime, nic), List.mem_filter.mpr
      ⟨List.mem_zipIdx_iff_getElem?.mpr hget, decide_eq_true hnode⟩, rfl⟩

/-- Every pick is a NIC, and it is on the node of the region if a NIC is. -/
theorem RcBackend.exists_pick (backend : RcBackend) (numa : NumaNode) (idx : ℕ) :
    ∃ nic, (NumaRoundRobin.fromRuntimes backend.runtimes).pick numa idx = .ok nic ∧
      nic < backend.nicCount ∧
      (numa.isValid = true → (∃ runtime ∈ backend.runtimes, runtime.numaNode = numa) →
        ∃ runtime, backend.runtimes[nic]? = some runtime ∧ runtime.numaNode = numa) := by
  have hfallback : ∃ nic,
      (NumaRoundRobin.fromRuntimes backend.runtimes).fallback.next idx = .ok nic ∧
      nic < backend.nicCount := by
    have hne : (NicGroup.mk (List.range backend.runtimes.length)).nicIndices ≠ [] := by
      intro hnil
      exact backend.nicCount_pos.ne' (List.range_eq_nil.mp hnil)
    obtain ⟨nic, hmem, hnext⟩ := NicGroup.exists_next hne idx
    exact ⟨nic, hnext, List.mem_range.mp hmem⟩
  unfold NumaRoundRobin.pick
  by_cases hvalid : numa.isValid = true
  · have hfind : (NumaRoundRobin.fromRuntimes backend.runtimes).groups.find? numa.id = _ :=
      find?_groupByNode backend.runtimes.zipIdx hvalid
    rw [if_pos hvalid, hfind]
    by_cases hnil : nicsOn backend.runtimes.zipIdx numa = []
    · rw [if_pos hnil]
      obtain ⟨nic, hnext, hlt⟩ := hfallback
      refine ⟨nic, hnext, hlt, ?_⟩
      rintro _ ⟨runtime, hmem, hnode⟩
      obtain ⟨i, hi⟩ := List.getElem?_of_mem hmem
      have hon := mem_nicsOn_zipIdx.mpr ⟨runtime, hi, hnode⟩
      rw [hnil] at hon
      cases hon
    · rw [if_neg hnil]
      have hne : (NicGroup.mk (nicsOn backend.runtimes.zipIdx numa)).nicIndices ≠ [] := hnil
      obtain ⟨nic, hmem, hnext⟩ := NicGroup.exists_next hne idx
      obtain ⟨runtime, hget, hnode⟩ := mem_nicsOn_zipIdx.mp hmem
      exact ⟨nic, hnext, (List.getElem?_eq_some_iff.mp hget).1, fun _ _ ↦ ⟨runtime, hget, hnode⟩⟩
  · rw [if_neg hvalid]
    obtain ⟨nic, hnext, hlt⟩ := hfallback
    exact ⟨nic, hnext, hlt, fun h ↦ absurd h hvalid⟩

/-! ### Registration -/

/-- What registering memory produces for a peer. -/
structure RegionDescriptor where
  addr : ℕ
  len : ℕ
  rkeys : List ℕ
deriving DecidableEq, Repr

/-- `[ptr, ptr + len)` lies inside the region. -/
def RegionDescriptor.contains (region : RegionDescriptor) (ptr len : ℕ) : Bool :=
  match checkedAdd ptr len with
  | none => false
  | some stop => region.addr ≤ ptr && stop ≤ saturatingAdd region.addr region.len

/-- The loop that registers memory with every NIC, from NIC `i` on; `reg i` is what the verbs
library answers for NIC `i`. -/
def registerNics (kind : String) (reg : ℕ → Except String MemoryRegion) :
    List (RcRuntime × ℕ) → TransferResult (List MemoryRegion)
  | [] => .ok []
  | (runtime, i) :: rest =>
    match reg i with
    | .error e =>
      .error (.backend (kind ++ " MR registration failed on nic=" ++ runtime.nicName ++ ": " ++ e))
    | .ok mr => do
      let mrs ← registerNics kind reg rest
      .ok (mr :: mrs)

/-- Register memory: what the call returns, and the map after it. -/
def RcBackend.registerWith (backend : RcBackend) (m : LocalMemoryMap) (addr len : Fin (2 ^ 64))
    (numa : NumaNode) (kind : String) (reg : ℕ → Except String MemoryRegion) :
    Exec (TransferResult RegionDescriptor × LocalMemoryMap) :=
  if len.val = 0 then .ok (.error (.invalidArgument "len must be non-zero"), m)
  else
    match registerNics kind reg backend.runtimes.zipIdx with
    | .error e => .ok (.error e, m)
    | .ok mrs => do
      match ← m.insert ⟨addr.val, len.val, numa, mrs, addr.isLt, len.isLt⟩ with
      | (.error e, m') => .ok (.error e, m')
      | (.ok (), m') => .ok (.ok ⟨addr.val, len.val, mrs.map MemoryRegion.rkey⟩, m')

/-- Drop a registration: what the call returns, and the map after it. -/
def RcBackend.unregister (m : LocalMemoryMap) (addr : ℕ) : TransferResult Unit × LocalMemoryMap :=
  match m.remove addr with
  | (none, m') => (.error (.memoryNotRegistered addr), m')
  | (some _, m') => (.ok (), m')

inductive RegistrationCall
  | register (addr len : Fin (2 ^ 64)) (numa : NumaNode) (kind : String)
    (reg : ℕ → Except String MemoryRegion)
  | unregister (addr : ℕ)

/-- The map after a call. -/
def RcBackend.execRegistration (backend : RcBackend) (m : LocalMemoryMap) :
    RegistrationCall → Exec LocalMemoryMap
  | .register addr len numa kind reg => do
    let (_, m') ← backend.registerWith m addr len numa kind reg
    .ok m'
  | .unregister addr => .ok (RcBackend.unregister m addr).2

/-- Every sequence of registrations on a new backend. -/
def registration (backend : RcBackend) : System LocalMemoryMap RegistrationCall where
  start := LocalMemoryMap.empty
  step := fun m call m' ↦ backend.execRegistration m call = .ok m'

/-- The map is exact, and every region has the keys of every NIC. -/
structure Complete (backend : RcBackend) (m : LocalMemoryMap) : Prop where
  exact : Exact m
  keys : ∀ e, m.Registered e → e.mrs.length = backend.nicCount

theorem registerNics_length {kind : String} {reg : ℕ → Except String MemoryRegion} :
    ∀ {nics : List (RcRuntime × ℕ)} {mrs : List MemoryRegion},
      registerNics kind reg nics = .ok mrs → mrs.length = nics.length := by
  intro nics
  induction nics with
  | nil =>
    intro mrs h
    cases h
    rfl
  | cons nic nics ih =>
    intro mrs h
    unfold registerNics at h
    split at h
    · cases h
    · obtain ⟨rest, hrest, heq⟩ := bind_eq_ok.mp h
      cases heq
      rw [List.length_cons, List.length_cons, ih hrest]

theorem Complete.register {backend : RcBackend} {m m' : LocalMemoryMap} (h : Complete backend m)
    {addr len : Fin (2 ^ 64)} {numa : NumaNode} {kind : String}
    {reg : ℕ → Except String MemoryRegion} {result : TransferResult RegionDescriptor}
    (hcall : backend.registerWith m addr len numa kind reg = .ok (result, m')) :
    Complete backend m' := by
  unfold RcBackend.registerWith at hcall
  split_ifs at hcall with hlen
  · cases hcall
    exact h
  · split at hcall
    · cases hcall
      exact h
    · rename_i mrs hmrs
      obtain ⟨inserted, m'', hinsert, hiff, hok, herr⟩ :=
        h.exact.insert ⟨addr.val, len.val, numa, mrs, addr.isLt, len.isLt⟩
      simp only [hinsert, ok_bind] at hcall
      have hm : m'' = m' := by
        split at hcall
        · rename_i heq
          cases heq
          cases hcall
          rfl
        · rename_i heq
          cases heq
          cases hcall
          rfl
      subst hm
      by_cases hresult : inserted = .ok ()
      · obtain ⟨hproper, hapart⟩ := hiff.mp hresult
        rw [hok hresult]
        refine ⟨h.exact.inserted hproper hapart, fun e he ↦ ?_⟩
        rcases Exact.registered_insert he with rfl | hold
        · exact (registerNics_length hmrs).trans List.length_zipIdx
        · exact h.keys e hold
      · rw [herr hresult]
        exact h

theorem RcBackend.unregister_snd (m : LocalMemoryMap) (addr : ℕ) :
    (RcBackend.unregister m addr).2 = (m.remove addr).2 := by
  unfold RcBackend.unregister
  split
  · rename_i heq
    rw [heq]
  · rename_i heq
    rw [heq]

theorem Complete.unregister {backend : RcBackend} {m : LocalMemoryMap} (h : Complete backend m)
    (addr : ℕ) : Complete backend (RcBackend.unregister m addr).2 := by
  rw [RcBackend.unregister_snd]
  exact ⟨h.exact.removed addr, fun e he ↦ h.keys e (Exact.registered_remove he)⟩

theorem registration_complete {backend : RcBackend} {calls : List RegistrationCall}
    {m : LocalMemoryMap} (hrun : (registration backend).Run calls m) : Complete backend m := by
  refine System.Steps.invariant hrun ⟨Exact.start, nofun⟩ fun m call m' _ h hstep ↦ ?_
  cases call with
  | register addr len numa kind reg =>
    obtain ⟨⟨result, m''⟩, hcall, heq⟩ := bind_eq_ok.mp hstep
    cases heq
    exact h.register hcall
  | unregister addr =>
    cases hstep
    exact h.unregister addr

namespace Scenario

/-- Two NICs on two nodes, with two queue pairs per peer. -/
def twoNics : RcBackend where
  runtimes := [⟨"mlx5_0", ⟨0⟩, .ethernet, [1], 0⟩, ⟨"mlx5_1", ⟨1⟩, .ethernet, [2], 0⟩]
  qpsPerPeer := 2
  runtimes_ne_nil := List.cons_ne_nil _ _
  qpsPerPeer_pos := Nat.two_pos

end Scenario

end Pegastore.Rdma
